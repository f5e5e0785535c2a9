import Lightwalletd.Proofs.PlainRange
import Lightwalletd.Proofs.Commit
import Lightwalletd.Proofs.Repair
import Lightwalletd.Proofs.Digests
import Lightwalletd.Proofs.Publish
import Lightwalletd.Proofs.Mempool
import Lightwalletd.Proofs.Recovery
import Lightwalletd.Proofs.Bulkhead
import Lightwalletd.Proofs.Split
import Lightwalletd.Proofs.Served
import Lightwalletd.Proofs.Cover
import Lightwalletd.Proofs.EpochBody
import Lightwalletd.Proofs.Budget
import Lightwalletd.Proofs.Reported
import Lightwalletd.Proofs.Requests
import Lightwalletd.Proofs.Filter
import Lightwalletd.Proofs.StoredHash
import Lightwalletd.Proofs.Batch
import Lightwalletd.Proofs.Subtrees
import Lightwalletd.Proofs.Refresh
import Lightwalletd.Proofs.MempoolTx
import Lightwalletd.Proofs.Address
import Lightwalletd.Proofs.DigestRows
import Lightwalletd.Proofs.Synthetic
import Lightwalletd.Proofs.Reorg
import Lightwalletd.Proofs.Serving
import Lightwalletd.Proofs.Lifecycle
import Lightwalletd.Proofs.Synced
import Lightwalletd.Proofs.Poll
import Lightwalletd.Proofs.Download
import Lightwalletd.Proofs.Startup
import Lightwalletd.Lib.Keyed
import Lightwalletd.Proofs.Addressed
import Lightwalletd.Proofs.Treestates
