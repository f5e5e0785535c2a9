/-
`GetMempoolTx`, `src/service/mempool.rs`, with the pool types of a request,
`src/filter.rs`.

A request is answered from the monitor's snapshot, or, if there is no monitor, from the
node.  Either answer is a stream: what it hands over, ended by at most one error.
-/
import Lightwalletd.Filter
import Lightwalletd.Service.Mempool

namespace Lightwalletd

/-! ### Pool types -/

/-- The values of `PoolType`. -/
def poolTypeInvalid : Int := 0

def poolTypeTransparent : Int := 1

def poolTypeSapling : Int := 2

def poolTypeOrchard : Int := 3

def poolTypeIronwood : Int := 4

/-- Most entries a `pool_types` filter may carry. -/
def maxPoolTypes : Nat := 16

def Pools.resolve (poolTypes : List Int) (transparent defaultsToShielded : Bool) : Pools where
  transparent := transparent
  sapling := defaultsToShielded || poolTypes.contains poolTypeSapling
  orchard := defaultsToShielded || poolTypes.contains poolTypeOrchard
  ironwood := defaultsToShielded || poolTypes.contains poolTypeIronwood

/-- The pools to keep for a `pool_types` list; an empty one means the shielded pools. -/
def Pools.fromPoolTypes (poolTypes : List Int) : Pools :=
  .resolve poolTypes (poolTypes.contains poolTypeTransparent) poolTypes.isEmpty

/-- Reject a `pool_types` list that is too long or contains the invalid type. -/
def validatePoolTypes (poolTypes : List Int) : Except Status Unit := do
  Except.ensure (poolTypes.length ≤ maxPoolTypes)
    ⟨.resourceExhausted, s!"more than {maxPoolTypes} pool types requested"⟩
  Except.ensure (poolTypeInvalid ∉ poolTypes) ⟨.invalidArgument, "invalid pool type requested"⟩

/-! ### The request -/

structure GetMempoolTxRequest where
  excludeTxidSuffixes : List Bytes
  poolTypes : List Int

/-- Max exclude-txid suffixes a single request may submit. -/
def maxExcludeTxidSuffixes : Nat := 10000

/-- Longest suffix a request may submit. -/
def maxSuffixLen : Nat := 32

/-- The loop over the suffixes, from the given place on. -/
def checkSuffixes : Nat → List Bytes → Except Status Unit
  | _, [] => .ok ()
  | index, suffix :: rest =>
      if suffix.length > maxSuffixLen then
        .error ⟨.invalidArgument, s!"exclude txid {index} is larger than 32 bytes"⟩
      else checkSuffixes (index + 1) rest

def checkMempoolRequest (request : GetMempoolTxRequest) : Except Status Unit := do
  Except.ensure (request.excludeTxidSuffixes.length ≤ maxExcludeTxidSuffixes)
    ⟨.resourceExhausted, s!"get_mempool_tx: more than {maxExcludeTxidSuffixes} exclude txid " ++
      "suffixes; narrow the request"⟩
  checkSuffixes 0 request.excludeTxidSuffixes
  validatePoolTypes request.poolTypes

/-- For each transaction, whether an exclude suffix removes it: one that matches it and
no other. -/
def excludedBySuffixes (wireTxids exclude : List Bytes) : List Bool :=
  let matchCounts := exclude.map fun suffix => wireTxids.countP fun txid => suffix.isSuffixOf txid
  wireTxids.map fun txid =>
    (exclude.zip matchCounts).any fun suffix => suffix.2 = 1 && suffix.1.isSuffixOf txid

/-- Reject a snapshot that is too old to serve. -/
def checkStale (snapshot : MempoolSnapshot) (now : Nat) : Except Status Unit :=
  Except.ensure (snapshot.isStale now = false) staleMempoolStatus

/-! ### From the snapshot -/

/-- The entries that are not excluded, pruned. -/
def mempoolTxFromSnapshot (snapshot : MempoolSnapshot) (exclude : List Bytes) (pools : Pools) :
    List CompactTx :=
  let wireTxids := snapshot.entries.map (·.wireTxid)
  (snapshot.entries.zip (excludedBySuffixes wireTxids exclude)).filterMap fun entry =>
    if entry.2 then none else some (filterTxToPools entry.1.compact pools)

/-! ### From the node -/

/-- What the node answers about its mempool. -/
structure MempoolNode where
  blockchainInfo : Except NodeError GetBlockchainInfo
  rawMempool : Except NodeError (List String)
  rawTransaction : String → Except NodeError GetRawTransaction

section

variable [Librustzcash]

/-- One transaction, fetched and parsed on the spot. -/
def mempoolTxFrom (node : MempoolNode) (index : Nat) (txid : String) : Except Status CompactTx := do
  let raw ← (node.rawTransaction txid).mapError NodeError.toStatus
  let bytes ← decodeHex raw.hex "mempool tx"
  (compactTxFromRaw index bytes).mapError fun error =>
    ⟨.internal, s!"parsing mempool tx: {error.display}"⟩

/-- The loop over the listed transactions, from the given index on, each with whether it
is excluded. -/
def mempoolTxsFrom (node : MempoolNode) (pools : Pools) :
    Nat → List (String × Bool) → List (Except Status CompactTx)
  | _, [] => []
  | index, (_, true) :: rest => mempoolTxsFrom node pools (index + 1) rest
  | index, (txid, false) :: rest =>
      match mempoolTxFrom node index txid with
      | .ok compact =>
          .ok (filterTxToPools compact pools) :: mempoolTxsFrom node pools (index + 1) rest
      | .error status => [.error status]

/-- `displayHexToWire`, tagging a failure. -/
def decodeMempoolTxid (txid : String) : Except Status Bytes :=
  (displayHexToWire txid).mapError fun error =>
    ⟨.internal, s!"decoding mempool txid: {hexErrorDisplay error}"⟩

/-- `GetMempoolTx` without a monitor: the node is asked for the mempool and each
transaction parsed on the spot. -/
def getMempoolTxFromNode (node : MempoolNode) (exclude : List Bytes) (poolTypes : List Int) :
    Except Status (List (Except Status CompactTx)) := do
  let txids ← node.rawMempool.mapError NodeError.toStatus
  return match txids.mapM decodeMempoolTxid with
    | .ok wireTxids => mempoolTxsFrom node (.fromPoolTypes poolTypes) 0
        (txids.zip (excludedBySuffixes wireTxids exclude))
    | .error status => [.error status]

/-- `GetMempoolTx`, with the monitor's current snapshot if there is a monitor. -/
def getMempoolTx (node : MempoolNode) (mempool : Option MempoolSnapshot)
    (request : GetMempoolTxRequest) (now : Nat) :
    Except Status (List (Except Status CompactTx)) := do
  checkMempoolRequest request
  match mempool with
  | none => getMempoolTxFromNode node request.excludeTxidSuffixes request.poolTypes
  | some snapshot => do
      checkStale snapshot now
      return (mempoolTxFromSnapshot snapshot request.excludeTxidSuffixes
        (.fromPoolTypes request.poolTypes)).map .ok

end

end Lightwalletd
