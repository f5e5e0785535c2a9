/-
The methods that pass an answer of the node on: `src/service/chain.rs`,
`src/service/treestate.rs` and `src/service/transactions.rs`.
-/
import Lightwalletd.Service.Address
import Lightwalletd.Service.Poll
import Lightwalletd.Service.Streamer

namespace Lightwalletd

/-! ### The tip -/

/-- `GetLatestBlock`, given what the node answers. -/
def getLatestBlock (blockchainInfo : Except NodeError GetBlockchainInfo) :
    Except Status BlockId := do
  let info ← blockchainInfo.mapError NodeError.toStatus
  let hash ← (displayHexToWire info.bestblockhash).mapError fun error =>
    ⟨.internal, s!"decoding best block hash: {hexErrorDisplay error}"⟩
  return ⟨info.blocks, hash⟩

/-! ### Tree states -/

/-- Response of `z_gettreestate`, with the final state of each pool. -/
structure GetTreeState where
  hash : String
  height : Nat
  time : Nat
  sapling : String
  orchard : String
  ironwood : String
  deriving Repr, DecidableEq

/-- The width of a block hash. -/
def hashLen : Nat := 32

/-- Resolve a `BlockId` to the id `z_gettreestate` expects: a decimal height, which takes
precedence, or a display-order block hash. -/
def treestateId (blockId : BlockId) : Except Status String :=
  if blockId.height = 0 ∧ blockId.hash = [] then
    .error ⟨.invalidArgument, "get_tree_state: must specify a block height or hash"⟩
  else if blockId.height > 0 then .ok (toString blockId.height)
  else if blockId.hash.length ≠ hashLen then
    .error ⟨.invalidArgument,
      s!"get_tree_state: block hash has invalid length: {blockId.hash.length}"⟩
  else .ok (wireToDisplayHex blockId.hash)

/-- Build the reply from the node's response and the network name.  A response without
any tree is rejected; an empty Ironwood tree alone is normal. -/
def nodeTreeStateToProto (network : String) (treeState : GetTreeState) : Except Status TreeState :=
  if treeState.sapling = "" ∧ treeState.orchard = "" ∧ treeState.ironwood = "" then
    .error ⟨.invalidArgument, s!"get_tree_state: no tree state at height {treeState.height} " ++
      "(before Sapling activation?)"⟩
  else .ok {
    network := network
    height := treeState.height
    hash := treeState.hash
    time := treeState.time
    saplingTree := treeState.sapling
    orchardTree := treeState.orchard
    ironwoodTree := treeState.ironwood }

/-- `GetTreeState`, for a node that knows tree states. -/
def getTreeState (network : String) (getTreestate : String → Except NodeError GetTreeState)
    (blockId : BlockId) : Except Status TreeState := do
  let id ← treestateId blockId
  let treeState ← (getTreestate id).mapError NodeError.toStatus
  nodeTreeStateToProto network treeState

def getLatestTreeState (network : String) (blockchainInfo : Except NodeError GetBlockchainInfo)
    (getTreestate : String → Except NodeError GetTreeState) : Except Status TreeState := do
  let info ← blockchainInfo.mapError NodeError.toStatus
  let treeState ← (getTreestate (toString info.blocks)).mapError NodeError.toStatus
  nodeTreeStateToProto network treeState

/-! ### Transactions -/

structure TxFilter where
  block : Option BlockId
  hash : Bytes
  deriving Repr, DecidableEq

structure SendResponse where
  errorCode : Int
  errorMessage : String
  deriving Repr, DecidableEq

/-- Map a `getrawtransaction` failure: an unknown txid is not found. -/
def transactionLookupToStatus (error : NodeError) : Status :=
  match error with
  | .rpc code message =>
      if code = rpcInvalidAddressOrKey then ⟨.notFound, s!"transaction not found: {message}"⟩
      else error.toStatus
  | _ => error.toStatus

/-- Map a node's height to that of a reply: one off the chain becomes the largest word. -/
def minedHeight (height : Int) : Nat := if height < 0 then u64Max else height.toNat

def getTransaction (getRawTransaction : String → Except NodeError GetRawTransaction)
    (filter : TxFilter) : Except Status RawTransaction := do
  if filter.hash = [] then
    if filter.block.any fun block => block.hash ≠ [] then
      .error ⟨.invalidArgument, "get_transaction: specify a txid, not a blockhash"⟩
    else .error ⟨.invalidArgument, "get_transaction: specify a txid"⟩
  else if filter.hash.length ≠ 32 then
    .error ⟨.invalidArgument,
      s!"get_transaction: transaction ID has invalid length: {filter.hash.length}"⟩
  else do
    let raw ← (getRawTransaction (wireToDisplayHex filter.hash)).mapError transactionLookupToStatus
    let data ← decodeHex raw.hex "transaction hex"
    return ⟨data, minedHeight raw.height⟩

/-- `SendTransaction`, given how the node takes a transaction in hex.  What the node says
against it is told in the reply. -/
def sendTransaction (sendRawTransaction : String → Except NodeError String) (data : Bytes) :
    Except Status SendResponse :=
  if data = [] then .error ⟨.invalidArgument, "send_transaction: bad transaction data"⟩
  else
    match sendRawTransaction (hexEncode data) with
    | .ok txid => .ok ⟨0, txid⟩
    | .error (.rpc code message) => .ok ⟨asI32 code, message⟩
    | .error error => .error error.toStatus

end Lightwalletd
