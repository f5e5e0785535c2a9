/-
The mock node, `src/darkside/node.rs`, over the node-plane reads of
`src/darkside/state.rs`.

Each call takes the lock once, so that it sees one state.  A wallet's request makes
several, and the control plane may come in between.
-/
import Lightwalletd.Darkside.State
import Lightwalletd.Service.Subtrees
import Lightwalletd.Service.Taddress

namespace Lightwalletd

namespace DarksideState

/-! ### The chain -/

/-- Index into the active chain of the presented tip, if anything has been applied. -/
def tipIndex (s : DarksideState) : Option Nat :=
  if s.latestHeight < s.startHeight then none
  else
    let index := (s.latestHeight - s.startHeight).toNat
    if index < s.active.length then some index else none

def blockCount (s : DarksideState) : Nat := s.latestHeight.toNat

section

variable [Sha256]

/-- The fields of the tip the service reads. -/
def blockchainInfo (s : DarksideState) : Except DarksideError GetBlockchainInfo :=
  match s.tipIndex.bind fun index => s.active[index]? with
  | some block => .ok ⟨s.chainName, s.latestHeight.toNat, block.displayHash⟩
  | none => .error (.invalid "getblockchaininfo requires at least one applied block")

end

/-! ### Transactions -/

section

variable [Librustzcash]

def txids (raws : List Bytes) : Except DarksideError (List String) :=
  raws.mapM fun raw => (txidDisplay raw).mapError .parse

/-- The txids of a staged block. -/
def blockTxids (raw : Bytes) : Except DarksideError (List String) := do
  let (_, txs) ← (splitBlock raw).mapError .parse
  txids txs

/-- The mock mempool: all transactions of every staged block, then every staged
transaction. -/
def rawMempool (s : DarksideState) : Except DarksideError (List String) := do
  let blocks ← s.stagedBlocks.mapM blockTxids
  let txs ← txids (s.stagedTxs.map (·.2))
  return blocks.flatten ++ txs

/-- The first of some transactions that has the txid, served at a height.  One that does
not parse ends the search. -/
def findTx (displayTxid : String) (height : Int) :
    List Bytes → Except DarksideError (Option GetRawTransaction)
  | [] => .ok none
  | raw :: rest => do
      let txid ← (txidDisplay raw).mapError .parse
      if txid = displayTxid then return some ⟨hexEncode raw, height⟩
      else findTx displayTxid height rest

/-- The search through the active blocks, from the given place on. -/
def findActive (displayTxid : String) (startHeight : Nat) :
    Nat → List ActiveBlock → Except DarksideError (Option GetRawTransaction)
  | _, [] => .ok none
  | offset, block :: rest => do
      match ← findTx displayTxid (asI64 (startHeight + offset)) block.txs with
      | some found => return some found
      | none => findActive displayTxid startHeight (offset + 1) rest

/-- The search through the staged blocks. -/
def findStaged (displayTxid : String) :
    List Bytes → Except DarksideError (Option GetRawTransaction)
  | [] => .ok none
  | raw :: rest => do
      let (_, txs) ← (splitBlock raw).mapError .parse
      let height ← rawBlockHeight raw
      match ← findTx displayTxid (asI64 height) txs with
      | some found => return some found
      | none => findStaged displayTxid rest

/-- The search through the transactions of the addresses. -/
def findAddrTx (displayTxid : String) :
    List (String × Bytes × Nat) → Except DarksideError (Option GetRawTransaction)
  | [] => .ok none
  | (_, raw, height) :: rest => do
      match ← findTx displayTxid (asI64 height) [raw] with
      | some found => return some found
      | none => findAddrTx displayTxid rest

/-- A transaction, mined or staged or put under an address. -/
def rawTransaction (s : DarksideState) (displayTxid : String) :
    Except DarksideError GetRawTransaction := do
  match ← findActive displayTxid s.startHeight 0 s.active with
  | some found => return found
  | none =>
      match ← findStaged displayTxid s.stagedBlocks with
      | some found => return found
      | none =>
          match ← findTx displayTxid 0 (s.stagedTxs.map (·.2)) with
          | some found => return found
          | none =>
              match ← findAddrTx displayTxid s.addrTxs with
              | some found => return found
              | none => .error (.invalid "-5: No information available about transaction")

/-- `sendrawtransaction`: the state with the transaction taken in, and its txid. -/
def sendRawTransaction (s : DarksideState) (hex : String) :
    DarksideState × Except NodeError String :=
  match hexDecode hex with
  | .error error => (s, .error (.hex error))
  | .ok raw =>
      match s.pushIncoming raw with
      | (s, .error error) => (s, .error error.toNodeError)
      | (s, .ok ()) => (s, ((txidDisplay raw).mapError .parse).mapError DarksideError.toNodeError)

/-! ### Addresses -/

end

def asU64 (n : Int) : Nat := (n % 2 ^ 64).toNat

/-- A staged output as the node reports it. -/
def nodeUtxo (reply : GetAddressUtxosReply) : AddressUtxo where
  address := reply.address
  txid := wireToDisplayHex reply.txid
  outputIndex := reply.index
  script := hexEncode reply.script
  satoshis := asU64 reply.valueZat
  height := reply.height

def addressUtxos (s : DarksideState) (addresses : List String) : List AddressUtxo :=
  (s.utxos.filter fun utxo => utxo.address ∈ addresses).map nodeUtxo

/-! ### Trees -/

/-- The tree state at a height or under a hash, told apart by the length of the id. -/
def treestate (s : DarksideState) (id : String) : Except DarksideError GetTreeState := do
  let found ←
    if id.utf8ByteSize < 64 then
      match parseU64 id.toList with
      | none => .error (.invalid "error parsing height as integer")
      | some height => .ok (s.treestates.find? fun state => state.height = height)
    else .ok (s.treestates.find? fun state => state.hash = id)
  match found with
  | none => .error (.invalid ("no TreeState for the given height or block hash; stage it with " ++
      "AddTreeState first"))
  | some state => .ok {
      hash := state.hash
      height := state.height
      time := state.time
      sapling := state.saplingTree
      orchard := state.orchardTree
      ironwood := state.ironwoodTree }

/-- The staged subtree roots of a protocol from an index on, `maxEntries` at most; zero
means all. -/
def subtreeRootsFor (s : DarksideState) (protocol : Int) (startIndex maxEntries : Nat) :
    List SubtreeRoot :=
  match s.subtreeRoots.get protocol with
  | none => []
  | some staged =>
      if startIndex < staged.startIndex then []
      else
        let offset := startIndex - staged.startIndex
        if offset ≥ staged.roots.length then []
        else
          let available := staged.roots.length - offset
          let limit := if maxEntries > 0 then min maxEntries available else available
          (staged.roots.drop offset).take limit

/-! ### The node -/

variable [Librustzcash] [Sha256]

/-- The mock node as the mempool methods see it. -/
def mempoolNode (s : DarksideState) : MempoolNode where
  blockchainInfo := s.blockchainInfo.mapError (·.toNodeError)
  rawMempool := s.rawMempool.mapError (·.toNodeError)
  rawTransaction txid := (s.rawTransaction txid).mapError (·.toNodeError)

omit [Librustzcash] [Sha256] in
/-- The mock node as the tree state methods see it. -/
def treestateNode (s : DarksideState) (id : String) : Except NodeError GetTreeState :=
  (s.treestate id).mapError (·.toNodeError)

end DarksideState

end Lightwalletd
