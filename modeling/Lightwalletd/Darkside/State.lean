/-
The mutable chain of the mock node, `src/darkside/state.rs`.

An operation returns the state it leaves together with its result, since one that
fails part-way leaves what it has changed until then.  Tree sizes are 32-bit words
that wrap.
-/
import Lightwalletd.Darkside.Block
import Lightwalletd.Lib.Table

namespace Lightwalletd

/-! ### The state -/

/-- Subtree roots staged for one shielded protocol. -/
structure StagedSubtreeRoots where
  startIndex : Nat
  roots : List SubtreeRoot
  deriving Repr, DecidableEq

/-- The parameters of a reset. -/
structure DarksideMetaState where
  saplingActivation : Int
  branchId : String
  chainName : String
  startSizes : TreeSizes

/-- The state the mock node serves and the control service edits. -/
structure DarksideState where
  wasReset : Bool
  startHeight : Nat
  startSizes : TreeSizes
  branchId : String
  chainName : String
  latestHeight : Int
  active : List ActiveBlock
  stagedBlocks : List Bytes
  stagedTxs : List (Nat × Bytes)
  incomingTxs : List Bytes
  utxos : List GetAddressUtxosReply
  addrTxs : List (String × Bytes × Nat)
  treestates : List TreeState
  subtreeRoots : Table Int StagedSubtreeRoots

namespace DarksideState

/-- A state nobody has reset yet. -/
def new : DarksideState where
  wasReset := false
  startHeight := 0
  startSizes := 0
  branchId := ""
  chainName := "main"
  latestHeight := -1
  active := []
  stagedBlocks := []
  stagedTxs := []
  incomingTxs := []
  utxos := []
  addrTxs := []
  treestates := []
  subtreeRoots := Table.empty

/-! ### Staging -/

/-- Revert all state to empty and seed the chain parameters. -/
def reset (_ : DarksideState) (info : DarksideMetaState) : DarksideState :=
  { new with
    wasReset := true
    startHeight := info.saplingActivation.toNat
    startSizes := info.startSizes
    branchId := info.branchId
    chainName := info.chainName }

section

variable [Librustzcash]

/-- Stage one raw block, after checking that it parses and is not too low. -/
def stageBlock (s : DarksideState) (raw : Bytes) : DarksideState × Except DarksideError Unit :=
  if !s.wasReset then (s, .error .notReset)
  else match rawBlockHeight raw with
    | .error e => (s, .error e)
    | .ok height =>
        if height < s.startHeight then
          (s, .error (.invalid (s!"block height {height} is less than sapling activation height " ++
            s!"{s.startHeight}")))
        else ({ s with stagedBlocks := s.stagedBlocks ++ [raw] }, .ok ())

/-- The loop of `stageBlocksCreate`. -/
def stageSynthetic [Sha256] (nonce : Int) :
    Nat → Int → DarksideState → DarksideState × Except DarksideError Unit
  | 0, _, s => (s, .ok ())
  | count + 1, height, s =>
      match syntheticBlock height nonce with
      | .error e => (s, .error e)
      | .ok raw =>
          match s.stageBlock raw with
          | (s, .error e) => (s, .error e)
          | (s, .ok ()) => stageSynthetic nonce count (wrapI32 (height + 1)) s

/-- Stage `count` synthetic empty blocks at consecutive heights. -/
def stageBlocksCreate [Sha256] (s : DarksideState) (height nonce count : Int) :
    DarksideState × Except DarksideError Unit :=
  if !s.wasReset then (s, .error .notReset)
  else stageSynthetic nonce count.toNat height s

/-- Stage one raw transaction to be mined into the block at `height`. -/
def stageTransaction (s : DarksideState) (height : Nat) (raw : Bytes) :
    DarksideState × Except DarksideError Unit :=
  if !s.wasReset then (s, .error .notReset)
  else match shieldedCounts raw with
    | .error e => (s, .error (.parse e))
    | .ok _ => ({ s with stagedTxs := s.stagedTxs ++ [(height, raw)] }, .ok ())

/-! ### Applying what is staged

The loops return the state they have reached along with their outcome, since the source
leaves it as it is when it fails.
-/

/-- Add up the note commitments of some transactions on top of `sizes`. -/
def addCounts : TreeSizes → List Bytes → Except ParseError TreeSizes
  | sizes, [] => .ok sizes
  | sizes, tx :: rest => do
      let counts ← shieldedCounts tx
      addCounts (sizes + counts) rest

/-- The sizes a block at `offset` starts from: those of the block below it, or the
start sizes. -/
def sizesBelow (s : DarksideState) (offset : Nat) : TreeSizes :=
  if offset > 0 then ((s.active[offset - 1]?).map (·.sizes)).getD 0 else s.startSizes

/-- Parse a raw block, check that it connects without a gap, compute its tree sizes and
append it, dropping the block it replaces and everything above. -/
def addBlockActive (s : DarksideState) (raw : Bytes) : DarksideState × Except DarksideError Unit :=
  match splitBlock raw with
  | .error e => (s, .error (.parse e))
  | .ok (_, []) => (s, .error (.invalid "block has no transactions"))
  | .ok (header, coinbase :: rest) =>
      match coinbaseHeightFromRaw coinbase with
      | .error e => (s, .error (.parse e))
      | .ok height =>
          if height > s.startHeight + s.active.length then
            (s, .error (.invalid
              s!"adding block at height {height} would create a gap in the blockchain"))
          else if height < s.startHeight then
            (s, .error (.invalid (s!"adding block at height {height} is lower than sapling " ++
              s!"activation height {s.startHeight}")))
          else
            let offset := height - s.startHeight
            match addCounts (s.sizesBelow offset) (coinbase :: rest) with
            | .error e => (s, .error (.parse e))
            | .ok sizes =>
                let block : ActiveBlock := ⟨header, coinbase :: rest, sizes⟩
                ({ s with active := s.active.take offset ++ [block] }, .ok ())

/-- The loop of `applyStagedBlocks`. -/
def addBlocks : DarksideState → List Bytes → DarksideState × Except DarksideError Unit
  | s, [] => (s, .ok ())
  | s, raw :: rest =>
      match s.addBlockActive raw with
      | (s, .error e) => (s, .error e)
      | (s, .ok ()) => addBlocks s rest

/-- Merge every staged block into the active chain, which must then have a block. -/
def applyStagedBlocks (s : DarksideState) : DarksideState × Except DarksideError Unit :=
  match addBlocks { s with stagedBlocks := [] } s.stagedBlocks with
  | (s, .error e) => (s, .error e)
  | (s, .ok ()) =>
      if s.active.isEmpty then
        (s, .error (.invalid "no active blocks after applying staged blocks"))
      else (s, .ok ())

/-- Put a transaction into a block and perturb its header, so that its hash changes. -/
def mineInto (raw : Bytes) (block : ActiveBlock) : ActiveBlock :=
  { block with
    txs := block.txs ++ [raw]
    header := block.header.modify 68 (· + 1) }

/-- Grow the tree sizes of every block from `index` on. -/
def growFrom (index : Nat) (counts : TreeSizes) (active : List ActiveBlock) : List ActiveBlock :=
  active.take index ++ (active.drop index).map fun block =>
    { block with sizes := block.sizes + counts }

/-- Mine one staged transaction into its block. -/
def mineTransaction (s : DarksideState) (height : Nat) (raw : Bytes) :
    DarksideState × Except DarksideError Unit :=
  if height < s.startHeight then (s, .error (.invalid "transaction height too low"))
  else
    let index := height - s.startHeight
    if index ≥ s.active.length then (s, .error (.invalid "transaction height too high"))
    else match shieldedCounts raw with
      | .error e => (s, .error (.parse e))
      | .ok counts =>
          ({ s with active := growFrom index counts (s.active.modify index (mineInto raw)) },
            .ok ())

/-- The loop of `mineStagedTransactions`. -/
def mineTransactions : DarksideState → List (Nat × Bytes) →
    DarksideState × Except DarksideError Unit
  | s, [] => (s, .ok ())
  | s, (height, raw) :: rest =>
      match s.mineTransaction height raw with
      | (s, .error e) => (s, .error e)
      | (s, .ok ()) => mineTransactions s rest

/-- Mine each staged transaction into its block. -/
def mineStagedTransactions (s : DarksideState) : DarksideState × Except DarksideError Unit :=
  mineTransactions { s with stagedTxs := [] } s.stagedTxs

/-- Merge the staged blocks, mine the staged transactions, link the chain again and set
the presented tip. -/
def applyStaged [Sha256] (s : DarksideState) (targetHeight : Int) :
    DarksideState × Except DarksideError Unit :=
  if !s.wasReset then (s, .error .notReset)
  else if targetHeight < s.startHeight then
    (s, .error (.invalid (s!"height {targetHeight} is less than sapling activation height " ++
      s!"{s.startHeight}")))
  else match s.applyStagedBlocks with
    | (s, .error e) => (s, .error e)
    | (s, .ok ()) =>
        match s.mineStagedTransactions with
        | (s, .error e) => (s, .error e)
        | (s, .ok ()) =>
            let active := setPrevhash none s.active
            let maxHeight : Int := s.startHeight + active.length - 1
            ({ s with active := active, latestHeight := min targetHeight maxHeight }, .ok ())

/-! ### The other operations -/

/-- Record a transaction received from a wallet. -/
def pushIncoming (s : DarksideState) (raw : Bytes) : DarksideState × Except DarksideError Unit :=
  match txidDisplay raw with
  | .error e => (s, .error (.parse e))
  | .ok _ => ({ s with incomingTxs := s.incomingTxs ++ [raw] }, .ok ())

end

/-- Stage a tree state, in place of any other at its height. -/
def addTreestate (s : DarksideState) (treeState : TreeState) :
    DarksideState × Except DarksideError Unit :=
  if !s.wasReset then (s, .error .notReset)
  else
    let others := s.treestates.filter fun existing => existing.height ≠ treeState.height
    ({ s with treestates := others ++ [treeState] }, .ok ())

/-- Drop the tree states at a height, or under a hash in either byte order. -/
def removeTreestate (s : DarksideState) (height : Nat) (wireHash : Bytes) : DarksideState :=
  if height > 0 then
    { s with treestates := s.treestates.filter fun treeState => treeState.height ≠ height }
  else
    let forward := hexEncode wireHash
    let reversed := wireToDisplayHex wireHash
    { s with treestates := s.treestates.filter fun treeState =>
        treeState.hash ≠ forward ∧ treeState.hash ≠ reversed }

/-- An operation of the control plane. -/
inductive ControlOp
  | reset (info : DarksideMetaState)
  | stageBlock (raw : Bytes)
  | stageBlocksCreate (height nonce count : Int)
  | stageTransaction (height : Nat) (raw : Bytes)
  | applyStaged (targetHeight : Int)
  | pushIncoming (raw : Bytes)
  | clearIncoming
  | addUtxo (reply : GetAddressUtxosReply)
  | clearUtxos
  | addAddrTx (address : String) (raw : Bytes) (height : Nat)
  | clearAddrTxs
  | addTreestate (treeState : TreeState)
  | removeTreestate (height : Nat) (wireHash : Bytes)
  | clearTreestates
  | setSubtreeRoots (protocol : Int) (roots : StagedSubtreeRoots)

def control [Librustzcash] [Sha256] (s : DarksideState) :
    ControlOp → DarksideState × Except DarksideError Unit
  | .reset info => (s.reset info, .ok ())
  | .stageBlock raw => s.stageBlock raw
  | .stageBlocksCreate height nonce count => s.stageBlocksCreate height nonce count
  | .stageTransaction height raw => s.stageTransaction height raw
  | .applyStaged targetHeight => s.applyStaged targetHeight
  | .pushIncoming raw => s.pushIncoming raw
  | .clearIncoming => ({ s with incomingTxs := [] }, .ok ())
  | .addUtxo reply => ({ s with utxos := s.utxos ++ [reply] }, .ok ())
  | .clearUtxos => ({ s with utxos := [] }, .ok ())
  | .addAddrTx address raw height =>
      ({ s with addrTxs := s.addrTxs ++ [(address, raw, height)] }, .ok ())
  | .clearAddrTxs => ({ s with addrTxs := [] }, .ok ())
  | .addTreestate treeState => s.addTreestate treeState
  | .removeTreestate height wireHash => (s.removeTreestate height wireHash, .ok ())
  | .clearTreestates => ({ s with treestates := [] }, .ok ())
  | .setSubtreeRoots protocol roots =>
      ({ s with subtreeRoots := s.subtreeRoots.insert protocol roots }, .ok ())

/-! ### What the mock node serves -/

/-- The block at `height`, if it is presented. -/
def blockAt (s : DarksideState) (height : Nat) : Except DarksideError ActiveBlock :=
  if s.active.isEmpty ∨ s.latestHeight < 0 ∨ (height : Int) > s.latestHeight then
    .error (.invalid s!"-8: block {height} not found")
  else if height < s.startHeight then
    .error (.invalid
      s!"getblock: requesting height {height} is less than sapling activation height")
  else match s.active[height - s.startHeight]? with
    | some block => .ok block
    | none => .error (.invalid s!"-8: block {height} not found")

variable [Sha256]

/-- The verbose block, without a list of txids. -/
def blockVerbose (s : DarksideState) (height : Nat) : Except DarksideError GetBlockVerbose := do
  let block ← s.blockAt height
  return ⟨block.displayHash, [], block.sizes.1.toNat, block.sizes.2.1.toNat,
    block.sizes.2.2.toNat⟩

/-- The first active block under a hash, laid out. -/
def blockRawByHash (s : DarksideState) (displayHash : String) : Except DarksideError Bytes :=
  match s.active.find? (·.displayHash = displayHash) with
  | some block => .ok block.toRaw
  | none => .error (.invalid s!"getblock: hash {displayHash} not found")

/-- The mock node as the fetch sees it. -/
def node (s : DarksideState) (height : Nat) : BlockReplies where
  verbose := (s.blockVerbose height).mapError (·.toNodeError)
  raw hash := (s.blockRawByHash hash).mapError (·.toNodeError)
  parseTask := none

end DarksideState

end Lightwalletd
