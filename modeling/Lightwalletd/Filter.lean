/-
Pruning a compact block to the requested value pools, `src/filter.rs`.
-/
import Lightwalletd.Proto

namespace Lightwalletd

/-- Which value pools to keep when pruning. -/
structure Pools where
  transparent : Bool
  sapling : Bool
  orchard : Bool
  ironwood : Bool
  deriving Repr, DecidableEq

/-- Strip from a single compact transaction the value pools not present in `pools`. -/
def filterTxToPools (tx : CompactTx) (pools : Pools) : CompactTx :=
  let tx := if !pools.sapling then { tx with spends := [], outputs := [] } else tx
  let tx := if !pools.orchard then { tx with actions := [] } else tx
  let tx := if !pools.ironwood then { tx with ironwoodActions := [] } else tx
  if !pools.transparent then { tx with vin := [], vout := [] } else tx

/-- Whether any component is left in a transaction. -/
def CompactTx.hasComponents (tx : CompactTx) : Bool :=
  !tx.spends.isEmpty || !tx.outputs.isEmpty || !tx.actions.isEmpty
    || !tx.ironwoodActions.isEmpty || !tx.vin.isEmpty || !tx.vout.isEmpty

/-- Prune every transaction to the requested value pools, then drop the ones left
with no components.  A block left without transactions is kept. -/
def filterBlockToPools (block : CompactBlock) (pools : Pools) : CompactBlock :=
  { block with vtx := (block.vtx.map (filterTxToPools · pools)).filter (·.hasComponents) }

def CompactOrchardAction.nullifierOnly (action : CompactOrchardAction) : CompactOrchardAction :=
  { action with cmx := [], ephemeralKey := [], ciphertext := [] }

/-- Reduce a compact block to shielded nullifiers only. -/
def nullifiersOnly (block : CompactBlock) : CompactBlock :=
  { block with
    chainMetadata := block.chainMetadata.map fun _ => {
      saplingCommitmentTreeSize := 0
      orchardCommitmentTreeSize := 0
      ironwoodCommitmentTreeSize := 0 }
    vtx := block.vtx.map fun tx => { tx with
      outputs := []
      vin := []
      vout := []
      actions := tx.actions.map (·.nullifierOnly)
      ironwoodActions := tx.ironwoodActions.map (·.nullifierOnly) } }

/-- Prune to the requested pools, then reduce what survives to nullifiers. -/
def filterBlockToPoolsNullifiersOnly (block : CompactBlock) (pools : Pools) : CompactBlock :=
  nullifiersOnly (filterBlockToPools block pools)

end Lightwalletd
