/-
What the pool filter lets through.

Pruning a transaction leaves it a component exactly if it had one in a pool that is
kept, so whether a transaction survives can be read off it before it is pruned.  The
filter is then a choice of transactions followed by a pruning of each, and from there
both the composition of two filters and the independence of the output from what was
pruned are facts about one transaction.

The reduction to nullifiers comes last and drops nothing, so a transaction that
survives for its outputs alone is still in the answer, with nothing left in it.
-/
import Lightwalletd.Filter

namespace Lightwalletd

def Pools.inter (p q : Pools) : Pools where
  transparent := p.transparent && q.transparent
  sapling := p.sapling && q.sapling
  orchard := p.orchard && q.orchard
  ironwood := p.ironwood && q.ironwood

/-- Whether a transaction has a component in one of `pools`. -/
def CompactTx.inPools (tx : CompactTx) (pools : Pools) : Bool :=
  pools.sapling && !(tx.spends.isEmpty && tx.outputs.isEmpty)
    || pools.orchard && !tx.actions.isEmpty
    || pools.ironwood && !tx.ironwoodActions.isEmpty
    || pools.transparent && !(tx.vin.isEmpty && tx.vout.isEmpty)

/-- Everything of a block but its transactions. -/
structure CompactBlock.SameHeader (a b : CompactBlock) : Prop where
  height : a.height = b.height
  hash : a.hash = b.hash
  prevHash : a.prevHash = b.prevHash
  time : a.time = b.time
  header : a.header = b.header

/-- Two transactions agree on their index, txid and fee, and on what they have in
`pools`. -/
structure CompactTx.SameIn (pools : Pools) (a b : CompactTx) : Prop where
  index : a.index = b.index
  txid : a.txid = b.txid
  fee : a.fee = b.fee
  sapling : pools.sapling = true → a.spends = b.spends ∧ a.outputs = b.outputs
  orchard : pools.orchard = true → a.actions = b.actions
  ironwood : pools.ironwood = true → a.ironwoodActions = b.ironwoodActions
  transparent : pools.transparent = true → a.vin = b.vin ∧ a.vout = b.vout

/-- Two transactions agree on their index, txid and fee, and on the nullifiers they
have in `pools`. -/
structure CompactTx.SameNullifiers (pools : Pools) (a b : CompactTx) : Prop where
  index : a.index = b.index
  txid : a.txid = b.txid
  fee : a.fee = b.fee
  sapling : pools.sapling = true → a.spends.map (·.nf) = b.spends.map (·.nf)
  orchard : pools.orchard = true →
    a.actions.map (·.nullifier) = b.actions.map (·.nullifier)
  ironwood : pools.ironwood = true →
    a.ironwoodActions.map (·.nullifier) = b.ironwoodActions.map (·.nullifier)

/-! ### One transaction

Both filters work field by field: they keep a component, or what it reveals, or nothing.
-/

section

variable (tx : CompactTx) (p q : Pools)

theorem filterTxToPools_eq : filterTxToPools tx p = { tx with
    spends := if p.sapling then tx.spends else []
    outputs := if p.sapling then tx.outputs else []
    actions := if p.orchard then tx.actions else []
    ironwoodActions := if p.ironwood then tx.ironwoodActions else []
    vin := if p.transparent then tx.vin else []
    vout := if p.transparent then tx.vout else [] } := by
  rcases p with ⟨transparent, sapling, orchard, ironwood⟩
  cases transparent <;> cases sapling <;> cases orchard <;> cases ironwood <;> rfl

/-- What is left of a transaction has a component if the transaction had one in a pool
that is kept. -/
theorem filterTxToPools_hasComponents :
    (filterTxToPools tx p).hasComponents = tx.inPools p := by
  rw [filterTxToPools_eq]
  rcases p with ⟨transparent, sapling, orchard, ironwood⟩
  cases transparent <;> cases sapling <;> cases orchard <;> cases ironwood <;>
    simp [CompactTx.hasComponents, CompactTx.inPools, Bool.or_assoc]

theorem filterTxToPools_twice :
    filterTxToPools (filterTxToPools tx p) q = filterTxToPools tx (p.inter q) := by
  simp only [filterTxToPools_eq, Pools.inter]
  rcases p with ⟨transparent, sapling, orchard, ironwood⟩
  cases transparent <;> cases sapling <;> cases orchard <;> cases ironwood <;> simp

theorem CompactTx.inPools_inter :
    tx.inPools (p.inter q) = (tx.inPools p && (filterTxToPools tx p).inPools q) := by
  rw [← filterTxToPools_hasComponents (filterTxToPools tx p), filterTxToPools_twice,
    filterTxToPools_hasComponents]
  rw [Bool.eq_iff_iff, Bool.and_eq_true, iff_and_self]
  simp only [inPools, Pools.inter, Bool.or_eq_true, Bool.and_eq_true]
  rintro (((h | h) | h) | h)
  · exact Or.inl (Or.inl (Or.inl ⟨h.1.1, h.2⟩))
  · exact Or.inl (Or.inl (Or.inr ⟨h.1.1, h.2⟩))
  · exact Or.inl (Or.inr ⟨h.1.1, h.2⟩)
  · exact Or.inr ⟨h.1.1, h.2⟩

end

variable {p : Pools} {a b : CompactTx}

theorem CompactTx.SameIn.filterTxToPools (h : a.SameIn p b) :
    filterTxToPools a p = filterTxToPools b p := by
  rw [filterTxToPools_eq, filterTxToPools_eq, CompactTx.mk.injEq]
  refine ⟨h.index, h.txid, h.fee, ?_, ?_, ?_, ?_, ?_, ?_⟩
  · exact if_ctx_congr Iff.rfl (fun hp => (h.sapling hp).1) fun _ => rfl
  · exact if_ctx_congr Iff.rfl (fun hp => (h.sapling hp).2) fun _ => rfl
  · exact if_ctx_congr Iff.rfl h.orchard fun _ => rfl
  · exact if_ctx_congr Iff.rfl (fun hp => (h.transparent hp).1) fun _ => rfl
  · exact if_ctx_congr Iff.rfl (fun hp => (h.transparent hp).2) fun _ => rfl
  · exact if_ctx_congr Iff.rfl h.ironwood fun _ => rfl

/-- A transaction's part in `nullifiersOnly`. -/
def CompactTx.nullifiersOnly (tx : CompactTx) : CompactTx :=
  { tx with
    outputs := []
    vin := []
    vout := []
    actions := tx.actions.map (·.nullifierOnly)
    ironwoodActions := tx.ironwoodActions.map (·.nullifierOnly) }

private theorem spends_eq_of_nf {s t : List CompactSaplingSpend} (h : s.map (·.nf) = t.map (·.nf)) :
    s = t := by
  refine List.map_injective_iff.mpr ?_ h
  rintro ⟨_⟩ ⟨_⟩ rfl
  rfl

theorem nullifierOnly_of_nullifier {s t : List CompactOrchardAction}
    (h : s.map (·.nullifier) = t.map (·.nullifier)) :
    s.map (·.nullifierOnly) = t.map (·.nullifierOnly) := by
  have hfactor : ∀ actions : List CompactOrchardAction, actions.map (·.nullifierOnly)
      = (actions.map (·.nullifier)).map fun nullifier => { nullifier := nullifier } := by
    intro actions
    rw [List.map_map]
    rfl
  rw [hfactor, hfactor, h]

theorem CompactTx.SameNullifiers.reduced (h : a.SameNullifiers p b) :
    (filterTxToPools a p).nullifiersOnly = (filterTxToPools b p).nullifiersOnly := by
  rw [filterTxToPools_eq, filterTxToPools_eq]
  unfold CompactTx.nullifiersOnly
  rw [CompactTx.mk.injEq]
  refine ⟨h.index, h.txid, h.fee, ?_, rfl, ?_, rfl, rfl, ?_⟩
  · exact if_ctx_congr Iff.rfl (fun hp => spends_eq_of_nf (h.sapling hp)) fun _ => rfl
  · by_cases hp : p.orchard = true
    · simp only [if_pos hp]
      exact nullifierOnly_of_nullifier (h.orchard hp)
    · simp only [if_neg hp]
  · by_cases hp : p.ironwood = true
    · simp only [if_pos hp]
      exact nullifierOnly_of_nullifier (h.ironwood hp)
    · simp only [if_neg hp]

/-! ### A whole block

A transaction of which nothing is left is dropped, and the others keep their order.
-/

/-- The transactions that survive are those with a component in a pool that is kept. -/
theorem filterBlockToPools_vtx (block : CompactBlock) (p : Pools) :
    (filterBlockToPools block p).vtx
      = (block.vtx.filter (·.inPools p)).map (filterTxToPools · p) := by
  show (block.vtx.map (filterTxToPools · p)).filter (·.hasComponents) = _
  rw [List.filter_map]
  congr 2
  funext tx
  exact filterTxToPools_hasComponents tx p

theorem filterBlockToPools_twice (block : CompactBlock) (p q : Pools) :
    filterBlockToPools (filterBlockToPools block p) q = filterBlockToPools block (p.inter q) := by
  have hvtx : (filterBlockToPools (filterBlockToPools block p) q).vtx
      = (filterBlockToPools block (p.inter q)).vtx := by
    simp only [filterBlockToPools_vtx, List.filter_map, List.map_map, List.filter_filter]
    congr 1
    · funext tx
      exact filterTxToPools_twice tx p q
    · congr 1
      funext tx
      rw [CompactTx.inPools_inter, Bool.and_comm]
      rfl
  exact CompactBlock.mk.injEq .. ▸ ⟨rfl, rfl, rfl, rfl, rfl, hvtx, rfl⟩

theorem map_eq_of_forall₂ {α β : Type} {R : α → α → Prop} {f : α → β}
    (hf : ∀ a b, R a b → f a = f b) {s t : List α} (h : List.Forall₂ R s t) :
    s.map f = t.map f := by
  induction h with
  | nil => rfl
  | cons hab _ ih => rw [List.map_cons, List.map_cons, hf _ _ hab, ih]

/--
**The filter leaks nothing and composes.**  Filtering twice keeps the pools in both.
The answer depends on the block's header and metadata and, of the transactions with a
component in a pool that is kept, on what they have there: those are the ones that
survive, in their order, pruned but for their index, txid and fee.  Reduced to
nullifiers, it depends on no more of those components than their nullifiers, and of the
metadata only on whether there is any.
-/
theorem filterBlockToPools_private (block : CompactBlock) (p : Pools) :
    (∀ q, filterBlockToPools (filterBlockToPools block p) q
      = filterBlockToPools block (p.inter q)) ∧
    (∀ other : CompactBlock, block.SameHeader other →
      block.chainMetadata = other.chainMetadata →
      List.Forall₂ (CompactTx.SameIn p) (block.vtx.filter (·.inPools p))
        (other.vtx.filter (·.inPools p)) →
      filterBlockToPools block p = filterBlockToPools other p) ∧
    ((filterBlockToPools block p).vtx
        = (block.vtx.filter (·.inPools p)).map (filterTxToPools · p) ∧
      ∀ tx, (filterTxToPools tx p).index = tx.index ∧ (filterTxToPools tx p).txid = tx.txid ∧
        (filterTxToPools tx p).fee = tx.fee) ∧
    ∀ other : CompactBlock, block.SameHeader other →
      block.chainMetadata.isSome = other.chainMetadata.isSome →
      List.Forall₂ (CompactTx.SameNullifiers p) (block.vtx.filter (·.inPools p))
        (other.vtx.filter (·.inPools p)) →
      filterBlockToPoolsNullifiersOnly block p = filterBlockToPoolsNullifiersOnly other p := by
  refine ⟨filterBlockToPools_twice block p, fun other hheader hmeta hvtx => ?_,
    ⟨filterBlockToPools_vtx block p, fun tx => ?_⟩, fun other hheader hmeta hvtx => ?_⟩
  · have hsame : (filterBlockToPools block p).vtx = (filterBlockToPools other p).vtx := by
      rw [filterBlockToPools_vtx, filterBlockToPools_vtx]
      exact map_eq_of_forall₂ (fun a b h => h.filterTxToPools) hvtx
    exact CompactBlock.mk.injEq .. ▸ ⟨hheader.height, hheader.hash, hheader.prevHash,
      hheader.time, hheader.header, hsame, hmeta⟩
  · rw [filterTxToPools_eq]
    exact ⟨rfl, rfl, rfl⟩
  · have hsame : (filterBlockToPoolsNullifiersOnly block p).vtx
        = (filterBlockToPoolsNullifiersOnly other p).vtx := by
      show (filterBlockToPools block p).vtx.map CompactTx.nullifiersOnly
        = (filterBlockToPools other p).vtx.map CompactTx.nullifiersOnly
      rw [filterBlockToPools_vtx, filterBlockToPools_vtx, List.map_map, List.map_map]
      exact map_eq_of_forall₂ (fun a b h => h.reduced) hvtx
    have hnone : (filterBlockToPoolsNullifiersOnly block p).chainMetadata
        = (filterBlockToPoolsNullifiersOnly other p).chainMetadata := by
      show block.chainMetadata.map _ = other.chainMetadata.map _
      rcases hblock : block.chainMetadata with _ | sizes <;>
        rcases hother : other.chainMetadata with _ | sizes' <;>
        simp_all
    exact CompactBlock.mk.injEq .. ▸ ⟨hheader.height, hheader.hash, hheader.prevHash,
      hheader.time, hheader.header, hsame, hnone⟩

end Lightwalletd
