/-
The digest rows are a map from epochs, laid out in epoch order.

The manifest of a snapshot is written from `epochDigests`, which takes the metadata
table as it comes, in key order.  An importer refuses a manifest whose epochs do not
ascend, so that order has to be the order of the epochs, and it is because the keys
are padded.  The table also holds the base height, under a key that is none of theirs.

Which rows there are is said by `record`, the effect of a call on a plain map from
epochs to rows; the table follows it call by call.
-/
import Lightwalletd.Proofs.Digests

namespace Lightwalletd

theorem epochDigestKey_lt_iff {i j : Nat} (hi : i ≤ u64Max) (hj : j ≤ u64Max) :
    epochDigestKey i < epochDigestKey j ↔ i < j := by
  refine ⟨fun h => ?_, epochDigestKey_lt hj⟩
  by_contra hge
  rcases Nat.lt_or_eq_of_le (Nat.le_of_not_lt hge) with hlt | rfl
  · exact lt_asymm h (epochDigestKey_lt hi hlt)
  · exact lt_irrefl _ h

namespace StoreOp

/-- A call that is about digests, or a truncation, with words for arguments. -/
def OnDigests : StoreOp → Prop
  | setEpochDigest index _ => index ≤ u64Max
  | reorg height => height ≤ u64Max
  | truncateFrom height => height ≤ u64Max
  | _ => False

/-- What a call makes of the rows, as a map from epochs. -/
def record (rows : Nat → Option Bytes) : StoreOp → Nat → Option Bytes
  | setEpochDigest index value => Function.update rows index (some value)
  | reorg height => fun index => if index < epochIndex (satAdd height 1) then rows index else none
  | truncateFrom height => fun index => if index < epochIndex height then rows index else none
  | _ => rows

end StoreOp

namespace Cache

def applyAll [Prost] (cache : Cache) (ops : List StoreOp) : Cache :=
  ops.foldl (fun cache op => (op.apply cache).1) cache

/-- The rows of `cache` are those of the map, as far as epochs go. -/
def Records (cache : Cache) (rows : Nat → Option Bytes) : Prop :=
  ∀ index, index ≤ u64Max → cache.epochDigest index = rows index

theorem Records.setEpochDigest {cache : Cache} {rows : Nat → Option Bytes}
    (h : cache.Records rows) {index : Nat} (hindex : index ≤ u64Max) (value : Bytes) :
    (cache.setEpochDigest index value).1.Records (Function.update rows index (some value)) := by
  intro i hi
  rw [setEpochDigest_epochDigest cache value hindex hi, Function.update_apply, h i hi]

/-- A truncation drops the rows of the epochs from its cut's on. -/
theorem Records.removeFrom {cache : Cache} {rows : Nat → Option Bytes} (hm : cache.MetaOk)
    (h : cache.Records rows) {cut : Nat} (hcut : cut ≤ u64Max) :
    (cache.removeFrom cut).1.MetaOk ∧
    (cache.removeFrom cut).1.Records fun index =>
      if index < epochIndex cut then rows index else none := by
  obtain ⟨base, hbase⟩ := hm.readable
  rw [removeFrom_eq hbase]
  refine ⟨hm.truncated hbase cut, ?_⟩
  intro index hindex
  rw [truncated_epochDigest cache base hcut hindex, h index hindex]
  simp only [epochLastHeight_lt_iff hcut]

theorem Records.apply [Prost] {cache : Cache} {rows : Nat → Option Bytes} (hm : cache.MetaOk)
    (h : cache.Records rows) {op : StoreOp} (hop : op.OnDigests) :
    (op.apply cache).1.MetaOk ∧ (op.apply cache).1.Records (op.record rows) := by
  cases op with
  | setEpochDigest index value => exact ⟨hm.setEpochDigest hop value, h.setEpochDigest hop value⟩
  | reorg height => exact h.removeFrom hm (Nat.min_le_right _ _)
  | truncateFrom height => exact h.removeFrom hm hop
  | add => exact hop.elim
  | addBatch => exact hop.elim
  | addDecodedBatch => exact hop.elim

theorem Records.applyAll [Prost] :
    ∀ (ops : List StoreOp) {cache : Cache} {rows : Nat → Option Bytes}, cache.MetaOk →
      cache.Records rows → (∀ op ∈ ops, op.OnDigests) →
      (cache.applyAll ops).MetaOk ∧
        (cache.applyAll ops).Records (ops.foldl StoreOp.record rows) := by
  intro ops
  induction ops with
  | nil =>
      intro cache rows hm h _
      exact ⟨hm, h⟩
  | cons op ops ih =>
      intro cache rows hm h hops
      obtain ⟨hm', h'⟩ := h.apply hm (hops op (by simp))
      exact ih hm' h' fun later hlater => hops later (List.mem_cons_of_mem _ hlater)

end Cache

/--
**Epoch digest keys order like numbers.**  A key parses back to its epoch, the keys of
words are ordered as the words are, and none of them is the base height's.  So
whatever digests have been stored and whatever has been truncated, the rows come out
in strictly ascending order of their epochs, each epoch once, and they are the ones
that were stored last and not dropped since.
-/
theorem epochDigests_ordered [Prost] :
    (∀ i, i ≤ u64Max → epochDigestIndex (epochDigestKey i) = some i) ∧
    (∀ i j, i ≤ u64Max → j ≤ u64Max → (epochDigestKey i < epochDigestKey j ↔ i < j)) ∧
    (∀ i, epochDigestKey i ≠ snapshotBaseHeightKey) ∧
    ∀ cache, StoreReachable cache → ∀ ops : List StoreOp, (∀ op ∈ ops, op.OnDigests) →
      ((cache.applyAll ops).epochDigests.map (·.1)).Pairwise (· < ·) ∧
      ((cache.applyAll ops).epochDigests.map (·.1)).Nodup ∧
      ∀ index row, (index, row) ∈ (cache.applyAll ops).epochDigests ↔
        index ≤ u64Max ∧ ops.foldl StoreOp.record cache.epochDigest index = some row := by
  refine ⟨fun i hi => epochDigestIndex_key hi, fun i j hi hj => epochDigestKey_lt_iff hi hj,
    epochDigestKey_ne_base, ?_⟩
  intro cache hcache ops hops
  obtain ⟨hm, hrows⟩ : (cache.applyAll ops).MetaOk ∧ _ :=
    Cache.Records.applyAll ops hcache.keeps.2 (fun _ _ => rfl) hops
  have hincreasing := hm.epochDigests_increasing
  refine ⟨hincreasing, hincreasing.imp Nat.ne_of_lt, ?_⟩
  intro index row
  constructor
  · intro hmem
    have hindex := (hm.mem_epochDigests.mp hmem).1
    refine ⟨hindex, ?_⟩
    rw [← hrows index hindex]
    exact (hm.epochDigest_eq_some hindex).mpr hmem
  · rintro ⟨hindex, hrow⟩
    refine (hm.epochDigest_eq_some hindex).mp ?_
    rw [hrows index hindex]
    exact hrow

/-- Epochs stored out of order, one of them twice, and a truncation into the last. -/
def shuffledDigests : List StoreOp :=
  [.setEpochDigest 10 [1], .setEpochDigest 9 [2], .setEpochDigest 100 [3], .setEpochDigest 9 [4],
    .truncateFrom 1000000]

theorem shuffledDigests_ordered :
    epochDigestKey 9 < epochDigestKey 10 ∧
    epochDigestIndex (epochDigestKey u64Max) = some u64Max ∧
    ((digestedStore.applyAll shuffledDigests).epochDigests.map (·.1)).Pairwise (· < ·) ∧
    (9, [4]) ∈ (digestedStore.applyAll shuffledDigests).epochDigests ∧
    (100, [3]) ∉ (digestedStore.applyAll shuffledDigests).epochDigests := by
  have hreach : StoreReachable digestedStore := digestedStore_reachable
  have hwords : 9 ≤ u64Max ∧ 10 ≤ u64Max := by decide
  have hops : ∀ op ∈ shuffledDigests, op.OnDigests := by
    simp [shuffledDigests, StoreOp.OnDigests, u64Max]
  obtain ⟨hparse, horder, -, hrun⟩ := epochDigests_ordered
  obtain ⟨hascending, -, hrows⟩ := hrun digestedStore hreach shuffledDigests hops
  refine ⟨(horder 9 10 hwords.1 hwords.2).mpr (by decide), hparse _ (Nat.le_refl _), hascending,
    ?_, ?_⟩
  · exact (hrows 9 [4]).mpr ⟨hwords.1, rfl⟩
  · intro hmem
    have hnone := ((hrows 100 [3]).mp hmem).2
    exact absurd hnone (by simp [shuffledDigests, StoreOp.record, epochIndex, epochSize])

end Lightwalletd
