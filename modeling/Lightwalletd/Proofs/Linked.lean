/-
A cache whose neighbouring blocks belong together.

`Chained R` is a stored segment of blocks in which every two neighbouring rows
decode to blocks related by `R`.  With `Follows`, each block naming the hash of the
one below, that is what the ingestor keeps up; with `Extends`, the commitment trees
growing by what each block carries as well, it is what a snapshot is verified for.

A truncation keeps a prefix of the rows and so keeps any such chain.  An append
keeps it if the new blocks are chained among themselves and the first of them onto
the tip.
-/
import Lightwalletd.Proofs.Store
import Lightwalletd.Snapshot.Import

namespace Lightwalletd

/-- `later` names `earlier` as its predecessor. -/
def Follows (earlier later : CompactBlock) : Prop := later.prevHash = earlier.hash

/-- Every pool's tree grows by exactly what `later` carries. -/
def Grows (earlier later : CompactBlock) : Prop :=
  ∃ before after, earlier.chainMetadata = some before ∧ later.chainMetadata = some after ∧
    after.saplingCommitmentTreeSize
      = before.saplingCommitmentTreeSize + later.carried (·.outputs.length) ∧
    after.orchardCommitmentTreeSize
      = before.orchardCommitmentTreeSize + later.carried (·.actions.length) ∧
    after.ironwoodCommitmentTreeSize
      = before.ironwoodCommitmentTreeSize + later.carried (·.ironwoodActions.length)

/-- Both. -/
def Extends (earlier later : CompactBlock) : Prop := Follows earlier later ∧ Grows earlier later

namespace Cache

variable [Prost] {R : CompactBlock → CompactBlock → Prop} {cache cache' : Cache}

/-- The blocks of two rows are related. -/
def RowRel (R : CompactBlock → CompactBlock → Prop) (lower upper : Nat × Bytes) : Prop :=
  ∀ earlier later, Prost.decode lower.2 = .ok earlier → Prost.decode upper.2 = .ok later →
    R earlier later

/-- A stored segment with every two neighbouring blocks related by `R`. -/
structure Chained (R : CompactBlock → CompactBlock → Prop) (cache : Cache) : Prop
    extends Stored cache where
  chained : cache.blocks.rows.IsChain (RowRel R)

/-- Contiguous heights, rows under their own heights, every block linked to the one
below. -/
def Good (cache : Cache) : Prop := Chained Follows cache

theorem chained_empty : Chained R Cache.empty :=
  ⟨stored_empty, List.isChain_nil⟩

theorem Chained.mono {S : CompactBlock → CompactBlock → Prop} (h : Chained R cache)
    (hRS : ∀ a b, R a b → S a b) : Chained S cache :=
  ⟨h.toStored, h.chained.imp fun _ _ hrel x y hx hy => hRS x y (hrel x y hx hy)⟩

theorem Chained.of_blocks (h : Chained R cache) (hblocks : cache'.blocks = cache.blocks) :
    Chained R cache' := by
  refine ⟨⟨?_, ?_⟩, ?_⟩
  · rw [hblocks]; exact h.contiguous
  · rw [hblocks]; exact h.rows
  · rw [hblocks]; exact h.chained

theorem Chained.truncated (h : Chained R cache) (cut : Nat) (base : Option Nat) :
    Chained R (cache.truncated cut base) :=
  ⟨h.toStored.truncated cut base, h.chained.prefix (prefix_truncated cache cut base)⟩

theorem Chained.removeFrom (h : Chained R cache) (cut : Nat) :
    Chained R (cache.removeFrom cut).1 := by
  rcases cache.removeFrom_cases cut with ⟨e, heq⟩ | ⟨base, -, heq⟩
  · rw [heq]
    exact h
  · rw [heq]
    exact h.truncated cut base

theorem Appended.chained {blocks : List CompactBlock} {base : Option Nat} {start : Nat}
    (happ : Appended cache blocks base start cache') (h : Chained R cache)
    (hchain : blocks.IsChain R)
    (hjoin : ∀ row tip first, cache.blocks.last = some row → Prost.decode row.2 = .ok tip →
      blocks.head? = some first → R tip first) : Chained R cache' := by
  refine ⟨happ.stored h.toStored, ?_⟩
  rw [happ.rows]
  refine List.isChain_append.mpr ⟨h.chained, ?_, ?_⟩
  · refine List.isChain_map_of_isChain rowOf ?_ hchain
    intro a b hab x y hx hy
    rw [rowOf, Prost.decode_encode] at hx hy
    rw [← Except.ok.inj hx, ← Except.ok.inj hy]
    exact hab
  · intro last hlast row hrow x y hx hy
    rcases blocks with _ | ⟨first, rest⟩
    · exact absurd rfl happ.nonempty
    · obtain rfl : rowOf first = row := by simpa using hrow
      rw [rowOf, Prost.decode_encode] at hy
      rw [← Except.ok.inj hy]
      exact hjoin last x first hlast hx rfl

theorem Stored.get_eq {height : Nat} {value : Bytes} (h : Stored cache)
    (hget : cache.blocks.get height = some value) :
    ∃ block, Prost.decode value = .ok block ∧ block.height = height ∧
      cache.get height = .ok (some block) := by
  obtain ⟨block, hdecode, hheight⟩ := h.rows _ (Table.get_eq_some_iff.mp hget)
  refine ⟨block, hdecode, hheight, ?_⟩
  simp only at hdecode
  simp [Cache.get, hget, decodeBlock, hdecode, Except.mapError, Except.map]

end Cache

end Lightwalletd
