/-
The two tables stay in step.

The block table holds a segment of heights, each row decoding to a block of its
own height, and the metadata table holds nothing but epoch digests and, at most,
the base height of the segment.  `Stored` and `MetaOk` are those two invariants,
and each of the store's operations keeps both: an append by `append_cases`, a
truncation because it keeps a prefix of the blocks and drops the base height
together with the base block.

From them the contract of the store over every sequence of calls follows, with
two facts about single calls that need no invariant: a failed call changes
neither table, and a truncation drops exactly the digests of the epochs it
reaches into.
-/
import Lightwalletd.Codec
import Lightwalletd.Proofs.Append
import Lightwalletd.Proofs.MetaKeys

namespace Lightwalletd

namespace Cache

/-! ### The invariants

The rows are a segment that decodes, and the metadata describes these rows.
-/

/-- The row decodes to a block whose height is its key. -/
def RowOk [Prost] (row : Nat × Bytes) : Prop :=
  ∃ block, Prost.decode row.2 = .ok block ∧ block.height = row.1

/-- The block table is a segment of rows that decode under their own heights. -/
structure Stored [Prost] (cache : Cache) : Prop where
  contiguous : cache.blocks.Contiguous
  rows : ∀ row ∈ cache.blocks.rows, RowOk row

/-- The metadata describes the blocks: digests, and the height of the lowest row. -/
structure MetaOk (cache : Cache) : Prop where
  keys : ∀ row ∈ cache.metaRows.rows, row.1 = snapshotBaseHeightKey ∨
    ∃ index, index ≤ u64Max ∧ row.1 = epochDigestKey index
  base : ∀ value, cache.metaRows.get snapshotBaseHeightKey = some value →
    ∃ b w, b ≤ u64Max ∧ value = leBytes 8 b ∧ cache.blocks.first = some (b, w)

theorem stored_empty [Prost] : Stored Cache.empty :=
  ⟨Table.contiguous_empty, by intro row hrow; simp [Cache.empty] at hrow⟩

theorem metaOk_empty : MetaOk Cache.empty :=
  ⟨by intro row hrow; simp [Cache.empty] at hrow, by intro value h; simp [Cache.empty] at h⟩

theorem rowOk_rowOf [Prost] (block : CompactBlock) : RowOk (rowOf block) :=
  ⟨block, Prost.decode_encode block, rfl⟩

theorem decodeBaseHeight_leBytes {b : Nat} (h : b ≤ u64Max) :
    decodeBaseHeight (some (leBytes 8 b)) = .ok (some b) := by
  have hlt : b < 256 ^ 8 := by
    simp only [u64Max] at h
    omega
  simp [decodeBaseHeight, ofLeBytes_leBytes_of_lt hlt]

theorem range_eq {cache : Cache} {base tip : Nat} (h : cache.range = some (base, tip)) :
    ∃ v w, cache.blocks.first = some (base, v) ∧ cache.blocks.last = some (tip, w) := by
  unfold range at h
  rcases hfirst : cache.blocks.first with _ | ⟨b, v⟩
  · simp [hfirst] at h
  rcases hlast : cache.blocks.last with _ | ⟨t, w⟩
  · simp [hfirst, hlast] at h
  simp only [hfirst, hlast, Option.some.injEq, Prod.mk.injEq] at h
  obtain ⟨rfl, rfl⟩ := h
  exact ⟨v, w, rfl, rfl⟩

theorem latestHeight_of_range {cache : Cache} {base tip : Nat}
    (h : cache.range = some (base, tip)) : cache.latestHeight = some tip := by
  obtain ⟨_, _, -, hlast⟩ := range_eq h
  rw [latestHeight, hlast, Option.map_some]

theorem MetaOk.snapshotBaseHeight_eq {cache : Cache} (h : MetaOk cache) :
    (cache.snapshotBaseHeight = .ok none ∧
      cache.metaRows.get snapshotBaseHeightKey = none) ∨
      ∃ b w, b ≤ u64Max ∧ cache.snapshotBaseHeight = .ok (some b) ∧
        cache.metaRows.get snapshotBaseHeightKey = some (leBytes 8 b) ∧
        cache.blocks.first = some (b, w) := by
  unfold snapshotBaseHeight
  cases hget : cache.metaRows.get snapshotBaseHeightKey with
  | none => exact Or.inl ⟨rfl, rfl⟩
  | some value =>
      obtain ⟨b, w, hb, hvalue, hfirst⟩ := h.base value hget
      exact Or.inr ⟨b, w, hb, by rw [hvalue, decodeBaseHeight_leBytes hb], by rw [hvalue], hfirst⟩

theorem MetaOk.readable {cache : Cache} (h : MetaOk cache) :
    ∃ base, cache.snapshotBaseHeight = .ok base := by
  rcases h.snapshotBaseHeight_eq with ⟨hbase, -⟩ | ⟨b, w, -, hbase, -⟩
  · exact ⟨_, hbase⟩
  · exact ⟨_, hbase⟩

/-! ### An append keeps them -/

theorem Appended.stored [Prost] {cache cache' : Cache} {blocks : List CompactBlock}
    {base : Option Nat} {h : Nat} (happ : Appended cache blocks base h cache')
    (hs : Stored cache) : Stored cache' := by
  refine ⟨hs.contiguous.append happ.rows ?_ happ.join, ?_⟩
  · rw [List.map_map, List.length_map]
    exact happ.heights
  · intro row hrow
    rw [happ.rows] at hrow
    rcases List.mem_append.mp hrow with hr | hr
    · exact hs.rows row hr
    · obtain ⟨block, -, rfl⟩ := List.mem_map.mp hr
      exact rowOk_rowOf block

/-- The lowest row after an append: the old one, or the first block's. -/
theorem Appended.first [Prost] {cache cache' : Cache} {blocks : List CompactBlock}
    {base : Option Nat} {h : Nat} (happ : Appended cache blocks base h cache') :
    (∃ row, cache.blocks.first = some row ∧ cache'.blocks.first = some row) ∨
      (cache.blocks.rows = [] ∧ ∃ w, cache'.blocks.first = some (h, w)) := by
  cases hfirst : cache.blocks.first with
  | some row => exact Or.inl ⟨row, rfl, Table.first_of_append happ.rows hfirst⟩
  | none =>
      have hnil := Table.first_eq_none_iff.mp hfirst
      refine Or.inr ⟨hnil, ?_⟩
      cases hblocks : blocks with
      | nil => exact absurd hblocks happ.nonempty
      | cons block rest =>
          have hhead := happ.heights
          rw [hblocks, List.length_cons, List.range'_succ] at hhead
          have hheight : block.height = h := (List.cons.inj hhead).1
          refine ⟨Prost.encode block, ?_⟩
          rw [Table.first, happ.rows, hnil, hblocks, ← hheight]
          rfl

theorem Appended.epochDigest [Prost] {cache cache' : Cache} {blocks : List CompactBlock}
    {base : Option Nat} {h : Nat} (happ : Appended cache blocks base h cache') (index : Nat) :
    cache'.epochDigest index = cache.epochDigest index := by
  rw [Cache.epochDigest, happ.metaRows]
  rcases base with _ | base
  · rfl
  · show (cache.metaRows.insert snapshotBaseHeightKey (leBytes 8 base)).get _ = _
    rw [Table.get_insert, if_neg (epochDigestKey_ne_base index)]
    rfl

/-- The base recorded with an append, as the importer passes it: none, or the
height of the first block, and that only for an empty cache. -/
def BaseAsImport (cache : Cache) (items : List (Except CacheError CompactBlock)) :
    Option Nat → Prop
  | none => True
  | some b => cache.blocks.rows = [] ∧
      ∀ block rest, items = .ok block :: rest → b = block.height

theorem Appended.metaOk [Prost] {cache cache' : Cache} {blocks : List CompactBlock}
    {base : Option Nat} {h : Nat} (happ : Appended cache blocks base h cache')
    (hbase : BaseAsImport cache (blocks.map .ok) base) (hm : MetaOk cache) : MetaOk cache' := by
  cases base with
  | none =>
      have hmeta : cache'.metaRows = cache.metaRows := happ.metaRows
      refine ⟨by rw [hmeta]; exact hm.keys, ?_⟩
      intro value hget
      rw [hmeta] at hget
      obtain ⟨b, w, hb, hvalue, hfirst⟩ := hm.base value hget
      exact ⟨b, w, hb, hvalue, Table.first_of_append happ.rows hfirst⟩
  | some b =>
      obtain ⟨hempty, hfirst⟩ := hbase
      have hmeta : cache'.metaRows = cache.metaRows.insert snapshotBaseHeightKey (leBytes 8 b) :=
        happ.metaRows
      refine ⟨?_, ?_⟩
      · intro row hrow
        rw [hmeta] at hrow
        rcases Table.mem_insertRow hrow with hr | hr
        · exact Or.inl (by rw [hr])
        · exact hm.keys row hr
      · intro value hget
        rw [hmeta, Table.get_insert, if_pos rfl] at hget
        cases hblocks : blocks with
        | nil => exact absurd hblocks happ.nonempty
        | cons block rest =>
            have hb : b = block.height := hfirst block (rest.map .ok) (by rw [hblocks]; rfl)
            have hlt := happ.below block (by rw [hblocks]; simp)
            refine ⟨b, Prost.encode block, by omega, (Option.some.inj hget).symm, ?_⟩
            rw [Table.first, happ.rows, hempty, hblocks, hb]
            rfl

/-! ### A truncation keeps them

Both tables are cut in one transaction: the rows from a height on, and the digests of
the epochs that reach up to it.
-/

/-- What a truncation leaves. -/
def truncated (cache : Cache) (cut : Nat) (base : Option Nat) : Cache where
  blocks := cache.blocks.retain fun cached _ => cached < cut
  metaRows := cache.metaRows.retain fun key _ => keepsMeta cut (base.any fun b => cut ≤ b) key

theorem removeFrom_eq {cache : Cache} {base : Option Nat}
    (h : cache.snapshotBaseHeight = .ok base) (cut : Nat) :
    cache.removeFrom cut = (cache.truncated cut base, .ok ()) := by
  unfold snapshotBaseHeight at h
  simp only [removeFrom, runTxn, h]
  rfl

/-- A truncation succeeds, or changes nothing because the recorded base is unreadable. -/
theorem removeFrom_cases (cache : Cache) (cut : Nat) :
    (∃ e, cache.removeFrom cut = (cache, .error e)) ∨
      ∃ base, cache.snapshotBaseHeight = .ok base ∧
        cache.removeFrom cut = (cache.truncated cut base, .ok ()) := by
  rcases hbase : cache.snapshotBaseHeight with e | base
  · refine Or.inl ⟨e, ?_⟩
    unfold snapshotBaseHeight at hbase
    simp only [removeFrom, runTxn, hbase]
  · exact Or.inr ⟨base, rfl, removeFrom_eq hbase cut⟩

theorem prefix_truncated (cache : Cache) (cut : Nat) (base : Option Nat) :
    (cache.truncated cut base).blocks.rows <+: cache.blocks.rows :=
  Table.retain_lt_prefix cache.blocks cut

/-- Whether or not it succeeds, a truncation keeps a prefix of the rows. -/
theorem removeFrom_prefix (cache : Cache) (cut : Nat) :
    (cache.removeFrom cut).1.blocks.rows <+: cache.blocks.rows := by
  rcases cache.removeFrom_cases cut with ⟨e, heq⟩ | ⟨base, -, heq⟩
  · rw [heq]
  · rw [heq]
    exact prefix_truncated cache cut base

theorem truncated_get (cache : Cache) (cut : Nat) (base : Option Nat) (height : Nat) :
    (cache.truncated cut base).blocks.get height
      = if height < cut then cache.blocks.get height else none := by
  show (cache.blocks.retain fun cached _ => cached < cut).get height = _
  rw [Table.get_retain]
  cases cache.blocks.get height with
  | none => simp
  | some value => by_cases h : height < cut <;> simp [h]

theorem Stored.truncated [Prost] {cache : Cache} (hs : Stored cache) (cut : Nat)
    (base : Option Nat) : Stored (cache.truncated cut base) := by
  have hpre := prefix_truncated cache cut base
  exact ⟨hs.contiguous.of_prefix hpre, fun row hrow => hs.rows row (hpre.subset hrow)⟩

theorem MetaOk.truncated {cache : Cache} (hm : MetaOk cache) {base : Option Nat}
    (hbase : cache.snapshotBaseHeight = .ok base) (cut : Nat) :
    MetaOk (cache.truncated cut base) := by
  refine ⟨fun row hrow => hm.keys row (List.mem_of_mem_filter hrow), ?_⟩
  intro value hget
  have hget' : (cache.metaRows.retain fun key _ =>
      keepsMeta cut (base.any fun b => cut ≤ b) key).get snapshotBaseHeightKey = some value := hget
  rw [Table.get_retain, Option.filter_eq_some_iff] at hget'
  obtain ⟨hold, hkeep⟩ := hget'
  obtain ⟨b, w, hb, hvalue, hfirst⟩ := hm.base value hold
  have hbase' : base = some b := by
    unfold snapshotBaseHeight at hbase
    rw [hold, hvalue, decodeBaseHeight_leBytes hb] at hbase
    exact (Except.ok.inj hbase).symm
  have hcut : b < cut := by
    simp only [keepsMeta, if_pos, hbase', Option.any_some, Bool.not_eq_true',
      decide_eq_false_iff_not] at hkeep
    omega
  refine ⟨b, w, hb, hvalue, ?_⟩
  -- The base row lies below the cut, so the prefix that is kept is not empty.
  have hmem : (b, w) ∈ (cache.truncated cut base).blocks.rows :=
    List.mem_filter.mpr ⟨Table.first_mem hfirst, by simpa using hcut⟩
  rw [Table.first_of_prefix (prefix_truncated cache cut base) (List.ne_nil_of_mem hmem)]
  exact hfirst

theorem truncated_epochDigest (cache : Cache) {cut index : Nat} (base : Option Nat)
    (hcut : cut ≤ u64Max) (hindex : index ≤ u64Max) :
    (cache.truncated cut base).epochDigest index
      = if epochLastHeight index < cut then cache.epochDigest index else none := by
  show (cache.metaRows.retain fun key _ =>
      keepsMeta cut (base.any fun b => cut ≤ b) key).get (epochDigestKey index) = _
  have hkeep : keepsMeta cut (base.any fun b => cut ≤ b) (epochDigestKey index)
      = decide (epochLastHeight index < cut) := by
    rw [keepsMeta, if_neg (epochDigestKey_ne_base index), epochDigestIndex_key hindex]
    exact decide_eq_decide.mpr (epochLastHeight_lt_iff hcut).symm
  rw [Table.get_retain, hkeep, epochDigest]
  cases cache.metaRows.get (epochDigestKey index) with
  | none => simp
  | some value => by_cases h : epochLastHeight index < cut <;> simp [h]

/-! ### Storing a digest keeps them -/

theorem setEpochDigest_eq (cache : Cache) (index : Nat) (value : Bytes) :
    cache.setEpochDigest index value
      = ({ cache with metaRows := cache.metaRows.insert (epochDigestKey index) value }, .ok ()) :=
  rfl

theorem setEpochDigest_epochDigest (cache : Cache) {index i : Nat} (value : Bytes)
    (hindex : index ≤ u64Max) (hi : i ≤ u64Max) :
    (cache.setEpochDigest index value).1.epochDigest i
      = if i = index then some value else cache.epochDigest i := by
  rw [setEpochDigest_eq, epochDigest, Table.get_insert]
  by_cases heq : i = index
  · rw [if_pos heq, if_pos (by rw [heq])]
  · rw [if_neg heq, if_neg fun hkey => heq (epochDigestKey_injective hi hindex hkey)]
    rfl

theorem MetaOk.setEpochDigest {cache : Cache} (hm : MetaOk cache) {index : Nat}
    (hindex : index ≤ u64Max) (value : Bytes) : MetaOk (cache.setEpochDigest index value).1 := by
  rw [setEpochDigest_eq]
  refine ⟨?_, ?_⟩
  · intro row hrow
    rcases Table.mem_insertRow hrow with hr | hr
    · exact Or.inr ⟨index, hindex, by rw [hr]⟩
    · exact hm.keys row hr
  · intro stored hget
    rw [show (⟨cache.blocks, cache.metaRows.insert (epochDigestKey index) value⟩ : Cache).metaRows
        = cache.metaRows.insert (epochDigestKey index) value from rfl,
      Table.get_insert, if_neg (Ne.symm (epochDigestKey_ne_base index))] at hget
    exact hm.base stored hget

end Cache

/-! ### Any sequence of calls

A call appends, truncates, stores a digest or fails, and a failed call changes nothing.
-/

/-- A call of the store's interface that writes. -/
inductive StoreOp
  | add (height : Nat) (block : CompactBlock)
  | addBatch (blocks : List CompactBlock)
  | addDecodedBatch (blocks : List (Except CacheError CompactBlock)) (snapshotBase : Option Nat)
  | setEpochDigest (index : Nat) (value : Bytes)
  | reorg (height : Nat)
  | truncateFrom (height : Nat)

namespace StoreOp

def apply [Prost] (cache : Cache) : StoreOp → Cache × Except CacheError Unit
  | add height block => cache.add height block
  | addBatch blocks => cache.addBatch blocks
  | addDecodedBatch blocks snapshotBase => cache.addDecodedBatch blocks snapshotBase
  | setEpochDigest index value => cache.setEpochDigest index value
  | reorg height => cache.reorg height
  | truncateFrom height => cache.truncateFrom height

/-- The arguments a call may have: an index is a word, a height is below the
largest word, and the base of a decoded batch is what the importer passes. -/
def Allowed (cache : Cache) : StoreOp → Prop
  | add _ _ => True
  | addBatch _ => True
  | addDecodedBatch blocks snapshotBase => cache.BaseAsImport blocks snapshotBase
  | setEpochDigest index _ => index ≤ u64Max
  | reorg height => height < u64Max
  | truncateFrom height => height < u64Max

/-- The lowest height a truncation drops. -/
def cut : StoreOp → Option Nat
  | reorg height => some (height + 1)
  | truncateFrom height => some height
  | _ => none

end StoreOp

/-- The caches that calls with allowed arguments lead to. -/
inductive StoreReachable [Prost] : Cache → Prop
  | empty : StoreReachable Cache.empty
  | call {cache : Cache} (h : StoreReachable cache) (op : StoreOp) (hop : op.Allowed cache) :
      StoreReachable (op.apply cache).1

namespace StoreOp

/-- A truncation, as the one transaction behind both entry points. -/
theorem apply_of_cut [Prost] {cache : Cache} {op : StoreOp} {c : Nat} (hop : op.Allowed cache)
    (hc : op.cut = some c) : c ≤ u64Max ∧ op.apply cache = cache.removeFrom c := by
  cases op with
  | reorg height =>
      have hlt : height < u64Max := hop
      obtain rfl : height + 1 = c := Option.some.inj hc
      refine ⟨by omega, ?_⟩
      show cache.removeFrom (satAdd height 1) = _
      rw [satAdd_of_le (by omega)]
  | truncateFrom height =>
      obtain rfl : height = c := Option.some.inj hc
      exact ⟨Nat.le_of_lt hop, rfl⟩
  | add => cases hc
  | addBatch => cases hc
  | addDecodedBatch => cases hc
  | setEpochDigest => cases hc

/-- What a call can do: nothing, append a run, truncate, or store a digest. -/
theorem apply_cases [Prost] {cache : Cache} {op : StoreOp} (hop : op.Allowed cache) :
    (op.apply cache).1 = cache ∨
      (∃ blocks base start, Cache.Appended cache blocks base start (op.apply cache).1 ∧
        cache.BaseAsImport (blocks.map .ok) base) ∨
      (∃ cut base, op.cut = some cut ∧ cut ≤ u64Max ∧ cache.snapshotBaseHeight = .ok base ∧
        (op.apply cache).1 = cache.truncated cut base) ∨
      ∃ index value, op = .setEpochDigest index value := by
  have happend : ∀ items base, cache.BaseAsImport items base →
      op.apply cache = cache.append items base → (op.apply cache).1 = cache ∨
      ∃ blocks base start, Cache.Appended cache blocks base start (op.apply cache).1 ∧
        cache.BaseAsImport (blocks.map .ok) base := by
    intro items base hbase happly
    rcases cache.append_cases items base with
      ⟨e, heq⟩ | ⟨-, heq⟩ | ⟨blocks, start, cache', hitems, heq, happ⟩
    · exact Or.inl (by rw [happly, heq])
    · exact Or.inl (by rw [happly, heq])
    · exact Or.inr ⟨blocks, base, start, by rw [happly, heq]; exact happ, hitems ▸ hbase⟩
  have htruncate : ∀ cut, op.cut = some cut → (op.apply cache).1 = cache ∨
      ∃ cut base, op.cut = some cut ∧ cut ≤ u64Max ∧ cache.snapshotBaseHeight = .ok base ∧
        (op.apply cache).1 = cache.truncated cut base := by
    intro cut hcut
    obtain ⟨hmax, happly⟩ := apply_of_cut hop hcut
    rcases cache.removeFrom_cases cut with ⟨e, heq⟩ | ⟨base, hbase, heq⟩
    · exact Or.inl (by rw [happly, heq])
    · exact Or.inr ⟨cut, base, hcut, hmax, hbase, by rw [happly, heq]⟩
  cases op with
  | add height block =>
      by_cases hheight : block.height = height
      · refine (happend [.ok block] none trivial ?_).imp_right Or.inl
        show cache.add height block = _
        rw [Cache.add, if_neg (not_not_intro hheight)]
        rfl
      · refine Or.inl ?_
        show (cache.add height block).1 = cache
        rw [Cache.add, if_pos hheight]
  | addBatch blocks => exact (happend (blocks.map .ok) none trivial rfl).imp_right Or.inl
  | addDecodedBatch blocks base => exact (happend blocks base hop rfl).imp_right Or.inl
  | setEpochDigest index value => exact Or.inr (Or.inr (Or.inr ⟨index, value, rfl⟩))
  | reorg height => exact (htruncate _ rfl).imp_right fun h => Or.inr (Or.inl h)
  | truncateFrom height => exact (htruncate _ rfl).imp_right fun h => Or.inr (Or.inl h)

theorem apply_keeps [Prost] {cache : Cache} {op : StoreOp} (hop : op.Allowed cache)
    (hs : cache.Stored) (hm : cache.MetaOk) :
    (op.apply cache).1.Stored ∧ (op.apply cache).1.MetaOk := by
  rcases apply_cases hop with
    heq | ⟨blocks, base, start, happ, hbase⟩ | ⟨cut, base, -, -, hbase, heq⟩ | ⟨index, value, rfl⟩
  · rw [heq]
    exact ⟨hs, hm⟩
  · exact ⟨happ.stored hs, happ.metaOk hbase hm⟩
  · rw [heq]
    exact ⟨hs.truncated cut base, hm.truncated hbase cut⟩
  · exact ⟨⟨hs.contiguous, hs.rows⟩, hm.setEpochDigest hop value⟩

theorem apply_error [Prost] {cache : Cache} {op : StoreOp} {e : CacheError}
    (h : (op.apply cache).2 = .error e) : (op.apply cache).1 = cache := by
  cases op with
  | add height block =>
      revert h
      show (cache.add height block).2 = .error e → (cache.add height block).1 = cache
      unfold Cache.add
      split
      · intro _; rfl
      · exact fun h => runTxn_error h
  | addBatch blocks => exact runTxn_error h
  | addDecodedBatch blocks base => exact runTxn_error h
  | setEpochDigest index value => exact runTxn_error h
  | reorg height => exact runTxn_error h
  | truncateFrom height => exact runTxn_error h

end StoreOp

theorem StoreReachable.keeps [Prost] {cache : Cache} (h : StoreReachable cache) :
    cache.Stored ∧ cache.MetaOk := by
  induction h with
  | empty => exact ⟨Cache.stored_empty, Cache.metaOk_empty⟩
  | call _ op hop ih => exact StoreOp.apply_keeps hop ih.1 ih.2

theorem StoreReachable.rows_below [Prost] {cache : Cache} (h : StoreReachable cache) :
    ∀ row ∈ cache.blocks.rows, row.1 < u64Max := by
  induction h with
  | empty => simp [Cache.empty]
  | @call cache _ op hop ih =>
      rcases StoreOp.apply_cases hop with
        heq | ⟨blocks, base, start, happ, -⟩ | ⟨cut, base, -, -, -, heq⟩ | ⟨index, value, rfl⟩
      · rw [heq]
        exact ih
      · intro row hrow
        rw [happ.rows] at hrow
        rcases List.mem_append.mp hrow with hold | hnew
        · exact ih row hold
        · obtain ⟨block, hblock, rfl⟩ := List.mem_map.mp hnew
          exact happ.below block hblock
      · rw [heq]
        exact fun row hrow => ih row ((Cache.prefix_truncated cache cut base).subset hrow)
      · exact ih

/--
**The contract of the store.**  After any sequence of calls the heights are
contiguous, every row decodes under its own height, and a recorded base height is
the lowest cached one.  From there a truncation drops exactly the rows at or above
its cut and exactly the digests of the epochs containing a height at or above it,
and a call that fails leaves both tables as they were.
-/
theorem store_contract [Prost] {cache : Cache} (h : StoreReachable cache) :
    cache.blocks.Contiguous ∧
    (∀ height value, cache.blocks.get height = some value →
      ∃ block, Prost.decode value = .ok block ∧ block.height = height) ∧
    (∀ b, cache.snapshotBaseHeight = .ok (some b) → ∃ tip, cache.range = some (b, tip)) ∧
    (∀ op : StoreOp, op.Allowed cache → ∀ c, op.cut = some c →
      (op.apply cache).2 = .ok () ∧
      (∀ height, (op.apply cache).1.blocks.get height
        = if height < c then cache.blocks.get height else none) ∧
      ∀ index, index ≤ u64Max →
        ((∃ height, epochFirstHeight index ≤ height ∧ height ≤ epochLastHeight index ∧ c ≤ height) →
          (op.apply cache).1.epochDigest index = none) ∧
        ((¬ ∃ height, epochFirstHeight index ≤ height ∧ height ≤ epochLastHeight index ∧
          c ≤ height) → (op.apply cache).1.epochDigest index = cache.epochDigest index)) ∧
    (∀ op : StoreOp, ∀ e, (op.apply cache).2 = .error e → (op.apply cache).1 = cache) := by
  obtain ⟨hs, hm⟩ := h.keeps
  refine ⟨hs.contiguous, ?_, ?_, ?_, fun op e he => StoreOp.apply_error he⟩
  · intro height value hget
    exact hs.rows (height, value) (Table.get_eq_some_iff.mp hget)
  · intro b hb
    rcases hm.snapshotBaseHeight_eq with ⟨hnone, -⟩ | ⟨b', w, -, hsome, -, hfirst⟩
    · rw [hnone] at hb; simp at hb
    · have heq : b' = b := by
        rw [hsome] at hb
        exact Option.some.inj (Except.ok.inj hb)
      subst heq
      cases hlast : cache.blocks.last with
      | none =>
          rw [Table.last_eq_none_iff] at hlast
          rw [Table.first, hlast] at hfirst
          simp at hfirst
      | some top =>
          refine ⟨top.1, ?_⟩
          simp only [Cache.range, hfirst, hlast]
  · intro op hop c hc
    obtain ⟨hmax, happly⟩ := StoreOp.apply_of_cut hop hc
    obtain ⟨base, hbase⟩ := hm.readable
    rw [happly, Cache.removeFrom_eq hbase]
    refine ⟨rfl, fun height => Cache.truncated_get cache c base height, ?_⟩
    intro index hindex
    have hdigest := Cache.truncated_epochDigest cache base hmax hindex
    refine ⟨?_, ?_⟩
    · rintro ⟨height, -, hle, hge⟩
      rw [hdigest, if_neg (by omega)]
    · intro hno
      rw [hdigest, if_pos]
      by_contra hge
      exact hno ⟨epochLastHeight index, epochFirstHeight_le_last index, Nat.le_refl _, by omega⟩

/-- The last block of an epoch, brought in as the base of a snapshot, and the next one,
with a row for the epoch. -/
def digestedStore : Cache :=
  ((StoreOp.setEpochDigest 0 [1]).apply ((StoreOp.addDecodedBatch
    [.ok (emptyBlock 9999), .ok (emptyBlock 10000)] (some 9999)).apply Cache.empty).1).1

theorem digestedStore_reachable : StoreReachable digestedStore := by
  refine (StoreReachable.empty.call (.addDecodedBatch
    [.ok (emptyBlock 9999), .ok (emptyBlock 10000)] (some 9999)) ?_).call
    (.setEpochDigest 0 [1]) (Nat.zero_le u64Max)
  refine ⟨rfl, ?_⟩
  intro block rest h
  obtain ⟨hblock, -⟩ := List.cons.inj h
  obtain rfl := Except.ok.inj hblock
  rfl

theorem digestedStore_contract :
    StoreReachable digestedStore ∧ digestedStore.range = some (9999, 10000) ∧
      ((StoreOp.truncateFrom 10000).apply digestedStore).1.epochDigest 0 = some [1] ∧
      ((StoreOp.truncateFrom 9999).apply digestedStore).1.epochDigest 0 = none := by
  have hreach := digestedStore_reachable
  have hlow : 9999 < u64Max := by decide
  have hhigh : 10000 < u64Max := by decide
  obtain ⟨-, -, -, hcut, -⟩ := store_contract hreach
  refine ⟨hreach, by decide +kernel, ?_, ?_⟩
  · rw [((hcut (.truncateFrom 10000) hhigh 10000 rfl).2.2 0 (by decide)).2]
    · decide +kernel
    · rintro ⟨height, -, hle, hge⟩
      have : epochLastHeight 0 = 9999 := by decide
      omega
  · exact ((hcut (.truncateFrom 9999) hlow 9999 rfl).2.2 0 (by decide)).1
      ⟨9999, by decide, by decide, Nat.le_refl _⟩

end Lightwalletd
