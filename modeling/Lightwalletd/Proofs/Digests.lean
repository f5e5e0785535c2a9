/-
The stored digests against a cache that changes under the walk.

A stored row is fresh as long as it is what the digest computation makes of the
blocks held now.  An append never touches the heights of a complete epoch, and a
truncation drops the rows of the epochs it reaches into, so rows that are in the
table stay fresh.  What is left is the walk itself: between reading the blocks of
an epoch and storing its row, it compares the cached range before and after.  That
comparison does not see a truncation whose heights have been filled again, nor one
that comes after it.
-/
import Lightwalletd.Codec
import Lightwalletd.Proofs.Body

namespace Lightwalletd

/-! ### A row that is up to date

A row is compared with what would be computed from the blocks held now.  Only the rows
of the epoch's heights enter into that.
-/

section

variable [Prost] [Sha256] {cache cache' : Cache} {chain : String}

/-- `row` is the row of epoch `index` as it would be computed from the blocks held now. -/
def Fresh (cache : Cache) (chain : String) (index : Nat) (row : Bytes) : Prop :=
  ∃ digest : EpochDigest, row = digest.encode ∧ digest.stop = epochLastHeight index ∧
    digestBody cache chain digest.start digest.stop = .ok digest

/-- Every stored row is. -/
def AllFresh (cache : Cache) (chain : String) : Prop :=
  ∀ index row, (index, row) ∈ cache.epochDigests → Fresh cache chain index row

/-- The digests of an epoch only depend on the rows of its heights. -/
theorem digestBody_congr {start stop : Nat}
    (h : cache'.blocks.range start stop = cache.blocks.range start stop) :
    digestBody cache' chain start stop = digestBody cache chain start stop := by
  simp only [digestBody, writeBody, h]

omit [Prost] [Sha256] in
theorem Writable.keys_eq {start stop : Nat} (h : Writable cache chain start stop) :
    (cache.blocks.range start stop).map (·.1) = List.range' start (stop + 1 - start) := by
  have hle := h.bounds
  refine eq_range'_of_increasing (List.pairwise_map.mpr (Table.range_sorted _ _ _)) ?_ ?_
  · intro n hn
    obtain ⟨row, hrow, rfl⟩ := List.mem_map.mp hn
    exact (Table.mem_range.mp hrow).2
  · rw [List.length_map, h.whole]
    omega

omit [Prost] [Sha256] in
theorem Writable.stop_held {start stop : Nat} (h : Writable cache chain start stop) :
    ∃ value, (stop, value) ∈ cache.blocks.rows := by
  have hle := h.bounds
  have hstop : stop ∈ (cache.blocks.range start stop).map (·.1) := by
    rw [h.keys_eq]
    exact List.mem_range'_1.mpr ⟨hle, by omega⟩
  obtain ⟨⟨height, value⟩, hrow, rfl⟩ := List.mem_map.mp hstop
  exact ⟨value, (Table.mem_range.mp hrow).1⟩

omit [Sha256] in
theorem Cache.Appended.above {blocks : List CompactBlock} {base : Option Nat} {next : Nat}
    (happ : Cache.Appended cache blocks base next cache') {row : Nat × Bytes}
    (hrow : row ∈ cache.blocks.rows) : ∀ new ∈ blocks.map Cache.rowOf, row.1 < new.1 := by
  obtain ⟨top, hlast⟩ : ∃ top, cache.blocks.last = some top := by
    rcases hnone : cache.blocks.last with _ | top
    · rw [Table.last_eq_none_iff.mp hnone] at hrow
      cases hrow
    · exact ⟨top, rfl⟩
  have htop := Table.le_last hrow hlast
  have hjoin := happ.join top hlast
  intro new hnew
  obtain ⟨block, hblock, rfl⟩ := List.mem_map.mp hnew
  have hheight : block.height ∈ List.range' next blocks.length := by
    rw [← happ.heights]
    exact List.mem_map_of_mem hblock
  have hnext := (List.mem_range'_1.mp hheight).1
  show row.1 < block.height
  omega

omit [Sha256] in
theorem Cache.Appended.range_eq {blocks : List CompactBlock} {base : Option Nat}
    {next start stop : Nat}
    (happ : Cache.Appended cache blocks base next cache') (h : Writable cache chain start stop) :
    cache'.blocks.range start stop = cache.blocks.range start stop := by
  obtain ⟨value, hheld⟩ := h.stop_held
  have hnew : (blocks.map Cache.rowOf).filter (fun row => start ≤ row.1 && row.1 ≤ stop) = [] := by
    rw [List.filter_eq_nil_iff]
    intro new hnew
    have hout : ¬ new.1 ≤ stop := Nat.not_le.mpr (happ.above hheld new hnew)
    simp [hout]
  show cache'.blocks.rows.filter _ = cache.blocks.rows.filter _
  rw [happ.rows, List.filter_append, hnew, List.append_nil]

omit [Prost] [Sha256] in
theorem Cache.truncated_range {cut start stop : Nat} (base : Option Nat) (h : stop < cut) :
    (cache.truncated cut base).blocks.range start stop = cache.blocks.range start stop := by
  show (cache.blocks.rows.filter _).filter _ = cache.blocks.rows.filter _
  rw [List.filter_filter]
  refine List.filter_congr ?_
  intro row _
  by_cases hin : start ≤ row.1 ∧ row.1 ≤ stop
  · have : row.1 < cut := by omega
    simp [this]
  · simp only [not_and] at hin
    by_cases hstart : start ≤ row.1
    · simp [hin hstart]
    · simp [hstart]

omit [Prost] [Sha256] in
private theorem completeEpochBounds_stop {index start stop : Nat}
    (h : completeEpochBounds cache index = some (start, stop)) : stop = epochLastHeight index := by
  unfold completeEpochBounds at h
  split at h
  · cases h
  · dsimp only at h
    split at h
    · cases h
    · exact (Prod.mk.inj (Option.some.inj h)).2.symm

private theorem digestBody_bounds {start stop : Nat} {digest : EpochDigest}
    (h : digestBody cache chain start stop = .ok digest) :
    digest.start = start ∧ digest.stop = stop := by
  obtain ⟨-, blocks, -, -, rfl⟩ := digestBody_eq_ok.mp h
  exact ⟨rfl, rfl⟩

/-! ### What a call does to the rows -/

section

omit [Prost] [Sha256]

theorem Cache.MetaOk.key_eq (hm : cache.MetaOk) {key : Key} {value : Bytes} {index : Nat}
    (hmem : (key, value) ∈ cache.metaRows.rows) (hkey : epochDigestIndex key = some index) :
    index ≤ u64Max ∧ key = epochDigestKey index := by
  rcases hm.keys _ hmem with hbase | ⟨i, hi, heq⟩
  · simp only at hbase
    have hnone : epochDigestIndex snapshotBaseHeightKey = none := by decide
    rw [hbase, hnone] at hkey
    cases hkey
  · simp only at heq
    rw [heq, epochDigestIndex_key hi] at hkey
    obtain rfl := Option.some.inj hkey
    exact ⟨hi, heq⟩

theorem Cache.MetaOk.mem_epochDigests (hm : cache.MetaOk) {index : Nat} {row : Bytes} :
    (index, row) ∈ cache.epochDigests ↔
      index ≤ u64Max ∧ (epochDigestKey index, row) ∈ cache.metaRows.rows := by
  unfold Cache.epochDigests
  rw [List.mem_filterMap]
  constructor
  · rintro ⟨⟨key, value⟩, hmem, heq⟩
    obtain ⟨found, hfound, hpair⟩ := Option.map_eq_some_iff.mp heq
    obtain ⟨rfl, rfl⟩ := Prod.mk.inj hpair
    obtain ⟨hindex, rfl⟩ := hm.key_eq hmem hfound
    exact ⟨hindex, hmem⟩
  · rintro ⟨hindex, hmem⟩
    exact ⟨_, hmem, by simp [epochDigestIndex_key hindex]⟩

theorem Cache.MetaOk.epochDigests_increasing (hm : cache.MetaOk) :
    (cache.epochDigests.map (·.1)).Pairwise (· < ·) := by
  rw [List.pairwise_map, Cache.epochDigests, List.pairwise_filterMap]
  refine cache.metaRows.sorted.imp_of_mem ?_
  intro lower upper hlower hupper hlt b hb b' hb'
  obtain ⟨i, hi, rfl⟩ := Option.map_eq_some_iff.mp hb
  obtain ⟨j, hj, rfl⟩ := Option.map_eq_some_iff.mp hb'
  obtain ⟨hbound, hkey⟩ := hm.key_eq hlower hi
  obtain ⟨-, hkey'⟩ := hm.key_eq hupper hj
  rw [hkey, hkey'] at hlt
  show i < j
  by_contra hge
  rcases Nat.lt_or_eq_of_le (Nat.le_of_not_lt hge) with hgt | rfl
  · exact absurd hlt (lt_asymm (epochDigestKey_lt hbound hgt))
  · exact absurd hlt (lt_irrefl _)

theorem Cache.MetaOk.epochDigest_eq_some (hm : cache.MetaOk) {index : Nat} {row : Bytes}
    (hindex : index ≤ u64Max) :
    cache.epochDigest index = some row ↔ (index, row) ∈ cache.epochDigests := by
  rw [hm.mem_epochDigests, and_iff_right hindex]
  exact Table.get_eq_some_iff

end

/-- A digest that was computed stays right across an append. -/
theorem Cache.Appended.digestBody_eq {blocks : List CompactBlock} {base : Option Nat} {next : Nat}
    (happ : Cache.Appended cache blocks base next cache') {start stop : Nat} {digest : EpochDigest}
    (h : digestBody cache chain start stop = .ok digest) :
    digestBody cache' chain start stop = .ok digest := by
  rw [digestBody_congr (happ.range_eq (digestBody_eq_ok.mp h).1)]
  exact h

theorem AllFresh.appended {blocks : List CompactBlock} {base : Option Nat} {next : Nat}
    (hfresh : AllFresh cache chain) (hm : cache.MetaOk) (hm' : cache'.MetaOk)
    (happ : Cache.Appended cache blocks base next cache') : AllFresh cache' chain := by
  intro index row hmem
  have hindex := (hm'.mem_epochDigests.mp hmem).1
  have hold : (index, row) ∈ cache.epochDigests := by
    rw [← hm.epochDigest_eq_some hindex, ← happ.epochDigest, hm'.epochDigest_eq_some hindex]
    exact hmem
  obtain ⟨digest, hencode, hstop, hdigest⟩ := hfresh index row hold
  exact ⟨digest, hencode, hstop, happ.digestBody_eq hdigest⟩

/-- A truncation keeps the rows it leaves fresh. -/
theorem AllFresh.truncated {base : Option Nat} {cut : Nat} (hfresh : AllFresh cache chain)
    (hm : cache.MetaOk) (hbase : cache.snapshotBaseHeight = .ok base) (hcut : cut ≤ u64Max) :
    AllFresh (cache.truncated cut base) chain := by
  intro index row hmem
  have hm' := hm.truncated hbase cut
  have hindex := (hm'.mem_epochDigests.mp hmem).1
  rw [← hm'.epochDigest_eq_some hindex, Cache.truncated_epochDigest cache base hcut hindex] at hmem
  -- A row that is left belongs to an epoch that ends below the cut.
  by_cases hbelow : epochLastHeight index < cut
  swap
  · rw [if_neg hbelow] at hmem
    cases hmem
  rw [if_pos hbelow] at hmem
  have hold := (hm.epochDigest_eq_some hindex).mp hmem
  obtain ⟨digest, hencode, hstop, hdigest⟩ := hfresh index row hold
  refine ⟨digest, hencode, hstop, ?_⟩
  rw [digestBody_congr (Cache.truncated_range base (by omega))]
  exact hdigest

theorem AllFresh.setEpochDigest {index : Nat} {digest : EpochDigest}
    (hfresh : AllFresh cache chain) (hm : cache.MetaOk) (hindex : index ≤ u64Max)
    (hstop : digest.stop = epochLastHeight index)
    (hdigest : digestBody cache chain digest.start digest.stop = .ok digest) :
    AllFresh (cache.setEpochDigest index digest.encode).1 chain := by
  intro i row hmem
  have hm' := hm.setEpochDigest hindex digest.encode
  have hi := (hm'.mem_epochDigests.mp hmem).1
  rw [← hm'.epochDigest_eq_some hi, Cache.setEpochDigest_epochDigest cache _ hindex hi] at hmem
  by_cases heq : i = index
  · rw [if_pos heq] at hmem
    obtain rfl := Option.some.inj hmem
    exact ⟨digest, rfl, heq ▸ hstop, hdigest⟩
  · rw [if_neg heq, hm.epochDigest_eq_some hi] at hmem
    exact hfresh i row hmem

/-! ### The walk and the ingestor

The walk reads and writes in several transactions.  In between the ingestor may call the
store, and the system remembers whether such a call has dropped what the walk has read.
-/

/-- The last height of the epoch whose digests the walk holds. -/
def WalkPhase.heldStop : WalkPhase → Option Nat
  | .computed _ _ digest => some digest.stop
  | .checked _ digest => some digest.stop
  | _ => none

/-- The cache and the walk, with whether a truncation has reached into the epoch whose
digests the walk holds. -/
structure DigestSystem where
  cache : Cache
  walk : WalkPhase
  overtaken : Bool

/-- A call drops a height the walk has read. -/
def StoreOp.reaches (op : StoreOp) (walk : WalkPhase) : Bool :=
  match op.cut, walk.heldStop with
  | some cut, some stop => cut ≤ stop
  | _, _ => false

/-- Whether a call stores a digest, which only the walk does. -/
def StoreOp.storesDigest : StoreOp → Bool
  | .setEpochDigest _ _ => true
  | _ => false

namespace DigestSystem

omit [Sha256] in
def ingest (system : DigestSystem) (op : StoreOp) : DigestSystem :=
  { system with
    cache := (op.apply system.cache).1
    overtaken := system.overtaken || op.reaches system.walk }

/-- One transaction of the walk.  Reading the blocks of an epoch starts afresh. -/
def advance (chain : String) (system : DigestSystem) : DigestSystem where
  cache := (system.walk.step chain system.cache).1
  walk := (system.walk.step chain system.cache).2
  overtaken := match system.walk with
    | .bounded _ _ _ _ => false
    | _ => system.overtaken

end DigestSystem

/-- The states of the runs in which the walk only ever stores in states with
`atStore`. -/
inductive DigestReachable (chain : String) (atStore : DigestSystem → Prop) : DigestSystem → Prop
  | init : DigestReachable chain atStore ⟨Cache.empty, .idle, false⟩
  | ingest {system : DigestSystem} (h : DigestReachable chain atStore system) (op : StoreOp)
      (hop : op.Allowed system.cache) (hdigest : op.storesDigest = false) :
      DigestReachable chain atStore (system.ingest op)
  | advance {system : DigestSystem} (h : DigestReachable chain atStore system)
      (hstore : ∀ index digest, system.walk = .checked index digest → atStore system) :
      DigestReachable chain atStore (system.advance chain)

/-! ### The invariant

Of the blocks the walk has read it knows the digests, as long as it has not been
overtaken.  The stored rows are up to date as long as none is stored by a walk that has
been.
-/

/-- What the walk knows is true of its epoch, and of the blocks as long as it has not
been overtaken. -/
def DigestSystem.WalkOk (chain : String) (system : DigestSystem) : WalkPhase → Prop
  | .idle => True
  | .scanning tip index => tip ≤ u64Max ∧ epochLastHeight index < tip
  | .pending index | .ranged index _ => index ≤ u64Max
  | .bounded index _ _ stop => index ≤ u64Max ∧ stop = epochLastHeight index
  | .computed index _ digest | .checked index digest =>
      index ≤ u64Max ∧ digest.stop = epochLastHeight index ∧
        (system.overtaken = false →
          digestBody system.cache chain digest.start digest.stop = .ok digest)

structure DigestSystem.Inv (chain : String) (system : DigestSystem) : Prop where
  store : StoreReachable system.cache
  fresh : AllFresh system.cache chain
  walk : system.WalkOk chain system.walk

private theorem allFresh_empty : AllFresh Cache.empty chain := by
  intro index row hmem
  cases hmem

omit [Prost] [Sha256] in
/-- An epoch that ends below a word has an index that is one. -/
theorem index_le_of_last_lt {index tip : Nat} (htip : tip ≤ u64Max)
    (h : epochLastHeight index < tip) : index ≤ u64Max := by
  have hlt := (epochLastHeight_lt_iff htip).mp h
  have hle : epochIndex tip ≤ tip := Nat.div_le_self _ _
  omega

theorem DigestSystem.walkOk_scan {system : DigestSystem} {tip index : Nat} (htip : tip ≤ u64Max) :
    system.WalkOk chain (WalkPhase.scan tip index) := by
  unfold WalkPhase.scan
  split
  · rename_i hlast
    exact ⟨htip, hlast⟩
  · trivial

theorem DigestSystem.Inv.ingest {system : DigestSystem} (h : system.Inv chain) {op : StoreOp}
    (hop : op.Allowed system.cache) (hdigest : op.storesDigest = false) :
    (system.ingest op).Inv chain := by
  have hstore : StoreReachable (op.apply system.cache).1 := h.store.call op hop
  have hm := h.store.keeps.2
  -- Digests the walk holds survive a call that does not reach into their epoch.
  have hheld : (∀ start stop digest, digestBody system.cache chain start stop = .ok digest →
      (∀ cut, op.cut = some cut → stop < cut) →
      digestBody (op.apply system.cache).1 chain start stop = .ok digest) ∧
      AllFresh (op.apply system.cache).1 chain := by
    rcases StoreOp.apply_cases hop with
      heq | ⟨blocks, base, start, happ, -⟩ | ⟨cut, base, hcut, hmax, hbase, heq⟩ |
      ⟨index, value, rfl⟩
    · rw [heq]
      exact ⟨fun _ _ _ hd _ => hd, h.fresh⟩
    · exact ⟨fun _ _ _ hd _ => happ.digestBody_eq hd, h.fresh.appended hm hstore.keeps.2 happ⟩
    · rw [heq]
      refine ⟨?_, h.fresh.truncated hm hbase hmax⟩
      intro start stop digest hd hbelow
      rw [digestBody_congr (Cache.truncated_range base (hbelow cut hcut))]
      exact hd
    · cases hdigest
  have hkeep : ∀ index (digest : EpochDigest), system.walk.heldStop = some digest.stop →
      (index ≤ u64Max ∧ digest.stop = epochLastHeight index ∧ (system.overtaken = false →
        digestBody system.cache chain digest.start digest.stop = .ok digest)) →
      index ≤ u64Max ∧ digest.stop = epochLastHeight index ∧
        ((system.ingest op).overtaken = false →
          digestBody (op.apply system.cache).1 chain digest.start digest.stop = .ok digest) := by
    rintro index digest hstop ⟨hindex, hlast, hdigests⟩
    refine ⟨hindex, hlast, fun hovertaken => ?_⟩
    obtain ⟨hbefore, hreaches⟩ := Bool.or_eq_false_iff.mp hovertaken
    refine hheld.1 _ _ _ (hdigests hbefore) ?_
    intro cut hcut
    simpa [StoreOp.reaches, hcut, hstop] using hreaches
  refine ⟨hstore, hheld.2, ?_⟩
  have hwalk := h.walk
  show (system.ingest op).WalkOk chain system.walk
  rcases hcase : system.walk with _ | ⟨tip, index⟩ | index | ⟨index, before⟩ |
    ⟨index, before, start, stop⟩ | ⟨index, before, digest⟩ | ⟨index, digest⟩ <;>
    rw [hcase] at hwalk hkeep
  · trivial
  · exact hwalk
  · exact hwalk
  · exact hwalk
  · exact hwalk
  · exact hkeep index digest rfl hwalk
  · exact hkeep index digest rfl hwalk

/-- A transaction of the walk keeps the invariant, if it does not store digests it has
been overtaken on. -/
theorem DigestSystem.Inv.advance {system : DigestSystem} (h : system.Inv chain)
    (hstore : ∀ index digest, system.walk = .checked index digest → system.overtaken = false) :
    (system.advance chain).Inv chain := by
  have hwalk := h.walk
  have htip : ∀ base tip, system.cache.range = some (base, tip) → tip ≤ u64Max := by
    intro base tip hrange
    obtain ⟨-, w, -, hlast⟩ := Cache.range_eq hrange
    exact Nat.le_of_lt (h.store.rows_below _ (Table.last_mem hlast))
  obtain ⟨cache, walk, overtaken⟩ := system
  simp only at hwalk htip
  rcases walk with _ | ⟨tip, index⟩ | index | ⟨index, before⟩ |
    ⟨index, before, start, stop⟩ | ⟨index, before, digest⟩ | ⟨index, digest⟩
  · rcases hrange : cache.range with _ | ⟨base, tip⟩
    · simp only [DigestSystem.advance, WalkPhase.step, hrange]
      exact ⟨h.store, h.fresh, trivial⟩
    · simp only [DigestSystem.advance, WalkPhase.step, hrange]
      exact ⟨h.store, h.fresh, walkOk_scan (htip _ _ hrange)⟩
  · by_cases hnone : (cache.epochDigest index).isNone = true
    · simp only [DigestSystem.advance, WalkPhase.step, hnone, if_true]
      exact ⟨h.store, h.fresh, index_le_of_last_lt hwalk.1 hwalk.2⟩
    · simp only [DigestSystem.advance, WalkPhase.step, hnone]
      exact ⟨h.store, h.fresh, walkOk_scan hwalk.1⟩
  · exact ⟨h.store, h.fresh, hwalk⟩
  · rcases hbounds : completeEpochBounds cache index with _ | ⟨start, stop⟩
    · simp only [DigestSystem.advance, WalkPhase.step, hbounds]
      exact ⟨h.store, h.fresh, trivial⟩
    · simp only [DigestSystem.advance, WalkPhase.step, hbounds]
      exact ⟨h.store, h.fresh, hwalk, completeEpochBounds_stop hbounds⟩
  · rcases hbody : digestBody cache chain start stop with error | digest
    · simp only [DigestSystem.advance, WalkPhase.step, hbody]
      exact ⟨h.store, h.fresh, trivial⟩
    · simp only [DigestSystem.advance, WalkPhase.step, hbody]
      obtain ⟨rfl, rfl⟩ := digestBody_bounds hbody
      exact ⟨h.store, h.fresh, hwalk.1, hwalk.2, fun _ => hbody⟩
  · by_cases htruncated : wasTruncated before cache.range = true
    · simp only [DigestSystem.advance, WalkPhase.step, htruncated, if_true]
      exact ⟨h.store, h.fresh, trivial⟩
    · simp only [DigestSystem.advance, WalkPhase.step, htruncated]
      exact ⟨h.store, h.fresh, hwalk⟩
  · obtain ⟨hindex, hstop, hdigest⟩ := hwalk
    refine ⟨h.store.call (.setEpochDigest index digest.encode) hindex, ?_, trivial⟩
    exact h.fresh.setEpochDigest h.store.keeps.2 hindex hstop (hdigest (hstore _ _ rfl))

theorem DigestReachable.inv {system : DigestSystem}
    (h : DigestReachable chain (fun system => system.overtaken = false) system) :
    system.Inv chain := by
  induction h with
  | init => exact ⟨.empty, allFresh_empty, trivial⟩
  | ingest _ op hop hdigest ih => exact ih.ingest hop hdigest
  | advance _ hstore ih => exact ih.advance hstore

/--
**Stored digests are fresh.**  In every run in which the walk never stores the
digests of an epoch that a truncation has reached into since it read the epoch's
blocks, every stored row is at every moment the one computed from the blocks held
then.
-/
theorem digests_fresh {system : DigestSystem}
    (h : DigestReachable chain (fun system => system.overtaken = false) system) :
    AllFresh system.cache chain :=
  h.inv.fresh

theorem DigestReachable.advances {atStore : DigestSystem → Prop} :
    ∀ (count : Nat) {system : DigestSystem}, DigestReachable chain atStore system →
      (∀ k, k < count → atStore ((DigestSystem.advance chain)^[k] system)) →
      DigestReachable chain atStore ((DigestSystem.advance chain)^[count] system) := by
  intro count
  induction count with
  | zero =>
      intro system h _
      exact h
  | succ count ih =>
      intro system h hstore
      rw [Function.iterate_succ_apply']
      refine (ih h fun k hk => hstore k (by omega)).advance ?_
      exact fun _ _ _ => hstore count (by omega)

/-! ### The walk with the cache to itself

With no call in between, the transactions are the loop of the source.
-/

/-- Transactions of the walk, one after the other. -/
def walkSteps (chain : String) (count : Nat) (state : Cache × WalkPhase) : Cache × WalkPhase :=
  (fun state => state.2.step chain state.1)^[count] state

/-- The scan finds what `pendingFrom` does, given rounds enough. -/
theorem walkSteps_scan {tip : Nat} (htip : tip ≤ u64Max) :
    ∀ rounds index, tip < index + rounds →
      ∃ count, walkSteps chain count (cache, WalkPhase.scan tip index)
        = (cache, match pendingFrom cache tip rounds index with
          | some index => .pending index
          | none => .idle) := by
  intro rounds
  induction rounds with
  | zero =>
      intro index hlt
      have hlast : ¬ epochLastHeight index < tip := by
        rw [epochLastHeight_lt_iff htip]
        have : epochIndex tip ≤ tip := Nat.div_le_self _ _
        omega
      exact ⟨0, by simp [walkSteps, WalkPhase.scan, hlast, pendingFrom]⟩
  | succ rounds ih =>
      intro index hlt
      unfold pendingFrom
      by_cases hlast : epochLastHeight index < tip
      swap
      · exact ⟨0, by simp [walkSteps, WalkPhase.scan, hlast]⟩
      by_cases hnone : cache.epochDigest index = none
      · exact ⟨1, by simp [walkSteps, WalkPhase.scan, hlast, WalkPhase.step, hnone]⟩
      · obtain ⟨count, hcount⟩ := ih (index + 1) (by omega)
        refine ⟨count + 1, ?_⟩
        rw [if_pos hlast, if_neg (by simpa using hnone), ← hcount, walkSteps,
          Function.iterate_succ_apply]
        simp [walkSteps, WalkPhase.scan, hlast, WalkPhase.step, hnone]

/-- **Undisturbed, the transactions of the walk add up to `storeNextEpochDigest`.** -/
theorem walkSteps_store (hbelow : ∀ row ∈ cache.blocks.rows, row.1 < u64Max) :
    ∃ count, walkSteps chain (count + 1) (cache, .idle)
      = ((storeNextEpochDigest cache chain).1, .idle) := by
  unfold storeNextEpochDigest nextPendingEpoch
  rcases hrange : cache.range with _ | ⟨base, tip⟩
  · exact ⟨0, by simp [walkSteps, WalkPhase.step, hrange]⟩
  have htip : tip ≤ u64Max := by
    obtain ⟨-, w, -, hlast⟩ := Cache.range_eq hrange
    exact Nat.le_of_lt (hbelow _ (Table.last_mem hlast))
  obtain ⟨scanned, hscan⟩ :
      ∃ count, walkSteps chain count (cache, WalkPhase.scan tip (epochIndex base)) = _ :=
    walkSteps_scan htip (tip + 1) (epochIndex base) (by omega)
  have hfirst : ∀ count, walkSteps chain (count + scanned + 1) (cache, .idle)
      = walkSteps chain count
          (walkSteps chain scanned (cache, WalkPhase.scan tip (epochIndex base))) := by
    intro count
    simp only [walkSteps, Function.iterate_succ_apply, WalkPhase.step, hrange,
      Function.iterate_add_apply]
  rcases hpending : pendingFrom cache tip (tip + 1) (epochIndex base) with _ | index
  · refine ⟨0 + scanned, ?_⟩
    rw [hfirst, hscan, hpending]
    simp [walkSteps, hpending]
  rw [hpending] at hscan
  rcases hbounds : completeEpochBounds cache index with _ | ⟨start, stop⟩
  · refine ⟨2 + scanned, ?_⟩
    rw [hfirst, hscan]
    simp [walkSteps, WalkPhase.step, hpending, computeEpochDigest, hbounds]
  rcases hbody : digestBody cache chain start stop with error | digest
  · refine ⟨3 + scanned, ?_⟩
    rw [hfirst, hscan]
    simp [walkSteps, WalkPhase.step, hpending, computeEpochDigest, hbounds, hbody, Except.map]
  · refine ⟨5 + scanned, ?_⟩
    rw [hfirst, hscan]
    have hsame : wasTruncated (some (base, tip)) (some (base, tip)) = false := by
      simp [wasTruncated]
    simp [walkSteps, WalkPhase.step, hpending, computeEpochDigest, hbounds, hbody, Except.map,
      hrange, hsame, Cache.setEpochDigest_eq]

end

/-! ### Two runs -/

/-- Two blocks, of which the first is all of epoch 0 that is cached. -/
def twoBlocks (seed : UInt8) (time : Nat) : List CompactBlock := [
  { height := 9999, hash := List.replicate 32 seed, time := time },
  { height := 10000, hash := List.replicate 32 (seed + 1), prevHash := List.replicate 32 seed,
    time := time }]

/-- The blocks are cached, and the walk takes its first `count` transactions. -/
def walkedSystem (count : Nat) : DigestSystem :=
  (DigestSystem.advance "main")^[count]
    ((⟨Cache.empty, .idle, false⟩ : DigestSystem).ingest (.addBatch (twoBlocks 0xaa 1)))

theorem walkedSystem_fresh :
    DigestReachable "main" (fun system => system.overtaken = false) (walkedSystem 7) ∧
      (walkedSystem 7).cache.epochDigests.length = 1 ∧ AllFresh (walkedSystem 7).cache "main" := by
  have hrun : DigestReachable "main" (fun system => system.overtaken = false) (walkedSystem 7) := by
    refine (DigestReachable.init.ingest (.addBatch (twoBlocks 0xaa 1)) trivial rfl).advances 7 ?_
    intro k hk
    interval_cases k <;> rfl
  exact ⟨hrun, by decide +kernel, digests_fresh hrun⟩

/-- The epoch is replaced between the reading of its blocks and the second reading of
the range, which then is what it was. -/
def replacedSystem : DigestSystem :=
  (DigestSystem.advance "main")^[2] (((walkedSystem 5).ingest (.truncateFrom 9999)).ingest
    (.addBatch (twoBlocks 0xbb 1000)))

/-- The epoch is dropped after the second reading of the range. -/
def droppedSystem : DigestSystem :=
  (DigestSystem.advance "main")^[1] ((walkedSystem 6).ingest (.truncateFrom 9999))

theorem walkedSystem_reachable (count : Nat) :
    DigestReachable "main" (fun _ => True) (walkedSystem count) :=
  (DigestReachable.init.ingest (.addBatch (twoBlocks 0xaa 1)) trivial rfl).advances count
    fun _ _ => trivial

theorem Writable.length_le {cache : Cache} {chain : String} {start stop : Nat}
    (h : Writable cache chain start stop) : stop - start + 1 ≤ cache.blocks.rows.length := by
  rw [← h.whole]
  exact List.length_filter_le _ _

theorem EpochDigest.encode_bytes (digest : EpochDigest) :
    (digest.encode.drop 16).take 8 = leBytes 8 digest.bytes := by
  have hencode : digest.encode = (leBytes 8 digest.start ++ leBytes 8 digest.stop) ++
      (leBytes 8 digest.bytes ++ (digest.content ++ digest.anchor)) := by
    simp [EpochDigest.encode]
  rw [hencode, List.drop_left' (by simp), List.take_left' (leBytes_length 8 _)]

theorem digests_stale :
    (DigestReachable "main" (fun _ => True) replacedSystem ∧
      ¬ AllFresh replacedSystem.cache "main") ∧
    (DigestReachable "main" (fun _ => True) droppedSystem ∧
      ¬ AllFresh droppedSystem.cache "main") := by
  have hcut : 9999 < u64Max := by decide
  refine ⟨⟨?_, ?_⟩, ?_, ?_⟩
  · exact (((walkedSystem_reachable 5).ingest (.truncateFrom 9999) hcut rfl).ingest
      (.addBatch (twoBlocks 0xbb 1000)) trivial rfl).advances 2 fun _ _ => trivial
  · intro hfresh
    have hrows : (replacedSystem.cache.epochDigests.map fun row => (row.1, (row.2.drop 16).take 8))
        = [(0, leBytes 8 68)] := by decide +kernel
    obtain ⟨⟨index, row⟩, hdigests, hrow⟩ := List.map_eq_singleton_iff.mp hrows
    obtain ⟨rfl, hbytes⟩ := Prod.mk.inj hrow
    obtain ⟨digest, rfl, hstop, hdigest⟩ := hfresh 0 row (by simp [hdigests])
    rw [EpochDigest.encode_bytes] at hbytes
    -- The only body that ends at height 9999 is that of the one block, and it is longer.
    have hwritable := (digestBody_eq_ok.mp hdigest).1
    have hheld : replacedSystem.cache.blocks.rows.length = 2 ∧
        (replacedSystem.cache.blocks.range 9998 9999).length = 1 ∧
        ((digestBody replacedSystem.cache "main" 9999 9999).toOption.map (·.bytes)) = some 69 := by
      decide +kernel
    have hlast : digest.stop = 9999 := hstop
    rw [hlast] at hwritable hdigest
    have hlength := hwritable.length_le
    have hbounds := hwritable.bounds
    have hwhole := hwritable.whole
    obtain hstart | hstart : digest.start = 9998 ∨ digest.start = 9999 := by omega
    · rw [hstart] at hwhole
      omega
    · rw [hstart] at hdigest
      rw [hdigest] at hheld
      have hlonger : digest.bytes = 69 := Option.some.inj hheld.2.2
      rw [hlonger] at hbytes
      exact absurd hbytes (by decide)
  · exact ((walkedSystem_reachable 6).ingest (.truncateFrom 9999) hcut rfl).advances 1
      fun _ _ => trivial
  · intro hfresh
    have hrows : droppedSystem.cache.epochDigests.length = 1 ∧
        droppedSystem.cache.blocks.rows.length = 0 := by decide +kernel
    obtain ⟨⟨index, row⟩, hdigests⟩ := List.length_eq_one_iff.mp hrows.1
    obtain ⟨digest, -, -, hdigest⟩ := hfresh index row (by simp [hdigests])
    have := (digestBody_eq_ok.mp hdigest).1.length_le
    omega

end Lightwalletd
