/-
A publisher and its consumers agree.

Whatever appends, truncations and walks a publisher's cache has seen, its digests
are those of a run of epochs from the one of its lowest height on, each digest made
of the blocks held now: an append and a truncation leave the rows of such a run, and
the walk adds the one right above it.  The manifest built from them passes, and
every body it lists is written from rows of one chain, so that the import is that of
an honest peer.
-/
import Lightwalletd.Proofs.Digests
import Lightwalletd.Proofs.Resume

namespace Lightwalletd

section

variable [Prost] [Sha256]

/-! ### The caches of a publisher

A publisher appends, truncates and walks, in any order.  The epochs it has digests of
are a run, and it holds them in full.
-/

/-- What appends of linked blocks, truncations and undisturbed walks lead to. -/
inductive PublisherReachable (chain : String) : Cache → Prop
  | empty : PublisherReachable chain Cache.empty
  | append {cache : Cache} (h : PublisherReachable chain cache) (blocks : List CompactBlock)
      (hchain : blocks.IsChain Extends)
      (hjoin : ∀ row tip first, cache.blocks.last = some row → Prost.decode row.2 = .ok tip →
        blocks.head? = some first → Extends tip first) :
      PublisherReachable chain (cache.addBatch blocks).1
  | reorg {cache : Cache} (h : PublisherReachable chain cache) (height : Nat)
      (hheight : height < u64Max) : PublisherReachable chain (cache.reorg height).1
  | truncateFrom {cache : Cache} (h : PublisherReachable chain cache) (height : Nat)
      (hheight : height < u64Max) : PublisherReachable chain (cache.truncateFrom height).1
  | digest {cache : Cache} (h : PublisherReachable chain cache) :
      PublisherReachable chain (storeNextEpochDigest cache chain).1

/-- `row` is the row of epoch `index` as far as the cache holds it. -/
def PublishedRow (chain : String) (cache : Cache) (index : Nat) (row : Bytes) : Prop :=
  ∃ low digest, cache.blocks.first = some low ∧ epochIndex low.1 ≤ index ∧
    row = EpochDigest.encode digest ∧
    digestBody cache chain (max (epochFirstHeight index) low.1) (epochLastHeight index) = .ok digest

/-- The invariant of a publisher: one chain, and digests of a run of epochs from the
lowest height on. -/
structure Publishes (chain : String) (cache : Cache) : Prop where
  store : StoreReachable cache
  chained : cache.Chained Extends
  rows : ∀ index row, index ≤ u64Max → cache.epochDigest index = some row →
    PublishedRow chain cache index row
  closed : ∀ low, cache.blocks.first = some low → ∀ index, index ≤ u64Max →
    (cache.epochDigest index).isSome → ∀ k, epochIndex low.1 ≤ k → k ≤ index →
    (cache.epochDigest k).isSome

variable {chain : String} {cache cache' : Cache}

private theorem publishes_empty : Publishes chain Cache.empty :=
  ⟨StoreReachable.empty, Cache.chained_empty, nofun, nofun⟩

theorem Publishes.appended {blocks : List CompactBlock} {start : Nat} (h : Publishes chain cache)
    (happ : Cache.Appended cache blocks none start cache') (hstore : StoreReachable cache')
    (hchained : cache'.Chained Extends) : Publishes chain cache' := by
  refine ⟨hstore, hchained, ?_, ?_⟩
  · intro index row hindex hrow
    rw [happ.epochDigest] at hrow
    obtain ⟨low, digest, hfirst, hle, rfl, hdigest⟩ := h.rows index row hindex hrow
    exact ⟨low, digest, Table.first_of_append happ.rows hfirst, hle, rfl,
      happ.digestBody_eq hdigest⟩
  · intro low hlow index hindex hsome k hk hkindex
    rw [happ.epochDigest] at hsome ⊢
    obtain ⟨row, hrow⟩ := Option.isSome_iff_exists.mp hsome
    obtain ⟨low', digest, hfirst, -⟩ := h.rows index row hindex hrow
    have hfirst' := Table.first_of_append happ.rows hfirst
    obtain rfl := Option.some.inj (hlow.symm.trans hfirst')
    exact h.closed low hfirst index hindex hsome k hk hkindex

theorem Publishes.truncated {base : Option Nat} {cut : Nat} (h : Publishes chain cache)
    (hcut : cut ≤ u64Max) (hstore : StoreReachable (cache.truncated cut base)) :
    Publishes chain (cache.truncated cut base) := by
  -- A digest that is left belongs to blocks that are left, the lowest one among them.
  have hleft : ∀ index row, index ≤ u64Max → (cache.truncated cut base).epochDigest index
      = some row →
      cache.epochDigest index = some row ∧ epochLastHeight index < cut ∧
      ∃ low digest, cache.blocks.first = some low ∧
        (cache.truncated cut base).blocks.first = some low ∧ epochIndex low.1 ≤ index ∧
        row = EpochDigest.encode digest ∧ digestBody (cache.truncated cut base) chain
          (max (epochFirstHeight index) low.1) (epochLastHeight index) = .ok digest := by
    intro index row hindex hrow
    rw [Cache.truncated_epochDigest cache base hcut hindex] at hrow
    by_cases hbelow : epochLastHeight index < cut
    swap
    · rw [if_neg hbelow] at hrow
      cases hrow
    rw [if_pos hbelow] at hrow
    obtain ⟨low, digest, hfirst, hle, rfl, hdigest⟩ := h.rows index row hindex hrow
    have hbounds := (digestBody_eq_ok.mp hdigest).1.bounds
    have hkept : low ∈ (cache.truncated cut base).blocks.rows := by
      refine List.mem_filter.mpr ⟨Table.first_mem hfirst, ?_⟩
      have : low.1 < cut := by omega
      simpa using this
    refine ⟨hrow, hbelow, low, digest, hfirst, ?_, hle, rfl, ?_⟩
    · rw [Table.first_of_prefix (Cache.prefix_truncated cache cut base) (List.ne_nil_of_mem hkept)]
      exact hfirst
    · rw [digestBody_congr (Cache.truncated_range base hbelow)]
      exact hdigest
  refine ⟨hstore, h.chained.truncated cut base, ?_, ?_⟩
  · intro index row hindex hrow
    obtain ⟨-, -, low, digest, -, hfirst, hle, hencode, hdigest⟩ := hleft index row hindex hrow
    exact ⟨low, digest, hfirst, hle, hencode, hdigest⟩
  · intro low hlow index hindex hsome k hk hkindex
    obtain ⟨row, hrow⟩ := Option.isSome_iff_exists.mp hsome
    obtain ⟨hold, hbelow, low', digest, hfirst, hfirst', -⟩ := hleft index row hindex hrow
    obtain rfl := Option.some.inj (hlow.symm.trans hfirst')
    have hkbelow : epochLastHeight k < cut := by
      rw [epochLastHeight_lt_iff hcut] at hbelow ⊢
      omega
    rw [Cache.truncated_epochDigest cache base hcut (by omega), if_pos hkbelow]
    exact h.closed low hfirst index hindex (by simp [hold]) k hk hkindex

/-! ### The walk

The walk looks for the first epoch without digests and computes them.
-/

omit [Prost] [Sha256] in
/-- The scan finds the lowest epoch that is complete and has no digest. -/
theorem pendingFrom_eq_some {tip : Nat} :
    ∀ rounds index found, pendingFrom cache tip rounds index = some found →
      index ≤ found ∧ epochLastHeight found < tip ∧
        ∀ k, index ≤ k → k < found → (cache.epochDigest k).isSome := by
  intro rounds
  induction rounds with
  | zero => nofun
  | succ rounds ih =>
      intro index found h
      rw [pendingFrom] at h
      by_cases hlast : epochLastHeight index < tip
      swap
      · rw [if_neg hlast] at h
        cases h
      rw [if_pos hlast] at h
      by_cases hnone : (cache.epochDigest index).isNone = true
      · rw [if_pos hnone] at h
        obtain rfl := Option.some.inj h
        exact ⟨Nat.le_refl _, hlast, fun k _ _ => by omega⟩
      · rw [if_neg hnone] at h
        obtain ⟨hle, hbelow, hall⟩ := ih (index + 1) found h
        refine ⟨by omega, hbelow, ?_⟩
        intro k hk hkfound
        by_cases heq : k = index
        · rw [heq]
          simpa [Option.isSome_iff_ne_none] using hnone
        · exact hall k (by omega) hkfound

/-- What a walk does: nothing, or store the digests of the epoch right above those that
have them. -/
theorem storeNextEpochDigest_cases (cache : Cache) (chain : String) :
    (storeNextEpochDigest cache chain).1 = cache ∨
      ∃ base tip index digest, cache.range = some (base, tip) ∧ epochIndex base ≤ index ∧
        epochLastHeight index < tip ∧
        (∀ k, epochIndex base ≤ k → k < index → (cache.epochDigest k).isSome) ∧
        digestBody cache chain (max (epochFirstHeight index) base) (epochLastHeight index)
          = .ok digest ∧
        (storeNextEpochDigest cache chain).1
          = (cache.setEpochDigest index digest.encode).1 := by
  unfold storeNextEpochDigest nextPendingEpoch
  rcases hrange : cache.range with _ | ⟨base, tip⟩
  · exact Or.inl rfl
  simp only
  rcases hpending : pendingFrom cache tip (tip + 1) (epochIndex base) with _ | index
  · exact Or.inl rfl
  simp only
  obtain ⟨hle, hlast, hall⟩ := pendingFrom_eq_some _ _ _ hpending
  unfold computeEpochDigest completeEpochBounds
  simp only [hrange]
  by_cases hbounds : max (epochFirstHeight index) base > epochLastHeight index ∨
      epochLastHeight index ≥ tip
  · simp only [if_pos hbounds]
    exact Or.inl trivial
  simp only [if_neg hbounds]
  rcases hdigest :
    digestBody cache chain (max (epochFirstHeight index) base) (epochLastHeight index)
    with error | digest
  · exact Or.inl rfl
  have hsame : wasTruncated (some (base, tip)) (some (base, tip)) = false := by
    simp [wasTruncated]
  simp only [Except.map, hsame, Bool.false_eq_true, if_false, Cache.setEpochDigest_eq]
  exact Or.inr ⟨base, tip, index, digest, rfl, hle, hlast, hall, hdigest, rfl⟩

theorem Publishes.walked (h : Publishes chain cache) :
    Publishes chain (storeNextEpochDigest cache chain).1 := by
  rcases storeNextEpochDigest_cases cache chain with
    heq | ⟨base, tip, index, digest, hrange, hle, hlast, hbefore, hdigest, heq⟩
  · rw [heq]
    exact h
  rw [heq]
  obtain ⟨v, w, hfirst, htop⟩ := Cache.range_eq hrange
  have hindex : index ≤ u64Max :=
    index_le_of_last_lt (Nat.le_of_lt (h.store.rows_below _ (Table.last_mem htop))) hlast
  have hget : ∀ i, i ≤ u64Max → (cache.setEpochDigest index digest.encode).1.epochDigest i
      = if i = index then some digest.encode else cache.epochDigest i :=
    fun i hi => Cache.setEpochDigest_epochDigest cache digest.encode hindex hi
  refine ⟨h.store.call (.setEpochDigest index digest.encode) hindex,
    h.chained.of_blocks rfl, ?_, ?_⟩
  · intro i row hi hrow
    rw [hget i hi] at hrow
    by_cases hnew : i = index
    · rw [if_pos hnew] at hrow
      rw [hnew]
      exact ⟨(base, v), digest, hfirst, hle, (Option.some.inj hrow).symm, hdigest⟩
    · rw [if_neg hnew] at hrow
      exact h.rows i row hi hrow
  · intro low hlow i hi hsome k hk hki
    obtain rfl := Option.some.inj (hlow.symm.trans hfirst)
    rw [hget i hi] at hsome
    rw [hget k (by omega)]
    by_cases hnew : k = index
    · rw [if_pos hnew]
      rfl
    rw [if_neg hnew]
    by_cases htop : i = index
    · exact hbefore k hk (by omega)
    · rw [if_neg htop] at hsome
      exact h.closed (base, v) hfirst i hi hsome k hk hki

theorem PublisherReachable.publishes (h : PublisherReachable chain cache) :
    Publishes chain cache := by
  have hcut : ∀ {cache : Cache} (op : StoreOp) {cut : Nat}, Publishes chain cache →
      op.Allowed cache → op.cut = some cut → Publishes chain (op.apply cache).1 := by
    intro cache op cut hpub hop hcut
    obtain ⟨hmax, happly⟩ := StoreOp.apply_of_cut hop hcut
    obtain ⟨base, hbase⟩ := hpub.store.keeps.2.readable
    have hstore := hpub.store.call op hop
    rw [happly, Cache.removeFrom_eq hbase] at hstore ⊢
    exact hpub.truncated hmax hstore
  induction h with
  | empty => exact publishes_empty
  | @append cache _ blocks hchain hjoin ih =>
      have hstore := ih.store.call (.addBatch blocks) trivial
      have hcases := cache.append_cases (blocks.map .ok) none
      simp only [StoreOp.apply, Cache.addBatch] at hstore ⊢
      rcases hcases with ⟨e, heq⟩ | ⟨-, heq⟩ | ⟨blocks', start, cache', hmap, heq, happ⟩
      · rw [heq]
        exact ih
      · rw [heq]
        exact ih
      · obtain rfl : blocks = blocks' :=
          List.map_injective_iff.mpr (fun _ _ h => Except.ok.inj h) hmap
        rw [heq] at hstore ⊢
        exact ih.appended happ hstore (happ.chained ih.chained hchain hjoin)
  | reorg _ height hheight ih => exact hcut (.reorg height) ih hheight rfl
  | truncateFrom _ height hheight ih => exact hcut (.truncateFrom height) ih hheight rfl
  | digest _ ih => exact ih.walked

/-! ### The chain it holds -/

omit [Sha256] in
/-- The block held at a height. -/
def Cache.blockAt (cache : Cache) (height : Nat) : CompactBlock :=
  match cache.get height with
  | .ok (some block) => block
  | _ => {}

omit [Sha256] in
theorem Cache.Stored.decode_blockAt (h : cache.Stored) {row : Nat × Bytes}
    (hrow : row ∈ cache.blocks.rows) :
    Prost.decode row.2 = .ok (cache.blockAt row.1) ∧ (cache.blockAt row.1).height = row.1 ∧
      cache.get row.1 = .ok (some (cache.blockAt row.1)) := by
  obtain ⟨block, hdecode, hheight, hget⟩ := h.get_eq (Table.get_eq_some_iff.mpr hrow)
  have hblock : cache.blockAt row.1 = block := by
    rw [Cache.blockAt, hget]
  rw [hblock]
  exact ⟨hdecode, hheight, hget⟩

omit [Sha256] in
theorem Cache.Stored.held (h : cache.Stored) {base tip height : Nat}
    (hrange : cache.range = some (base, tip)) (hlow : base ≤ height) (hhigh : height ≤ tip) :
    ∃ value, (height, value) ∈ cache.blocks.rows := by
  obtain ⟨v, w, hfirst, hlast⟩ := Cache.range_eq hrange
  exact Table.mem_keys.mp ((h.contiguous.mem_keys_iff hfirst hlast).mpr ⟨hlow, hhigh⟩)

omit [Sha256] in
theorem Cache.Chained.segment (h : cache.Chained Extends) (hstore : StoreReachable cache)
    {base tip : Nat} (hrange : cache.range = some (base, tip)) :
    ChainSegment cache.blockAt base tip := by
  refine ⟨?_, ?_, ?_⟩
  · intro height hlow hhigh
    obtain ⟨value, hrow⟩ := h.toStored.held hrange hlow hhigh
    exact (h.toStored.decode_blockAt hrow).2.1
  · intro height hlow hhigh
    obtain ⟨value, hrow⟩ := h.toStored.held hrange hlow (Nat.le_of_lt hhigh)
    obtain ⟨next, hnext⟩ := h.toStored.held hrange (Nat.le_succ_of_le hlow) hhigh
    exact h.contiguous.adjacent h.chained (Table.get_eq_some_iff.mpr hrow)
      (Table.get_eq_some_iff.mpr hnext) _ _ (h.toStored.decode_blockAt hrow).1
      (h.toStored.decode_blockAt hnext).1
  · obtain ⟨v, w, -, hlast⟩ := Cache.range_eq hrange
    exact hstore.rows_below _ (Table.last_mem hlast)

/-! ### The manifest

The stored rows become the entries.  Being those of consecutive epochs, they pass every
check of a consumer.
-/

/-- `entry` describes its epoch as far as the cache holds it, and the epoch is served. -/
structure PublishedEntry (chain : String) (cache : Cache) (base : Nat)
    (entry : EpochEntry) : Prop where
  start : entry.start = max (epochFirstHeight entry.index) base
  stop : entry.stop = epochLastHeight entry.index
  index : epochIndex base ≤ entry.index ∧ entry.index ≤ u64Max
  writable : Writable cache chain entry.start entry.stop
  bytes : entry.bytes
    = (bodyOf chain entry.start (cache.blocks.range entry.start entry.stop)).length
  body : writeEpoch cache chain entry.index
    = .ok (bodyOf chain entry.start (cache.blocks.range entry.start entry.stop))
  content : entry.contentDigest = hexEncode (contentDigest
    (bodyOf chain entry.start (cache.blocks.range entry.start entry.stop)))
  anchor : ∃ blocks : List CompactBlock,
    (cache.blocks.range entry.start entry.stop).map (fun row => Prost.decode row.2)
      = blocks.map .ok ∧
    (cache.blocks.range entry.start entry.stop).map (·.1) = blocks.map (·.height) ∧
    entry.anchor = hexEncode (anchorFinish
      (blocks.foldl (fun folded block => anchorUpdate folded block.height block.hash) []))

theorem Publishes.entry (h : Publishes chain cache)
    (hsize : ∀ index body, writeEpoch cache chain index = .ok body → body.length ≤ maxEpochBytes)
    {low : Nat × Bytes} (hfirst : cache.blocks.first = some low) {index : Nat} {row : Bytes}
    (hindex : index ≤ u64Max) (hrow : cache.epochDigest index = some row) :
    ∃ digest, EpochDigest.decode row = some digest ∧
      PublishedEntry chain cache low.1 (digest.entry index) := by
  obtain ⟨low', digest, hfirst', hle, rfl, hdigest⟩ := h.rows index row hindex hrow
  obtain rfl := Option.some.inj (hfirst.symm.trans hfirst')
  obtain ⟨hwritable, blocks, hdecode, hheights, heq⟩ := digestBody_eq_ok.mp hdigest
  have hstart : digest.start = max (epochFirstHeight index) low.1 := by rw [heq]
  have hstop : digest.stop = epochLastHeight index := by rw [heq]
  have hmax : epochLastHeight index ≤ u64Max := satAdd_le _ _
  have hbounds := hwritable.bounds
  have hread : EpochDigest.decode digest.encode
      = some { digest with bytes := digest.bytes % 256 ^ 8 } := by
    refine EpochDigest.decode_encode (by omega) (by omega) ?_ ?_
    · rw [heq]
      exact Sha256.digest_length _
    · rw [heq]
      exact Sha256.digest_length _
  rw [← hstart, ← hstop] at hwritable
  have hbody := writeEpoch_eq hrow hread hwritable
  have hbytes : digest.bytes
      = (bodyOf chain digest.start (cache.blocks.range digest.start digest.stop)).length := by
    rw [hstart, hstop, heq]
  have hlimit := hsize index _ hbody
  -- The stored length is the real one, since that fits a word.
  have hfits : digest.bytes % 256 ^ 8 = digest.bytes := by
    refine Nat.mod_eq_of_lt ?_
    rw [hbytes]
    exact Nat.lt_of_le_of_lt hlimit (by decide)
  rw [hfits] at hread
  refine ⟨digest, hread, hstart, hstop, ⟨hle, hindex⟩, hwritable, hbytes, hbody, ?_,
    blocks, ?_, ?_, ?_⟩
  · show hexEncode digest.content = hexEncode (contentDigest
      (bodyOf chain digest.start (cache.blocks.range digest.start digest.stop)))
    rw [hstart, hstop, heq]
    rfl
  · show (cache.blocks.range digest.start digest.stop).map _ = _
    rw [hstart, hstop]
    exact hdecode
  · show (cache.blocks.range digest.start digest.stop).map _ = _
    rw [hstart, hstop]
    exact hheights
  · show hexEncode digest.anchor = _
    rw [heq]
    rfl

omit [Prost] [Sha256] in
theorem Cache.range_isSome {low : Nat × Bytes} (h : cache.blocks.first = some low) :
    ∃ tip, cache.range = some (low.1, tip) := by
  rcases hlast : cache.blocks.last with _ | top
  · rw [Table.first, Table.last_eq_none_iff.mp hlast] at h
    cases h
  · exact ⟨top.1, by simp only [Cache.range, h, hlast]⟩

/-- What the manifest of a publisher says. -/
structure PublishedManifest (chain : String) (cache : Cache) (m : Manifest) : Prop where
  header : m.formatVersion = formatVersion ∧ m.epochSize = epochSize ∧ m.chain = chain
  nothing : cache.range = none → m.epochs = []
  base : ∀ base tip, cache.range = some (base, tip) → m.baseHeight = base
  indexes : ∀ base tip, cache.range = some (base, tip) →
    m.epochs.map (·.index) = List.range' (epochIndex base) m.epochs.length
  entries : ∀ base tip, cache.range = some (base, tip) →
    ∀ entry ∈ m.epochs, PublishedEntry chain cache base entry

theorem Publishes.epochDigests_indexes (h : Publishes chain cache) {low : Nat × Bytes}
    (hfirst : cache.blocks.first = some low) :
    cache.epochDigests.map (·.1)
      = List.range' (epochIndex low.1) (cache.epochDigests.map (·.1)).length := by
  have hm := h.store.keeps.2
  have hmem : ∀ n, n ∈ cache.epochDigests.map (·.1) ↔ n ≤ u64Max ∧
      (cache.epochDigest n).isSome := by
    intro n
    rw [List.mem_map, Option.isSome_iff_exists]
    constructor
    · rintro ⟨⟨index, row⟩, hrow, rfl⟩
      have hindex := (hm.mem_epochDigests.mp hrow).1
      exact ⟨hindex, row, (hm.epochDigest_eq_some hindex).mpr hrow⟩
    · rintro ⟨hindex, row, hrow⟩
      exact ⟨(n, row), (hm.epochDigest_eq_some hindex).mp hrow, rfl⟩
  refine eq_range'_of_closed hm.epochDigests_increasing ?_ ?_
  · intro n hn
    obtain ⟨hindex, hsome⟩ := (hmem n).mp hn
    obtain ⟨row, hrow⟩ := Option.isSome_iff_exists.mp hsome
    obtain ⟨low', digest, hfirst', hle, -⟩ := h.rows n row hindex hrow
    obtain rfl := Option.some.inj (hfirst.symm.trans hfirst')
    exact hle
  · intro n hn k hk hkn
    obtain ⟨hindex, hsome⟩ := (hmem n).mp hn
    exact (hmem k).mpr ⟨by omega, h.closed low hfirst n hindex hsome k hk hkn⟩

theorem Publishes.manifest (h : Publishes chain cache)
    (hsize : ∀ index body, writeEpoch cache chain index = .ok body → body.length ≤ maxEpochBytes) :
    ∃ m, Lightwalletd.manifest cache chain = .ok m ∧ PublishedManifest chain cache m := by
  have hm := h.store.keeps.2
  have hrow : ∀ digest ∈ cache.epochDigests,
      digest.1 ≤ u64Max ∧ cache.epochDigest digest.1 = some digest.2 := by
    intro digest hdigest
    have hindex := (hm.mem_epochDigests.mp hdigest).1
    exact ⟨hindex, (hm.epochDigest_eq_some hindex).mpr hdigest⟩
  unfold Lightwalletd.manifest
  rcases hrange : cache.range with _ | ⟨base, tip⟩
  · have hempty : cache.epochDigests = [] := by
      refine List.eq_nil_iff_forall_not_mem.mpr ?_
      intro digest hdigest
      obtain ⟨hindex, hget⟩ := hrow digest hdigest
      obtain ⟨low, -, hfirst, -⟩ := h.rows _ _ hindex hget
      obtain ⟨tip, hsome⟩ := Cache.range_isSome hfirst
      rw [hrange] at hsome
      cases hsome
    rw [hempty]
    refine ⟨_, rfl, ⟨rfl, rfl, rfl⟩, fun _ => rfl, ?_, ?_, ?_⟩
    all_goals
      intro base tip hsome
      rw [hrange] at hsome
      cases hsome
  · obtain ⟨v, w, hfirst, -⟩ := Cache.range_eq hrange
    have hentry : ∀ digest ∈ cache.epochDigests, ∃ entry,
        ((EpochDigest.decode digest.2).elim (.error (.malformedDigest digest.1))
          fun found => .ok (found.entry digest.1) : Except SnapshotError EpochEntry) = .ok entry ∧
        entry.index = digest.1 ∧ PublishedEntry chain cache base entry := by
      intro digest hdigest
      obtain ⟨hindex, hget⟩ := hrow digest hdigest
      obtain ⟨found, hdecode, hpublished⟩ := h.entry hsize hfirst hindex hget
      exact ⟨found.entry digest.1, by rw [hdecode, Option.elim_some], rfl, hpublished⟩
    obtain ⟨entries, hentries, hall⟩ := Except.mapM_forall₂ hentry
    have hindexes : entries.map (·.index) = cache.epochDigests.map (·.1) ∧
        ∀ entry ∈ entries, PublishedEntry chain cache base entry := by
      clear hentries hentry hrow
      generalize cache.epochDigests = digests at hall ⊢
      induction hall with
      | nil => exact ⟨rfl, by simp⟩
      | cons hab _ ih =>
          refine ⟨by rw [List.map_cons, List.map_cons, hab.1, ih.1], ?_⟩
          intro entry hin
          rcases List.mem_cons.mp hin with rfl | hin
          · exact hab.2
          · exact ih.2 entry hin
    simp only [Option.getD_some]
    refine ⟨_, Except.bind_eq_ok.mpr ⟨entries, ?_, rfl⟩, ⟨rfl, rfl, rfl⟩, ?_, ?_, ?_, ?_⟩
    · rw [← hentries]
      refine congrArg (cache.epochDigests.mapM ·) (funext fun digest => ?_)
      rcases EpochDigest.decode digest.2 with _ | found
      · rfl
      · rfl
    · intro hnone
      rw [hrange] at hnone
      cases hnone
    all_goals
      intro base' tip' hsome
      obtain ⟨rfl, rfl⟩ := Prod.mk.inj (Option.some.inj (hrange.symm.trans hsome))
    · rfl
    · have hrun := h.epochDigests_indexes hfirst
      rw [← hindexes.1, List.length_map] at hrun
      exact hrun
    · exact hindexes.2

omit [Prost] [Sha256] in
private theorem le_epochFirstHeight {base index : Nat} (hbase : base ≤ u64Max)
    (h : epochIndex base < index) :
    base ≤ epochFirstHeight index := by
  simp only [epochIndex, epochSize, epochFirstHeight, satMul] at h ⊢
  omega

theorem checkEntries_published {base : Nat} (hbase : base ≤ u64Max) :
    ∀ (entries : List EpochEntry) (previous : Option EpochEntry) (next : Nat),
      entries.map (·.index) = List.range' next entries.length →
      (∀ entry ∈ entries, PublishedEntry chain cache base entry) →
      (previous = none → next = epochIndex base) →
      (∀ p ∈ previous, next = p.index + 1 ∧ epochIndex base < next) →
      checkEntries base previous entries = .ok () := by
  intro entries
  induction entries with
  | nil =>
      intro previous next _ _ _ _
      rfl
  | cons entry entries ih =>
      intro previous next hindexes hentries hnone hsome
      rw [List.map_cons, List.length_cons, List.range'_succ, List.cons.injEq] at hindexes
      have hpublished := hentries entry List.mem_cons_self
      have hmax := hpublished.index.2
      have hentry : checkEntry base previous entry = .ok () := by
        refine checkEntry_eq_ok.mpr ⟨hpublished.writable.bounds, hpublished.stop, ?_⟩
        rcases previous with _ | previous
        · have hin := (epochIndex_bounds hbase).1
          have hstart := hpublished.start
          rw [hindexes.1, hnone rfl, max_eq_right hin] at hstart
          refine ⟨?_, hstart.symm⟩
          rw [hstart, hindexes.1, hnone rfl]
          exact hin
        · obtain ⟨hnext, hlt⟩ := hsome previous rfl
          refine ⟨?_, ?_⟩
          · rw [← hnext, hindexes.1]
            simp only [u64Max] at hmax
            omega
          · rw [hpublished.start, max_eq_left]
            exact le_epochFirstHeight hbase (hindexes.1 ▸ hlt)
      rw [checkEntries, hentry, Except.ok_bind]
      refine ih (some entry) (next + 1) hindexes.2
        (fun e he => hentries e (List.mem_cons_of_mem _ he)) (by simp) ?_
      rintro p ⟨⟩
      have hle := hpublished.index.1
      rw [hindexes.1] at hle ⊢
      exact ⟨rfl, by omega⟩

/-- The manifest of a publisher is one of the chain it holds. -/
theorem Publishes.manifestOf (h : Publishes chain cache) (hchain : validChain chain = true)
    {m : Manifest} (hm : PublishedManifest chain cache m) {base tip : Nat}
    (hrange : cache.range = some (base, tip)) : ManifestOf chain cache.blockAt base tip m := by
  obtain ⟨v, w, hfirst, hlast⟩ := Cache.range_eq hrange
  have hsegment := h.chained.segment h.store hrange
  have hbase : base ≤ u64Max := Nat.le_of_lt (h.store.rows_below _ (Table.first_mem hfirst))
  have hentries := hm.entries base tip hrange
  obtain ⟨hversion, hsize, hname⟩ := hm.header
  refine ⟨hchain, hsegment, ?_, ?_, ?_⟩
  · refine validateManifest_eq_ok.mpr ⟨hversion, hsize, hname, ?_⟩
    rw [hm.base base tip hrange]
    exact checkEntries_published hbase m.epochs none _ (hm.indexes base tip hrange) hentries
      (fun _ => rfl) nofun
  · intro entry hin
    have hpublished := hentries entry hin
    refine ⟨?_, hpublished.writable.bounds, ?_⟩
    · rw [hpublished.start]
      exact Nat.le_max_right _ _
    · -- The last height of a body that can be written is held.
      have hstop : entry.stop ∈ (cache.blocks.range entry.start entry.stop).map (·.1) := by
        rw [hpublished.writable.keys_eq]
        have := hpublished.writable.bounds
        exact List.mem_range'_1.mpr ⟨this, by omega⟩
      obtain ⟨row, hrow, hkey⟩ := List.mem_map.mp hstop
      rw [← hkey]
      exact Table.le_last (Table.mem_range.mp hrow).1 hlast
  · intro entry hin
    have hrun := hm.indexes base tip hrange
    rcases hepochs : m.epochs with _ | ⟨first, rest⟩
    · rw [hepochs] at hin
      cases hin
    · rw [hepochs] at hin hrun
      obtain rfl := Option.some.inj hin
      rw [List.map_cons, List.length_cons, List.range'_succ, List.cons.injEq] at hrun
      have hpublished := hentries first (by rw [hepochs]; exact List.mem_cons_self)
      rw [hpublished.start, hrun.1, max_eq_right (epochIndex_bounds hbase).1]

/-- A body it writes is that of an honest peer. -/
theorem PublishedEntry.served (h : Publishes chain cache) {base : Nat} {entry : EpochEntry}
    (hentry : PublishedEntry chain cache base entry)
    (hsize : ∀ index body, writeEpoch cache chain index = .ok body → body.length ≤ maxEpochBytes) :
    ServedRows chain cache.blockAt entry (cache.blocks.range entry.start entry.stop) := by
  have hdecode : ∀ row ∈ cache.blocks.range entry.start entry.stop,
      Prost.decode row.2 = .ok (cache.blockAt row.1) ∧ (cache.blockAt row.1).height = row.1 := by
    intro row hrow
    have hstored := h.chained.toStored.decode_blockAt (Table.mem_range.mp hrow).1
    exact ⟨hstored.1, hstored.2.1⟩
  refine ⟨hentry.writable.bounds, hentry.writable.keys_eq, fun row hrow => (hdecode row hrow).1,
    hentry.bytes, hentry.bytes ▸ hsize entry.index _ hentry.body, hentry.content, ?_⟩
  obtain ⟨blocks, hmap, hheights, hanchor⟩ := hentry.anchor
  have hblocks : blocks
      = blocksFrom cache.blockAt entry.start (entry.stop + 1 - entry.start) := by
    refine List.map_injective_iff.mpr (fun _ _ heq => Except.ok.inj heq) (hmap.symm.trans ?_)
    rw [blocksFrom, ← hentry.writable.keys_eq, List.map_map, List.map_map]
    exact List.map_congr_left fun row hrow => (hdecode row hrow).1
  have hrun : blocks.map (·.height) = List.range' entry.start blocks.length := by
    rw [← hheights, hentry.writable.keys_eq, hblocks, blocksFrom_length]
  rw [hanchor, ← hblocks, foldAnchor_eq_foldl blocks entry.start [] hrun]

/-! ### The import -/

/-- The import's source is this publisher, and its node has the published blocks. -/
structure PeerOf (chain : String) (cache : Cache) (m : Manifest) (env : ImportEnv) : Prop where
  manifest : env.manifest = .ready (manifest cache chain)
  epoch : ∀ request index body, writeEpoch cache chain index = .ok body →
    env.epoch request index body.length = .ready (.ok body)
  node : ∃ info, env.blockchainInfo = .ready (.ok info) ∧ info.chain = chain ∧
    ∀ entry ∈ m.epochs, entry.stop ≤ info.blocks
  lookup : ∀ request entry, m.epochs[request]? = some entry → ∃ lookup,
    env.lookup request = .ready lookup ∧ NodeAgrees cache.blockAt lookup entry.start entry.stop

theorem Publishes.answered (h : Publishes chain cache)
    (hsize : ∀ index body, writeEpoch cache chain index = .ok body → body.length ≤ maxEpochBytes)
    {m : Manifest} (hmanifest : Lightwalletd.manifest cache chain = .ok m)
    (hentries : ∀ entry ∈ m.epochs, ∃ base, PublishedEntry chain cache base entry)
    {env : ImportEnv} (henv : PeerOf chain cache m env) :
    AnsweredRun chain cache.blockAt m env := by
  refine ⟨by rw [henv.manifest, hmanifest], henv.node, ?_⟩
  intro request entry hentry
  rw [Nat.zero_add]
  obtain ⟨base, hpublished⟩ := hentries entry (List.mem_of_getElem? hentry)
  obtain ⟨lookup, hlookup, hagrees⟩ := henv.lookup request entry hentry
  have hbody := henv.epoch request entry.index _ hpublished.body
  rw [← hpublished.bytes] at hbody
  exact ⟨_, lookup, hbody, ⟨_, hpublished.served h hsize, rfl⟩, hlookup, hagrees⟩

theorem importSnapshot_nothing {env : ImportEnv} {m : Manifest}
    (hmanifest : env.manifest = .ready (.ok m)) (hvalid : validateManifest m chain = .ok ())
    (hepochs : m.epochs = [])
    (hinfo : ∃ info, env.blockchainInfo = .ready (.ok info) ∧ info.chain = chain)
    (concurrency : Nat) :
    importSnapshot env Cache.empty concurrency = (Cache.empty, .returned (.ok none)) := by
  obtain ⟨info, hinfo, rfl⟩ := hinfo
  simp only [importSnapshot, hmanifest, hinfo, hvalid, hepochs]
  rfl

/--
**Publisher and consumer agree.**  From every cache of a publisher the manifest
passes and lists a run of epochs from the one of the lowest height on, each of them
held.  An import of it into an empty cache, from a node that has the published
blocks, succeeds and leaves exactly the published heights, each with the
publisher's block, and the first of them as the recorded base.
-/
theorem publisher_consumer_agree (h : PublisherReachable chain cache)
    (hchain : validChain chain = true)
    (hsize : ∀ index body, writeEpoch cache chain index = .ok body → body.length ≤ maxEpochBytes) :
    ∃ m, manifest cache chain = .ok m ∧ validateManifest m chain = .ok () ∧
      (cache.range = none → m.epochs = []) ∧
      (∀ base tip, cache.range = some (base, tip) →
        m.epochs.map (·.index) = List.range' (epochIndex base) m.epochs.length ∧
        ∀ entry ∈ m.epochs, entry.start = max (epochFirstHeight entry.index) base ∧
          entry.stop = epochLastHeight entry.index ∧ entry.stop ≤ tip) ∧
      (∀ entry ∈ m.epochs, ∀ height, entry.start ≤ height → height ≤ entry.stop →
        (cache.blocks.get height).isSome) ∧
      ∀ (env : ImportEnv) (concurrency : Nat), PeerOf chain cache m env →
        ∃ cache', importSnapshot env Cache.empty concurrency
            = (cache', .returned (.ok (m.epochs.getLast?.map (·.stop)))) ∧
          (∀ height, (∃ entry ∈ m.epochs, entry.start ≤ height ∧ height ≤ entry.stop) →
            ∃ block, cache'.get height = .ok (some block) ∧ cache.get height = .ok (some block)) ∧
          (∀ height, (¬ ∃ entry ∈ m.epochs, entry.start ≤ height ∧ height ≤ entry.stop) →
            cache'.blocks.get height = none) ∧
          cache'.snapshotBaseHeight = .ok (m.epochs.head?.map (·.start)) := by
  have hpub := h.publishes
  obtain ⟨m, hmanifest, hm⟩ := hpub.manifest hsize
  refine ⟨m, hmanifest, ?_⟩
  rcases hrange : cache.range with _ | ⟨base, tip⟩
  · have hepochs := hm.nothing hrange
    have hvalid : validateManifest m chain = .ok () := by
      obtain ⟨hversion, hsize, hname⟩ := hm.header
      exact validateManifest_eq_ok.mpr ⟨hversion, hsize, hname, by rw [hepochs]; rfl⟩
    refine ⟨hvalid, fun _ => hepochs, nofun, by simp [hepochs], ?_⟩
    intro env concurrency henv
    obtain ⟨info, hinfo, hname, -⟩ := henv.node
    have himport := importSnapshot_nothing (by rw [henv.manifest, hmanifest]) hvalid hepochs
      ⟨info, hinfo, hname⟩ concurrency
    refine ⟨Cache.empty, by rw [himport, hepochs]; rfl, by simp [hepochs], fun _ _ => rfl, ?_⟩
    rw [hepochs]
    rfl
  · have hof := hpub.manifestOf hchain hm hrange
    have hentries := hm.entries base tip hrange
    have hbounds : ∀ entry ∈ m.epochs, entry.start ≤ entry.stop :=
      fun entry hin => (hof.within entry hin).2.1
    refine ⟨hof.valid, nofun, ?_, ?_, ?_⟩
    · rintro base' tip' heq
      obtain ⟨rfl, rfl⟩ := Prod.mk.inj (Option.some.inj heq)
      refine ⟨hm.indexes base tip hrange, ?_⟩
      intro entry hin
      exact ⟨(hentries entry hin).start, (hentries entry hin).stop, (hof.within entry hin).2.2⟩
    · intro entry hin height hlow hhigh
      obtain ⟨hbase, -, htip⟩ := hof.within entry hin
      obtain ⟨value, hrow⟩ :=
          hpub.chained.toStored.held hrange (hbase.trans hlow) (hhigh.trans htip)
      rw [Table.get_eq_some_iff.mpr hrow]
      rfl
    · intro env concurrency henv
      have hanswered := hpub.answered hsize hmanifest (fun e he => ⟨base, hentries e he⟩) henv
      rcases hlast : m.epochs.getLast? with _ | last
      · have hepochs := List.getLast?_eq_none_iff.mp hlast
        obtain ⟨info, hinfo, hname, -⟩ := henv.node
        have himport := importSnapshot_nothing hanswered.manifest hof.valid hepochs
          ⟨info, hinfo, hname⟩ concurrency
        refine ⟨Cache.empty, himport, by simp [hepochs], fun _ _ => rfl, ?_⟩
        rw [hepochs]
        rfl
      obtain ⟨cache', himport, hholds⟩ :=
        (onChain_empty [] : OnChain cache.blockAt base tip m [] none Cache.empty).reaches hof
          hanswered concurrency hlast
      rw [Option.getD_none, Nat.max_self] at himport hholds
      have hlastIn := List.mem_of_getLast? hlast
      obtain ⟨first, hfirst⟩ : ∃ first, m.epochs.head? = some first :=
        ⟨_, List.head?_eq_some_head (List.ne_nil_of_mem hlastIn)⟩
      have hlow : first.start = base := hof.first first hfirst
      have htop := (hof.within last hlastIn).2.2
      have hget := hholds.get_eq hof.segment htop
      have hle := stop_le_last hof.consecutive hbounds hlast
      refine ⟨cache', himport, ?_, ?_, ?_⟩
      · rintro height ⟨entry, hin, hstart, hstop⟩
        obtain ⟨hbase, -, htip⟩ := hof.within entry hin
        have hhigh := hstop.trans (hle entry hin)
        obtain ⟨value, hrow⟩ :=
          hpub.chained.toStored.held hrange (hbase.trans hstart) (hhigh.trans htop)
        refine ⟨cache.blockAt height, ?_, (hpub.chained.toStored.decode_blockAt hrow).2.2⟩
        rw [Cache.get, hget height, if_pos ⟨hbase.trans hstart, hhigh⟩]
        simp [Cache.decodeBlock, Except.mapError, Except.map]
      · intro height hout
        rw [hget height, if_neg]
        rintro ⟨hstart, hstop⟩
        exact hout (entries_cover hof.consecutive hfirst hlast (hlow ▸ hstart) hstop)
      · rw [hholds.base, hfirst, Option.map_some, hlow]

end

theorem publisher_reachable : PublisherReachable "main" publisher := by
  refine (PublisherReachable.empty.append [emptyBlock 9999, emptyBlock 10000] ?_ nofun).digest
  refine List.isChain_cons_cons.mpr ⟨⟨rfl, ?_⟩, List.isChain_singleton _⟩
  simp [Grows, emptyBlock, CompactBlock.carried]

theorem soleEpoch_size {cache : Cache}
    (hrows : ∀ row ∈ cache.metaRows.rows,
      (EpochDigest.decode row.2).map (fun digest => (digest.start, digest.stop))
        = some (9999, 9999))
    (hwritten : ((writeBody (fun _ _ _ => .ok ()) cache "main" 9999 9999 [] ()).toOption.map
      (·.1.length)) = some 102)
    (index : Nat) (body : Bytes) (h : writeEpoch cache "main" index = .ok body) :
    body.length ≤ maxEpochBytes := by
  rcases hget : cache.epochDigest index with _ | row
  · simp [writeEpoch, hget] at h
  obtain ⟨digest, hdecode, hbounds⟩ :=
    Option.map_eq_some_iff.mp (hrows _ (Table.get_eq_some_iff.mp hget))
  obtain ⟨hstart, hstop⟩ := Prod.mk.inj hbounds
  simp only [writeEpoch, hget, hdecode, hstart, hstop] at h
  obtain ⟨written, hbody, rfl⟩ := Except.map_eq_ok.mp h
  rw [hbody] at hwritten
  have hlength : written.1.length = 102 := Option.some.inj hwritten
  rw [hlength]
  decide

theorem publisher_size : ∀ index body, writeEpoch publisher "main" index = .ok body →
    body.length ≤ maxEpochBytes :=
  soleEpoch_size (by decide +kernel) (by decide +kernel)

theorem publisher_imports :
    ∃ cache', importSnapshot publisherEnv Cache.empty 4
        = (cache', .returned (.ok (some 9999))) ∧
      cache'.snapshotBaseHeight = .ok (some 9999) := by
  obtain ⟨m, hmanifest, -, -, -, -, himport⟩ :=
    publisher_consumer_agree publisher_reachable (by decide) publisher_size
  have hepochs : m.epochs.map (fun entry => (entry.start, entry.stop)) = [(9999, 9999)] := by
    have := publisherEnv_epochs
    simp only [ImportEnv.epochs, publisherEnv, hmanifest] at this
    exact this
  obtain ⟨entry, heq, hbounds⟩ := List.map_eq_singleton_iff.mp hepochs
  obtain ⟨hstart, hstop⟩ := Prod.mk.inj hbounds
  have hpeer : PeerOf "main" publisher m publisherEnv := by
    refine ⟨rfl, ?_, ⟨_, rfl, rfl, ?_⟩, ?_⟩
    · intro request index body hbody
      show Await.ready (writeEpoch publisher "main" index) = _
      rw [hbody]
    · intro e he
      rw [heq] at he
      obtain rfl := List.mem_singleton.mp he
      rw [hstop]
      decide
    · intro request e he
      rw [heq] at he
      obtain rfl := List.mem_singleton.mp (List.mem_of_getElem? he)
      refine ⟨_, rfl, ?_⟩
      rw [hstart, hstop]
      intro number batch hbatch
      have hsingle : batch ∈ lookupBatches 9999 9999 := List.mem_of_getElem? hbatch
      rw [show lookupBatches 9999 9999 = [[9999]] by decide] at hsingle
      obtain rfl := List.mem_singleton.mp hsingle
      have hhash : (publisher.blockAt 9999).hash = (emptyBlock 9999).hash := by decide +kernel
      rw [List.map_singleton, hhash]
  obtain ⟨cache', hrun, -, -, hbase⟩ := himport publisherEnv 4 hpeer
  rw [heq] at hrun hbase
  refine ⟨cache', ?_, ?_⟩
  · rw [hrun]
    simp [hstop]
  · rw [hbase]
    simp [hstart]

end Lightwalletd
