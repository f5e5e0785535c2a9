/-
A range stream never splices, skips or repeats.

The loop of `blockRangeStream` serves one chunk after the other.  What it still
has to serve from a cursor on is `remaining`, a list of heights, and one chunk
takes a non-empty front part off it: the byte budget can cut the window anywhere,
but never before its first row.  So the list gets shorter with every chunk, which
bounds the number of chunks, and what the chunks serve adds up to a prefix of it.

That consecutive blocks are linked is checked by `ChainLink.check` for every block
but the very first, and the link survives the end of a chunk, so the argument is
the same inside a chunk and across two of them: `Served` says what a list of
blocks has to do with the link it started from, and two such lists concatenate.
-/
import Lightwalletd.Service.Plain
import Lightwalletd.Proofs.Store
import Lightwalletd.Proofs.Framing
import Lightwalletd.Proofs.Chunk

namespace Lightwalletd

/-! ### Linked blocks -/

/-- The hash by which a block is recognized as the next one of the stream. -/
def CompactBlock.facing (descending : Bool) (block : CompactBlock) : Bytes :=
  if descending then block.hash else block.prevHash

/-- `later` may follow `earlier`: ascending it names it as its predecessor, and
descending it is the predecessor. -/
def Linked (descending : Bool) (earlier later : CompactBlock) : Prop :=
  if descending then later.hash = earlier.prevHash else later.prevHash = earlier.hash

/-- The link expects what `block` leaves behind. -/
def ChainLink.From (descending : Bool) (block : CompactBlock) (link : ChainLink) : Prop :=
  ∀ next : CompactBlock, next.facing descending = link.expectedHash → Linked descending block next

theorem ChainLink.after_from (height : Nat) (block : CompactBlock) (descending : Bool)
    (source : BlockSource) :
    (ChainLink.after height block descending source).From descending block := by
  intro next hnext
  cases descending <;> exact hnext

theorem ChainLink.check_eq_ok {link : ChainLink} {block : CompactBlock} {height : Nat}
    {descending : Bool} {source : BlockSource} {repair : Bool} {u : Unit}
    (h : link.check block height descending source repair = .ok u) :
    block.facing descending = link.expectedHash := by
  unfold ChainLink.check at h
  by_cases heq : (if descending then block.hash else block.prevHash) = link.expectedHash
  · exact heq
  · simp [heq] at h

/-- What a run of blocks has to do with the heights it was asked for and the link
it started from. -/
structure Served (descending : Bool) (link : Option ChainLink) (heights : List Nat)
    (blocks : List CompactBlock) : Prop where
  heights : blocks.map (·.height) <+: heights
  chained : blocks.IsChain (Linked descending)
  joined : ∀ l ∈ link, ∀ b ∈ blocks.head?, b.facing descending = l.expectedHash

/-- The link a completed run leaves: the one it started from if it served nothing,
and one that expects a successor of its last block otherwise. -/
def Leaves (descending : Bool) (link : Option ChainLink) (blocks : List CompactBlock)
    (next : Option ChainLink) : Prop :=
  match blocks.getLast? with
  | none => next = link
  | some block => ∃ l, next = some l ∧ l.From descending block

theorem Served.nil (descending : Bool) (link : Option ChainLink) (heights : List Nat) :
    Served descending link heights [] :=
  ⟨List.nil_prefix, List.isChain_nil, by simp⟩

/-- A run that starts from where a completed run left continues it. -/
theorem Served.append {descending : Bool} {link next : Option ChainLink}
    {heights more : List Nat} {blocks rest : List CompactBlock}
    (h : Served descending link heights blocks) (hall : blocks.map (·.height) = heights)
    (hleaves : Leaves descending link blocks next)
    (hrest : Served descending next more rest) :
    Served descending link (heights ++ more) (blocks ++ rest) := by
  refine ⟨?_, ?_, ?_⟩
  · rw [List.map_append, hall]
    exact (List.prefix_append_right_inj heights).mpr hrest.heights
  · refine List.isChain_append.mpr ⟨h.chained, hrest.chained, ?_⟩
    intro last hlast first hfirst
    unfold Leaves at hleaves
    rw [Option.mem_def.mp hlast] at hleaves
    obtain ⟨l, hl, hfrom⟩ := hleaves
    exact hfrom first (hrest.joined l hl first hfirst)
  · intro l hl b hb
    rcases blocks with _ | ⟨block, blocks⟩
    · have hnext : next = link := hleaves
      exact hrest.joined l (by rw [hnext]; exact hl) b hb
    · exact h.joined l hl b hb

/-! ### One chunk

A height is served from the rows of its chunk, or from the node.  What is said of the
blocks served does not depend on which it was.
-/

section

variable [Prost] [BlockParser] {env : RangeEnv} {repair descending : Bool}

/-- A resolved block has the height it was resolved for, and the rows left are
among those there were. -/
theorem resolveHeight_ok {chunk height : Nat} {cached rest : Table Nat Bytes}
    {block : CompactBlock} {source : BlockSource}
    (hrows : ∀ row ∈ cached.rows, Cache.RowOk row)
    (h : resolveHeight env chunk height cached = .ok (block, source, rest)) :
    block.height = height ∧ ∀ row ∈ rest.rows, row ∈ cached.rows := by
  unfold resolveHeight at h
  rcases hget : cached.get height with _ | bytes
  · simp only [hget] at h
    rcases hfetch : compactBlock (env.replies chunk height) height with e | fetched
    · simp [hfetch] at h
    · simp only [hfetch, Except.ok.injEq, Prod.mk.injEq] at h
      obtain ⟨rfl, -, rfl⟩ := h
      exact ⟨compactBlock_height hfetch, fun row hrow => hrow⟩
  · obtain ⟨stored, hdecode, hheight⟩ := hrows _ (Table.get_eq_some_iff.mp hget)
    simp only [hget, Cache.decodeBlock, hdecode, Except.mapError, Except.ok.injEq,
      Prod.mk.injEq] at h
    obtain ⟨rfl, -, rfl⟩ := h
    refine ⟨hheight, ?_⟩
    intro row hrow
    exact List.mem_of_mem_filter hrow

theorem serveHeights_served (chunk : Nat) :
    ∀ (heights : List Nat) (cached : Table Nat Bytes) (link : Option ChainLink),
      (∀ row ∈ cached.rows, Cache.RowOk row) →
      ∀ blocks result,
        serveHeights env repair descending chunk heights cached link = (blocks, result) →
        Served descending link heights blocks ∧
        ∀ next, result = .ok next →
          blocks.map (·.height) = heights ∧ Leaves descending link blocks next := by
  intro heights
  induction heights with
  | nil =>
      intro cached link _ blocks result h
      simp only [serveHeights, Prod.mk.injEq] at h
      obtain ⟨rfl, rfl⟩ := h
      refine ⟨Served.nil _ _ _, ?_⟩
      intro next hnext
      exact ⟨rfl, (Except.ok.inj hnext).symm⟩
  | cons height heights ih =>
      intro cached link hrows blocks result h
      unfold serveHeights at h
      rcases hresolve : resolveHeight env chunk height cached with failure | ⟨block, source, rest⟩
      · simp only [hresolve, Prod.mk.injEq] at h
        obtain ⟨rfl, rfl⟩ := h
        exact ⟨Served.nil _ _ _, by simp⟩
      simp only [hresolve] at h
      obtain ⟨hheight, hrest⟩ := resolveHeight_ok hrows hresolve
      split at h
      · simp only [Prod.mk.injEq] at h
        obtain ⟨rfl, rfl⟩ := h
        exact ⟨Served.nil _ _ _, by simp⟩
      · rename_i hchecked
        rcases htail : serveHeights env repair descending chunk heights rest
          (some (ChainLink.after height block descending source)) with ⟨served, ending⟩
        simp only [htail, Prod.mk.injEq] at h
        obtain ⟨rfl, rfl⟩ := h
        obtain ⟨hserved, hdone⟩ := ih rest _ (fun row hrow => hrows row (hrest row hrow)) _ _ htail
        -- The block alone is a completed run of one height, and the rest continues it.
        have hone : Served descending link [height] [block] := by
          refine ⟨by simp [hheight], List.isChain_singleton _, ?_⟩
          intro l hl b hb
          rw [Option.mem_def.mp hl] at hchecked
          obtain rfl : block = b := by simpa using hb
          exact ChainLink.check_eq_ok hchecked
        have hleft : Leaves descending link [block]
            (some (ChainLink.after height block descending source)) :=
          ⟨_, rfl, ChainLink.after_from _ _ _ _⟩
        refine ⟨hone.append (by simp [hheight]) hleft hserved, ?_⟩
        intro next hnext
        obtain ⟨hmap, hleaves⟩ := hdone next hnext
        refine ⟨by simp [hheight, hmap], ?_⟩
        unfold Leaves at hleaves ⊢
        rcases served with _ | ⟨b, served⟩
        · exact ⟨_, hleaves, ChainLink.after_from _ _ _ _⟩
        · have hlast := List.getLast?_eq_some_getLast (List.cons_ne_nil b served)
          rw [List.getLast?_cons_cons, hlast]
          rwa [hlast] at hleaves

end

/-! ### The whole range

Every round serves at least one height, so that no more rounds are needed than there are
heights.
-/

section

variable {descending : Bool}

variable (descending) in
/-- The heights still to be served from `cursor` on. -/
def remaining (low high cursor : Nat) : List Nat :=
  if descending then coveredHeights true low cursor else coveredHeights false cursor high

/-- What a chunk read at `cursor` covers: the front of what remains. -/
structure Covers (descending : Bool) (low high cursor : Nat) (covered : Cache.CachedChunk) :
    Prop where
  down : descending = true → covered.high = cursor ∧ low ≤ covered.low ∧ covered.low ≤ cursor
  up : descending = false → covered.low = cursor ∧ cursor ≤ covered.high ∧ covered.high ≤ high

theorem chunkFromBy_window (descending : Bool) {low high cursor : Nat} (hlow : low ≤ cursor)
    (hhigh : cursor ≤ high) (hmax : high ≤ u64Max) (size : Nat) :
    (chunkFromBy size cursor low high descending).1
      ≤ (chunkFromBy size cursor low high descending).2 ∧
    low ≤ (chunkFromBy size cursor low high descending).1 ∧
    (chunkFromBy size cursor low high descending).2 ≤ high ∧
    (if descending then (chunkFromBy size cursor low high descending).2 = cursor
      else (chunkFromBy size cursor low high descending).1 = cursor) := by
  cases descending with
  | true =>
      show max (cursor - (size - 1)) low ≤ cursor ∧ low ≤ max (cursor - (size - 1)) low ∧
        cursor ≤ high ∧ cursor = cursor
      omega
  | false =>
      show cursor ≤ min (satAdd cursor (size - 1)) high ∧ low ≤ cursor ∧
        min (satAdd cursor (size - 1)) high ≤ high ∧ cursor = cursor
      unfold satAdd
      omega

/-- A chunk is a maximal part of its window. -/
theorem readChunk_window (cache : Cache) (descending : Bool) {low high cursor : Nat}
    (hlow : low ≤ cursor)
    (hhigh : cursor ≤ high) (hmax : high ≤ u64Max) (size maxBytes : Nat) :
    (cache.readChunk (chunkFromBy size cursor low high descending).1
      (chunkFromBy size cursor low high descending).2 descending maxBytes).Maximal cache
      (chunkFromBy size cursor low high descending).1
        (chunkFromBy size cursor low high descending).2
      descending maxBytes := by
  obtain ⟨hle, -, hwithin, -⟩ := chunkFromBy_window descending hlow hhigh hmax size
  exact cache.readChunk_maximal_of descending maxBytes hle (Nat.le_trans hwithin hmax)

theorem readChunk_covers (cache : Cache) {low high cursor : Nat} (hlow : low ≤ cursor)
    (hhigh : cursor ≤ high) (hmax : high ≤ u64Max) (size maxBytes : Nat) :
    Covers descending low high cursor
      (cache.readChunk (chunkFromBy size cursor low high descending).1
        (chunkFromBy size cursor low high descending).2 descending maxBytes) := by
  have hread := readChunk_window cache descending hlow hhigh hmax size maxBytes
  obtain ⟨-, hfirst, hlast, hcursor⟩ := chunkFromBy_window descending hlow hhigh hmax size
  obtain ⟨hnonempty, ⟨hge, hle⟩, hanchored, -, -, -⟩ := hread
  cases descending with
  | true =>
      simp only [if_true] at hcursor hanchored
      exact ⟨fun _ => ⟨by omega, by omega, by omega⟩, by simp⟩
  | false =>
      simp only [Bool.false_eq_true, if_false] at hcursor hanchored
      exact ⟨by simp, fun _ => ⟨by omega, by omega, by omega⟩⟩

theorem Covers.last {low high cursor : Nat} {covered : Cache.CachedChunk}
    (h : Covers descending low high cursor covered)
    (hnext : nextCursor descending low high covered = none) :
    coveredHeights descending covered.low covered.high = remaining descending low high cursor := by
  cases descending with
  | true =>
      obtain ⟨hhigh, hlow, -⟩ := h.down rfl
      have hle : covered.low ≤ low := by simpa [nextCursor] using hnext
      rw [hhigh, Nat.le_antisymm hle hlow]
      rfl
  | false =>
      obtain ⟨hlow, -, hhigh⟩ := h.up rfl
      have hge : high ≤ covered.high := by simpa [nextCursor] using hnext
      rw [hlow, Nat.le_antisymm hhigh hge]
      rfl

/-- Any other chunk leaves a shorter rest, from a cursor inside the range. -/
theorem Covers.next {low high cursor next : Nat} {covered : Cache.CachedChunk}
    (h : Covers descending low high cursor covered) (hlow : low ≤ cursor) (hhigh : cursor ≤ high)
    (hnext : nextCursor descending low high covered = some next) :
    low ≤ next ∧ next ≤ high ∧
    coveredHeights descending covered.low covered.high ++ remaining descending low high next
      = remaining descending low high cursor ∧
    (remaining descending low high next).length
      < (remaining descending low high cursor).length := by
  cases descending with
  | true =>
      obtain ⟨htop, hbottom, hle⟩ := h.down rfl
      obtain ⟨hlt, rfl⟩ : low < covered.low ∧ covered.low - 1 = next := by
        simpa [nextCursor] using hnext
      have hjoin := range'_join low covered.low cursor hbottom (by omega)
      refine ⟨by omega, by omega, ?_, by simp [remaining, coveredHeights]; omega⟩
      simp only [remaining, coveredHeights, if_true, htop, ← List.reverse_append]
      rw [← hjoin, Nat.sub_add_cancel (by omega)]
  | false =>
      obtain ⟨hbottom, hge, htop⟩ := h.up rfl
      obtain ⟨hlt, rfl⟩ : covered.high < high ∧ covered.high + 1 = next := by
        simpa [nextCursor] using hnext
      have hjoin := range'_join cursor (covered.high + 1) high (by omega) (by omega)
      refine ⟨by omega, by omega, ?_, by simp [remaining, coveredHeights]; omega⟩
      simp only [remaining, coveredHeights, Bool.false_eq_true, if_false, hbottom]
      exact hjoin

theorem remaining_pos {low high cursor : Nat} (hlow : low ≤ cursor) (hhigh : cursor ≤ high) :
    0 < (remaining descending low high cursor).length := by
  cases descending <;> simp [remaining, coveredHeights] <;> omega

end

/-- The outcome of a source that has `heights` to serve: a complete run, or a part
of one and a failure. -/
def Outcome (descending : Bool) (link : Option ChainLink) (heights : List Nat)
    (blocks : List CompactBlock) (ending : Ending) : Prop :=
  Served descending link heights blocks ∧
  (ending = .finished ∧ blocks.map (·.height) = heights ∨ ∃ failure, ending = .failed failure)

/-- The loop ends, with one outcome whatever the fuel, if there is at least as much
of it as heights to serve. -/
theorem rangeLoop_outcome [Prost] [BlockParser] {env : RangeEnv} (repair descending : Bool)
    {low high : Nat} (hmax : high ≤ u64Max)
    (hcaches : ∀ chunk cache, env.cacheAt chunk = .ok cache →
      ∀ row ∈ cache.blocks.rows, Cache.RowOk row) :
    ∀ (n chunk cursor : Nat) (link : Option ChainLink), low ≤ cursor → cursor ≤ high →
      (remaining descending low high cursor).length ≤ n →
      ∃ blocks ending,
        Outcome descending link (remaining descending low high cursor) blocks ending ∧
        ∀ fuel, n ≤ fuel →
          rangeLoop env repair descending low high fuel chunk cursor link = (blocks, ending) := by
  intro n
  induction n with
  | zero =>
      intro chunk cursor link hlow hhigh hlen
      exact absurd hlen (Nat.not_le.mpr (remaining_pos hlow hhigh))
  | succ n ih =>
      intro chunk cursor link hlow hhigh hlen
      have hstep : ∀ fuel, n + 1 ≤ fuel → ∃ k, n ≤ k ∧ fuel = k + 1 := by
        intro fuel hfuel
        exact ⟨fuel - 1, by omega, by omega⟩
      rcases hcache : env.cacheAt chunk with e | cache
      · refine ⟨[], .failed ⟨e.toStatus, none⟩, ⟨Served.nil _ _ _, Or.inr ⟨_, rfl⟩⟩, ?_⟩
        intro fuel hfuel
        obtain ⟨k, -, rfl⟩ := hstep fuel hfuel
        simp [rangeLoop, hcache]
      obtain ⟨covered, hcovered⟩ : ∃ c, c = cache.readChunk (chunkFrom cursor low high descending).1
        (chunkFrom cursor low high descending).2 descending cacheReadChunkBytes := ⟨_, rfl⟩
      have hcov : Covers descending low high cursor covered :=
        hcovered ▸ readChunk_covers cache hlow hhigh hmax cacheReadChunk _
      have hrows : ∀ row ∈ covered.blocks.rows, Cache.RowOk row := by
        intro row hrow
        rw [hcovered] at hrow
        exact hcaches chunk cache hcache row (Cache.readChunk_rows _ _ _ _ _ row hrow)
      rcases hserve : serveHeights env repair descending chunk
        (coveredHeights descending covered.low covered.high) covered.blocks link
        with ⟨blocks, result⟩
      obtain ⟨hserved, hdone⟩ := serveHeights_served chunk _ _ _ hrows _ _ hserve
      rcases result with failure | next
      · -- A failure inside the chunk leaves a prefix of the chunk, hence of what remains.
        refine ⟨blocks, .failed failure, ⟨⟨?_, hserved.chained, hserved.joined⟩,
          Or.inr ⟨_, rfl⟩⟩, ?_⟩
        · refine hserved.heights.trans ?_
          rcases hnext : nextCursor descending low high covered with _ | cursor'
          · rw [hcov.last hnext]
          · rw [← (hcov.next hlow hhigh hnext).2.2.1]
            exact List.prefix_append _ _
        · intro fuel hfuel
          obtain ⟨k, -, rfl⟩ := hstep fuel hfuel
          simp [rangeLoop, hcache, ← hcovered, hserve]
      obtain ⟨hall, hleaves⟩ := hdone next rfl
      rcases hnext : nextCursor descending low high covered with _ | cursor'
      · have hlast := hcov.last hnext
        refine ⟨blocks, .finished, ⟨hlast ▸ hserved, Or.inl ⟨rfl, hlast ▸ hall⟩⟩, ?_⟩
        intro fuel hfuel
        obtain ⟨k, -, rfl⟩ := hstep fuel hfuel
        simp [rangeLoop, hcache, ← hcovered, hserve, hnext]
      · obtain ⟨hlow', hhigh', hsplit, hlt⟩ := hcov.next hlow hhigh hnext
        obtain ⟨rest, ending, ⟨hrest, hending⟩, hrun⟩ :=
          ih (chunk + 1) cursor' next hlow' hhigh' (by omega)
        refine ⟨blocks ++ rest, ending, ⟨hsplit ▸ hserved.append hall hleaves hrest, ?_⟩, ?_⟩
        · rcases hending with ⟨hfinished, hmap⟩ | hfailed
          · exact Or.inl ⟨hfinished, by rw [List.map_append, hall, hmap, hsplit]⟩
          · exact Or.inr hfailed
        · intro fuel hfuel
          obtain ⟨k, hk, rfl⟩ := hstep fuel hfuel
          simp [rangeLoop, hcache, ← hcovered, hserve, hnext, hrun k hk]

/-! ### On the way out -/

/-- The transforms leave the place of a block in the chain alone. -/
theorem RangeTransform.apply_place (transform : RangeTransform) (block : CompactBlock) :
    (transform.apply block).height = block.height ∧
    (transform.apply block).hash = block.hash ∧
    (transform.apply block).prevHash = block.prevHash := by
  cases transform <;> exact ⟨rfl, rfl, rfl⟩

theorem Linked.transform {descending : Bool} {earlier later : CompactBlock}
    (transform : RangeTransform) (h : Linked descending earlier later) :
    Linked descending (transform.apply earlier) (transform.apply later) := by
  unfold Linked at h ⊢
  obtain ⟨-, hhash, hprev⟩ := transform.apply_place earlier
  obtain ⟨-, hhash', hprev'⟩ := transform.apply_place later
  rw [hhash, hprev, hhash', hprev']
  exact h

/-! ### The stream -/

/-- The heights `start`, one further at a time, to `stop`. -/
def rangeHeights (start stop : Nat) : List Nat :=
  (List.range (max start stop - min start stop + 1)).map fun i =>
    if start ≤ stop then start + i else start - i

theorem rangeHeights_eq (start stop : Nat) :
    rangeHeights start stop = remaining (decide (start > stop))
      (if decide (start > stop) then stop else start)
      (if decide (start > stop) then start else stop) start := by
  unfold rangeHeights remaining coveredHeights
  by_cases hle : start ≤ stop
  · have hlen : max start stop - min start stop + 1 = stop + 1 - start := by omega
    simp only [hle, hlen, if_true, Nat.not_lt.mpr hle, decide_false,
      Bool.false_eq_true, if_false]
    rw [List.range'_eq_map_range]
  · have hlen : max start stop - min start stop + 1 = start + 1 - stop := by omega
    simp only [hle, hlen, if_false, Nat.lt_of_not_le hle, decide_true, if_true]
    rw [List.reverse_range']
    refine List.map_congr_left ?_
    intro i hi
    omega

theorem validateBlockRange_span {start stop : Nat} (h : validateBlockRange start stop = .ok ()) :
    max start stop - min start stop + 1 ≤ maxBlockRange := by
  unfold validateBlockRange at h
  by_cases hzero : start = 0 ∨ stop = 0
  · simp [hzero] at h
  · by_cases hspan : max start stop - min start stop + 1 > maxBlockRange
    · simp [hzero, hspan] at h
    · omega

/-- **A range stream never splices, skips or repeats.**  Whatever the caches its
chunks read hold, as long as their rows decode under their heights, and whatever
the node answers, the stream ends; it has then yielded the heights asked for in
order, all of them or a first part followed by one error, and every block is
linked to the one before. -/
theorem blockRangeStream_served [Prost] [BlockParser] (env : RangeEnv) (repair : Bool)
    (start stop : Nat) (transform : RangeTransform)
    (hstart : start ≤ u64Max) (hstop : stop ≤ u64Max)
    (hvalid : validateBlockRange start stop = .ok ())
    (hcaches : ∀ chunk cache, env.cacheAt chunk = .ok cache →
      ∀ row ∈ cache.blocks.rows, Cache.RowOk row) :
    ∃ (served : List CompactBlock) (tail : List (Except Status CompactBlock)),
      (∀ fuel, maxBlockRange ≤ fuel →
        blockRangeStream env repair start stop transform fuel = some (served.map .ok ++ tail)) ∧
      served.map (·.height) <+: rangeHeights start stop ∧
      (tail = [] ∧ served.map (·.height) = rangeHeights start stop ∨
        ∃ status, tail = [.error status]) ∧
      served.IsChain (Linked (decide (start > stop))) := by
  obtain ⟨descending, hdesc⟩ : ∃ d, d = decide (start > stop) := ⟨_, rfl⟩
  have hheights := rangeHeights_eq start stop
  rw [← hdesc] at hheights
  have hcursor : start = if descending then
      (if descending then start else stop) else (if descending then stop else start) := by
    cases descending <;> rfl
  have hlow : (if descending then stop else start) ≤ start := by
    cases descending <;> simp at hdesc ⊢
    omega
  have hhigh : start ≤ if descending then start else stop := by
    cases descending <;> simp at hdesc ⊢
    omega
  have hmax : (if descending then start else stop) ≤ u64Max := by
    cases descending
    · exact hstop
    · exact hstart
  have hlen : (remaining descending (if descending then stop else start)
      (if descending then start else stop) start).length ≤ maxBlockRange := by
    rw [← hheights]
    simpa [rangeHeights] using validateBlockRange_span hvalid
  obtain ⟨blocks, ending, ⟨hserved, hending⟩, hrun⟩ :=
    rangeLoop_outcome repair descending hmax hcaches maxBlockRange 0 start none hlow hhigh hlen
  rw [← hheights] at hserved hending
  have hplace : (blocks.map transform.apply).map (·.height) = blocks.map (·.height) := by
    rw [List.map_map]
    exact List.map_congr_left fun block _ => (transform.apply_place block).1
  have hsource : ∀ fuel, maxBlockRange ≤ fuel →
      rangeSource env repair start stop fuel = (blocks, ending) := by
    intro fuel hfuel
    rw [← hrun fuel hfuel]
    simp only [rangeSource, ← hdesc]
    rw [← hcursor]
  have hout : ∀ fuel, maxBlockRange ≤ fuel → ∀ error : Option Status,
      (ending = .finished ∧ error = none ∨
        ∃ failure, ending = .failed failure ∧ error = some failure.status) →
      blockRangeStream env repair start stop transform fuel
        = some ((blocks.map transform.apply).map .ok ++ (error.map Except.error).toList) := by
    intro fuel hfuel error herror
    rw [← coalesce_eq fun block => (Prost.encode block).length, List.map_map]
    unfold blockRangeStream
    rcases herror with ⟨hfin, rfl⟩ | ⟨failure, hfail, rfl⟩
    · simp [hsource fuel hfuel, hfin, Function.comp_def]
    · simp [hsource fuel hfuel, hfail, Function.comp_def]
  have hchain : (blocks.map transform.apply).IsChain (Linked descending) :=
    List.isChain_map_of_isChain _ (fun _ _ h => h.transform transform) hserved.chained
  rcases hending with ⟨hfin, hall⟩ | ⟨failure, hfail⟩
  · refine ⟨blocks.map transform.apply, [], ?_, hplace ▸ hserved.heights,
      Or.inl ⟨rfl, hplace.trans hall⟩, hdesc ▸ hchain⟩
    intro fuel hfuel
    exact hout fuel hfuel none (Or.inl ⟨hfin, rfl⟩)
  · refine ⟨blocks.map transform.apply, [.error failure.status], ?_, hplace ▸ hserved.heights,
      Or.inr ⟨_, rfl⟩, hdesc ▸ hchain⟩
    intro fuel hfuel
    exact hout fuel hfuel (some failure.status) (Or.inr ⟨failure, hfail, rfl⟩)

/-- Two blocks are cached at the first read and gone at the next, and the node does not
answer. -/
def shrinkingRange : RangeEnv where
  cacheAt chunk := .ok (if chunk = 0
    then ((StoreOp.addBatch [emptyBlock 1, emptyBlock 2]).apply Cache.empty).1 else Cache.empty)
  replies _ _ := ⟨.error .emptyResult, fun _ => .error .emptyResult, none⟩

theorem shrinkingRange_served :
    ((blockRangeStream shrinkingRange true 1 3 (.pools ⟨true, true, true, true⟩) 3).map
        fun items => items.map fun item => item.toOption.map (·.height))
      = some [some 1, some 2, none] ∧
    ∃ (served : List CompactBlock) (tail : List (Except Status CompactBlock)),
      (∀ fuel, maxBlockRange ≤ fuel →
        blockRangeStream shrinkingRange true 1 3 (.pools ⟨true, true, true, true⟩) fuel
          = some (served.map .ok ++ tail)) ∧
      served.map (·.height) <+: rangeHeights 1 3 ∧ served.IsChain (Linked false) := by
  refine ⟨by decide +kernel, ?_⟩
  have hcaches : ∀ chunk cache, shrinkingRange.cacheAt chunk = .ok cache →
      ∀ row ∈ cache.blocks.rows, Cache.RowOk row := by
    intro chunk cache hcache
    have hstored :=
        (StoreReachable.empty.call (.addBatch [emptyBlock 1, emptyBlock 2]) trivial).keeps.1
    obtain rfl := Except.ok.inj hcache
    by_cases hfirst : chunk = 0
    · rw [if_pos hfirst]
      exact hstored.rows
    · rw [if_neg hfirst]
      exact Cache.stored_empty.rows
  obtain ⟨served, tail, hrun, hheights, -, hlinked⟩ :=
      blockRangeStream_served shrinkingRange true 1 3
    (.pools ⟨true, true, true, true⟩) (by decide) (by decide) (by decide) hcaches
  exact ⟨served, tail, hrun, hheights, hlinked⟩

end Lightwalletd
