/-
A range stream over a cache and a node that move.

Each chunk of a stream is read under its own view of the cache, and each fetch gets
its own answer.  Which view a height is resolved under depends on the views alone:
on how far each chunk reached.  So there is one assignment of chunks to heights under
which the stream is the loop that takes one height after the other
(`rangeSource_resolved`), whatever the node answers, and a fact about all blocks a
range serves is one about resolving a single height.
-/
import Lightwalletd.Proofs.PlainRange

namespace Lightwalletd

section

variable [Prost] [BlockParser]

/-- One height as one chunk resolves it: from the cache it reads, or from the node. -/
def heightAt (env : RangeEnv) (chunk height : Nat) : Except Failure (CompactBlock × BlockSource) :=
  match env.cacheAt chunk with
  | .ok cache => plainHeight cache (env.replies chunk) height
  | .error e => .error ⟨e.toStatus, none⟩

/-! ### The stream

Every chunk is read from the cache of its own moment.  The heights of the range are then
resolved each under some moment, and the stream is the loop over them.
-/

private theorem serveHeights_fixed (env : RangeEnv) (cache : Cache) (repair descending : Bool)
    (chunk : Nat)
    (heights : List Nat) (cached : Table Nat Bytes) (link : Option ChainLink) :
    serveHeights env repair descending chunk heights cached link
      = serveHeights (fixedEnv cache (env.replies chunk)) repair descending chunk heights cached
          link := by
  induction heights generalizing cached link with
  | nil => rfl
  | cons height heights ih =>
      unfold serveHeights
      have hsame : resolveHeight env chunk height cached
          = resolveHeight (fixedEnv cache (env.replies chunk)) chunk height cached := rfl
      rw [hsame]
      simp only [ih]

omit [Prost] [BlockParser] in
private theorem remaining_nodup {descending : Bool} (low high cursor : Nat) :
    (remaining descending low high cursor).Nodup := by
  unfold remaining
  split
  · exact coveredHeights_nodup low cursor
  · exact coveredHeights_nodup cursor high

variable (cacheAt : Nat → Except CacheError Cache)

/-- The chunk each height of the range is resolved under, from a cursor on. -/
theorem rangeLoopBy_resolved (descending : Bool) (size budget : Nat) {low high : Nat}
    (hmax : high ≤ u64Max) (fuel chunk : Nat) {cursor : Nat} (hlow : low ≤ cursor)
    (hhigh : cursor ≤ high) (hfuel : (remaining descending low high cursor).length ≤ fuel) :
    ∃ chunkOf : Nat → Nat, ∀ replies repair link,
      rangeLoopBy ⟨cacheAt, replies⟩ repair descending size budget low high fuel chunk cursor link
        = ((resolvedLoop (fun height => heightAt ⟨cacheAt, replies⟩ (chunkOf height) height) repair
              descending (remaining descending low high cursor) link).1,
          endingOf (resolvedLoop (fun height => heightAt ⟨cacheAt, replies⟩ (chunkOf height) height)
              repair descending (remaining descending low high cursor) link).2) := by
  induction fuel generalizing chunk cursor with
  | zero => exact absurd hfuel (Nat.not_le.mpr (remaining_pos hlow hhigh))
  | succ fuel ih =>
      rcases hcache : cacheAt chunk with e | cache
      · -- The read fails, and so does the first height.
        refine ⟨fun _ => chunk, fun replies repair link => ?_⟩
        have hpos : 0 < (remaining descending low high cursor).length := remaining_pos hlow hhigh
        obtain ⟨height, rest, hheights⟩ := List.exists_cons_of_length_pos hpos
        rw [hheights]
        unfold rangeLoopBy resolvedLoop
        simp only [heightAt, hcache, endingOf]
      obtain ⟨covered, hcovered⟩ : ∃ c, c = cache.readChunk
        (chunkFromBy size cursor low high descending).1
        (chunkFromBy size cursor low high descending).2 descending budget := ⟨_, rfl⟩
      have hcov : Covers descending low high cursor covered :=
        hcovered ▸ readChunk_covers cache hlow hhigh hmax size budget
      have hread := hcovered ▸ readChunk_window cache descending hlow hhigh hmax size budget
      have hrows : ∀ height ∈ coveredHeights descending covered.low covered.high,
          covered.blocks.get height = cache.blocks.get height := by
        intro height hin
        obtain ⟨hge, hle⟩ := mem_coveredHeights hin
        exact hread.get hge hle
      -- One chunk is the loop over its heights, resolved under its view.
      have hserve : ∀ replies repair link,
          serveHeights ⟨cacheAt, replies⟩ repair descending chunk
              (coveredHeights descending covered.low covered.high) covered.blocks link
            = resolvedLoop (fun height => heightAt ⟨cacheAt, replies⟩ chunk height) repair
                descending (coveredHeights descending covered.low covered.high) link := by
        intro replies repair link
        rw [serveHeights_fixed _ cache, serveHeights_plain chunk (coveredHeights_nodup _ _) hrows,
          plainLoop_resolved]
        refine resolvedLoop_congr (fun height _ => ?_) link
        simp only [heightAt, hcache]
      rcases hnext : nextCursor descending low high covered with _ | next
      · refine ⟨fun _ => chunk, fun replies repair link => ?_⟩
        have hchunk := hserve replies repair link
        unfold rangeLoopBy
        simp only [hcache]
        rw [← hcovered, hchunk, ← hcov.last hnext]
        rcases resolvedLoop (fun height => heightAt ⟨cacheAt, replies⟩ chunk height)
          repair descending
          (coveredHeights descending covered.low covered.high) link with ⟨blocks, failure | link'⟩
        · rfl
        · simp only [hnext, endingOf]
      · obtain ⟨hlow', hhigh', hsplit, hlt⟩ := hcov.next hlow hhigh hnext
        obtain ⟨rest, hrest⟩ := ih (chunk + 1) hlow' hhigh' (by omega)
        -- The covered heights under this chunk, the others as the rest has them.
        refine ⟨fun height =>
          if height ∈ coveredHeights descending covered.low covered.high then chunk
          else rest height, fun replies repair link => ?_⟩
        have hfront : ∀ link, resolvedLoop (fun height => heightAt ⟨cacheAt, replies⟩
              (if height ∈ coveredHeights descending covered.low covered.high then chunk
                else rest height) height) repair descending
              (coveredHeights descending covered.low covered.high) link
            = resolvedLoop (fun height => heightAt ⟨cacheAt, replies⟩ chunk height)
              repair descending
              (coveredHeights descending covered.low covered.high) link := by
          intro link
          refine resolvedLoop_congr (fun height hin => ?_) link
          rw [if_pos hin]
        have hnodup : (coveredHeights descending covered.low covered.high
            ++ remaining descending low high next).Nodup := by
          rw [hsplit]
          exact remaining_nodup low high cursor
        have hback : ∀ link, resolvedLoop (fun height => heightAt ⟨cacheAt, replies⟩
              (if height ∈ coveredHeights descending covered.low covered.high then chunk
                else rest height) height) repair descending
              (remaining descending low high next) link
            = resolvedLoop (fun height => heightAt ⟨cacheAt, replies⟩ (rest height) height) repair
              descending (remaining descending low high next) link := by
          intro link
          refine resolvedLoop_congr (fun height hin => ?_) link
          rw [if_neg]
          exact fun hfront => (List.nodup_append.mp hnodup).2.2 height hfront height hin rfl
        have hchunk := hserve replies repair link
        unfold rangeLoopBy
        simp only [hcache]
        rw [← hcovered, hchunk, ← hsplit, resolvedLoop_append, hfront]
        rcases resolvedLoop (fun height => heightAt ⟨cacheAt, replies⟩ chunk height)
          repair descending
          (coveredHeights descending covered.low covered.high) link with ⟨blocks, failure | link'⟩
        · rfl
        · simp only [hnext, hrest, hback]

/-- The source of a range that is resolved height by height. -/
def resolvedRange (resolve : Nat → Except Failure (CompactBlock × BlockSource)) (repair : Bool)
    (start stop : Nat) : List CompactBlock × Ending :=
  let (blocks, result) :=
    resolvedLoop resolve repair (decide (start > stop)) (rangeHeights start stop) none
  (blocks, endingOf result)

/-- **A stream over a moving cache is the plain loop**, each height resolved under the
view of one chunk; which one depends neither on the node nor on the signal. -/
theorem rangeSource_resolved {start stop : Nat} (hstart : start ≤ u64Max) (hstop : stop ≤ u64Max)
    {fuel : Nat} (hfuel : max start stop - min start stop + 1 ≤ fuel) :
    ∃ chunkOf : Nat → Nat, ∀ replies repair,
      rangeSource ⟨cacheAt, replies⟩ repair start stop fuel
        = resolvedRange (fun height => heightAt ⟨cacheAt, replies⟩ (chunkOf height) height) repair
            start stop := by
  have hheights := rangeHeights_eq start stop
  have hlength : (rangeHeights start stop).length ≤ fuel := by
    simpa [rangeHeights] using hfuel
  by_cases hdesc : start > stop
  · simp only [hdesc, decide_true, if_true] at hheights
    rw [hheights] at hlength
    obtain ⟨chunkOf, hloop⟩ := rangeLoopBy_resolved cacheAt true cacheReadChunk cacheReadChunkBytes
      hstart fuel 0 (Nat.le_of_lt hdesc) (Nat.le_refl _) hlength
    refine ⟨chunkOf, fun replies repair => ?_⟩
    simp only [rangeSource, resolvedRange, rangeLoop_eq_by, hdesc, decide_true, if_true, hheights]
    exact hloop replies repair none
  · simp only [hdesc, decide_false, Bool.false_eq_true, if_false] at hheights
    rw [hheights] at hlength
    obtain ⟨chunkOf, hloop⟩ := rangeLoopBy_resolved cacheAt false cacheReadChunk cacheReadChunkBytes
      hstop fuel 0 (Nat.le_refl _) (Nat.le_of_not_lt hdesc) hlength
    refine ⟨chunkOf, fun replies repair => ?_⟩
    simp only [rangeSource, resolvedRange, rangeLoop_eq_by, hdesc, decide_false, Bool.false_eq_true,
      if_false, hheights]
    exact hloop replies repair none

omit [Prost] [BlockParser] in
theorem resolvedRange_ended (resolve : Nat → Except Failure (CompactBlock × BlockSource))
    (repair : Bool) (start stop : Nat) :
    (resolvedRange resolve repair start stop).2 ≠ .outOfFuel := by
  show endingOf _ ≠ _
  rcases (resolvedLoop resolve repair _ (rangeHeights start stop) none).2 with failure | next
  · simp [endingOf]
  · simp [endingOf]

theorem blockRangeStream_resolved {start stop : Nat} (hstart : start ≤ u64Max)
    (hstop : stop ≤ u64Max) {fuel : Nat} (hfuel : max start stop - min start stop + 1 ≤ fuel) :
    ∃ chunkOf : Nat → Nat, ∀ replies repair transform,
      blockRangeStream ⟨cacheAt, replies⟩ repair start stop transform fuel
        = some (itemsOf transform (resolvedRange
            (fun height => heightAt ⟨cacheAt, replies⟩ (chunkOf height) height) repair start
              stop)) := by
  obtain ⟨chunkOf, hsource⟩ := rangeSource_resolved cacheAt hstart hstop hfuel
  refine ⟨chunkOf, fun replies repair transform => ?_⟩
  rw [← streamOf_eq transform (resolvedRange_ended _ repair start stop), ← hsource replies repair]
  rfl

/-! ### What a resolved loop serves -/

section

omit [Prost] [BlockParser]

variable (resolve : Nat → Except Failure (CompactBlock × BlockSource)) (repair descending : Bool)

/-- The status of a range whose block at `height` does not connect. -/
def discontinuity (height : Nat) : Status :=
  ⟨.aborted, s!"get_block_range: chain discontinuity at height {height}; the chain reorged while serving, retry"⟩

/-- `block` connects to what was served before it. -/
def Connects (link : Option ChainLink) (blocks : List CompactBlock) (block : CompactBlock) : Prop :=
  (∀ previous ∈ blocks.getLast?, Linked descending previous block) ∧
  (blocks = [] → ∀ previous ∈ link, block.facing descending = previous.expectedHash)

/-- Why a loop that served `blocks` stopped at `height`: it did not resolve, or its
block does not connect. -/
def StopsAt (link : Option ChainLink) (blocks : List CompactBlock) (height : Nat)
    (failure : Failure) : Prop :=
  resolve height = .error failure ∨
  ∃ block source, resolve height = .ok (block, source) ∧ ¬Connects descending link blocks block ∧
    failure.status = discontinuity height

variable {descending} in
theorem linked_iff_after (height : Nat) (block next : CompactBlock) (source : BlockSource) :
    Linked descending block next ↔
      next.facing descending = (ChainLink.after height block descending source).expectedHash := by
  cases descending <;> exact Iff.rfl

variable {descending} in
theorem Connects.tail {link : Option ChainLink} {blocks : List CompactBlock}
    {block next : CompactBlock} (h : Connects descending link (block :: blocks) next) (height : Nat)
    (source : BlockSource) :
    Connects descending (some (ChainLink.after height block descending source)) blocks next := by
  refine ⟨fun previous hprevious => h.1 previous ?_, ?_⟩
  · rw [List.getLast?_cons, Option.mem_def.mp hprevious]
    rfl
  · rintro rfl previous hprevious
    obtain rfl := Option.some.inj hprevious
    exact (linked_iff_after height block next source).mp (h.1 block rfl)

variable {repair descending} in
theorem ChainLink.check_eq_error {link : ChainLink} {block : CompactBlock} {height : Nat}
    {source : BlockSource} {failure : Failure}
    (h : link.check block height descending source repair = .error failure) :
    block.facing descending ≠ link.expectedHash ∧ failure.status = discontinuity height := by
  unfold ChainLink.check at h
  by_cases heq : (if descending then block.hash else block.prevHash) = link.expectedHash
  · simp [heq] at h
  · simp only [heq, if_false, Except.error.injEq] at h
    exact ⟨heq, by rw [← h]; rfl⟩

/-- The heights served, their blocks, and what ended the loop. -/
theorem resolvedLoop_outcome (heights : List Nat) (link : Option ChainLink) :
    ∃ front back blocks result,
      resolvedLoop resolve repair descending heights link = (blocks, result) ∧
      heights = front ++ back ∧
      List.Forall₂ (fun height block => ∃ source, resolve height = .ok (block, source)) front
        blocks ∧
      (∀ previous ∈ link, ∀ block ∈ blocks.head?,
        block.facing descending = previous.expectedHash) ∧
      blocks.IsChain (Linked descending) ∧
      (back = [] ∧ (∃ next, result = .ok next) ∨
        ∃ height rest failure, back = height :: rest ∧ result = .error failure ∧
          StopsAt resolve descending link blocks height failure) := by
  induction heights generalizing link with
  | nil => exact ⟨[], [], [], .ok link, rfl, rfl, .nil, by simp, .nil, Or.inl ⟨rfl, link, rfl⟩⟩
  | cons height heights ih =>
      rcases hresolve : resolve height with failure | ⟨block, source⟩
      · refine ⟨[], height :: heights, [], .error failure, ?_, rfl, .nil, by simp, .nil,
          Or.inr ⟨height, heights, failure, rfl, rfl, Or.inl hresolve⟩⟩
        unfold resolvedLoop
        simp only [hresolve]
      -- Whether the block connects to the link it is checked against, if there is one.
      by_cases hstop : ∃ previous ∈ link, ∃ failure,
        previous.check block height descending source repair = .error failure
      · obtain ⟨previous, rfl, failure, hcheck⟩ := hstop
        obtain ⟨hfacing, hstatus⟩ := ChainLink.check_eq_error hcheck
        refine ⟨[], height :: heights, [], .error failure, ?_, rfl, .nil, by simp, .nil,
          Or.inr ⟨height, heights, failure, rfl, rfl, Or.inr ⟨block, source, hresolve,
            fun hconnects => hfacing (hconnects.2 rfl previous rfl), hstatus⟩⟩⟩
        unfold resolvedLoop
        simp only [hresolve, hcheck]
      have hpassed : ∀ previous ∈ link,
          previous.check block height descending source repair = .ok () := by
        intro previous hlink
        rcases hcheck : previous.check block height descending source repair with failure | u
        · exact absurd ⟨previous, hlink, failure, hcheck⟩ hstop
        · rfl
      obtain ⟨front, back, blocks, result, hrun, hsplit, hserved, hjoined, hchain, hend⟩ :=
        ih (some (ChainLink.after height block descending source))
      have hnext : ∀ later ∈ blocks.head?, Linked descending block later := fun later hlater =>
        (linked_iff_after height block later source).mpr (hjoined _ rfl later hlater)
      refine ⟨height :: front, back, block :: blocks, result, ?_, by rw [hsplit]; rfl,
        .cons ⟨source, hresolve⟩ hserved, ?_, List.isChain_cons.mpr ⟨hnext, hchain⟩, ?_⟩
      · unfold resolvedLoop
        rcases link with _ | previous
        · simp only [hresolve, hrun]
        · simp only [hresolve, hpassed previous rfl, hrun]
      · intro previous hlink first hfirst
        obtain rfl : block = first := Option.some.inj hfirst
        exact ChainLink.check_eq_ok (hpassed previous hlink)
      · rcases hend with hdone | ⟨later, rest, failure, hback, hfailed, hstops⟩
        · exact Or.inl hdone
        refine Or.inr ⟨later, rest, failure, hback, hfailed, ?_⟩
        rcases hstops with hresolved | ⟨next, source', hok, hbroken, hstatus⟩
        · exact Or.inl hresolved
        · exact Or.inr ⟨next, source', hok, fun h => hbroken (h.tail height source), hstatus⟩

end

end

end Lightwalletd
