/-
How the block methods of the service fit together.

A range is `GetBlock` taken height by height: the same blocks up to the first height
that `GetBlock` refuses or whose block does not connect, and that error after them.
And since a range below the floor is refused, an accepted one asks the node for nothing
but what lies above the cached tip, so what a wallet can make the node do is bounded by
what the ingestor has not caught up with yet.
-/
import Lightwalletd.Proofs.Moving
import Lightwalletd.Service.Streamer

namespace Lightwalletd

/-! ### Accepted requests -/

/-- Heights of a request are words. -/
def BlockRange.Words (range : BlockRange) : Prop :=
  (∀ id ∈ range.start, id.height ≤ u64Max) ∧ ∀ id ∈ range.stop, id.height ≤ u64Max

theorem BlockRange.words_of_le {start stop : Nat} (hstart : start ≤ u64Max)
    (hstop : stop ≤ u64Max) : (⟨some ⟨start, []⟩, some ⟨stop, []⟩, []⟩ : BlockRange).Words := by
  refine ⟨?_, ?_⟩
  · rintro id ⟨⟩
    exact hstart
  · rintro id ⟨⟩
    exact hstop

/-- What an accepted range is. -/
structure Accepted (streamer : Streamer) (cache : Except CacheError Cache) (method : String)
    (range : BlockRange) (start stop : Nat) : Prop where
  first : ∃ id, range.start = some id ∧ id.height = start
  last : ∃ id, range.stop = some id ∧ id.height = stop
  pools : validatePoolTypes range.poolTypes = .ok ()
  span : validateBlockRange start stop = .ok ()
  floor : checkIngestFloor streamer cache method (min start stop) = .ok ()

theorem checkRange_eq_ok {streamer : Streamer} {cache : Except CacheError Cache} {method : String}
    {range : BlockRange} {start stop : Nat} :
    checkRange streamer cache method range = .ok (start, stop) ↔
      Accepted streamer cache method range start stop := by
  unfold checkRange
  rw [Except.bind_eq_ok]
  constructor
  · rintro ⟨u, hpools, h⟩
    rcases hstart : range.start with _ | first
    · simp [hstart] at h
    rcases hstop : range.stop with _ | last
    · simp [hstart, hstop] at h
    simp only [hstart, hstop, Except.bind_eq_ok, Except.pure_eq_ok, Prod.mk.injEq] at h
    obtain ⟨_, hspan, _, hfloor, rfl, rfl⟩ := h
    exact ⟨⟨first, hstart, rfl⟩, ⟨last, hstop, rfl⟩, hpools, hspan, hfloor⟩
  · rintro ⟨⟨first, hfirst, rfl⟩, ⟨last, hlast, rfl⟩, hpools, hspan, hfloor⟩
    refine ⟨(), hpools, ?_⟩
    simp only [hfirst, hlast, hspan, hfloor, Except.ok_bind]
    rfl

section

variable {streamer : Streamer} {cache : Except CacheError Cache} {method : String}
  {range : BlockRange} {start stop : Nat}

theorem Accepted.words (h : Accepted streamer cache method range start stop)
    (hwords : range.Words) :
    start ≤ u64Max ∧ stop ≤ u64Max := by
  obtain ⟨first, hfirst, rfl⟩ := h.first
  obtain ⟨last, hlast, rfl⟩ := h.last
  exact ⟨hwords.1 first hfirst, hwords.2 last hlast⟩

theorem Accepted.pos (h : Accepted streamer cache method range start stop) :
    0 < start ∧ 0 < stop := by
  have hspan := h.span
  unfold validateBlockRange at hspan
  by_cases hzero : start = 0 ∨ stop = 0
  · simp [hzero] at hspan
  · omega

theorem mem_rangeHeights {height : Nat} (h : height ∈ rangeHeights start stop) :
    min start stop ≤ height ∧ height ≤ max start stop := by
  obtain ⟨i, hi, rfl⟩ := List.mem_map.mp h
  rw [List.mem_range] at hi
  split <;> omega

variable [Prost] [BlockParser]

theorem Accepted.stream (h : Accepted streamer cache method range start stop) (hwords : range.Words)
    (cacheAt : Nat → Except CacheError Cache) (transform : List Int → RangeTransform) {fuel : Nat}
    (hfuel : maxBlockRange ≤ fuel) :
    ∃ chunkOf : Nat → Nat, ∀ replies,
      serveRange method transform streamer cache ⟨cacheAt, replies⟩ range fuel
        = .ok (some (itemsOf (transform range.poolTypes) (resolvedRange
            (fun height => heightAt ⟨cacheAt, replies⟩ (chunkOf height) height) streamer.repair
            start stop))) := by
  obtain ⟨hstart, hstop⟩ := h.words hwords
  obtain ⟨chunkOf, hstream⟩ := blockRangeStream_resolved cacheAt hstart hstop
    (Nat.le_trans (validateBlockRange_span h.span) hfuel)
  refine ⟨chunkOf, fun replies => ?_⟩
  unfold serveRange
  rw [checkRange_eq_ok.mpr h, Except.ok_bind]
  simp only [hstream]
  rfl

end

/-! ### Height by height

Both methods resolve a height in the same way, the one by one and the other in a loop
that also compares neighbours.
-/

section

variable [Prost] [BlockParser] {cache : Cache} {replies : Nat → BlockReplies}

/-- `GetBlock` at a height is the height of the plain loop. -/
theorem getBlock_eq_ok {height : Nat} (hpos : 0 < height) {block : CompactBlock} :
    getBlock cache replies ⟨height, []⟩ = .ok block ↔
      ∃ source, plainHeight cache replies height = .ok (block, source) := by
  unfold getBlock serveBlock blockAt plainHeight
  rw [Except.ensure_pos (by simp; omega), Except.ok_bind, Except.ensure_pos rfl, Except.ok_bind]
  unfold Cache.get
  rcases cache.blocks.get height with _ | bytes
  · simp only [Except.mapError, Except.ok_bind]
    rcases compactBlock (replies height) height with e | found
    · simp [Except.map]
    · simp [Except.map]
  · rcases hdecode : Cache.decodeBlock bytes with e | found
    · simp [Except.mapError, Except.map, Except.error_bind, hdecode]
    · simp [Except.mapError, Except.map, Except.ok_bind, pure, Except.pure, hdecode]

theorem getBlock_eq_error {height : Nat} (hpos : 0 < height) {failure : Failure}
    (h : plainHeight cache replies height = .error failure) :
    getBlock cache replies ⟨height, []⟩ = .error failure.status := by
  unfold plainHeight at h
  unfold getBlock serveBlock blockAt
  rw [Except.ensure_pos (by simp; omega), Except.ok_bind, Except.ensure_pos rfl, Except.ok_bind]
  unfold Cache.get
  rcases hget : cache.blocks.get height with _ | bytes
  · rw [hget] at h
    simp only [Except.mapError, Except.ok_bind]
    rcases hfetch : compactBlock (replies height) height with e | found
    · simp only [hfetch, Except.error.injEq] at h
      rw [← h]
      rfl
    · simp [hfetch] at h
  · rw [hget] at h
    rcases hdecode : Cache.decodeBlock bytes with e | found
    · simp only [hdecode, Except.error.injEq] at h
      rw [← h]
      simp [Except.mapError, Except.map, hdecode, Except.error_bind]
    · simp [hdecode] at h

/--
**A range is `GetBlock` height by height.**  Over a cache and a node that stay as they
are, an accepted range request of either method yields, transformed, the blocks that
`GetBlock` gives for the heights asked for, in order and each linked to the one before,
either all of them or up to a height whose error ends the stream: the one `GetBlock`
gives there, or a discontinuity if its block is not linked to the last one.
-/
theorem serveRange_eq_getBlock (method : String) (transform : List Int → RangeTransform)
    (streamer : Streamer) (cache : Cache) (replies : Nat → BlockReplies) (range : BlockRange)
    (start stop fuel : Nat) (hwords : range.Words) (hfuel : maxBlockRange ≤ fuel)
    (haccepted : checkRange streamer (.ok cache) method range = .ok (start, stop)) :
    ∃ front back blocks tail, rangeHeights start stop = front ++ back ∧
      serveRange method transform streamer (.ok cache) (fixedEnv cache replies) range fuel
        = .ok (some ((blocks.map fun block =>
          .ok ((transform range.poolTypes).apply block)) ++ tail)) ∧
      List.Forall₂ (fun height block => getBlock cache replies ⟨height, []⟩ = .ok block)
        front blocks ∧
      blocks.IsChain (Linked (decide (start > stop))) ∧
      (back = [] ∧ tail = [] ∨ ∃ height rest, back = height :: rest ∧
        ((∃ status, getBlock cache replies ⟨height, []⟩ = .error status ∧ tail = [.error status]) ∨
          ∃ previous block, blocks.getLast? = some previous ∧
            getBlock cache replies ⟨height, []⟩ = .ok block ∧
            ¬Linked (decide (start > stop)) previous block ∧
            tail = [.error (discontinuity height)])) := by
  have hacc := checkRange_eq_ok.mp haccepted
  obtain ⟨chunkOf, hstream⟩ := hacc.stream hwords (fun _ => .ok cache) transform hfuel
  have hplain : (fun height => heightAt ⟨fun _ => .ok cache, fun _ height => replies height⟩
      (chunkOf height) height) = plainHeight cache replies := rfl
  obtain ⟨front, back, blocks, result, hrun, hsplit, hserved, -, hchain, hend⟩ :=
    resolvedLoop_outcome (plainHeight cache replies) streamer.repair (decide (start > stop))
      (rangeHeights start stop) none
  have hpos : ∀ height ∈ front ++ back, 0 < height := by
    intro height hin
    have hmem := mem_rangeHeights (hsplit ▸ hin)
    have := hacc.pos
    omega
  have hblocks : List.Forall₂ (fun height block => getBlock cache replies ⟨height, []⟩ = .ok block)
      front blocks := by
    refine List.forall₂_congr_of_mem (fun height hin block => ?_) |>.mp hserved
    exact (getBlock_eq_ok (hpos height (List.mem_append_left _ hin))).symm
  have hitems : serveRange method transform streamer (.ok cache) (fixedEnv cache replies) range fuel
      = .ok (some (itemsOf (transform range.poolTypes) (blocks, endingOf result))) := by
    have hall := hstream fun _ height => replies height
    rw [hplain] at hall
    simp only [resolvedRange, hrun] at hall
    exact hall
  rcases hend with ⟨rfl, next, rfl⟩ | ⟨height, rest, failure, rfl, rfl, hstops⟩
  · exact ⟨front, [], blocks, [], hsplit, hitems, hblocks, hchain, Or.inl ⟨rfl, rfl⟩⟩
  have hheight := hpos height (List.mem_append_right _ List.mem_cons_self)
  refine ⟨front, height :: rest, blocks, [.error failure.status], hsplit, hitems, hblocks, hchain,
    Or.inr ⟨height, rest, rfl, ?_⟩⟩
  rcases hstops with hresolve | ⟨block, source, hresolve, hbroken, hstatus⟩
  · exact Or.inl ⟨failure.status, getBlock_eq_error hheight hresolve, rfl⟩
  · refine Or.inr ?_
    rcases hlast : blocks.getLast? with _ | previous
    · exact absurd ⟨by simp [hlast], by simp⟩ hbroken
    · refine ⟨previous, block, rfl, (getBlock_eq_ok hheight).mpr ⟨source, hresolve⟩,
        ?_, by rw [hstatus]⟩
      intro hlinked
      refine hbroken ⟨?_, by simp⟩
      intro last hin
      obtain rfl : previous = last := Option.some.inj (hlast.symm.trans hin)
      exact hlinked

end

/-- The request for the blocks from 2 down to 1. -/
def rangeDown : BlockRange := ⟨some ⟨2, []⟩, some ⟨1, []⟩, []⟩

/-- Of the two, the lower one is cached. -/
theorem rangeDown_eq_getBlock :
    ∃ front back blocks tail, [2, 1] = front ++ back ∧
      serveRange "get_block_range" (fun poolTypes => .pools (.fromPoolTypes poolTypes))
        ⟨true, some 1⟩
          (.ok lowerCached) (fixedEnv lowerCached repliesAt) rangeDown maxBlockRange
        = .ok (some ((blocks.map fun block =>
            .ok ((RangeTransform.pools (.fromPoolTypes [])).apply block)) ++ tail)) ∧
      List.Forall₂ (fun height block => getBlock lowerCached repliesAt ⟨height, []⟩ = .ok block)
        front blocks := by
  have hwords : rangeDown.Words := BlockRange.words_of_le (by decide) (by decide)
  obtain ⟨front, back, blocks, tail, hsplit, hitems, hblocks, -, -⟩ :=
    serveRange_eq_getBlock "get_block_range" (fun poolTypes => .pools (.fromPoolTypes poolTypes))
      ⟨true, some 1⟩ lowerCached repliesAt rangeDown 2 1 maxBlockRange hwords (Nat.le_refl _) rfl
  have hheights : rangeHeights 2 1 = [2, 1] := by decide
  exact ⟨front, back, blocks, tail, hheights ▸ hsplit, hitems, hblocks⟩

end Lightwalletd
