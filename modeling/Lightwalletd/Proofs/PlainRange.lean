/-
The bounds of a range stream do not show.

A bounded read keeps the rows of the front of its window and says where it stopped,
so at every height it covers it holds what the cache holds (`Maximal.get`): a row the
budget cut off lies outside the covered part, never taken for a miss.  Serving a chunk is
then the plain loop over its heights, and the plain loop over a list is the one over its
front followed by the one over the rest, from the link the front leaves.
-/
import Lightwalletd.Proofs.BlockRange

namespace Lightwalletd

/-! ### The plain loop

It is a loop over heights that only asks how each of them resolves, and what such a loop
does to a list it does to the parts of the list. -/

/-- One height after the other, each checked against the one before. -/
def resolvedLoop (resolve : Nat → Except Failure (CompactBlock × BlockSource))
    (repair descending : Bool) :
    List Nat → Option ChainLink → List CompactBlock × Except Failure (Option ChainLink)
  | [], link => ([], .ok link)
  | height :: heights, link =>
      match resolve height with
      | .error failure => ([], .error failure)
      | .ok (block, source) =>
          let checked := match link with
            | some previous => previous.check block height descending source repair
            | none => .ok ()
          match checked with
          | .error failure => ([], .error failure)
          | .ok () =>
              let (blocks, result) := resolvedLoop resolve repair descending heights
                (some (ChainLink.after height block descending source))
              (block :: blocks, result)

section

variable {resolve other : Nat → Except Failure (CompactBlock × BlockSource)}
  {repair descending : Bool}

theorem resolvedLoop_congr {heights : List Nat}
    (h : ∀ height ∈ heights, resolve height = other height)
    (link : Option ChainLink) :
    resolvedLoop resolve repair descending heights link
      = resolvedLoop other repair descending heights link := by
  induction heights generalizing link with
  | nil => rfl
  | cons height heights ih =>
      have hrest := fun link => ih (fun k hk => h k (List.mem_cons_of_mem _ hk)) link
      unfold resolvedLoop
      rw [h height List.mem_cons_self]
      simp only [hrest]

theorem resolvedLoop_append (front back : List Nat) (link : Option ChainLink) :
    resolvedLoop resolve repair descending (front ++ back) link
      = match resolvedLoop resolve repair descending front link with
        | (blocks, .error failure) => (blocks, .error failure)
        | (blocks, .ok next) =>
            (blocks ++ (resolvedLoop resolve repair descending back next).1,
              (resolvedLoop resolve repair descending back next).2) := by
  induction front generalizing link with
  | nil => simp [resolvedLoop]
  | cons height front ih =>
      rw [List.cons_append, resolvedLoop, resolvedLoop]
      rcases resolve height with failure | ⟨block, source⟩
      · rfl
      · dsimp only
        split
        · rfl
        · rw [ih]
          rcases resolvedLoop resolve repair descending front
            (some (ChainLink.after height block descending source)) with ⟨blocks, _ | next⟩
          · rfl
          · rfl

end

theorem plainLoop_resolved [Prost] [BlockParser] (cache : Cache) (replies : Nat → BlockReplies)
    (repair descending : Bool) (heights : List Nat) (link : Option ChainLink) :
    plainLoop cache replies repair descending heights link
      = resolvedLoop (plainHeight cache replies) repair descending heights link := by
  induction heights generalizing link with
  | nil => rfl
  | cons height heights ih =>
      have hrest : plainLoop cache replies repair descending heights
          = resolvedLoop (plainHeight cache replies) repair descending heights := funext ih
      unfold plainLoop resolvedLoop
      exact hrest ▸ rfl

/-! ### One chunk -/

section

variable [Prost] [BlockParser] {cache : Cache} {replies : Nat → BlockReplies}
  {repair descending : Bool}

/-- A height resolves as in the plain loop, and takes nothing but its own row. -/
theorem resolveHeight_plain (replies : Nat → BlockReplies) (chunk : Nat) {height : Nat}
    {cached : Table Nat Bytes} (hget : cached.get height = cache.blocks.get height) :
    ∃ rest, (∀ other, other ≠ height → rest.get other = cached.get other) ∧
      resolveHeight (fixedEnv cache replies) chunk height cached
        = (plainHeight cache replies height).map fun resolved =>
          (resolved.1, resolved.2, rest) := by
  unfold resolveHeight plainHeight
  rw [hget]
  rcases hstored : cache.blocks.get height with _ | bytes
  · refine ⟨cached, fun _ _ => rfl, ?_⟩
    simp only [fixedEnv]
    rcases compactBlock (replies height) height with e | block
    · simp only [Except.map]
    · simp only [Except.map]
  · refine ⟨cached.retain fun h _ => h ≠ height, ?_, ?_⟩
    · intro other hne
      rw [Table.get_retain]
      simp only [hne, ne_eq, not_false_eq_true, decide_true]
      rcases cached.get other with _ | kept
      · rfl
      · rfl
    · rcases hdecode : Cache.decodeBlock bytes with e | block
      · simp only [hdecode, Except.map]
      · simp only [hdecode, Except.map]

theorem serveHeights_plain (chunk : Nat) {heights : List Nat} (hnodup : heights.Nodup)
    {cached : Table Nat Bytes}
    (hget : ∀ height ∈ heights, cached.get height = cache.blocks.get height)
    (link : Option ChainLink) :
    serveHeights (fixedEnv cache replies) repair descending chunk heights cached link
      = plainLoop cache replies repair descending heights link := by
  induction heights generalizing cached link with
  | nil => rfl
  | cons height heights ih =>
      obtain ⟨hnotin, hrest⟩ := List.nodup_cons.mp hnodup
      obtain ⟨rest, hkept, hresolve⟩ := resolveHeight_plain replies chunk
        (hget height List.mem_cons_self)
      unfold serveHeights plainLoop
      rw [hresolve]
      rcases plainHeight cache replies height with failure | ⟨block, source⟩
      · rfl
      · have hlater : ∀ other ∈ heights, rest.get other = cache.blocks.get other := by
          intro other hin
          rw [hkept other (fun heq => hnotin (heq ▸ hin))]
          exact hget other (List.mem_cons_of_mem _ hin)
        have htail := fun link => congrArg
          (fun tail : List CompactBlock × Except Failure (Option ChainLink) =>
            (block :: tail.1, tail.2)) (ih hrest hlater link)
        rcases link with _ | previous
        · exact htail _
        · dsimp only [Except.map]
          rcases previous.check block height descending source repair with failure | u
          · rfl
          · exact htail _

theorem plainLoop_append (front back : List Nat) (link : Option ChainLink) :
    plainLoop cache replies repair descending (front ++ back) link
      = match plainLoop cache replies repair descending front link with
        | (blocks, .error failure) => (blocks, .error failure)
        | (blocks, .ok next) =>
            (blocks ++ (plainLoop cache replies repair descending back next).1,
              (plainLoop cache replies repair descending back next).2) := by
  simp only [plainLoop_resolved]
  exact resolvedLoop_append front back link

/-! ### The whole range -/

omit [Prost] [BlockParser] in
theorem coveredHeights_nodup (low high : Nat) : (coveredHeights descending low high).Nodup := by
  unfold coveredHeights
  cases descending with
  | false => exact List.nodup_range'
  | true => exact List.nodup_reverse.mpr List.nodup_range'

omit [Prost] [BlockParser] in
theorem mem_coveredHeights {low high height : Nat}
    (h : height ∈ coveredHeights descending low high) :
    low ≤ height ∧ height ≤ high := by
  have hin : height ∈ List.range' low (high + 1 - low) := by
    unfold coveredHeights at h
    cases descending <;> simpa using h
  obtain ⟨i, hi, rfl⟩ := List.mem_range'.mp hin
  omega

/-- Whatever the bounds, with enough fuel the loop over the chunks is the plain loop. -/
theorem rangeLoopBy_plain (size budget : Nat) {low high : Nat}
    (hmax : high ≤ u64Max) (fuel chunk : Nat) {cursor : Nat} (link : Option ChainLink)
    (hlow : low ≤ cursor) (hhigh : cursor ≤ high)
    (hfuel : (remaining descending low high cursor).length ≤ fuel) :
    rangeLoopBy (fixedEnv cache replies) repair descending size budget low high fuel
      chunk cursor link
      = ((plainLoop cache replies repair descending (remaining descending low high cursor) link).1,
        endingOf (plainLoop cache replies repair descending
          (remaining descending low high cursor) link).2) := by
  induction fuel generalizing chunk cursor link with
  | zero => exact absurd hfuel (Nat.not_le.mpr (remaining_pos hlow hhigh))
  | succ fuel ih =>
      obtain ⟨covered, hcovered⟩ : ∃ c, c = cache.readChunk
        (chunkFromBy size cursor low high descending).1
        (chunkFromBy size cursor low high descending).2 descending budget := ⟨_, rfl⟩
      have hcov : Covers descending low high cursor covered :=
        hcovered ▸ readChunk_covers cache hlow hhigh hmax size budget
      have hread := hcovered ▸ readChunk_window cache descending hlow hhigh hmax size budget
      have hrows : ∀ height ∈ coveredHeights descending covered.low covered.high,
          covered.blocks.get height = cache.blocks.get height := by
        intro height hin
        obtain ⟨hge, hle⟩ := mem_coveredHeights hin
        exact hread.get hge hle
      have hserve : serveHeights (fixedEnv cache replies) repair descending chunk
          (coveredHeights descending covered.low covered.high) covered.blocks link
          = plainLoop cache replies repair descending
            (coveredHeights descending covered.low covered.high) link :=
        serveHeights_plain chunk (coveredHeights_nodup _ _) hrows link
      unfold rangeLoopBy
      simp only [fixedEnv] at hserve ⊢
      rw [← hcovered, hserve]
      rcases hnext : nextCursor descending low high covered with _ | next
      · rw [hcov.last hnext]
        rcases plainLoop cache replies repair descending (remaining descending low high cursor) link
          with ⟨blocks, _ | _⟩
        · rfl
        · rfl
      · obtain ⟨hlow', hhigh', hsplit, hlt⟩ := hcov.next hlow hhigh hnext
        have hrest := fun link => ih (chunk + 1) link hlow' hhigh' (by omega)
        rw [← hsplit, plainLoop_append]
        rcases plainLoop cache replies repair descending
          (coveredHeights descending covered.low covered.high) link with ⟨blocks, _ | link'⟩
        · rfl
        · simp only [fixedEnv] at hrest
          simp only [hrest]

theorem rangeSourceBy_plain (size budget : Nat) {start stop : Nat} (hstart : start ≤ u64Max)
    (hstop : stop ≤ u64Max) {fuel : Nat} (hfuel : max start stop - min start stop + 1 ≤ fuel) :
    rangeSourceBy size budget (fixedEnv cache replies) repair start stop fuel
      = plainRange cache replies repair start stop := by
  have hheights := rangeHeights_eq start stop
  have hlength : (rangeHeights start stop).length ≤ fuel := by
    simpa [rangeHeights] using hfuel
  unfold rangeSourceBy plainRange
  change _ = ((plainLoop cache replies repair _ (rangeHeights start stop) none).1,
    endingOf (plainLoop cache replies repair _ (rangeHeights start stop) none).2)
  by_cases hdesc : start > stop
  · simp only [hdesc, decide_true, if_true] at hheights ⊢
    rw [hheights] at hlength ⊢
    exact rangeLoopBy_plain size budget hstart fuel 0 none (Nat.le_of_lt hdesc) (Nat.le_refl _)
      hlength
  · simp only [hdesc, decide_false, Bool.false_eq_true, if_false] at hheights ⊢
    rw [hheights] at hlength ⊢
    exact rangeLoopBy_plain size budget hstop fuel 0 none (Nat.le_refl _) (Nat.le_of_not_lt hdesc)
      hlength

/-! ### An honest range -/

omit [Prost] [BlockParser] in
theorem ChainLink.check_of_facing {link : ChainLink} {block : CompactBlock}
    (h : block.facing descending = link.expectedHash) (height : Nat) (source : BlockSource) :
    link.check block height descending source repair = .ok () :=
  if_pos h

private theorem plainLoop_linked (repair : Bool) {chain : Nat → CompactBlock} {heights : List Nat}
    (hresolve : ∀ height ∈ heights, ∃ source, plainHeight cache replies height
      = .ok (chain height, source))
    (hchain : heights.IsChain fun a b => Linked descending (chain a) (chain b))
    (link : Option ChainLink) (hlink : ∀ l ∈ link, ∀ height ∈ heights.head?,
      (chain height).facing descending = l.expectedHash) :
    ∃ next, plainLoop cache replies repair descending heights link
      = (heights.map chain, .ok next) := by
  induction heights generalizing link with
  | nil => exact ⟨link, rfl⟩
  | cons height heights ih =>
      obtain ⟨source, hsource⟩ := hresolve height List.mem_cons_self
      obtain ⟨hnext, hrest⟩ := List.isChain_cons.mp hchain
      obtain ⟨next, htail⟩ :=
          ih (fun other hin => hresolve other (List.mem_cons_of_mem _ hin)) hrest
        (some (ChainLink.after height (chain height) descending source)) (by
          rintro l ⟨⟩ other hother
          have hlinked := hnext other hother
          cases descending <;> exact hlinked)
      refine ⟨next, ?_⟩
      unfold plainLoop
      simp only [hsource, htail]
      rcases link with _ | previous
      · rfl
      · simp only [ChainLink.check_of_facing (hlink previous rfl height rfl) height source]
        rfl

/-- What the node has at every height of a range, and the cache where it has anything. -/
structure HonestRange (cache : Cache) (replies : Nat → BlockReplies) (chain : Nat → CompactBlock)
    (start stop : Nat) : Prop where
  fetched : ∀ height, min start stop ≤ height → height ≤ max start stop →
    compactBlock (replies height) height = .ok (chain height)
  stored : ∀ height bytes, min start stop ≤ height → height ≤ max start stop →
    cache.blocks.get height = some bytes → Cache.decodeBlock bytes = .ok (chain height)
  linked : ∀ height, min start stop ≤ height → height < max start stop →
    (chain (height + 1)).prevHash = (chain height).hash

theorem HonestRange.plainHeight {chain : Nat → CompactBlock} {start stop height : Nat}
    (h : HonestRange cache replies chain start stop) (hlow : min start stop ≤ height)
    (hhigh : height ≤ max start stop) :
    ∃ source, plainHeight cache replies height = .ok (chain height, source) := by
  unfold Lightwalletd.plainHeight
  rcases hget : cache.blocks.get height with _ | bytes
  · exact ⟨.node, by simp only [h.fetched height hlow hhigh]⟩
  · exact ⟨.cache, by simp only [h.stored height bytes hlow hhigh hget]⟩

theorem HonestRange.plainRange {chain : Nat → CompactBlock} {start stop : Nat}
    (h : HonestRange cache replies chain start stop) :
    plainRange cache replies repair start stop
      = ((rangeHeights start stop).map chain, .finished) := by
  have hresolve : ∀ height ∈ rangeHeights start stop, ∃ source,
      Lightwalletd.plainHeight cache replies height = .ok (chain height, source) := by
    intro height hin
    obtain ⟨i, hi, rfl⟩ := List.mem_map.mp hin
    rw [List.mem_range] at hi
    refine h.plainHeight ?_ ?_
    · split <;> omega
    · split <;> omega
  have hchain : (rangeHeights start stop).IsChain fun a b =>
      Linked (decide (start > stop)) (chain a) (chain b) := by
    unfold rangeHeights
    rw [List.isChain_map, List.isChain_range]
    intro i hi
    by_cases hle : start ≤ stop
    · simp only [hle, if_true, Nat.not_lt.mpr hle, decide_false]
      exact h.linked (start + i) (by omega) (by omega)
    · simp only [hle, if_false, Nat.lt_of_not_le hle, decide_true]
      have hlinked := h.linked (start - (i + 1)) (by omega) (by omega)
      rw [show start - (i + 1) + 1 = start - i by omega] at hlinked
      exact hlinked.symm
  obtain ⟨next, hloop⟩ := plainLoop_linked repair hresolve hchain none (by simp)
  show ((plainLoop cache replies repair _ (rangeHeights start stop) none).1,
    endingOf (plainLoop cache replies repair _ (rangeHeights start stop) none).2) = _
  rw [hloop]
  rfl

/-! ### The stream -/

omit [BlockParser] in
theorem streamOf_eq (transform : RangeTransform) {source : List CompactBlock × Ending}
    (h : source.2 ≠ .outOfFuel) : streamOf transform source = some (itemsOf transform source) := by
  obtain ⟨blocks, ending⟩ := source
  have hitems := fun error => coalesce_eq (fun block => (Prost.encode block).length)
    (blocks.map transform.apply) error
  simp only [List.map_map] at hitems
  cases ending with
  | finished =>
      have hdone := hitems none
      simp only [Option.map_none, Option.toList_none, List.append_nil] at hdone
      simp only [streamOf, itemsOf, Ending.failure, Option.map_none, Option.toList_none,
        List.append_nil]
      exact congrArg some hdone
  | failed failure => exact congrArg some (hitems (some failure.status))
  | outOfFuel => exact absurd rfl h

/--
**Chunked range serving is the plain loop.**  Over a cache and a node that stay as they
are, whatever they hold and answer, for any size and budget of the chunks and any range:
the blocks of the source, the error it ends in and the height it reports are those of
the loop that takes one height after the other, and so are the items the client gets,
also with the bounds the code uses.  If moreover every block of the range can be
fetched, the cache holds no other, and they are linked, then all of them are served and
nothing is reported.
-/
theorem chunked_eq_plain (cache : Cache) (replies : Nat → BlockReplies) (repair : Bool)
    (transform : RangeTransform) (start stop size budget fuel : Nat) (hstart : start ≤ u64Max)
    (hstop : stop ≤ u64Max) (hfuel : max start stop - min start stop + 1 ≤ fuel) :
    rangeSourceBy size budget (fixedEnv cache replies) repair start stop fuel
      = plainRange cache replies repair start stop ∧
    streamOf transform (rangeSourceBy size budget (fixedEnv cache replies) repair start stop fuel)
      = some (itemsOf transform (plainRange cache replies repair start stop)) ∧
    blockRangeStream (fixedEnv cache replies) repair start stop transform fuel
      = some (itemsOf transform (plainRange cache replies repair start stop)) ∧
    ∀ chain : Nat → CompactBlock, HonestRange cache replies chain start stop →
      plainRange cache replies repair start stop
        = ((rangeHeights start stop).map chain, .finished) := by
  have hended : (plainRange cache replies repair start stop).2 ≠ .outOfFuel := by
    show endingOf _ ≠ _
    rcases (plainLoop cache replies repair _ _ none).2 with _ | _
    · exact fun h => by cases h
    · exact fun h => by cases h
  refine ⟨rangeSourceBy_plain size budget hstart hstop hfuel, ?_, ?_, fun chain h => h.plainRange⟩
  · rw [rangeSourceBy_plain size budget hstart hstop hfuel, streamOf_eq transform hended]
  · rw [blockRangeStream_eq_by, rangeSourceBy_plain _ _ hstart hstop hfuel,
      streamOf_eq transform hended]

end

/-- The lower of two blocks of the node's chain, cached. -/
def lowerCached : Cache :=
  { Cache.empty with blocks := Table.empty.insert 1 (Prost.encode (fetchedAt 1)) }

/-- The two are served downwards, one in a chunk and none within the budget. -/
theorem lowerCached_chunked :
    rangeSourceBy 1 0 (fixedEnv lowerCached repliesAt) true 2 1 2
      = ([fetchedAt 2, fetchedAt 1], .finished) := by
  have hhonest : HonestRange lowerCached repliesAt fetchedAt 2 1 := by
    refine ⟨fun height _ hhigh => fetchedAt_eq hhigh, ?_, ?_⟩
    · intro height bytes hlow hhigh hget
      obtain rfl | rfl : height = 1 ∨ height = 2 := by omega
      · rw [lowerCached, Table.get_insert, if_pos rfl] at hget
        rw [← Option.some.inj hget, Cache.decodeBlock, Prost.decode_encode]
        rfl
      · rw [lowerCached, Table.get_insert, if_neg (by decide), Table.empty_get] at hget
        exact absurd hget (Option.some_ne_none bytes).symm
    · intro height hlow hhigh
      exact fetchedAt_linked (by omega)
  obtain ⟨hsource, -, -, hserved⟩ := chunked_eq_plain lowerCached repliesAt true
    (.pools ⟨true, true, true, true⟩) 2 1 1 0 2 (by decide) (by decide) (by decide)
  have hheights : rangeHeights 2 1 = [2, 1] := by decide
  rw [hsource, hserved fetchedAt hhonest, hheights, List.map_cons, List.map_cons, List.map_nil]

end Lightwalletd
