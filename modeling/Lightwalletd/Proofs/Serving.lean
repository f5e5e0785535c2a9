/-
Serving while the ingestor runs.

A stream's chunks are read at moments of the ingestor's run, and the two do not wait for
each other.  As long as every block the node serves is of one chain, the cache holds
nothing else at any moment, so each height resolves to the block of the chain wherever it
comes from, and no two of them fail to connect.  Once the ingestor is idle the cache has
every height the node has from the floor on, and the node is not needed to serve them.

A node that serves anything can still not be made to work for what is cached: below the
cached tip an accepted range is answered from the cache alone.
-/
import Lightwalletd.Proofs.Convergence
import Lightwalletd.Proofs.Loop
import Lightwalletd.Proofs.Methods

namespace Lightwalletd

/-! ### One chain

The cache moves while a range is served, but along one chain: a height resolves to its
block at every moment, if it resolves at all.
-/

section

variable [Prost]

/-- Every row is the block of `chain` at its height. -/
def HoldsChain (chain : Nat → CompactBlock) (cache : Cache) : Prop :=
  ∀ row ∈ cache.blocks.rows, row.2 = Prost.encode (chain row.1)

theorem HoldsChain.cut {chain : Nat → CompactBlock} {cache cache' : Cache}
    (h : HoldsChain chain cache) (hdropped : Dropped cache cache') : HoldsChain chain cache' :=
  fun row hrow => h row (hdropped.rows.subset hrow)

theorem HoldsChain.empty (chain : Nat → CompactBlock) : HoldsChain chain Cache.empty :=
  fun _ hrow => absurd hrow List.not_mem_nil

variable [BlockParser]

omit [Prost] in
/-- What a step can get from the node is of `chain`, as far as it gets anything. -/
def StepEnv.Honest (env : StepEnv) (chain : Nat → CompactBlock) : Prop :=
  ∀ info height block, env.blockchainInfo = .ok info → height ≤ info.blocks →
    env.delivered height = some (.ok block) → block = chain height

theorem HoldsChain.step {chain : Nat → CompactBlock} {cache : Cache} {env : StepEnv}
    (h : HoldsChain chain cache) (henv : env.Honest chain) (floor : Nat) (config : IngestConfig) :
    HoldsChain chain (Lightwalletd.step env cache floor config).1 := by
  intro row hrow
  rcases step_rows env cache floor config row hrow with
    hold | ⟨info, height, block, hinfo, hle, hdelivered, rfl⟩
  · exact h row hold
  · have hheight := StepEnv.delivered_height hdelivered
    show Prost.encode block = Prost.encode (chain block.height)
    rw [hheight, ← henv info height block hinfo hle hdelivered]

/-- Events whose steps the node answers from `chain`. -/
def HonestEvents (chain : Nat → CompactBlock) (events : List LoopEvent) : Prop :=
  ∀ now env, .iterate now env ∈ events → env.Honest chain

theorem HoldsChain.run {chain : Nat → CompactBlock} {loop : IngestLoop} {events : List LoopEvent}
    (h : HoldsChain chain loop.cache) (hevents : HonestEvents chain events) (floor : Nat)
    (config : IngestConfig) : HoldsChain chain (loop.run floor config events).cache :=
  IngestLoop.run_invariant (fun _ _ hdropped hholds => hholds.cut hdropped)
    (fun now env _ hin hholds => hholds.step (hevents now env hin) floor config) h

end

theorem rangeHeights_linked {chain : Nat → CompactBlock} {start stop : Nat}
    (hlinked : ∀ height, min start stop ≤ height → height < max start stop →
      Follows (chain height) (chain (height + 1))) :
    (rangeHeights start stop).IsChain fun a b =>
      Linked (decide (start > stop)) (chain a) (chain b) := by
  unfold rangeHeights
  rw [List.isChain_map, List.isChain_range]
  intro i hi
  by_cases hle : start ≤ stop
  · simp only [hle, if_true, Nat.not_lt.mpr hle, decide_false]
    exact hlinked (start + i) (by omega) (by omega)
  · simp only [hle, if_false, Nat.lt_of_not_le hle, decide_true]
    have hstep := hlinked (start - (i + 1)) (by omega) (by omega)
    rw [show start - (i + 1) + 1 = start - i by omega] at hstep
    exact hstep.symm

/-- Heights that resolve to blocks of a linked chain, or not at all, are served up to the
first that does not resolve. -/
theorem resolvedRange_chain {chain : Nat → CompactBlock} {start stop : Nat}
    (resolve : Nat → Except Failure (CompactBlock × BlockSource)) (repair : Bool)
    (hlinked : ∀ height, min start stop ≤ height → height < max start stop →
      Follows (chain height) (chain (height + 1)))
    (hresolve : ∀ height ∈ rangeHeights start stop, ∀ block source,
      resolve height = .ok (block, source) → block = chain height) :
    ∃ front back, rangeHeights start stop = front ++ back ∧
      (resolvedRange resolve repair start stop).1 = front.map chain ∧
      (back = [] ∧ (resolvedRange resolve repair start stop).2 = .finished ∨
        ∃ height rest failure, back = height :: rest ∧ resolve height = .error failure ∧
          (resolvedRange resolve repair start stop).2 = .failed failure) := by
  obtain ⟨front, back, blocks, result, hrun, hsplit, hserved, -, -, hend⟩ :=
    resolvedLoop_outcome resolve repair (decide (start > stop)) (rangeHeights start stop) none
  have hblocks : blocks = front.map chain := by
    have hpairs : List.Forall₂ (fun height block => block = chain height) front blocks := by
      refine (List.forall₂_congr_of_mem fun height hin block => ?_).mp hserved
      constructor
      · rintro ⟨source, hok⟩
        exact hresolve height (hsplit ▸ List.mem_append_left _ hin) block source hok
      · rintro rfl
        obtain ⟨found, -, source, hok⟩ := List.Forall₂.exists_of_mem hserved hin
        exact ⟨source, by rw [hok,
          hresolve height (hsplit ▸ List.mem_append_left _ hin) found source hok]⟩
    rw [← List.forall₂_eq_eq_eq, List.forall₂_map_right_iff]
    exact (List.Forall₂.flip hpairs).imp fun _ _ h => h
  refine ⟨front, back, hsplit, ?_, ?_⟩
  · unfold resolvedRange
    simp only [hrun, hblocks]
  rcases hend with ⟨hback, next, rfl⟩ | ⟨height, rest, failure, rfl, rfl, hstops⟩
  · refine Or.inl ⟨hback, ?_⟩
    unfold resolvedRange
    simp only [hrun, endingOf]
  refine Or.inr ⟨height, rest, failure, rfl, ?_, ?_⟩
  · rcases hstops with hfailed | ⟨block, source, hok, hbroken, -⟩
    · exact hfailed
    -- The block of the chain there is linked to the one before.
    refine absurd ⟨?_, by simp⟩ hbroken
    intro previous hprevious
    rw [hblocks, List.getLast?_map] at hprevious
    obtain ⟨before, hbefore, rfl⟩ := Option.map_eq_some_iff.mp (Option.mem_def.mp hprevious)
    have hchain := rangeHeights_linked hlinked
    rw [hsplit, List.isChain_append] at hchain
    rw [hresolve height (hsplit ▸ List.mem_append_right _ List.mem_cons_self) block source hok]
    exact hchain.2.2 before hbefore height rfl
  · unfold resolvedRange
    simp only [hrun, endingOf]

section

variable [Prost] [BlockParser]

/-- A range all of whose heights resolve to a linked chain is served whole. -/
theorem serveRange_whole {chain : Nat → CompactBlock} {cache : Cache}
    {replies : Nat → BlockReplies} {method : String} {streamer : Streamer} {range : BlockRange}
    {start stop fuel : Nat} (transform : List Int → RangeTransform) (hwords : range.Words)
    (hfuel : maxBlockRange ≤ fuel)
    (haccepted : checkRange streamer (.ok cache) method range = .ok (start, stop))
    (hlinked : ∀ height, min start stop ≤ height → height < max start stop →
      Follows (chain height) (chain (height + 1)))
    (hresolve : ∀ height ∈ rangeHeights start stop, ∃ source,
      plainHeight cache replies height = .ok (chain height, source)) :
    serveRange method transform streamer (.ok cache) (fixedEnv cache replies) range fuel
      = .ok (some ((rangeHeights start stop).map fun height =>
          .ok ((transform range.poolTypes).apply (chain height)))) := by
  obtain ⟨front, back, hsplit, hblocks, hend⟩ := resolvedRange_chain
    (plainHeight cache replies) streamer.repair hlinked (fun height hin block source hok => by
      obtain ⟨source', hresolved⟩ := hresolve height hin
      exact (Prod.mk.inj (Except.ok.inj (hok.symm.trans hresolved))).1)
  obtain ⟨chunkOf, hstream⟩ := (checkRange_eq_ok.mp haccepted).stream hwords
    (fun _ => .ok cache) transform hfuel
  have hitems := hstream fun _ height => replies height
  rcases hend with ⟨rfl, hdone⟩ | ⟨height, rest, failure, rfl, hfailed, -⟩
  · refine hitems.trans ?_
    have hsame : (fun height => heightAt ⟨fun _ => .ok cache, fun _ height => replies height⟩
        (chunkOf height) height) = plainHeight cache replies := rfl
    rw [hsame, itemsOf, hblocks, hdone, hsplit, List.append_nil, List.map_map]
    simp only [Ending.failure, Option.map_none, Option.toList_none, List.append_nil]
    rfl
  · obtain ⟨source, hresolved⟩ :=
      hresolve height (hsplit ▸ List.mem_append_right _ List.mem_cons_self)
    cases hfailed.symm.trans hresolved

omit [BlockParser] in
theorem Cache.Good.get_within {base tip height : Nat} {cache : Cache} (hgood : cache.Good)
    (hrange : cache.range = some (base, tip)) (hge : base ≤ height) (hle : height ≤ tip) :
    ∃ bytes, cache.blocks.get height = some bytes := by
  obtain ⟨v, w, hfirst, hlast⟩ := Cache.range_eq hrange
  have hkeys := (hgood.toStored.contiguous.mem_keys_iff hfirst hlast).mpr ⟨hge, hle⟩
  exact Option.isSome_iff_exists.mp (Table.get_isSome_iff_mem_keys.mpr hkeys)

omit [Prost] [BlockParser] in
theorem Cache.range_of_latestHeight {cache : Cache} {tip : Nat}
    (htip : cache.latestHeight = some tip) : ∃ base, cache.range = some (base, tip) := by
  obtain ⟨⟨last, w⟩, hlast, rfl⟩ := Option.map_eq_some_iff.mp htip
  rcases hfirst : cache.blocks.first with _ | ⟨base, v⟩
  · rw [Table.last, Table.first_eq_none_iff.mp hfirst] at hlast
    simp at hlast
  · exact ⟨base, by simp only [Cache.range, hfirst, hlast]⟩

omit [BlockParser] in
theorem LowestAt.stored {floor tip height : Nat} {cache : Cache} (hlow : LowestAt floor cache)
    (hgood : cache.Good) (htip : cache.latestHeight = some tip) (hge : floor ≤ height)
    (hle : height ≤ tip) : ∃ bytes, cache.blocks.get height = some bytes := by
  obtain ⟨base, hrange⟩ := Cache.range_of_latestHeight htip
  exact hgood.get_within hrange (hlow base tip hrange ▸ hge) hle

/-- If anything is cached, the lowest height is the floor or what it was in `opened`. -/
def Based (floor : Nat) (opened cache : Cache) : Prop :=
  ∀ base tip, cache.range = some (base, tip) →
    base = floor ∨ ∃ tip, opened.range = some (base, tip)

theorem Based.run {floor : Nat} (config : IngestConfig) (events : List LoopEvent)
    {loop : IngestLoop} : Based floor loop.cache (loop.run floor config events).cache := by
  refine IngestLoop.run_invariant (P := Based floor loop.cache) ?_ ?_
    (fun base tip hrange => Or.inr ⟨tip, hrange⟩)
  · intro cache cache' hdropped hbased base tip hrange
    obtain ⟨tip', hold⟩ := hdropped.base hrange
    exact hbased base tip' hold
  intro now env cache _ hbased
  rcases step_cases env cache floor config with hsame | hdropped | hextended
  · rw [hsame]
    exact hbased
  · intro base tip hrange
    obtain ⟨tip', hold⟩ := hdropped.base hrange
    exact hbased base tip' hold
  · intro base tip hrange
    rcases hextended.base hrange with hfloor | ⟨tip', hold⟩
    · exact Or.inl hfloor
    · exact hbased base tip' hold

/-- The first `n` iterations of a run without reports. -/
def iterations (nows : Nat → Nat) (envs : Nat → StepEnv) (n : Nat) : List LoopEvent :=
  (List.range n).map fun i => .iterate (nows i) (envs i)

section

variable (chain : NodeChain) (floor : Nat) (config : IngestConfig) (loop : IngestLoop)
  (nows : Nat → Nat) (envs : Nat → StepEnv)

/-- The loop before the `n`-th iteration. -/
def loopAt (n : Nat) : IngestLoop := loop.run floor config (iterations nows envs n)

theorem loopAt_succ (n : Nat) : loopAt floor config loop nows envs (n + 1)
    = ((loopAt floor config loop nows envs n).iterate floor config (nows n) (envs n)).1 := by
  unfold loopAt iterations IngestLoop.run
  rw [List.range_succ, List.map_append, List.foldl_append]
  rfl

/-- How the step of the `n`-th iteration ended. -/
def stepResultAt (n : Nat) : Except StepError Progress :=
  ((loopAt floor config loop nows envs n).iterate floor config (nows n) (envs n)).2.1

variable {chain floor config loop nows envs}

omit [Prost] in
theorem NodeChain.Agrees.honest {env : StepEnv} (h : chain.Agrees env) :
    env.Honest chain.blockAt := by
  intro info height block hinfo hle hdelivered
  obtain ⟨info', hinfo', hblocks, -⟩ := h.info
  obtain rfl : info = info' := Except.ok.inj (hinfo.symm.trans hinfo')
  have := (h.delivered (hblocks ▸ hle)).1
  exact Except.ok.inj (Option.some.inj (hdelivered.symm.trans this))

/-- What the loop keeps against a node on one chain. -/
structure Tracks (chain : NodeChain) (floor : Nat) (loop : IngestLoop) : Prop where
  good : loop.cache.Good
  lowest : LowestAt floor loop.cache
  holds : HoldsChain chain.blockAt loop.cache
  readable : Readable loop.cache
  quiet : loop.repair = .new

omit [Prost] [BlockParser] in
theorem IngestLoop.takeReport_quiet {loop : IngestLoop} (h : loop.repair = .new) (now : Nat) :
    loop.takeReport floor now = loop := by
  unfold takeReport
  rw [h]
  show { loop with repair := RepairSignal.new } = loop
  rw [← h]

/-- An iteration whose step succeeds leaves what the step does. -/
theorem Tracks.iterate (h : Tracks chain floor loop) {env : StepEnv} (henv : chain.Agrees env)
    (config : IngestConfig) (now : Nat) :
    (loop.iterate floor config now env).2.1 = (step env loop.cache floor config).2 ∧
    (loop.iterate floor config now env).1.cache = (step env loop.cache floor config).1 ∧
    Tracks chain floor (loop.iterate floor config now env).1 := by
  have hquiet : loop.takeReport floor now = loop := IngestLoop.takeReport_quiet h.quiet now
  obtain ⟨progress, hresult⟩ : ∃ p, (step env loop.cache floor config).2 = .ok p := by
    rcases henv.step_cases h.good h.readable floor config with ⟨hidle, -⟩ | ⟨hok, -⟩ | ⟨hok, -⟩
    · exact ⟨.idle, by rw [hidle]⟩
    · exact ⟨.advanced, hok⟩
    · exact ⟨.advanced, hok⟩
  have hiterate := loop.iterate_eq floor config now env (hquiet.symm ▸ hresult)
  have hcache : ((loop.stepped floor config now env).afterStep (.ok progress)).1.cache
      = (step env loop.cache floor config).1 := by
    unfold IngestLoop.stepped
    rw [hquiet]
    cases progress <;> rfl
  have hrepair : ((loop.stepped floor config now env).afterStep (.ok progress)).1.repair
      = .new := by
    unfold IngestLoop.stepped
    rw [hquiet]
    cases progress <;> exact h.quiet
  have hkept := henv.step_keeps h.good h.readable floor config
  have hlowest : LowestAt floor (step env loop.cache floor config).1 := by
    rcases Lightwalletd.step_cases env loop.cache floor config with hsame | hdropped | hextended
    · rw [hsame]; exact h.lowest
    · exact hdropped.lowestAt h.lowest
    · exact hextended.lowestAt h.lowest
  rw [hiterate, hresult]
  refine ⟨rfl, hcache, ⟨?_, ?_, ?_, ?_, hrepair⟩⟩
  · rw [hcache]; exact hkept.1
  · rw [hcache]; exact hlowest
  · rw [hcache]; exact h.holds.step henv.honest floor config
  · rw [hcache]; exact hkept.2

theorem Tracks.loopAt (h : Tracks chain floor loop) (henvs : ∀ n, chain.Agrees (envs n)) (n : Nat) :
    Tracks chain floor (loopAt floor config loop nows envs n) := by
  induction n with
  | zero => exact h
  | succ n ih =>
      rw [loopAt_succ]
      exact (ih.iterate (henvs n) config (nows n)).2.2

theorem Tracks.settles (h : Tracks chain floor loop) (henvs : ∀ n, chain.Agrees (envs n)) :
    ∃ n, stepResultAt floor config loop nows envs n = .ok .idle := by
  have hreach : ∀ k n,
      chain.distance (Lightwalletd.loopAt floor config loop nows envs n).cache ≤ k →
      ∃ n, stepResultAt floor config loop nows envs n = .ok .idle := by
    intro k
    induction k with
    | zero =>
        intro n hdist
        have htracks : Tracks chain floor (Lightwalletd.loopAt floor config loop nows envs n) :=
          h.loopAt henvs n
        obtain ⟨hresult, -, -⟩ := htracks.iterate (henvs n) config (nows n)
        rcases (henvs n).step_cases htracks.good htracks.readable floor config with
          ⟨hidle, -⟩ | ⟨-, hback⟩ | ⟨-, hmore⟩
        · exact ⟨n, hresult.trans (by rw [hidle])⟩
        · have := hback.distance_lt
          omega
        · have := hmore.distance_lt
          omega
    | succ k ih =>
        intro n hdist
        have htracks : Tracks chain floor (Lightwalletd.loopAt floor config loop nows envs n) :=
          h.loopAt henvs n
        obtain ⟨hresult, hcache, -⟩ := htracks.iterate (henvs n) config (nows n)
        have hnext := loopAt_succ floor config loop nows envs n
        rcases (henvs n).step_cases htracks.good htracks.readable floor config with
          ⟨hidle, -⟩ | ⟨-, hback⟩ | ⟨-, hmore⟩
        · exact ⟨n, hresult.trans (by rw [hidle])⟩
        · refine ih (n + 1) ?_
          rw [hnext, hcache]
          exact Nat.le_of_lt_succ (lt_of_lt_of_le hback.distance_lt hdist)
        · refine ih (n + 1) ?_
          rw [hnext, hcache]
          exact Nat.le_of_lt_succ (lt_of_lt_of_le hmore.distance_lt hdist)
  exact hreach _ 0 (Nat.le_refl _)

/-- When a step is idle, every height the node has from the floor on is cached. -/
theorem Tracks.stored_of_idle (h : Tracks chain floor loop) {env : StepEnv}
    (henv : chain.Agrees env) (config : IngestConfig)
    (hidle : (step env loop.cache floor config).2 = .ok .idle) {height : Nat}
    (hge : floor ≤ height) (hle : height ≤ chain.tip) :
    loop.cache.blocks.get height = some (Prost.encode (chain.blockAt height)) := by
  obtain ⟨c, hc⟩ : ∃ c, IdleCase.Holds chain floor loop.cache c := by
    rcases henv.step_cases h.good h.readable floor config with ⟨-, hc⟩ | ⟨hadv, -⟩ | ⟨hadv, -⟩
    · exact hc
    · exact absurd (hidle.symm.trans hadv) (by simp)
    · exact absurd (hidle.symm.trans hadv) (by simp)
  obtain ⟨tip, htip, habove⟩ : ∃ tip, loop.cache.latestHeight = some tip ∧ chain.tip ≤ tip := by
    cases c with
    | atTip => exact ⟨chain.tip, hc.1, Nat.le_refl _⟩
    | ahead =>
        obtain ⟨⟨tip, htip, hlt⟩, -⟩ := hc
        exact ⟨tip, htip, Nat.le_of_lt hlt⟩
    | below =>
        -- The lowest height is the floor, and the node's tip is not below it.
        obtain ⟨base, tip, hrange, hlt⟩ := hc
        have := h.lowest base tip hrange
        omega
    | waiting =>
        have := hc.2
        omega
  obtain ⟨bytes, hget⟩ := h.lowest.stored h.good htip hge (Nat.le_trans hle habove)
  rw [hget]
  exact congrArg some (h.holds _ (Table.get_eq_some_iff.mp hget))

/--
**Once caught up, the node is not needed.**  Against a node on one chain, from an empty
cache or any that holds the chain's blocks from the floor on, some iteration of the loop
finds nothing to do; and whenever one does, every accepted range request between the
floor and the node's tip is served completely with the blocks of the chain, whatever the
node then answers.
-/
theorem serveRange_caught_up (chain : NodeChain) (floor : Nat) (config : IngestConfig)
    (loop : IngestLoop) (h : Tracks chain floor loop) (nows : Nat → Nat) (envs : Nat → StepEnv)
    (henvs : ∀ n, chain.Agrees (envs n)) :
    (∃ n, stepResultAt floor config loop nows envs n = .ok .idle) ∧
    ∀ n, stepResultAt floor config loop nows envs n = .ok .idle →
      ∀ (replies : Nat → BlockReplies) (method : String) (transform : List Int → RangeTransform)
        (streamer : Streamer) (range : BlockRange) (start stop fuel : Nat),
        range.Words → maxBlockRange ≤ fuel → floor ≤ min start stop → max start stop ≤ chain.tip →
        checkRange streamer (.ok (loopAt floor config loop nows envs n).cache) method range
          = .ok (start, stop) →
        serveRange method transform streamer (.ok (loopAt floor config loop nows envs n).cache)
            (fixedEnv (loopAt floor config loop nows envs n).cache replies) range fuel
          = .ok (some ((rangeHeights start stop).map fun height =>
              .ok ((transform range.poolTypes).apply (chain.blockAt height)))) := by
  refine ⟨h.settles henvs, ?_⟩
  intro n hidle replies method transform streamer range start stop fuel hwords hfuel hfloor htip
    haccepted
  have htracks : Tracks chain floor (loopAt floor config loop nows envs n) := h.loopAt henvs n
  have hstep := (htracks.iterate (henvs n) config (nows n)).1.symm.trans hidle
  refine serveRange_whole transform hwords hfuel haccepted
    (fun height _ hlt => chain.linked height (Nat.lt_of_lt_of_le hlt htip)) fun height hin => ?_
  obtain ⟨hge, hle⟩ := mem_rangeHeights hin
  refine ⟨.cache, ?_⟩
  unfold plainHeight
  rw [htracks.stored_of_idle (henvs n) config hstep (Nat.le_trans hfloor hge)
    (Nat.le_trans hle htip)]
  simp only [Cache.decodeBlock, Prost.decode_encode, Except.mapError]

end

end

/-! ### The chain of two blocks -/

/-- The loop on an empty cache. -/
def emptyLoop : IngestLoop := .new Cache.empty .new 0

theorem emptyLoop_tracks : Tracks twoBlockChain 0 emptyLoop where
  good := Cache.chained_empty
  lowest _ _ h :=
    absurd h (by simp [emptyLoop, IngestLoop.new, Cache.range, Cache.empty, Table.first])
  holds := HoldsChain.empty _
  readable := ⟨none, rfl⟩
  quiet := rfl

/-- `GetBlockRange` as a transform of its pool types. -/
def rangePools (poolTypes : List Int) : RangeTransform := .pools (.fromPoolTypes poolTypes)

/-- From an empty cache, the two blocks are there to be served in the end. -/
theorem twoBlockChain_caught_up :
    ∃ n, stepResultAt 0 ⟨1, 0⟩ emptyLoop id (fun _ => twoBlockEnv) n = .ok .idle ∧
      ∀ replies, serveRange "get_block_range" rangePools ⟨true, none⟩
          (.ok (loopAt 0 ⟨1, 0⟩ emptyLoop id (fun _ => twoBlockEnv) n).cache)
          (fixedEnv (loopAt 0 ⟨1, 0⟩ emptyLoop id (fun _ => twoBlockEnv) n).cache replies)
          ⟨some ⟨1, []⟩, some ⟨1, []⟩, []⟩ maxBlockRange
        = .ok (some ((rangeHeights 1 1).map fun height =>
            .ok ((rangePools []).apply (twoBlockChain.blockAt height)))) := by
  obtain ⟨⟨n, hidle⟩, hserved⟩ := serveRange_caught_up twoBlockChain 0 ⟨1, 0⟩ emptyLoop
    emptyLoop_tracks id (fun _ => twoBlockEnv) fun _ => twoBlockChain_agrees
  refine ⟨n, hidle, fun replies => ?_⟩
  exact hserved n hidle replies "get_block_range" rangePools ⟨true, none⟩
    ⟨some ⟨1, []⟩, some ⟨1, []⟩, []⟩ 1 1 maxBlockRange
    (BlockRange.words_of_le (by decide) (by decide)) (Nat.le_refl _) (Nat.zero_le _)
    (Nat.le_refl _) rfl

end Lightwalletd
