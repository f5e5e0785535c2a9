/-
The ingestor's loop over whole runs.

An iteration acts on a report, steps, and recovers if the step found corruption.  All
but the step only ever drop rows, and what a step appends was delivered to it, so an
invariant of the cache that survives a cut and a step survives the run
(`IngestLoop.run_invariant`).  The loop never retries for long without waiting: the
counter of recoveries is how many of the last iterations were retries, and at the
limit the next one backs off.
-/
import Lightwalletd.Proofs.Ingestor
import Lightwalletd.Proofs.Window

namespace Lightwalletd

/-! ### What a step appends

Of the blocks delivered to a step some prefix is stored, each under its height.
-/

private theorem mem_of_keepChained :
    ∀ (rows : List (Nat × Except FetchError CompactBlock)) (expected : Nat)
      (prevHash : Option Bytes) (kept out : List CompactBlock) (failure : Option StepError),
      keepChained expected prevHash kept rows = .batch out failure →
      ∀ block ∈ out, block ∈ kept ∨ ∃ height, (height, .ok block) ∈ rows := by
  intro rows
  induction rows with
  | nil =>
      intro expected prevHash kept out failure h block hblock
      simp only [keepChained, Kept.batch.injEq] at h
      exact Or.inl (h.1 ▸ hblock)
  | cons row rows ih =>
      obtain ⟨height, result⟩ := row
      intro expected prevHash kept out failure h block hblock
      unfold keepChained at h
      by_cases hheight : height ≠ expected
      · rw [if_pos hheight, Kept.batch.injEq] at h
        exact Or.inl (h.1 ▸ hblock)
      rw [if_neg hheight] at h
      rcases result with error | fetched
      · simp only [Kept.batch.injEq] at h
        exact Or.inl (h.1 ▸ hblock)
      simp only at h
      by_cases hmismatch : (prevHash.any (· ≠ fetched.prevHash)) = true
      · rw [if_pos hmismatch] at h
        by_cases hempty : kept.isEmpty = true
        · rw [if_pos hempty] at h
          cases h
        · rw [if_neg hempty, Kept.batch.injEq] at h
          exact Or.inl (h.1 ▸ hblock)
      · rw [if_neg hmismatch] at h
        rcases ih _ _ _ _ _ h block hblock with hkept | ⟨k, hk⟩
        · rcases List.mem_append.mp hkept with hold | hnew
          · exact Or.inl hold
          · rw [List.mem_singleton.mp hnew]
            exact Or.inr ⟨height, List.mem_cons_self⟩
        · exact Or.inr ⟨k, List.mem_cons_of_mem _ hk⟩

section

variable [Prost]

theorem commitWindow_rows (cache : Cache) (blocks : List CompactBlock)
    (failure : Option StepError) :
    ∀ row ∈ (commitWindow cache blocks failure).1.blocks.rows,
      row ∈ cache.blocks.rows ∨ ∃ block ∈ blocks, row = Cache.rowOf block := by
  intro row hrow
  unfold commitWindow at hrow
  by_cases hempty : blocks.isEmpty = true
  · rw [if_pos hempty] at hrow
    rcases failure with _ | error
    · exact Or.inl hrow
    · exact Or.inl hrow
  rw [if_neg hempty] at hrow
  rcases cache.append_cases (blocks.map .ok) none with
    ⟨e, heq⟩ | ⟨-, heq⟩ | ⟨stored, h, cache', hmap, heq, happ⟩
  · simp only [Cache.addBatch, heq] at hrow
    exact Or.inl hrow
  · simp only [Cache.addBatch, heq] at hrow
    exact Or.inl hrow
  · obtain rfl : blocks = stored :=
      List.map_injective_iff.mpr (fun a b hab => Except.ok.inj hab) hmap
    simp only [Cache.addBatch, heq, happ.rows] at hrow
    rcases List.mem_append.mp hrow with hold | hnew
    · exact Or.inl hold
    · obtain ⟨block, hblock, rfl⟩ := List.mem_map.mp hnew
      exact Or.inr ⟨block, hblock, rfl⟩

/-- What a step stores under a height: a block delivered there, not above the node's tip. -/
def Stores [BlockParser] (env : StepEnv) (row : Nat × Bytes) : Prop :=
  ∃ info height block, env.blockchainInfo = .ok info ∧ height ≤ info.blocks ∧
    env.delivered height = some (.ok block) ∧ row = Cache.rowOf block

/-- **What a step leaves was there or was delivered to it.** -/
theorem step_rows [BlockParser] (env : StepEnv) (cache : Cache) (start : Nat)
    (config : IngestConfig) :
    ∀ row ∈ (step env cache start config).1.blocks.rows,
      row ∈ cache.blocks.rows ∨ Stores env row := by
  intro row hrow
  unfold step at hrow
  rcases hinfo : env.blockchainInfo with error | info
  · simp only [hinfo] at hrow
    exact Or.inl hrow
  simp only [hinfo] at hrow
  rcases hcompare : compareTip cache info start with error | (_ | target | next)
  · simp only [hcompare] at hrow
    exact Or.inl hrow
  · simp only [hcompare] at hrow
    exact Or.inl hrow
  · simp only [hcompare] at hrow
    exact Or.inl ((rollBack_dropped cache target start).rows.subset hrow)
  simp only [hcompare] at hrow
  by_cases habove : next > info.blocks
  · rw [if_pos habove] at hrow
    exact Or.inl hrow
  rw [if_neg habove] at hrow
  unfold ingestWindow at hrow
  rcases hhash : cache.latestHash with error | prevHash
  · simp only [hhash] at hrow
    exact Or.inl hrow
  simp only [hhash, fetchWindow_rows] at hrow
  rcases hkept : keepChained next prevHash [] (env.rows next
      (min info.blocks (satAdd next (config.window - 1)) + 1 - next)) with _ | ⟨blocks, failure⟩
  · simp only [hkept] at hrow
    exact Or.inl ((rollBack_dropped cache (next - 2) start).rows.subset hrow)
  simp only [hkept] at hrow
  rcases commitWindow_rows cache blocks _ row hrow with hold | ⟨block, hblock, rfl⟩
  · exact Or.inl hold
  rcases mem_of_keepChained _ _ _ _ _ _ hkept block hblock with hnone | ⟨height, hin⟩
  · cases hnone
  · obtain ⟨hwithin, hdelivered⟩ := StepEnv.mem_rows.mp hin
    have := List.mem_range'_1.mp hwithin
    exact Or.inr ⟨info, height, block, hinfo, by omega, hdelivered, rfl⟩

/-! ### One event

An event cuts the cache, by a report or a recovery, or takes a step.  A property that
both keep is one of every run.
-/

omit [Prost] in
theorem repairReported_dropped (cache : Cache) (height start : Nat) (repair : RepairSignal)
    (budget : RepairBudget) (now : Nat) :
    (repairReported cache height start repair budget now).1 = cache ∨
      Dropped cache (repairReported cache height start repair budget now).1 := by
  unfold repairReported
  rcases cache.range with _ | ⟨base, tip⟩
  · exact Or.inl rfl
  simp only
  split
  · rcases budget.trySpend now with ⟨_ | _, budget'⟩
    · exact Or.inl rfl
    · exact Or.inr (reorgToFloor_dropped cache (height - 1) start)
  · exact Or.inl rfl

theorem recover_dropped (cache : Cache) :
    (recover cache).1 = cache ∨ Dropped cache (recover cache).1 := by
  unfold recover
  rcases cache.lowestCorruptHeight with _ | corrupt
  · exact Or.inl rfl
  · exact Or.inr ⟨satAdd (corrupt - 1) 1, rfl⟩

omit [Prost] in
theorem IngestLoop.takeReport_dropped (loop : IngestLoop) (start now : Nat) :
    (loop.takeReport start now).cache = loop.cache ∨
      Dropped loop.cache (loop.takeReport start now).cache := by
  unfold takeReport
  rcases loop.repair.take with ⟨_ | height, repair⟩
  · exact Or.inl rfl
  · exact repairReported_dropped loop.cache height start repair loop.budget now

theorem IngestLoop.afterStep_dropped (loop : IngestLoop) (result : Except StepError Progress) :
    (loop.afterStep result).1.cache = loop.cache ∨
      Dropped loop.cache (loop.afterStep result).1.cache := by
  unfold afterStep
  rcases result with error | (_ | _)
  · dsimp only
    split
    · have hdropped := recover_dropped loop.cache
      rcases hrecover : recover loop.cache with ⟨cache, e | u⟩
      · simpa only [hrecover] using hdropped
      · simpa only [hrecover] using hdropped
    · exact Or.inl rfl
  · exact Or.inl rfl
  · exact Or.inl rfl

variable [BlockParser]

/-- **What cuts and steps keep, every event keeps.** -/
theorem LoopEvent.apply_invariant {P : Cache → Prop} {start : Nat} {config : IngestConfig}
    (hcut : ∀ cache cache', Dropped cache cache' → P cache → P cache') {event : LoopEvent}
    (hstep : ∀ now env cache, event = .iterate now env → P cache →
      P (step env cache start config).1)
    {loop : IngestLoop} (h : P loop.cache) : P (event.apply start config loop).cache := by
  have hkeep : ∀ cache cache', cache' = cache ∨ Dropped cache cache' → P cache → P cache' := by
    rintro cache cache' (rfl | hdropped) hp
    · exact hp
    · exact hcut cache cache' hdropped hp
  cases event with
  | report height => exact h
  | iterate now env =>
      exact hkeep _ _ (IngestLoop.afterStep_dropped _ _)
        (hstep now env _ rfl (hkeep _ _ (loop.takeReport_dropped start now) h))

theorem IngestLoop.run_cons (start : Nat) (config : IngestConfig) (loop : IngestLoop)
    (event : LoopEvent) (events : List LoopEvent) :
    loop.run start config (event :: events)
      = (event.apply start config loop).run start config events := rfl

theorem IngestLoop.run_invariant {P : Cache → Prop} {start : Nat} {config : IngestConfig}
    (hcut : ∀ cache cache', Dropped cache cache' → P cache → P cache') :
    ∀ {events : List LoopEvent} {loop : IngestLoop},
      (∀ now env cache, .iterate now env ∈ events → P cache → P (step env cache start config).1) →
      P loop.cache → P (loop.run start config events).cache := by
  intro events
  induction events with
  | nil => exact fun _ h => h
  | cons event events ih =>
      intro loop hstep h
      rw [run_cons]
      refine ih (fun now env cache hin => hstep now env cache (List.mem_cons_of_mem _ hin)) ?_
      refine event.apply_invariant hcut (fun now env cache heq => ?_) h
      exact hstep now env cache (heq ▸ List.mem_cons_self)

/-- The loop between a step and the reaction to it. -/
def IngestLoop.stepped (loop : IngestLoop) (start : Nat) (config : IngestConfig) (now : Nat)
    (env : StepEnv) : IngestLoop :=
  { loop.takeReport start now with
    cache := (step env (loop.takeReport start now).cache start config).1 }

theorem IngestLoop.iterate_eq (loop : IngestLoop) (start : Nat) (config : IngestConfig) (now : Nat)
    (env : StepEnv) {result : Except StepError Progress}
    (h : (step env (loop.takeReport start now).cache start config).2 = result) :
    loop.iterate start config now env
      = (((loop.stepped start config now env).afterStep result).1, result,
          ((loop.stepped start config now env).afterStep result).2) := by
  subst h
  rfl

/-- What always makes an iteration sleep. -/
theorem IngestLoop.iterate_sleeps (loop : IngestLoop) (start : Nat) (config : IngestConfig)
    (now : Nat) (env : StepEnv) :
    ((loop.iterate start config now env).2.1 = .ok .idle →
      (loop.iterate start config now env).2.2 = idlePoll) ∧
    ∀ error, (loop.iterate start config now env).2.1 = .error error →
      error.isCorruption = false → (loop.iterate start config now env).2.2 = errorBackoff := by
  obtain ⟨result, hresult⟩ : ∃ r, r = (step env (loop.takeReport start now).cache start config).2 :=
    ⟨_, rfl⟩
  rw [loop.iterate_eq start config now env hresult.symm]
  refine ⟨?_, ?_⟩
  · rintro rfl
    rfl
  · rintro error rfl hother
    simp only [afterStep, shouldRecover, hother, Bool.false_and, Bool.false_eq_true, if_false]

/-! ### Retries

An iteration that fails on a corrupt cache goes on at once, up to a limit.  The counter
goes up with each of them and goes back with any other, so that retries in a row never
pass the limit.
-/

/-- How the iterations of a run ended: how each step did, and for how long it slept. -/
def IngestLoop.outcomes (start : Nat) (config : IngestConfig) :
    IngestLoop → List LoopEvent → List (Except StepError Progress × Nat)
  | _, [] => []
  | loop, .report height :: events =>
      outcomes start config { loop with repair := loop.repair.report height } events
  | loop, .iterate now env :: events =>
      (loop.iterate start config now env).2
        :: outcomes start config (loop.iterate start config now env).1 events

/-- An iteration whose step failed and that went on without sleeping. -/
def Retried (outcome : Except StepError Progress × Nat) : Prop :=
  (∃ error, outcome.1 = .error error) ∧ outcome.2 = 0

omit [BlockParser] in
/-- What the reaction to a step does to the counter. -/
theorem IngestLoop.afterStep_counter (loop : IngestLoop) (result : Except StepError Progress) :
    (loop.afterStep result).1.consecutiveRecoveries ≤ maxConsecutiveRecoveries ∧
    (Retried (result, (loop.afterStep result).2) →
      (loop.afterStep result).1.consecutiveRecoveries = loop.consecutiveRecoveries + 1) := by
  unfold afterStep
  rcases result with error | (_ | _)
  · by_cases hrecover : shouldRecover error loop.consecutiveRecoveries = true
    · have hlt : loop.consecutiveRecoveries < maxConsecutiveRecoveries := by
        unfold shouldRecover at hrecover
        simpa using (Bool.and_eq_true_iff.mp hrecover).2
      simp only [hrecover, if_true]
      rcases recover loop.cache with ⟨cache, e | u⟩
      · exact ⟨hlt, fun _ => rfl⟩
      · exact ⟨hlt, fun _ => rfl⟩
    · simp only [hrecover, Bool.false_eq_true, if_false]
      exact ⟨Nat.zero_le _, fun hretried => absurd hretried.2 (by simp [errorBackoff])⟩
  · exact ⟨Nat.zero_le _, fun hretried => absurd hretried.1 nofun⟩
  · exact ⟨Nat.zero_le _, fun hretried => absurd hretried.1 nofun⟩

omit [Prost] [BlockParser] in
theorem IngestLoop.takeReport_counter (loop : IngestLoop) (start now : Nat) :
    (loop.takeReport start now).consecutiveRecoveries = loop.consecutiveRecoveries := by
  unfold takeReport
  rcases loop.repair.take with ⟨_ | height, repair⟩
  · rfl
  · rfl

theorem IngestLoop.iterate_counter (loop : IngestLoop) (start : Nat) (config : IngestConfig)
    (now : Nat) (env : StepEnv) :
    (loop.iterate start config now env).1.consecutiveRecoveries ≤ maxConsecutiveRecoveries ∧
    (Retried (loop.iterate start config now env).2 →
      (loop.iterate start config now env).1.consecutiveRecoveries
        = loop.consecutiveRecoveries + 1) := by
  have hcounter : (loop.stepped start config now env).consecutiveRecoveries
      = loop.consecutiveRecoveries := loop.takeReport_counter start now
  have hafter := (loop.stepped start config now env).afterStep_counter
    (step env (loop.takeReport start now).cache start config).2
  rw [hcounter] at hafter
  rw [loop.iterate_eq start config now env rfl]
  exact hafter

/-- Retries in a row stay below the limit, those before included. -/
theorem IngestLoop.retries_bounded (start : Nat) (config : IngestConfig) :
    ∀ (events : List LoopEvent) (loop : IngestLoop)
      (retries : List (Except StepError Progress × Nat)),
      loop.consecutiveRecoveries ≤ maxConsecutiveRecoveries →
      retries <+: outcomes start config loop events → (∀ outcome ∈ retries, Retried outcome) →
      loop.consecutiveRecoveries + retries.length ≤ maxConsecutiveRecoveries := by
  intro events
  induction events with
  | nil =>
      intro loop retries h hprefix _
      rw [List.prefix_nil.mp hprefix]
      exact h
  | cons event events ih =>
      intro loop retries h hprefix hretried
      cases event with
      | report height =>
          exact ih { loop with repair := loop.repair.report height } retries h hprefix hretried
      | iterate now env =>
          rcases retries with _ | ⟨first, retries⟩
          · exact h
          obtain ⟨rfl, hrest⟩ := List.cons_prefix_cons.mp hprefix
          obtain ⟨hle, hnext⟩ := loop.iterate_counter start config now env
          have hbound := ih _ retries hle hrest
            (fun outcome hin => hretried outcome (List.mem_cons_of_mem _ hin))
          rw [hnext (hretried _ List.mem_cons_self)] at hbound
          rw [List.length_cons]
          omega

theorem IngestLoop.outcomes_suffix (start : Nat) (config : IngestConfig) :
    ∀ (events : List LoopEvent) (loop : IngestLoop)
      (later : List (Except StepError Progress × Nat)),
      loop.consecutiveRecoveries ≤ maxConsecutiveRecoveries →
      later <:+ outcomes start config loop events →
      ∃ loop' events', loop'.consecutiveRecoveries ≤ maxConsecutiveRecoveries ∧
        later = outcomes start config loop' events' := by
  intro events
  induction events with
  | nil =>
      intro loop later h hsuffix
      exact ⟨loop, [], h, List.suffix_nil.mp hsuffix⟩
  | cons event events ih =>
      intro loop later h hsuffix
      cases event with
      | report height =>
          exact ih { loop with repair := loop.repair.report height } later h hsuffix
      | iterate now env =>
          rcases List.suffix_cons_iff.mp hsuffix with rfl | hrest
          · exact ⟨loop, .iterate now env :: events, h, rfl⟩
          · exact ih _ later (loop.iterate_counter start config now env).1 hrest

/--
**The loop never spins.**  In every run, whatever the node answers, whatever the cache
holds and whatever is reported in between: of any six iterations in a row at least one
has stepped without an error or sleeps before the next; and an iteration that finds
nothing to do or fails for anything but corruption always sleeps.
-/
theorem IngestLoop.never_spins (start : Nat) (config : IngestConfig) (cache : Cache)
    (repair : RepairSignal) (now : Nat) (events : List LoopEvent) :
    (∀ before window after, (IngestLoop.new cache repair now).outcomes start config events
        = before ++ window ++ after → maxConsecutiveRecoveries < window.length →
      ∃ outcome ∈ window, ¬Retried outcome) ∧
    ∀ outcome ∈ (IngestLoop.new cache repair now).outcomes start config events,
      (outcome.1 = .ok .idle → outcome.2 = idlePoll) ∧
      ∀ error, outcome.1 = .error error → error.isCorruption = false →
        outcome.2 = errorBackoff := by
  refine ⟨?_, ?_⟩
  · intro before window after hsplit hlength
    by_contra hnone
    push Not at hnone
    obtain ⟨loop', events', hbound, hlater⟩ := IngestLoop.outcomes_suffix start config events
      (IngestLoop.new cache repair now) (window ++ after) (Nat.zero_le _)
      ⟨before, by rw [hsplit, List.append_assoc]⟩
    have hretries := IngestLoop.retries_bounded start config events' loop' window hbound
      (hlater ▸ List.prefix_append _ _) hnone
    omega
  · have hall : ∀ (events : List LoopEvent) (loop : IngestLoop),
        ∀ outcome ∈ loop.outcomes start config events,
          (outcome.1 = .ok .idle → outcome.2 = idlePoll) ∧
          ∀ error, outcome.1 = .error error → error.isCorruption = false →
            outcome.2 = errorBackoff := by
      intro events
      induction events with
      | nil => exact fun _ _ h => absurd h List.not_mem_nil
      | cons event events ih =>
          intro loop outcome hin
          cases event with
          | report height => exact ih _ outcome hin
          | iterate now env =>
              rcases List.mem_cons.mp hin with rfl | hrest
              · exact loop.iterate_sleeps start config now env
              · exact ih _ outcome hrest
    exact hall events _

end

/-! ### A cache that cannot be cut -/

/-- One block, under a base height that cannot be read. -/
def unreadableBase : Cache where
  blocks := Table.empty.insert 1 (Prost.encode (emptyBlock 1))
  metaRows := Table.empty.insert snapshotBaseHeightKey [0]

/-- A node with another block at that height. -/
def otherTipEnv : StepEnv where
  blockchainInfo := .ok ⟨"main", 1, wireToDisplayHex (beBytes 32 9)⟩
  task _ := .cancelled
  schedule _ := 0

/-- Every rollback fails, and the sixth in a row is waited for. -/
theorem unreadableBase_backs_off :
    ((IngestLoop.new unreadableBase .new 0).outcomes 0 ⟨5, 2⟩
        (List.replicate 6 (.iterate 0 otherTipEnv))).map (·.2) = [0, 0, 0, 0, 0, errorBackoff] ∧
    ∃ outcome ∈ (IngestLoop.new unreadableBase .new 0).outcomes 0 ⟨5, 2⟩
      (List.replicate 6 (.iterate 0 otherTipEnv)), ¬Retried outcome := by
  have hsleeps : ((IngestLoop.new unreadableBase .new 0).outcomes 0 ⟨5, 2⟩
      (List.replicate 6 (.iterate 0 otherTipEnv))).map (·.2) = [0, 0, 0, 0, 0, errorBackoff] := by
    decide +kernel
  have hlength := congrArg List.length hsleeps
  rw [List.length_map] at hlength
  obtain ⟨hspins, -⟩ := IngestLoop.never_spins 0 ⟨5, 2⟩ unreadableBase .new 0
    (List.replicate 6 (.iterate 0 otherTipEnv))
  refine ⟨hsleeps, hspins [] _ [] ?_ ?_⟩
  · rw [List.append_nil, List.nil_append]
  · rw [hlength]
    decide

end Lightwalletd
