/-
What one step commits.

With a node that is ahead of the cache, whatever becomes of the window's tasks and
in whichever order they end, there are three outcomes.  The longest run of blocks
that goes onto the tip is appended, in one transaction and whole.  If there is none
because the block after the tip replaces it, the tip is rolled back.  Otherwise the
cache stays as it is: a fetch that failed or died is never taken for a reorg.
-/
import Lightwalletd.Proofs.Convergence

namespace Lightwalletd

/-! ### The three outcomes

What a window comes to depends on its first block and on the longest run behind it.  A
run is appended; a first block that does not go onto the tip takes the tip away; without
either the cache stays as it is.
-/

/-- Where ingestion goes on: above the tip, or at the start. -/
def Cache.nextHeight (cache : Cache) (start : Nat) : Nat :=
  match cache.latestHeight with
  | some tip => tip + 1
  | none => start

/-- How many heights the window from `next` on has. -/
def windowCount (config : IngestConfig) (tipHeight next : Nat) : Nat :=
  min tipHeight (satAdd next (config.window - 1)) + 1 - next

private theorem windowCount_within {tipHeight next : Nat} (hword : tipHeight ≤ u64Max)
    (hahead : next ≤ tipHeight) (config : IngestConfig) :
    0 < windowCount config tipHeight next ∧
      next + windowCount config tipHeight next ≤ tipHeight + 1 := by
  unfold windowCount satAdd
  omega

/-- The tip is gone, or at the floor everything. -/
def TipDropped (start : Nat) (cache cache' : Cache) : Prop :=
  ∃ row, cache.blocks.last = some row ∧
    cache'.blocks.rows = if row.1 ≤ start then [] else cache.blocks.rows.dropLast

theorem TipDropped.ne {start : Nat} {cache cache' : Cache} (h : TipDropped start cache cache') :
    cache' ≠ cache := by
  rintro rfl
  obtain ⟨row, hlast, hrows⟩ := h
  have hpos : 0 < cache'.blocks.rows.length := List.length_pos_of_mem (Table.last_mem hlast)
  have hlen := congrArg List.length hrows
  by_cases hfloor : row.1 ≤ start
  · rw [if_pos hfloor, List.length_nil] at hlen
    omega
  · rw [if_neg hfloor, List.length_dropLast] at hlen
    omega

/-- The block delivered at `next` does not go onto the cached tip. -/
def Replaces [BlockParser] (env : StepEnv) (next : Nat) (tipHash : Option Bytes) : Prop :=
  ∃ block hash, env.delivered next = some (.ok block) ∧ tipHash = some hash ∧
    block.prevHash ≠ hash

section

variable [Prost] {cache : Cache}

theorem Cache.Appended.ne {cache' : Cache} {blocks : List CompactBlock} {base : Option Nat}
    {h : Nat} (happ : Cache.Appended cache blocks base h cache') : cache' ≠ cache := by
  rintro rfl
  have hlen := congrArg List.length happ.rows
  have hpos := List.length_pos_iff_ne_nil.mpr happ.nonempty
  rw [List.length_append, List.length_map] at hlen
  omega

theorem commitWindow_nil (failure : Option StepError) :
    commitWindow cache [] failure
      = (cache, match failure with | some error => .error error | none => .ok .advanced) := by
  rcases failure with _ | error <;> rfl

variable (cache) in
/-- A run right above the tip is appended, unless it reaches the largest word. -/
theorem commitWindow_run {run : List CompactBlock} {next : Nat} (hne : run ≠ [])
    (hheights : run.map (·.height) = List.range' next run.length)
    (hjoin : ∀ row, cache.blocks.last = some row → next = row.1 + 1)
    (failure : Option StepError) :
    (∃ cache', commitWindow cache run failure = (cache', .ok .advanced) ∧
      cache.addBatch run = (cache', .ok ()) ∧ Cache.Appended cache run none next cache') ∨
    (∃ error, commitWindow cache run failure = (cache, .error error)) ∧
      ∃ block ∈ run, u64Max ≤ block.height := by
  have hkept : ¬run.isEmpty = true := by simpa using hne
  unfold commitWindow
  rw [if_neg hkept]
  by_cases hbelow : ∀ block ∈ run, block.height < u64Max
  · obtain ⟨cache', happend, happ⟩ := Cache.append_run hne hheights hjoin hbelow
    refine Or.inl ⟨cache', ?_, happend, happ⟩
    simp only [Cache.addBatch, happend]
  · refine Or.inr ⟨?_, by simpa using hbelow⟩
    rcases cache.append_cases (run.map .ok) none with
      ⟨e, heq⟩ | ⟨hnil, -⟩ | ⟨blocks, h, cache', hmap, -, happ⟩
    · exact ⟨.cache e, by simp only [Cache.addBatch, heq]⟩
    · exact absurd (List.map_eq_nil_iff.mp hnil) hne
    · obtain rfl : run = blocks :=
        List.map_injective_iff.mpr (fun a b hab => Except.ok.inj hab) hmap
      exact absurd happ.below hbelow

omit [Prost] in
/-- Rolling back the tip, one block or everything at the floor. -/
theorem rollBack_tip {row : Nat × Bytes} (hlast : cache.blocks.last = some row)
    (hword : row.1 ≤ u64Max) (start : Nat) :
    (Readable cache ∧ TipDropped start cache (rollBack cache (row.1 - 1) start).1 ∧
      (rollBack cache (row.1 - 1) start).2 = .ok .advanced) ∨
    (¬Readable cache ∧ ∃ error, rollBack cache (row.1 - 1) start = (cache, .error error)) := by
  have hlatest : cache.latestHeight = some row.1 := by
    rw [Cache.latestHeight, hlast, Option.map_some]
  unfold rollBack
  rw [reorgToFloor_below hlatest id (Nat.le_refl _) hword]
  rcases cache.removeFrom_cases (if row.1 ≤ start then 0 else row.1) with
    ⟨e, heq⟩ | ⟨base, hbase, heq⟩
  · refine Or.inr ⟨?_, .cache e, by rw [heq]⟩
    rintro ⟨base, hbase⟩
    rw [Cache.removeFrom_eq hbase] at heq
    exact absurd (congrArg Prod.snd heq) (by simp)
  · rw [heq]
    refine Or.inl ⟨⟨base, hbase⟩, ⟨row, hlast, ?_⟩, rfl⟩
    show (cache.blocks.retain _).rows = _
    by_cases hfloor : row.1 ≤ start
    · simp [hfloor]
    · simp only [if_neg hfloor]
      exact Table.retain_lt_last hlast

end

/-! ### One step -/

section

variable [Prost] [BlockParser] {env : StepEnv} {cache : Cache} {start : Nat}
  {config : IngestConfig} {info : GetBlockchainInfo}

theorem step_window (hinfo : env.blockchainInfo = .ok info)
    (hahead : cache.nextHeight start ≤ info.blocks) :
    step env cache start config
      = ingestWindow env cache start config info.blocks (cache.nextHeight start) := by
  unfold step
  simp only [hinfo]
  unfold Cache.nextHeight at hahead ⊢
  rcases hlatest : cache.latestHeight with _ | tip
  · rw [hlatest] at hahead
    have hcompare : compareTip cache info start = .ok (.fetchFrom start) := by
      simp only [compareTip, hlatest]
    simp only [hcompare]
    rw [if_neg (by simpa using hahead)]
  · rw [hlatest] at hahead
    simp only [compareTip_behind start hlatest hahead]
    rw [if_neg (by simpa using hahead)]

variable (env start config) in
theorem ingestWindow_eq {tipHash : Option Bytes} (hhash : cache.latestHash = .ok tipHash)
    (tipHeight next : Nat) :
    ∃ panicked : Option String,
      (panicked.isSome = true ↔ ∃ k ∈ List.range' next (windowCount config tipHeight next),
        ((env.task k).panic).isSome = true) ∧
      ingestWindow env cache start config tipHeight next
        = match keepChained next tipHash [] (env.rows next (windowCount config tipHeight next)) with
          | .reorg => rollBack cache (next - 2) start
          | .batch blocks failure =>
              commitWindow cache blocks (failure.or (panicked.map .fetchTask)) := by
  refine ⟨_, fetchWindow_panicked _ config.concurrency, ?_⟩
  rcases hkept : keepChained next tipHash []
    (env.rows next (windowCount config tipHeight next)) with _ | ⟨blocks, failure⟩
  · unfold windowCount at hkept
    simp only [ingestWindow, hhash, fetchWindow_rows, hkept]
  · unfold windowCount at hkept
    simp only [ingestWindow, windowCount, hhash, fetchWindow_rows, hkept]

omit [BlockParser] in
/-- The hash the window has to go onto, and the height it starts at. -/
theorem Cache.Good.tip_cases (hgood : cache.Good) (start : Nat) :
    (cache.latestHash = .ok none ∧ cache.blocks.last = none) ∨
      ∃ row hash, cache.latestHash = .ok (some hash) ∧ cache.blocks.last = some row ∧
        cache.nextHeight start = row.1 + 1 := by
  rcases hlast : cache.blocks.last with _ | row
  · exact Or.inl ⟨by simp only [Cache.latestHash, hlast], rfl⟩
  · obtain ⟨block, -, hlatest, hhash⟩ := hgood.toStored.tip_eq hlast
    exact Or.inr ⟨row, block.hash, hhash, rfl, by rw [Cache.nextHeight, hlatest]⟩

/--
**What one step commits.**  From a good cache and with a node ahead of it, whatever
the window's tasks deliver and in whichever order they end: the longest run that
goes onto the tip is appended in one transaction, or there is none because the first
block replaces the tip, which is rolled back, or nothing changes.  Without a block at
the first height nothing changes, nor does it if the step fails, and a step that
advanced changed something unless a task was cancelled.
-/
theorem step_commits (env : StepEnv) (cache : Cache) (start : Nat) (config : IngestConfig)
    (hgood : cache.Good) {info : GetBlockchainInfo} (hinfo : env.blockchainInfo = .ok info)
    (hword : info.blocks ≤ u64Max) {next count : Nat} (hnext : next = cache.nextHeight start)
    (hahead : next ≤ info.blocks) (hcount : count = windowCount config info.blocks next)
    {cache' : Cache} {result : Except StepError Progress}
    (hstep : step env cache start config = (cache', result)) :
    (∃ tipHash run, cache.latestHash = .ok tipHash ∧ LongestRun env count next tipHash run ∧
      ((cache.addBatch run = (cache', .ok ()) ∧ Cache.Appended cache run none next cache' ∧
          result = .ok .advanced) ∨
        (run = [] ∧ Replaces env next tipHash ∧ TipDropped start cache cache' ∧
          result = .ok .advanced) ∨
        (cache' = cache ∧ ((run = [] ∧ (Replaces env next tipHash → ¬Readable cache)) ∨
          ∃ block ∈ run, block.height = u64Max)))) ∧
    ((∀ block, env.delivered next ≠ some (.ok block)) → cache' = cache) ∧
    (∀ error, result = .error error → cache' = cache) ∧
    ((∀ height ∈ List.range' next count, env.task height ≠ .cancelled) →
      result = .ok .advanced → cache' ≠ cache) := by
  obtain ⟨hpos, hwithin⟩ := windowCount_within hword hahead config
  rw [← hcount] at hpos hwithin
  obtain ⟨more, hmore⟩ : ∃ k, count = k + 1 := ⟨count - 1, by omega⟩
  have hfirst : next ∈ List.range' next count := List.mem_range'_1.mpr ⟨le_rfl, by omega⟩
  obtain ⟨tipHash, hhash, hlast⟩ : ∃ tipHash, cache.latestHash = .ok tipHash ∧
      ∀ hash ∈ tipHash, ∃ row, cache.blocks.last = some row ∧ next = row.1 + 1 := by
    rcases hgood.tip_cases start with ⟨hhash, -⟩ | ⟨row, hash, hhash, hlast, htip⟩
    · exact ⟨none, hhash, nofun⟩
    · exact ⟨some hash, hhash, fun _ _ => ⟨row, hlast, hnext.trans htip⟩⟩
  have hjoin : ∀ row, cache.blocks.last = some row → next = row.1 + 1 := by
    intro row hrow
    obtain ⟨-, -, hlatest, -⟩ := hgood.toStored.tip_eq hrow
    rw [hnext, Cache.nextHeight, hlatest]
  obtain ⟨panicked, hpanicked, hwindow⟩ :=
    ingestWindow_eq env start config hhash info.blocks next
  rw [step_window hinfo (hnext ▸ hahead), ← hnext, hwindow, ← hcount] at hstep
  rw [← hcount] at hpanicked
  have hrun := chainedRun_longest env count next tipHash
  obtain ⟨run, hrundef⟩ : ∃ r, r = chainedRun env count next tipHash := ⟨_, rfl⟩
  rw [← hrundef] at hrun
  rw [hmore] at hstep
  rcases keepChained_cases env more next tipHash with
    ⟨hnone, hkept⟩ | ⟨error, herror, hkept⟩ | ⟨block, hblock, hmismatch, hkept⟩ |
      ⟨block, failure, hblock, hgoes, hkept⟩
  · -- Nothing was delivered at the first height: its task died.
    have hempty := hrundef.trans (chainedRun_nil fun block h => absurd (hnone.symm.trans h) nofun)
    rw [hkept] at hstep
    obtain ⟨rfl, rfl⟩ := Prod.mk.inj ((commitWindow_nil _).symm.trans hstep)
    refine ⟨⟨tipHash, run, hhash, hrun, Or.inr (Or.inr ⟨rfl, Or.inl ⟨hempty, ?_⟩⟩)⟩,
      fun _ => rfl, fun _ _ => rfl, fun hcancelled hadvanced => ?_⟩
    · rintro ⟨block, hash, hblock, -⟩
      exact absurd (hnone.symm.trans hblock) nofun
    · -- It was not cancelled, so it panicked, and the panic is the step's error.
      obtain ⟨detail, rfl⟩ := Option.isSome_iff_exists.mp (hpanicked.mpr
        ⟨next, hfirst, StepEnv.panic_of_missing hnone (hcancelled next hfirst)⟩)
      cases hadvanced
  · -- The first fetch failed, and its error is the step's.
    have hempty := hrundef.trans (chainedRun_nil fun block h => absurd (herror.symm.trans h) nofun)
    rw [hkept] at hstep
    obtain ⟨rfl, rfl⟩ := Prod.mk.inj ((commitWindow_nil _).symm.trans hstep)
    refine ⟨⟨tipHash, run, hhash, hrun, Or.inr (Or.inr ⟨rfl, Or.inl ⟨hempty, ?_⟩⟩)⟩,
      fun _ => rfl, fun _ _ => rfl, nofun⟩
    rintro ⟨block, hash, hblock, -⟩
    exact absurd (herror.symm.trans hblock) nofun
  · -- The first block does not go onto the tip.
    have hempty := hrundef.trans (chainedRun_nil fun other h =>
      Except.ok.inj (Option.some.inj (hblock.symm.trans h)) ▸ hmismatch)
    rw [hkept] at hstep
    push Not at hmismatch
    obtain ⟨hash, htip, hne⟩ := hmismatch
    obtain ⟨row, hrow, rfl⟩ := hlast hash htip
    have hreplaces : Replaces env (row.1 + 1) tipHash := ⟨block, hash, hblock, htip, hne⟩
    have hundelivered : ∀ P : Prop, (∀ b, env.delivered (row.1 + 1) ≠ some (.ok b)) → P :=
      fun P h => absurd hblock (h block)
    rcases rollBack_tip hrow (by omega : row.1 ≤ u64Max) start with
      ⟨-, hdropped, hok⟩ | ⟨hunreadable, error, hfailed⟩
    · obtain ⟨rfl, rfl⟩ := Prod.mk.inj hstep
      exact ⟨⟨tipHash, run, hhash, hrun, Or.inr (Or.inl ⟨hempty, hreplaces, hdropped, hok⟩)⟩,
        hundelivered _, fun error herror => absurd (hok.symm.trans herror) nofun,
        fun _ _ => hdropped.ne⟩
    · obtain ⟨rfl, rfl⟩ := Prod.mk.inj (hfailed.symm.trans hstep)
      exact ⟨⟨tipHash, run, hhash, hrun,
          Or.inr (Or.inr ⟨rfl, Or.inl ⟨hempty, fun _ => hunreadable⟩⟩)⟩,
        hundelivered _, fun _ _ => rfl, nofun⟩
  · -- The run starts with the first block.
    have hcons := hrundef.trans (hmore ▸ chainedRun_cons hblock hgoes more)
    have hundelivered : ∀ P : Prop, (∀ b, env.delivered next ≠ some (.ok b)) → P :=
      fun P h => absurd hblock (h block)
    rw [hkept, ← hmore, ← hrundef] at hstep
    rcases commitWindow_run cache (hcons ▸ List.cons_ne_nil _ _) hrun.1.heights hjoin
        (failure.or (panicked.map .fetchTask)) with
      ⟨cache'', hcommit, hadd, happ⟩ | ⟨⟨error, hfailed⟩, hmax⟩
    · obtain ⟨rfl, rfl⟩ := Prod.mk.inj (hcommit.symm.trans hstep)
      exact ⟨⟨tipHash, run, hhash, hrun, Or.inl ⟨hadd, happ, rfl⟩⟩, hundelivered _, nofun,
        fun _ _ => happ.ne⟩
    · obtain ⟨rfl, rfl⟩ := Prod.mk.inj (hfailed.symm.trans hstep)
      refine ⟨⟨tipHash, run, hhash, hrun, Or.inr (Or.inr ⟨rfl, Or.inr ?_⟩)⟩, hundelivered _,
        fun _ _ => rfl, nofun⟩
      obtain ⟨last, hlastmem, hreach⟩ := hmax
      have hheight : last.height ∈ List.range' next run.length :=
        hrun.1.heights ▸ List.mem_map_of_mem hlastmem
      have := List.mem_range'_1.mp hheight
      have := hrun.1.within
      exact ⟨last, hlastmem, by omega⟩

end

/-- The node with the first two blocks, of which the second one's task dies. -/
def panickedEnv : StepEnv where
  blockchainInfo := .ok ⟨"main", 1, wireToDisplayHex (sha256d (headerAt 1))⟩
  task height := if height = 0 then .fetched (repliesAt height) else .panicked "dead"
  schedule _ := 0

/-- The first block is kept, and the panic is no reorg. -/
theorem panickedEnv_commits :
    (step panickedEnv Cache.empty 0 ⟨5, 2⟩).1.blocks.len = 1 ∧
      (step panickedEnv Cache.empty 0 ⟨5, 2⟩).1 ≠ Cache.empty := by
  have hstep : (step panickedEnv Cache.empty 0 ⟨5, 2⟩).2 = .ok .advanced := by decide +kernel
  refine ⟨by decide +kernel, ?_⟩
  rcases heq : step panickedEnv Cache.empty 0 ⟨5, 2⟩ with ⟨cache', result⟩
  obtain ⟨-, -, -, hchanged⟩ := step_commits panickedEnv Cache.empty 0 ⟨5, 2⟩ Cache.chained_empty
    rfl (by decide : 1 ≤ u64Max) rfl (by decide : 0 ≤ 1) rfl heq
  rw [heq] at hstep
  refine hchanged (fun height _ => ?_) hstep
  show (if height = 0 then TaskOutcome.fetched (repliesAt height) else .panicked "dead") ≠ _
  split <;> nofun

end Lightwalletd
