/-
What the ingestor can do to the cache, and what a whole run keeps.

Against a node that may answer anything, one step changes the cache in one of two
ways only: it rolls back, or it appends a run of consecutive, linked blocks that
starts on the cached tip (`step_cases`).  Repairing, recovering and truncating
only ever drop rows from the top, and an import lands verified epochs.  Each of
them keeps `Good`, and none but an import can move the lowest cached height away
from where ingestion starts.
-/
import Lightwalletd.Codec
import Lightwalletd.Ingestor
import Lightwalletd.Proofs.Import

namespace Lightwalletd

/-! ### The window

Blocks are fetched by one task each.  In whichever order they end, each result stands
under its own height.
-/

section

variable [BlockParser] {env : StepEnv}

/-- A result stands under the height of its block. -/
def ResultOk (row : Nat × Except FetchError CompactBlock) : Prop :=
  ∀ block, row.2 = .ok block → block.height = row.1

private theorem join_resultOk {task : Nat → TaskOutcome} {window : WindowResults} {height : Nat}
    (h : ∀ row ∈ window.results.rows, ResultOk row) :
    ∀ row ∈ (window.join task height).results.rows, ResultOk row := by
  intro row hrow
  unfold WindowResults.join at hrow
  rcases htask : task height with replies | detail | detail | _
  · rw [htask] at hrow
    rcases Table.mem_insertRow hrow with rfl | hold
    · intro block hblock
      exact compactBlock_height hblock
    · exact h row hold
  · rw [htask] at hrow
    rcases Table.mem_insertRow hrow with rfl | hold
    · intro block hblock
      cases hblock
    · exact h row hold
  · rw [htask] at hrow
    exact h row hrow
  · rw [htask] at hrow
    exact h row hrow

/-- Whatever the tasks do and in whichever order they end, a fetched block stands
under its own height. -/
theorem fetchWindow_resultOk (heights : List Nat) (concurrency : Nat) :
    ∀ row ∈ (fetchWindow env heights concurrency).results.rows, ResultOk row := by
  have hfold : ∀ (order : List Nat) (window : WindowResults),
      (∀ row ∈ window.results.rows, ResultOk row) →
      ∀ row ∈ (order.foldl (WindowResults.join env.task) window).results.rows, ResultOk row := by
    intro order
    induction order with
    | nil => intro window h; exact h
    | cons height order ih => intro window h; exact ih _ (join_resultOk h)
  exact hfold _ _ (by simp)

end

/-- The run kept of a window: it goes on from what was kept before, consecutive and
linked. -/
theorem keepChained_batch :
    ∀ (rows : List (Nat × Except FetchError CompactBlock)) (expected : Nat)
      (prevHash : Option Bytes) (kept out : List CompactBlock) (failure : Option StepError),
      (∀ row ∈ rows, ResultOk row) → keepChained expected prevHash kept rows = .batch out failure →
      ∃ more, out = kept ++ more ∧ more.map (·.height) = List.range' expected more.length ∧
        more.IsChain Follows ∧
        ∀ prev ∈ prevHash, ∀ block ∈ more.head?, block.prevHash = prev := by
  intro rows
  induction rows with
  | nil =>
      intro expected prevHash kept out failure _ h
      simp only [keepChained, Kept.batch.injEq] at h
      exact ⟨[], by simp [h.1], rfl, List.isChain_nil, by simp⟩
  | cons row rows ih =>
      obtain ⟨height, result⟩ := row
      intro expected prevHash kept out failure hrows h
      have hstop : kept = out → ∃ more, out = kept ++ more ∧
          more.map (·.height) = List.range' expected more.length ∧ more.IsChain Follows ∧
          ∀ prev ∈ prevHash, ∀ block ∈ more.head?, block.prevHash = prev := by
        intro heq
        exact ⟨[], by simp [heq], rfl, List.isChain_nil, by simp⟩
      unfold keepChained at h
      by_cases hheight : height = expected
      · rw [if_neg (by simpa using hheight)] at h
        rcases result with error | block
        · simp only [Kept.batch.injEq] at h
          exact hstop h.1
        simp only at h
        by_cases hmismatch : (prevHash.any (· ≠ block.prevHash)) = true
        · rw [if_pos hmismatch] at h
          by_cases hempty : kept.isEmpty = true
          · rw [if_pos hempty] at h
            cases h
          · rw [if_neg hempty, Kept.batch.injEq] at h
            exact hstop h.1
        · rw [if_neg hmismatch] at h
          obtain ⟨more, rfl, hheights, hchain, hjoin⟩ :=
            ih _ _ _ _ _ (fun r hr => hrows r (List.mem_cons_of_mem _ hr)) h
          have hblock : block.height = expected :=
            (hrows _ List.mem_cons_self block rfl).trans hheight
          refine ⟨block :: more, by simp, ?_, ?_, ?_⟩
          · rw [List.map_cons, hheights, hblock, List.length_cons, List.range'_succ]
          · exact List.isChain_cons.mpr ⟨fun next hnext => hjoin _ rfl next hnext, hchain⟩
          · intro prev hprev first hfirst
            obtain rfl : block = first := Option.some.inj hfirst
            rw [Option.mem_def.mp hprev] at hmismatch
            by_contra hne
            exact hmismatch (by simp [Ne.symm hne])
      · rw [if_pos hheight, Kept.batch.injEq] at h
        exact hstop h.1

/-! ### One step

Whatever a step does to the rows, it either cuts them or extends them: the two cases all
invariants of the ingestor rest on.
-/

section

variable [Prost]

/-- A step appended a linked run onto the tip, or onto nothing from `start` on. -/
def Extended (start : Nat) (cache cache' : Cache) : Prop :=
  ∃ blocks next, Cache.Appended cache blocks none next cache' ∧ blocks.IsChain Follows ∧
    (∀ row tip first, cache.blocks.last = some row → Prost.decode row.2 = .ok tip →
      blocks.head? = some first → Follows tip first) ∧
    (cache.latestHeight = none → next = start)

/-- What a cut leaves: the cache itself if the cut failed. -/
def Dropped (cache cache' : Cache) : Prop := ∃ cut, cache' = (cache.removeFrom cut).1

omit [Prost] in
theorem reorgToFloor_dropped (cache : Cache) (target start : Nat) :
    Dropped cache (reorgToFloor cache target start).1 := by
  unfold reorgToFloor
  dsimp only
  split
  · exact ⟨0, rfl⟩
  · exact ⟨satAdd target 1, rfl⟩

omit [Prost] in
theorem rollBack_dropped (cache : Cache) (target start : Nat) :
    Dropped cache (rollBack cache target start).1 := by
  have hdropped := reorgToFloor_dropped cache target start
  unfold rollBack
  rcases hreorg : reorgToFloor cache target start with ⟨cache', error | u⟩
  · simpa only [hreorg] using hdropped
  · simpa only [hreorg] using hdropped

theorem commitWindow_cases {cache : Cache} {start next : Nat} {blocks : List CompactBlock}
    (failure : Option StepError)
    (hheights : blocks.map (·.height) = List.range' next blocks.length)
    (hchain : blocks.IsChain Follows)
    (hjoin : ∀ row tip first, cache.blocks.last = some row → Prost.decode row.2 = .ok tip →
      blocks.head? = some first → Follows tip first)
    (hstart : cache.latestHeight = none → next = start) :
    (commitWindow cache blocks failure).1 = cache ∨
      Extended start cache (commitWindow cache blocks failure).1 := by
  unfold commitWindow
  by_cases hempty : blocks.isEmpty = true
  · rw [if_pos hempty]
    rcases failure with _ | error
    · exact Or.inl rfl
    · exact Or.inl rfl
  rw [if_neg hempty]
  rcases cache.append_cases (blocks.map .ok) none with
    ⟨e, heq⟩ | ⟨-, heq⟩ | ⟨blocks', h, cache', hmap, heq, happ⟩
  · exact Or.inl (by simp [Cache.addBatch, heq])
  · exact Or.inl (by simp [Cache.addBatch, heq])
  · obtain rfl : blocks = blocks' :=
      List.map_injective_iff.mpr (fun a b hab => Except.ok.inj hab) hmap
    have hh : h = next := by
      rcases blocks with _ | ⟨block, rest⟩
      · exact absurd rfl happ.nonempty
      · have hfirst := happ.heights.symm.trans hheights
        rw [List.length_cons, List.range'_succ, List.range'_succ] at hfirst
        exact (List.cons.inj hfirst).1
    refine Or.inr ⟨blocks, next, ?_, hchain, hjoin, hstart⟩
    simp only [Cache.addBatch, heq]
    rw [← hh]
    exact happ

section

variable {cache : Cache} {info : GetBlockchainInfo} {tip : Nat} {tipHash : Bytes} (start : Nat)
  (hlatest : cache.latestHeight = some tip)

include hlatest

theorem compareTip_behind (hlt : tip < info.blocks) :
    compareTip cache info start = .ok (.fetchFrom (tip + 1)) := by
  simp only [compareTip, hlatest]
  rw [if_neg (by omega), if_neg (by omega)]

theorem compareTip_level (heq : tip = info.blocks) {hash : Bytes}
    (hbest : displayHexToWire info.bestblockhash = .ok tipHash)
    (hhash : cache.latestHash = .ok (some hash)) :
    compareTip cache info start
      = .ok (if hash = tipHash then .idle else .rollBack (tip - 1)) := by
  simp only [compareTip, hlatest, hbest, hhash]
  rw [if_pos heq]
  simp only [Except.mapError, Except.ok_bind, Option.some.injEq]
  rfl

theorem compareTip_ahead (hgt : info.blocks < tip) {cached : Option CompactBlock}
    (hbest : displayHexToWire info.bestblockhash = .ok tipHash)
    (hget : cache.get info.blocks = .ok cached) :
    compareTip cache info start
      = .ok (if cached.any (·.hash ≠ tipHash) then .rollBack (tip - 1) else .idle) := by
  simp only [compareTip, hlatest, hbest, hget]
  rw [if_neg (by omega), if_pos hgt]
  rcases cached with _ | cached
  · rfl
  · by_cases hsame : cached.hash = tipHash
    · simp [Except.mapError, Except.ok_bind, pure, Except.pure, hsame]
    · simp [Except.mapError, Except.ok_bind, pure, Except.pure, hsame]

end

private theorem compareTip_fetchFrom {cache : Cache} {info : GetBlockchainInfo} {start next : Nat}
    (h : compareTip cache info start = .ok (.fetchFrom next)) :
    (cache.latestHeight = none → next = start) ∧
    ∀ tip, cache.latestHeight = some tip → next = tip + 1 := by
  unfold compareTip at h
  rcases hlatest : cache.latestHeight with _ | latest
  · rw [hlatest] at h
    simp only [Except.ok.injEq, TipDecision.fetchFrom.injEq] at h
    exact ⟨fun _ => h.symm, by simp⟩
  · rw [hlatest] at h
    simp only at h
    refine ⟨by simp, ?_⟩
    intro tip htip
    obtain rfl : latest = tip := Option.some.inj htip
    by_cases heq : latest = info.blocks
    · rw [if_pos heq] at h
      simp only [Except.bind_eq_ok, Except.pure_eq_ok] at h
      obtain ⟨_, -, _, -, h⟩ := h
      split at h <;> cases h
    · rw [if_neg heq] at h
      by_cases hgt : latest > info.blocks
      · rw [if_pos hgt] at h
        simp only [Except.bind_eq_ok] at h
        obtain ⟨_, -, cached, -, h⟩ := h
        rcases cached with _ | cached
        · simp [Except.pure_eq_ok] at h
        · simp only [Except.pure_eq_ok] at h
          split at h <;> cases h
      · rw [if_neg hgt] at h
        simp only [Except.ok.injEq, TipDecision.fetchFrom.injEq] at h
        exact h.symm

/-- **What one step can do**: nothing, roll back, or append a linked run. -/
theorem step_cases [BlockParser] (env : StepEnv) (cache : Cache) (start : Nat)
    (config : IngestConfig) :
    (step env cache start config).1 = cache ∨ Dropped cache (step env cache start config).1 ∨
      Extended start cache (step env cache start config).1 := by
  unfold step
  rcases env.blockchainInfo with error | info
  · exact Or.inl rfl
  simp only
  rcases hcompare : compareTip cache info start with error | (_ | target | next)
  · exact Or.inl rfl
  · exact Or.inl rfl
  · exact Or.inr (Or.inl (rollBack_dropped cache target start))
  simp only
  by_cases habove : next > info.blocks
  · rw [if_pos habove]
    exact Or.inl rfl
  rw [if_neg habove]
  unfold ingestWindow
  rcases hhash : cache.latestHash with error | prevHash
  · exact Or.inl rfl
  simp only
  rcases hkept : keepChained next prevHash [] (fetchWindow env
      (List.range' next (min info.blocks (satAdd next (config.window - 1)) + 1 - next))
      config.concurrency).results.rows with _ | ⟨blocks, failure⟩
  · exact Or.inr (Or.inl (rollBack_dropped cache (next - 2) start))
  obtain ⟨more, rfl, hheights, hchain, hjoin⟩ :=
    keepChained_batch _ _ _ _ _ _ (fetchWindow_resultOk _ _) hkept
  obtain ⟨hstart, -⟩ := compareTip_fetchFrom hcompare
  have hfollows : ∀ row tip first, cache.blocks.last = some row → Prost.decode row.2 = .ok tip →
      blocks.head? = some first → Follows tip first := by
    intro row tip first hrow htip hfirst
    refine hjoin tip.hash ?_ first hfirst
    unfold Cache.latestHash at hhash
    rw [hrow] at hhash
    simp only [Cache.decodeBlock, htip, Except.mapError, Except.map, Except.ok.injEq] at hhash
    exact hhash.symm
  rcases commitWindow_cases _ hheights hchain hfollows hstart with hsame | hextended
  · exact Or.inl hsame
  · exact Or.inr (Or.inr hextended)

/-! ### Whole runs

Imports come between the steps, and they may fail.
-/

/-- An operation that writes the cache: one of the ingestor's, a truncation, or at
startup the import. -/
inductive IngestOp
  | step (env : StepEnv) (config : IngestConfig)
  | repairReported (height : Nat) (repair : RepairSignal) (budget : RepairBudget) (now : Nat)
  | recover
  | truncateFrom (height : Nat)
  | importSnapshot (env : ImportEnv) (concurrency : Nat)

def IngestOp.apply [BlockParser] [Sha256] (start : Nat) (cache : Cache) : IngestOp → Cache
  | step env config => (Lightwalletd.step env cache start config).1
  | repairReported height repair budget now =>
      (Lightwalletd.repairReported cache height start repair budget now).1
  | recover => (Lightwalletd.recover cache).1
  | truncateFrom height => (cache.truncateFrom height).1
  | importSnapshot env concurrency => (Lightwalletd.importSnapshot env cache concurrency).1

def IngestOp.isImport : IngestOp → Bool
  | importSnapshot _ _ => true
  | _ => false

/-- If anything is cached, the lowest height is `start`. -/
def LowestAt (start : Nat) (cache : Cache) : Prop :=
  ∀ base tip, cache.range = some (base, tip) → base = start

variable {cache cache' : Cache} {start : Nat}

omit [Prost] in
theorem Dropped.rows (h : Dropped cache cache') : cache'.blocks.rows <+: cache.blocks.rows := by
  obtain ⟨cut, rfl⟩ := h
  exact cache.removeFrom_prefix cut

theorem Dropped.good (h : Dropped cache cache') (hgood : cache.Good) : cache'.Good := by
  obtain ⟨cut, rfl⟩ := h
  exact Cache.Chained.removeFrom hgood cut

omit [Prost] in
theorem Dropped.base (h : Dropped cache cache') {base tip : Nat}
    (hrange : cache'.range = some (base, tip)) : ∃ tip, cache.range = some (base, tip) := by
  obtain ⟨v, w, hfirst, hlast⟩ := Cache.range_eq hrange
  have hne : cache'.blocks.rows ≠ [] := List.ne_nil_of_mem (Table.first_mem hfirst)
  rw [Table.first_of_prefix h.rows hne] at hfirst
  rcases hold : cache.blocks.last with _ | ⟨t, w'⟩
  · rw [Table.first, Table.last_eq_none_iff.mp hold] at hfirst
    simp at hfirst
  · exact ⟨t, by simp only [Cache.range, hfirst, hold]⟩

omit [Prost] in
theorem Dropped.lowestAt (h : Dropped cache cache') (hlow : LowestAt start cache) :
    LowestAt start cache' := by
  intro base tip hrange
  obtain ⟨tip', hold⟩ := h.base hrange
  exact hlow base tip' hold

theorem Extended.good (h : Extended start cache cache') (hgood : cache.Good) : cache'.Good := by
  obtain ⟨blocks, next, happ, hchain, hjoin, -⟩ := h
  exact happ.chained hgood hchain hjoin

theorem Extended.base (h : Extended start cache cache') {base tip : Nat}
    (hrange : cache'.range = some (base, tip)) :
    base = start ∨ ∃ tip, cache.range = some (base, tip) := by
  obtain ⟨blocks, next, happ, -, -, hstart⟩ := h
  obtain ⟨v, w, hfirst, -⟩ := Cache.range_eq hrange
  rcases happ.first with ⟨row, hold, hnew⟩ | ⟨hempty, value, hnew⟩
  · obtain rfl : row = (base, v) := Option.some.inj (hnew.symm.trans hfirst)
    rcases hlast : cache.blocks.last with _ | ⟨t, w'⟩
    · rw [Table.first, Table.last_eq_none_iff.mp hlast] at hold
      simp at hold
    · exact Or.inr ⟨t, by simp only [Cache.range, hold, hlast]⟩
  · have hnone : cache.latestHeight = none := by
      rw [Cache.latestHeight, Table.last_eq_none_iff.mpr hempty]
      rfl
    have hpair := Option.some.inj (hnew.symm.trans hfirst)
    rw [← hstart hnone]
    exact Or.inl (Prod.mk.inj hpair).1.symm

theorem Extended.lowestAt (h : Extended start cache cache') (hlow : LowestAt start cache) :
    LowestAt start cache' := by
  intro base tip hrange
  rcases h.base hrange with hstart | ⟨tip', hold⟩
  · exact hstart
  · exact hlow base tip' hold

/-- Every operation but an import does nothing, drops rows, or extends the cache. -/
theorem IngestOp.apply_cases [BlockParser] [Sha256] (start : Nat) (cache : Cache) (op : IngestOp)
    (hop : op.isImport = false) :
    op.apply start cache = cache ∨ Dropped cache (op.apply start cache) ∨
      Extended start cache (op.apply start cache) := by
  rcases op with ⟨env, config⟩ | ⟨height, repair, budget, now⟩ | _ | height | ⟨env, concurrency⟩
  · exact step_cases env cache start config
  · unfold IngestOp.apply Lightwalletd.repairReported
    rcases cache.range with _ | ⟨base, tip⟩
    · exact Or.inl rfl
    simp only
    by_cases hin : base ≤ height ∧ height ≤ tip
    · rw [if_pos hin]
      rcases budget.trySpend now with ⟨_ | _, budget'⟩
      · exact Or.inl rfl
      · exact Or.inr (Or.inl (reorgToFloor_dropped cache (height - 1) start))
    · rw [if_neg hin]
      exact Or.inl rfl
  · unfold IngestOp.apply Lightwalletd.recover
    rcases cache.lowestCorruptHeight with _ | corrupt
    · exact Or.inl rfl
    · exact Or.inr (Or.inl ⟨satAdd (corrupt - 1) 1, rfl⟩)
  · exact Or.inr (Or.inl ⟨height, rfl⟩)
  · cases hop

theorem IngestOp.apply_good [BlockParser] [Sha256] (op : IngestOp) (hgood : cache.Good) :
    (op.apply start cache).Good := by
  by_cases hop : op.isImport = true
  · rcases op with _ | _ | _ | _ | ⟨env, concurrency⟩
    all_goals try cases hop
    obtain ⟨parts, himp, -⟩ := importSnapshot_imported (P := fun _ => True) env concurrency hgood
      (fun _ _ _ _ _ _ _ => trivial)
    exact himp.chained_cache (fun _ _ h => h.1) hgood
  · rcases op.apply_cases start cache (by simpa using hop) with hsame | hdropped | hextended
    · rw [hsame]; exact hgood
    · exact hdropped.good hgood
    · exact hextended.good hgood

theorem IngestOp.apply_lowestAt [BlockParser] [Sha256] (op : IngestOp) (hop : op.isImport = false)
    (hlow : LowestAt start cache) : LowestAt start (op.apply start cache) := by
  rcases op.apply_cases start cache hop with hsame | hdropped | hextended
  · rw [hsame]; exact hlow
  · exact hdropped.lowestAt hlow
  · exact hextended.lowestAt hlow

/--
**The ingestor's chain invariant.**  In every run of steps, repairs, recoveries,
truncations and imports that starts from a good cache, whatever the node and the
peers answer, every state reached is good.  Without an import, and if it was so at
the start, the lowest cached height is where ingestion starts.
-/
theorem ingestor_run_good [BlockParser] [Sha256] (start : Nat) :
    ∀ (ops : List IngestOp) (cache : Cache), cache.Good →
      ∀ state ∈ ops.scanl (fun cache op => op.apply start cache) cache,
        state.Good ∧
        ((∀ op ∈ ops, op.isImport = false) → LowestAt start cache → LowestAt start state) := by
  intro ops
  induction ops with
  | nil =>
      intro cache hgood state hstate
      obtain rfl : state = cache := by simpa using hstate
      exact ⟨hgood, fun _ hlow => hlow⟩
  | cons op ops ih =>
      intro cache hgood state hstate
      rw [List.scanl_cons] at hstate
      rcases List.mem_cons.mp hstate with rfl | hrest
      · exact ⟨hgood, fun _ hlow => hlow⟩
      · obtain ⟨hstate, hlowest⟩ := ih (op.apply start cache) (op.apply_good hgood) state hrest
        refine ⟨hstate, ?_⟩
        intro hops hlow
        exact hlowest (fun o ho => hops o (List.mem_cons_of_mem _ ho))
          (op.apply_lowestAt (hops op List.mem_cons_self) hlow)

end

/-! ### A run -/

/-- The node with the first two blocks. -/
def twoBlockEnv : StepEnv where
  blockchainInfo := .ok ⟨"main", 1, wireToDisplayHex (sha256d (headerAt 1))⟩
  task height := .fetched (repliesAt height)
  schedule _ := 0

/-- Ingest the two blocks, drop the upper one on a report, and get it back. -/
def repairedOps : List IngestOp := [
  .step twoBlockEnv ⟨5, 2⟩, .repairReported 1 RepairSignal.new (RepairBudget.new 0) 0,
  .step twoBlockEnv ⟨5, 2⟩]

theorem repairedOps_good :
    ((repairedOps.scanl (fun cache op => op.apply 0 cache) Cache.empty).map (·.blocks.len))
      = [0, 2, 1, 2] ∧
    ∀ state ∈ repairedOps.scanl (fun cache op => op.apply 0 cache) Cache.empty,
      state.Good ∧ LowestAt 0 state := by
  refine ⟨by decide +kernel, ?_⟩
  intro state hstate
  obtain ⟨hgood, hlowest⟩ :=
    ingestor_run_good 0 repairedOps Cache.empty Cache.chained_empty state hstate
  refine ⟨hgood, hlowest ?_ nofun⟩
  simp [repairedOps, IngestOp.isImport]

end Lightwalletd
