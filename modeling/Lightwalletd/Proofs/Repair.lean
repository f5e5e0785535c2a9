/-
Reports from the read path against the repair cycle of the ingestor.

Serving tasks may report at any moment, also while the ingestor is between two
atomic actions of one cycle, and the cache may be anything when a cycle begins.
`RepairLoop` is the two together: the slot, the cache, the budget, and how far the
cycle has come, with the heights reported since the last take written down beside
them.

The slot keeps the lowest report only.  A cycle answers for every report in the
cached range as long as that lowest one is not below the range: it is then in the
range itself, and is truncated from, or put back.  A lowest report below the range
is dropped, and the others go with it.
-/
import Lightwalletd.Proofs.Ingestor

namespace Lightwalletd

/-! ### The cycle, action by action

Reports may come between any two actions of a cycle, also while the ingestor works on
the one it has taken.
-/

/-- How far a repair cycle has come. -/
inductive RepairPhase
  /-- Outside of a cycle: steps, sleeps. -/
  | between
  /-- The slot held `height`. -/
  | taken (height : Nat)
  /-- The cache holds `height`. -/
  | inRange (height : Nat)
  /-- The budget has been charged. -/
  | granted (height : Nat)
  /-- The budget is exhausted. -/
  | refused (height : Nat)
  /-- The cycle is over. -/
  | returned
  deriving Repr, DecidableEq

/-- The slot, the ingestor, and the reports since the last take.  `watched` are
those the last take has to answer for. -/
structure RepairLoop where
  slot : RepairSignal
  cache : Cache
  budget : RepairBudget
  phase : RepairPhase
  since : List Nat
  watched : List Nat

/-- What can happen next. -/
inductive RepairAction
  | report (height : Nat)
  | evolve (cache : Cache)
  | take
  | checkRange
  | spend (now : Nat)
  | putBack
  | truncate
  | resume

/-- A height the claim of the slot is about: not zero, and in the cached range. -/
def Cache.covers (cache : Cache) (height : Nat) : Bool :=
  cache.range.any fun (base, tip) => 1 ≤ height ∧ base ≤ height ∧ height ≤ tip

namespace RepairLoop

def init (cache : Cache) (budget : RepairBudget) : RepairLoop :=
  ⟨RepairSignal.new, cache, budget, .between, [], []⟩

/-- One atomic action.  A height the budget refuses is reported once more, by the
ingestor itself. -/
def step (startHeight : Nat) (loop : RepairLoop) : RepairAction → Option RepairLoop
  | .report height =>
      some { loop with slot := loop.slot.report height, since := height :: loop.since }
  | .evolve cache => if loop.phase = .between then some { loop with cache := cache } else none
  | .take =>
      if loop.phase = .between then
        some { loop with
          slot := loop.slot.take.2
          phase := match loop.slot.take.1 with
            | some height => .taken height
            | none => .returned
          since := []
          watched := loop.since.filter loop.cache.covers }
      else none
  | .checkRange =>
      match loop.phase with
      | .taken height =>
          some { loop with
            phase := match loop.cache.range with
              | some (base, tip) =>
                  if base ≤ height ∧ height ≤ tip then .inRange height else .returned
              | none => .returned }
      | _ => none
  | .spend now =>
      match loop.phase with
      | .inRange height =>
          match loop.budget.trySpend now with
          | (true, budget) => some { loop with budget := budget, phase := .granted height }
          | (false, budget) => some { loop with budget := budget, phase := .refused height }
      | _ => none
  | .putBack =>
      match loop.phase with
      | .refused height =>
          some { loop with
            slot := loop.slot.report height
            budget := loop.budget.firstRefusalOfWindow.2
            phase := .returned
            since := height :: loop.since }
      | _ => none
  | .truncate =>
      match loop.phase with
      | .granted height =>
          some { loop with
            cache := (reorgToFloor loop.cache (height - 1) startHeight).1
            phase := .returned }
      | _ => none
  | .resume => if loop.phase = .returned then some { loop with phase := .between } else none

def steps (startHeight : Nat) (loop : RepairLoop) (actions : List RepairAction) :
    Option RepairLoop :=
  actions.foldlM (step startHeight) loop

/-- What is left to do of a cycle that found `height` in the slot, when nobody
reports in between. -/
def quietActions (loop : RepairLoop) (height now : Nat) : List RepairAction :=
  if loop.cache.range.any fun (base, tip) => base ≤ height ∧ height ≤ tip then
    [.checkRange, .spend now, if (loop.budget.trySpend now).1 then .truncate else .putBack]
  else [.checkRange]

/-- Undisturbed, the actions of a cycle add up to `repairReported`. -/
theorem steps_quiet (start now : Nat) {loop : RepairLoop} {height : Nat}
    (hphase : loop.phase = .taken height) :
    ∃ loop', loop.steps start (loop.quietActions height now) = some loop' ∧
      loop'.phase = .returned ∧
      repairReported loop.cache height start loop.slot loop.budget now
        = (loop'.cache, loop'.slot, loop'.budget) := by
  unfold quietActions repairReported
  rcases hrange : loop.cache.range with _ | ⟨base, tip⟩
  · exact ⟨{ loop with phase := .returned }, by simp [steps, step, hphase, hrange], rfl, rfl⟩
  by_cases hin : base ≤ height ∧ height ≤ tip
  · rcases hspend : loop.budget.trySpend now with ⟨_ | _, budget⟩
    · exact ⟨_, by simp [steps, step, hphase, hrange, hin, hspend]; rfl, rfl, by simp [hin]⟩
    · exact ⟨_, by simp [steps, step, hphase, hrange, hin, hspend]; rfl, rfl, by simp [hin]⟩
  · exact ⟨_, by simp [steps, step, hphase, hrange, hin]; rfl, rfl, by simp [hin]⟩

end RepairLoop

/-! ### What a truncation drops -/

/-- The heights are below the sentinel, and the metadata a truncation reads is
readable. -/
structure Cache.Repairable (cache : Cache) : Prop where
  below : ∀ row ∈ cache.blocks.rows, row.1 < nothing
  base : ∃ base, cache.snapshotBaseHeight = .ok base

namespace Cache

theorem covers_iff {cache : Cache} {height : Nat} :
    cache.covers height = true ↔ ∃ base tip, cache.range = some (base, tip) ∧
      1 ≤ height ∧ base ≤ height ∧ height ≤ tip := by
  unfold covers
  rcases cache.range with _ | ⟨base, tip⟩
  · simp
  · simp

theorem Repairable.lt_nothing {cache : Cache} (h : cache.Repairable) {height : Nat}
    (hcovers : cache.covers height = true) : height < nothing := by
  obtain ⟨base, tip, hrange, -, -, hle⟩ := covers_iff.mp hcovers
  obtain ⟨-, w, -, hlast⟩ := range_eq hrange
  have := h.below _ (Table.last_mem hlast)
  omega

/-- A truncation leaves a cache that can be truncated again. -/
theorem Repairable.truncated {cache : Cache} (h : cache.Repairable) {base : Option Nat}
    (hbase : cache.snapshotBaseHeight = .ok base) (cut : Nat) :
    (cache.truncated cut base).Repairable := by
  refine ⟨fun row hrow => h.below row ((prefix_truncated cache cut base).subset hrow), ?_⟩
  show ∃ base', decodeBaseHeight ((cache.metaRows.retain fun key _ =>
    keepsMeta cut (base.any fun b => cut ≤ b) key).get snapshotBaseHeightKey) = .ok base'
  rw [Table.get_retain]
  rcases hget : cache.metaRows.get snapshotBaseHeightKey with _ | value
  · exact ⟨none, rfl⟩
  · rw [Option.filter_some]
    split
    · rw [snapshotBaseHeight, hget] at hbase
      exact ⟨base, hbase⟩
    · exact ⟨none, rfl⟩

/-- Rolling back below `height` drops what is at or above it, unless it is zero. -/
theorem Repairable.reorgToFloor {cache : Cache} (h : cache.Repairable) (height start : Nat) :
    (Lightwalletd.reorgToFloor cache (height - 1) start).1.Repairable ∧
      ∀ row ∈ (Lightwalletd.reorgToFloor cache (height - 1) start).1.blocks.rows,
        row.1 < max height 1 := by
  obtain ⟨base, hbase⟩ := h.base
  have hcut : ∀ cut, cut ≤ max height 1 → (cache.removeFrom cut).1.Repairable ∧
      ∀ row ∈ (cache.removeFrom cut).1.blocks.rows, row.1 < max height 1 := by
    intro cut hle
    rw [removeFrom_eq hbase]
    refine ⟨h.truncated hbase cut, ?_⟩
    intro row hrow
    have hlt : row.1 < cut := by simpa using List.of_mem_filter hrow
    omega
  unfold Lightwalletd.reorgToFloor
  dsimp only
  split
  · exact hcut 0 (by omega)
  · refine hcut (satAdd (height - 1) 1) ?_
    have : satAdd (height - 1) 1 ≤ height - 1 + 1 := Nat.min_le_left _ _
    omega

end Cache

/-- The calls of the store only ever lead to such caches. -/
theorem StoreReachable.repairable [Prost] {cache : Cache} (h : StoreReachable cache) :
    cache.Repairable :=
  ⟨h.rows_below, h.keeps.2.readable⟩

/-! ### The invariant

A report is answered for if its height has been dropped, or if one at or below it is
still pending.
-/

namespace RepairSignal

/-- A height at or below `height` waits in the slot. -/
def Pending (signal : RepairSignal) (height : Nat) : Prop :=
  ∃ low, signal.take.1 = some low ∧ low ≤ height

theorem pending_of_le {signal : RepairSignal} {height : Nat} (hle : signal.lowest ≤ height)
    (hlt : height < nothing) : signal.Pending height :=
  ⟨signal.lowest, if_neg (by omega), hle⟩

theorem Pending.lowest_le {signal : RepairSignal} {height : Nat} (h : signal.Pending height) :
    signal.lowest ≤ height := by
  obtain ⟨low, htake, hle⟩ := h
  unfold take at htake
  split at htake
  · cases htake
  · rw [Option.some.inj htake]
    exact hle

end RepairSignal

namespace RepairLoop

/-- `height` is answered for: dropped with everything above it, or still pending. -/
def Answered (loop : RepairLoop) (height : Nat) : Prop :=
  (∀ row ∈ loop.cache.blocks.rows, row.1 < height) ∨ loop.slot.Pending height

/-- Once a cycle is over, every report its take had to answer for is. -/
def NoneLost (loop : RepairLoop) : Prop :=
  loop.phase = .returned → ∀ height ∈ loop.watched, loop.Answered height

/-- No report below the cached range waits in the slot together with one in it. -/
def Unhidden (loop : RepairLoop) : Prop :=
  ∀ height ∈ loop.since, loop.cache.covers height = true →
    ∀ base tip, loop.cache.range = some (base, tip) → base ≤ loop.slot.lowest

/-- What the height a cycle works on is to the reports it answers for. -/
def PhaseOk (loop : RepairLoop) : RepairPhase → Prop
  | .between => True
  | .taken height => ∀ h ∈ loop.watched, height ≤ h ∧ loop.cache.covers h = true ∧
      ∀ base tip, loop.cache.range = some (base, tip) → base ≤ height
  | .inRange height | .granted height | .refused height =>
      ∀ h ∈ loop.watched, height ≤ h ∧ loop.cache.covers h = true
  | .returned => ∀ h ∈ loop.watched, h < nothing ∧ loop.Answered h

structure Inv (loop : RepairLoop) : Prop where
  repairable : loop.cache.Repairable
  lowest : ∀ height ∈ loop.since, loop.slot.lowest ≤ height
  phase : loop.PhaseOk loop.phase

theorem Answered.report {loop : RepairLoop} {h : Nat} (hanswered : loop.Answered h)
    (hlt : h < nothing) (height : Nat) (since : List Nat) :
    { loop with slot := loop.slot.report height, since := since }.Answered h := by
  rcases hanswered with hrows | hpending
  · exact Or.inl hrows
  · refine Or.inr (RepairSignal.pending_of_le ?_ hlt)
    exact Nat.le_trans (Nat.min_le_left _ _) hpending.lowest_le

theorem report_lowest {loop : RepairLoop} (h : ∀ height ∈ loop.since, loop.slot.lowest ≤ height)
    (height : Nat) :
    ∀ h ∈ height :: loop.since, (loop.slot.report height).lowest ≤ h := by
  intro h' hmem
  rcases List.mem_cons.mp hmem with rfl | hold
  · exact Nat.min_le_right _ _
  · exact Nat.le_trans (Nat.min_le_left _ _) (h h' hold)

theorem Inv.report {loop : RepairLoop} (h : loop.Inv) (height : Nat) :
    { loop with slot := loop.slot.report height, since := height :: loop.since }.Inv := by
  refine ⟨h.repairable, report_lowest h.lowest height, ?_⟩
  have hphase := h.phase
  rcases hcase : loop.phase with _ | l | l | l | l | _ <;> rw [hcase] at hphase
  · trivial
  · exact hphase
  · exact hphase
  · exact hphase
  · exact hphase
  · exact fun h' hmem => ⟨(hphase h' hmem).1, 
      (hphase h' hmem).2.report (hphase h' hmem).1 height (height :: loop.since)⟩

/-- A take that finds the lowest report in or above the range. -/
theorem Inv.take {loop loop' : RepairLoop} {start : Nat} (h : loop.Inv) (hunhidden : loop.Unhidden)
    (hstep : loop.step start .take = some loop') : loop'.Inv := by
  simp only [step] at hstep
  split at hstep
  swap
  · cases hstep
  obtain rfl := Option.some.inj hstep
  refine ⟨h.repairable, by simp, ?_⟩
  -- What the take answers for was reported, and is covered.
  have hwatched : ∀ height ∈ loop.since.filter loop.cache.covers,
      loop.slot.lowest ≤ height ∧ loop.cache.covers height = true ∧
      ∀ base tip, loop.cache.range = some (base, tip) → base ≤ loop.slot.lowest := by
    intro height hmem
    obtain ⟨hsince, hcovers⟩ := List.mem_filter.mp hmem
    exact ⟨h.lowest height hsince, hcovers, hunhidden height hsince hcovers⟩
  by_cases hnothing : loop.slot.lowest = nothing
  · simp only [RepairSignal.take, if_pos hnothing]
    intro height hmem
    obtain ⟨hle, hcovers, -⟩ := hwatched height hmem
    have := h.repairable.lt_nothing hcovers
    omega
  · simp only [RepairSignal.take, if_neg hnothing]
    exact hwatched

theorem Inv.checkRange {loop loop' : RepairLoop} {start : Nat} (h : loop.Inv)
    (hstep : loop.step start .checkRange = some loop') : loop'.Inv := by
  have hphase := h.phase
  simp only [step] at hstep
  split at hstep
  case h_2 => cases hstep
  case h_1 low hcase =>
    obtain rfl := Option.some.inj hstep
    rw [hcase] at hphase
    refine ⟨h.repairable, h.lowest, ?_⟩
    rcases hrange : loop.cache.range with _ | ⟨base, tip⟩
    · intro height hmem
      obtain ⟨base, tip, hrange', -⟩ := Cache.covers_iff.mp (hphase height hmem).2.1
      rw [hrange] at hrange'
      cases hrange'
    by_cases hin : base ≤ low ∧ low ≤ tip
    · simp only [if_pos hin]
      exact fun height hmem => ⟨(hphase height hmem).1, (hphase height hmem).2.1⟩
    · simp only [if_neg hin]
      intro height hmem
      obtain ⟨hle, hcovers, hbase⟩ := hphase height hmem
      obtain ⟨base', tip', hrange', -, -, htip⟩ := Cache.covers_iff.mp hcovers
      rw [hrange] at hrange'
      obtain ⟨rfl, rfl⟩ := Prod.mk.inj (Option.some.inj hrange')
      exact absurd ⟨hbase _ _ hrange, Nat.le_trans hle htip⟩ hin

theorem Inv.spend {loop loop' : RepairLoop} {start now : Nat} (h : loop.Inv)
    (hstep : loop.step start (.spend now) = some loop') : loop'.Inv := by
  have hphase := h.phase
  simp only [step] at hstep
  split at hstep
  case h_2 => cases hstep
  case h_1 low hcase =>
    rw [hcase] at hphase
    split at hstep
    · obtain rfl := Option.some.inj hstep
      exact ⟨h.repairable, h.lowest, hphase⟩
    · obtain rfl := Option.some.inj hstep
      exact ⟨h.repairable, h.lowest, hphase⟩

theorem Inv.putBack {loop loop' : RepairLoop} {start : Nat} (h : loop.Inv)
    (hstep : loop.step start .putBack = some loop') : loop'.Inv := by
  have hphase := h.phase
  simp only [step] at hstep
  split at hstep
  case h_2 => cases hstep
  case h_1 low hcase =>
    obtain rfl := Option.some.inj hstep
    rw [hcase] at hphase
    refine ⟨h.repairable, report_lowest h.lowest low, ?_⟩
    intro height hmem
    obtain ⟨hle, hcovers⟩ := hphase height hmem
    have hlt := h.repairable.lt_nothing hcovers
    exact ⟨hlt, Or.inr (RepairSignal.pending_of_le (Nat.le_trans (Nat.min_le_right _ _) hle) hlt)⟩

theorem Inv.truncate {loop loop' : RepairLoop} {start : Nat} (h : loop.Inv)
    (hstep : loop.step start .truncate = some loop') : loop'.Inv := by
  have hphase := h.phase
  simp only [step] at hstep
  split at hstep
  case h_2 => cases hstep
  case h_1 low hcase =>
    obtain rfl := Option.some.inj hstep
    rw [hcase] at hphase
    obtain ⟨hrepairable, hdropped⟩ := h.repairable.reorgToFloor low start
    refine ⟨hrepairable, h.lowest, ?_⟩
    intro height hmem
    obtain ⟨hle, hcovers⟩ := hphase height hmem
    obtain ⟨_, _, _, hpos, -, -⟩ := Cache.covers_iff.mp hcovers
    refine ⟨h.repairable.lt_nothing hcovers, Or.inl fun row hrow => ?_⟩
    have := hdropped row hrow
    omega

end RepairLoop

/-! ### Every run

The slot holds one height, so that a report below the range hides those in it when it is
taken.  Runs in which that does not happen lose nothing.
-/

/-- The caches a cycle may find. -/
def RepairAction.Allowed : RepairAction → Prop
  | .evolve cache => cache.Repairable
  | _ => True

/-- The states of the runs in which every take happens in a state with `atTake`. -/
inductive RepairReachable (startHeight : Nat) (atTake : RepairLoop → Prop) : RepairLoop → Prop
  | init {cache : Cache} (budget : RepairBudget) (h : cache.Repairable) :
      RepairReachable startHeight atTake (RepairLoop.init cache budget)
  | step {loop loop' : RepairLoop} (h : RepairReachable startHeight atTake loop)
      (action : RepairAction) (hallowed : action.Allowed)
      (htake : action = .take → atTake loop)
      (hstep : loop.step startHeight action = some loop') :
      RepairReachable startHeight atTake loop'

theorem RepairLoop.Inv.step {loop loop' : RepairLoop} {start : Nat} {action : RepairAction}
    (h : loop.Inv) (hallowed : action.Allowed) (htake : action = .take → loop.Unhidden)
    (hstep : loop.step start action = some loop') : loop'.Inv := by
  rcases action with height | cache | _ | _ | now | _ | _ | _
  · obtain rfl := Option.some.inj hstep
    exact h.report height
  · simp only [RepairLoop.step] at hstep
    split at hstep
    · rename_i hphase
      obtain rfl := Option.some.inj hstep
      refine ⟨hallowed, h.lowest, ?_⟩
      simp only [hphase]
      trivial
    · cases hstep
  · exact h.take (htake rfl) hstep
  · exact h.checkRange hstep
  · exact h.spend hstep
  · exact h.putBack hstep
  · exact h.truncate hstep
  · simp only [RepairLoop.step] at hstep
    split at hstep
    · obtain rfl := Option.some.inj hstep
      exact ⟨h.repairable, h.lowest, trivial⟩
    · cases hstep

theorem RepairReachable.inv {start : Nat} {loop : RepairLoop}
    (h : RepairReachable start RepairLoop.Unhidden loop) : loop.Inv := by
  induction h with
  | init budget h => exact ⟨h, by simp [RepairLoop.init], trivial⟩
  | step _ action hallowed htake hstep ih => exact ih.step hallowed htake hstep

/--
**No report is lost.**  In every run whose takes never find a report below the
cached range in front of one in it, every cycle that is over has answered for each
reported height in the range its take found: nothing at or above it is cached any
more, or a height at or below it is pending again.
-/
theorem repair_none_lost {start : Nat} {loop : RepairLoop}
    (h : RepairReachable start RepairLoop.Unhidden loop) : loop.NoneLost := by
  intro hphase height hmem
  have hinv := h.inv.phase
  rw [hphase] at hinv
  exact (hinv height hmem).2

/-- Three blocks that carry their height only. -/
def threeBlocks : Cache where
  blocks := ((Table.empty.insert 5 [0x10, 5]).insert 6 [0x10, 6]).insert 7 [0x10, 7]
  metaRows := Table.empty

theorem threeBlocks_repairable : threeBlocks.Repairable :=
  ⟨by decide, none, rfl⟩

/-- A report of height 6 is repaired: the loop after the cycle. -/
def repairedLoop : RepairLoop where
  slot := RepairSignal.new
  cache := (reorgToFloor threeBlocks 5 0).1
  budget := ⟨1, 0, false⟩
  phase := .returned
  since := []
  watched := [6]

theorem repairedLoop_answered :
    RepairReachable 0 RepairLoop.Unhidden repairedLoop ∧ repairedLoop.NoneLost := by
  have hrun : RepairReachable 0 RepairLoop.Unhidden repairedLoop := by
    have hinit : RepairReachable 0 RepairLoop.Unhidden
        (RepairLoop.init threeBlocks (RepairBudget.new 0)) := .init _ threeBlocks_repairable
    have hreport := hinit.step (.report 6) trivial nofun rfl
    have htake := hreport.step .take trivial ?_ rfl
    · have hcheck := htake.step .checkRange trivial nofun rfl
      have hspend := hcheck.step (.spend 0) trivial nofun rfl
      exact hspend.step .truncate trivial nofun rfl
    · intro _ height _ _ base tip hrange
      have hbase : (5, 7) = (base, tip) := Option.some.inj hrange
      rw [← (Prod.mk.inj hbase).1]
      decide
  exact ⟨hrun, repair_none_lost hrun⟩

/-- The condition is needed: a cycle that finds a report below the range in front of
one in it, and is not disturbed, loses the second. -/
theorem RepairLoop.lost_of_hidden (start : Nat) {loop : RepairLoop}
    (hrepairable : loop.cache.Repairable) (hphase : loop.phase = .between)
    (hhidden : ¬ loop.Unhidden) :
    ∃ loop', loop.steps start [.take, .checkRange] = some loop' ∧ ¬ loop'.NoneLost := by
  unfold RepairLoop.Unhidden at hhidden
  push Not at hhidden
  obtain ⟨height, hsince, hcovers, base, tip, hrange, hlow⟩ := hhidden
  obtain ⟨base', tip', hrange', -, hbase, htip⟩ := Cache.covers_iff.mp hcovers
  obtain ⟨rfl, rfl⟩ := Prod.mk.inj (Option.some.inj (hrange.symm.trans hrange'))
  have hlt := hrepairable.lt_nothing hcovers
  have htake : loop.slot.take.1 = some loop.slot.lowest := if_neg (by omega)
  refine ⟨{ loop with
    slot := RepairSignal.new, phase := .returned, since := []
    watched := loop.since.filter loop.cache.covers }, ?_, ?_⟩
  · have hout : ¬ (base ≤ loop.slot.lowest ∧ loop.slot.lowest ≤ tip) := by omega
    simp [RepairLoop.steps, RepairLoop.step, hphase, htake, hrange, hout]
    rfl
  · intro hnone
    rcases hnone rfl height (List.mem_filter.mpr ⟨hsince, hcovers⟩) with hrows | ⟨low, hpending, -⟩
    · obtain ⟨-, w, -, hlast⟩ := Cache.range_eq hrange
      have := hrows _ (Table.last_mem hlast)
      omega
    · cases hpending

/-- Heights 6 and 3 are reported, with 5 to 7 cached: the loop after the cycle. -/
def hiddenLoop : RepairLoop where
  slot := RepairSignal.new
  cache := threeBlocks
  budget := RepairBudget.new 0
  phase := .returned
  since := []
  watched := [6]

theorem hiddenLoop_lost :
    RepairReachable 0 (fun _ => True) hiddenLoop ∧ ¬ hiddenLoop.NoneLost := by
  refine ⟨?_, ?_⟩
  · have hinit : RepairReachable 0 (fun _ => True)
        (RepairLoop.init threeBlocks (RepairBudget.new 0)) := .init _ threeBlocks_repairable
    have hfirst := hinit.step (.report 6) trivial nofun rfl
    have hsecond := hfirst.step (.report 3) trivial nofun rfl
    have htake := hsecond.step .take trivial (fun _ => trivial) rfl
    exact htake.step .checkRange trivial nofun rfl
  · intro hnone
    rcases hnone rfl 6 (by decide) with hrows | ⟨low, hpending, -⟩
    · have := hrows (7, [0x10, 7]) (by decide)
      omega
    · cases hpending

end Lightwalletd
