/-
Runs of a machine that not every action moves.

`step` says where an action leads, and that it leads nowhere when it is not
enabled.  A run takes a list of actions in turn.  What holds at the start and is
kept by each enabled action of a run holds at its end, and that is the only
induction over runs a development needs.
-/
import Mathlib

namespace Run

variable {σ α : Type} (step : σ → α → Option σ)

/-- Take the actions in turn. -/
def run : σ → List α → Option σ
  | s, [] => some s
  | s, action :: rest => (step s action).bind fun s => run s rest

variable {step}

theorem run_cons {s t : σ} {action : α} {rest : List α} :
    run step s (action :: rest) = some t ↔
      ∃ m, step s action = some m ∧ run step m rest = some t :=
  Option.bind_eq_some_iff

theorem invariant (inv : σ → Prop) {s t : σ} :
    ∀ {actions : List α},
      (∀ m action n, action ∈ actions → inv m → step m action = some n → inv n) →
      run step s actions = some t → inv s → inv t := by
  intro actions
  induction actions generalizing s with
  | nil =>
      intro _ h hs
      cases h
      exact hs
  | cons action rest ih =>
      intro hkeeps h hs
      obtain ⟨m, hstep, hrest⟩ := run_cons.mp h
      refine ih ?_ hrest (hkeeps s action m List.mem_cons_self hs hstep)
      intro m' action' n' hmem
      exact hkeeps m' action' n' (List.mem_cons_of_mem _ hmem)

/-! ### Machines that every action moves -/

/-- Every action of a run meets a condition on the state it is taken in. -/
def AllSteps (step : σ → α → σ) (ok : σ → α → Prop) : σ → List α → Prop
  | _, [] => True
  | s, action :: rest => ok s action ∧ AllSteps step ok (step s action) rest

/-- What each action keeps under the condition, a run under it keeps. -/
theorem foldl_invariant {step : σ → α → σ} {ok : σ → α → Prop} (inv : σ → Prop)
    (hstep : ∀ s action, inv s → ok s action → inv (step s action)) {actions : List α} {s : σ}
    (hok : AllSteps step ok s actions) (hs : inv s) : inv (actions.foldl step s) := by
  induction actions generalizing s with
  | nil => exact hs
  | cons action rest ih => exact ih hok.2 (hstep s action hs hok.1)

theorem AllSteps.append {step : σ → α → σ} {ok : σ → α → Prop} {before after : List α} {s : σ}
    (h : AllSteps step ok s (before ++ after)) :
    AllSteps step ok s before ∧ AllSteps step ok (before.foldl step s) after := by
  induction before generalizing s with
  | nil => exact ⟨trivial, h⟩
  | cons action rest ih =>
      obtain ⟨hrest, hafter⟩ := ih h.2
      exact ⟨⟨h.1, hrest⟩, hafter⟩

end Run
