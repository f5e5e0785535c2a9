/-
The repair budget limits the rate of repairs.

The budget is a `Limiter` that also remembers whether a refusal has been logged.
Its window restarts at whichever call finds it expired, and that call may come at
any time, so what it grants within one window says nothing about the ten minutes
around it.  The bound over any interval is the limiter's.
-/
import Lightwalletd.Ingestor
import Lightwalletd.Lib.Limiter

namespace Lightwalletd

namespace RepairBudget

/-- What the calls at `times` leave of the budget. -/
def after (budget : RepairBudget) (times : List Nat) : RepairBudget :=
  times.foldl (fun budget now => (budget.trySpend now).2) budget

/-- The times of the calls that are granted. -/
def granted : RepairBudget → List Nat → List Nat
  | _, [] => []
  | budget, now :: later =>
      match budget.trySpend now with
      | (true, next) => now :: next.granted later
      | (false, next) => next.granted later

/-- The budget without its log. -/
def limiter (budget : RepairBudget) : Limiter := ⟨budget.spent, budget.windowStarted⟩

theorem trySpend_limiter (budget : RepairBudget) (now : Nat) :
    ((budget.trySpend now).1, (budget.trySpend now).2.limiter)
      = budget.limiter.spend maxRepairsPerWindow repairWindow now := by
  unfold trySpend Limiter.spend Limiter.window limiter
  by_cases hopen : now - budget.windowStarted ≥ repairWindow
  · simp only [hopen, if_true]
    rfl
  · simp only [hopen, if_false]
    by_cases hfull : budget.spent ≥ maxRepairsPerWindow
    · simp only [hfull, if_true]
    · simp only [hfull, if_false]
      rfl

theorem granted_limiter (budget : RepairBudget) (times : List Nat) :
    budget.granted times
      = Limiter.granted maxRepairsPerWindow repairWindow budget.limiter times := by
  induction times generalizing budget with
  | nil => rfl
  | cons now later ih =>
      rw [granted, Limiter.granted, ← trySpend_limiter budget now]
      rcases budget.trySpend now with ⟨_ | _, next⟩
      · exact ih next
      · exact congrArg (now :: ·) (ih next)

end RepairBudget

/--
**The budget is a rate limit.**  Of calls whose times do not decrease, on whatever
budget, those granted within an interval of `k` windows are at most `k + 1` times the
quota, wherever it starts.  And at any point of the sequence, a call that comes a
window after the current one was opened is granted.
-/
theorem repairs_limited (budget : RepairBudget) (times : List Nat)
    (hsorted : times.Pairwise (· ≤ ·)) :
    (∀ k start, 1 ≤ k →
      (budget.granted times).countP
          (fun time => start ≤ time ∧ time < start + k * repairWindow)
        ≤ (k + 1) * maxRepairsPerWindow) ∧
    ∀ before after, times = before ++ after →
      ∀ now, (budget.after before).windowStarted + repairWindow ≤ now →
        ((budget.after before).trySpend now).1 = true := by
  refine ⟨fun k start _ => ?_, fun before after _ now hnow => ?_⟩
  · rw [RepairBudget.granted_limiter]
    exact Limiter.granted_within (by decide) hsorted budget.limiter start k
  · have hspend := (budget.after before).trySpend_limiter now
    refine (congrArg Prod.fst hspend).trans (Limiter.spend_open (by decide) ?_)
    show repairWindow ≤ now - (budget.after before).windowStarted
    omega

/-- A burst at the end of a window and one at the start of the next. -/
def twoBursts : List Nat :=
  List.replicate 5 (repairWindow - 1) ++ List.replicate 6 repairWindow

/-- They meet in one interval, of which they take all that it may grant. -/
theorem twoBursts_limited :
    ((RepairBudget.new 0).granted twoBursts).countP
        (fun time => 1 ≤ time ∧ time < 1 + 1 * repairWindow) = 10 ∧
      10 ≤ (1 + 1) * maxRepairsPerWindow := by
  have hcount : ((RepairBudget.new 0).granted twoBursts).countP
      (fun time => 1 ≤ time ∧ time < 1 + 1 * repairWindow) = 10 := by decide +kernel
  refine ⟨hcount, ?_⟩
  rw [← hcount]
  exact (repairs_limited (.new 0) twoBursts (by decide +kernel)).1 1 1 (by decide)

end Lightwalletd
