/-
A rate limit by windows.

A limiter grants at most `capacity` calls within one window.  A window has no end
of its own: the first call that finds it `length` old opens the next one, so the
windows drift, and a burst at the end of one may meet a burst at the start of the
next.

What holds of it all the same is a bound over any interval.  Between two windows
there is at least `length`, so an interval of `k` lengths has room for `k` windows
that open in it and for one that was open before.  `granted_before` counts from an
open window to a fixed time, and `granted_within` an interval anywhere.

Times are natural numbers, and a call may even come before its window was opened.
-/
import Mathlib

/-- How many calls the current window has granted, and when it was opened. -/
structure Limiter where
  spent : Nat
  opened : Nat
  deriving Repr, DecidableEq

namespace Limiter

variable (capacity length : Nat)

/-- The window a call is charged to. -/
def window (limiter : Limiter) (now : Nat) : Limiter :=
  if length ≤ now - limiter.opened then ⟨0, now⟩ else limiter

/-- One call more in the window. -/
def charge (limiter : Limiter) : Limiter := ⟨limiter.spent + 1, limiter.opened⟩

/-- Whether a call at `now` is granted, with what it leaves. -/
def spend (limiter : Limiter) (now : Nat) : Bool × Limiter :=
  let limiter := limiter.window length now
  if capacity ≤ limiter.spent then (false, limiter) else (true, limiter.charge)

/-- The times of the calls that are granted. -/
def granted : Limiter → List Nat → List Nat
  | _, [] => []
  | limiter, now :: later =>
      let (ok, next) := limiter.spend capacity length now
      if ok then now :: granted next later else granted next later

variable {capacity length}

/-! ### One call

A window opens with a call that finds none open, and grants so many calls.
-/

/-- A call goes to the open window or opens one, and is granted while the window has
something left. -/
theorem granted_cons (limiter : Limiter) (now : Nat) (later : List Nat) :
    granted capacity length limiter (now :: later)
      = if capacity ≤ (limiter.window length now).spent then
          granted capacity length (limiter.window length now) later
        else now :: granted capacity length (limiter.window length now).charge later := by
  rw [granted]
  unfold spend
  by_cases hfull : capacity ≤ (limiter.window length now).spent
  · simp [hfull]
  · simp [hfull]

private theorem granted_open {limiter : Limiter} {now : Nat} (h : length ≤ now - limiter.opened)
    (later : List Nat) :
    granted capacity length limiter (now :: later)
      = granted capacity length ⟨0, now⟩ (now :: later) := by
  have hsame : (⟨0, now⟩ : Limiter).window length now = limiter.window length now := by
    simp [window, h]
  rw [granted_cons, granted_cons, hsame]

theorem spend_open {limiter : Limiter} {now : Nat} (hcapacity : 0 < capacity)
    (h : length ≤ now - limiter.opened) : (limiter.spend capacity length now).1 = true := by
  have hempty : ¬capacity ≤ 0 := by omega
  simp [spend, window, h, hempty]

private theorem mem_granted {limiter : Limiter} {times : List Nat} {time : Nat}
    (h : time ∈ granted capacity length limiter times) : time ∈ times := by
  induction times generalizing limiter with
  | nil => exact h
  | cons now later ih =>
      rw [granted_cons] at h
      split at h
      · exact List.mem_cons_of_mem _ (ih h)
      · rcases List.mem_cons.mp h with rfl | hlater
        · exact List.mem_cons_self
        · exact List.mem_cons_of_mem _ (ih hlater)

/-! ### Any interval

An interval may start in the middle of a window; apart from what is left of that, it
meets one window for each of its lengths.
-/

theorem granted_late {limiter : Limiter} {times : List Nat} {stop : Nat}
    (hlate : ∀ time ∈ times, stop ≤ time) (inside : Nat → Bool)
    (hinside : ∀ time, inside time = true → time < stop) :
    (granted capacity length limiter times).countP inside = 0 := by
  rw [List.countP_eq_zero]
  intro time htime hcounts
  have := hlate time (mem_granted htime)
  have := hinside time hcounts
  omega

/-- From a window on that is `n + 1` lengths or less before `stop`: what is left of it
and `n` more. -/
private theorem granted_before (hlength : 0 < length) {stop : Nat} {times : List Nat}
    (hsorted : times.Pairwise (· ≤ ·)) (limiter : Limiter) {n : Nat}
    (hroom : stop ≤ limiter.opened + (n + 1) * length) :
    (granted capacity length limiter times).countP (· < stop)
      ≤ (capacity - limiter.spent) + n * capacity := by
  induction times generalizing limiter n with
  | nil => simp [granted]
  | cons now later ih =>
      obtain ⟨hfirst, hrest⟩ := List.pairwise_cons.mp hsorted
      by_cases hlate : stop ≤ now
      · have hall : ∀ time ∈ now :: later, stop ≤ time := by
          intro time htime
          rcases List.mem_cons.mp htime with rfl | hlater
          · exact hlate
          · exact hlate.trans (hfirst time hlater)
        have hnone : (granted capacity length limiter (now :: later)).countP (· < stop) = 0 :=
          granted_late hall _ (by simp)
        omega
      -- The window charged has as many lengths to go, and no more to grant.
      obtain ⟨m, hm, hbound⟩ : ∃ m, stop ≤ (limiter.window length now).opened + (m + 1) * length ∧
          (capacity - (limiter.window length now).spent) + m * capacity
            ≤ (capacity - limiter.spent) + n * capacity := by
        unfold window
        by_cases hopen : length ≤ now - limiter.opened
        · rw [if_pos hopen]
          obtain ⟨m, rfl⟩ : ∃ m, n = m + 1 := by
            refine Nat.exists_eq_succ_of_ne_zero ?_
            rintro rfl
            omega
          have hlengths : (m + 1 + 1) * length = (m + 1) * length + length := Nat.succ_mul ..
          have hwindows : (m + 1) * capacity = m * capacity + capacity := Nat.succ_mul ..
          refine ⟨m, ?_, ?_⟩
          · show stop ≤ now + (m + 1) * length
            omega
          · show capacity - 0 + m * capacity ≤ _
            omega
        · rw [if_neg hopen]
          exact ⟨n, hroom, le_rfl⟩
      refine le_trans ?_ hbound
      rw [granted_cons]
      by_cases hfull : capacity ≤ (limiter.window length now).spent
      · rw [if_pos hfull]
        exact ih hrest _ hm
      · rw [if_neg hfull, List.countP_cons_of_pos (by simpa using hlate)]
        have hmore : _ ≤ capacity - ((limiter.window length now).spent + 1) + m * capacity :=
          ih hrest (limiter.window length now).charge hm
        omega

/-- From `start` on, whichever window is open then: it and `k` more. -/
private theorem granted_from (hlength : 0 < length) {start k : Nat} {times : List Nat}
    (hsorted : times.Pairwise (· ≤ ·)) (hstart : ∀ time ∈ times, start ≤ time)
    (limiter : Limiter) :
    (granted capacity length limiter times).countP (· < start + k * length)
      ≤ (capacity - limiter.spent) + k * capacity := by
  induction times generalizing limiter with
  | nil => simp [granted]
  | cons now later ih =>
      have hnow := hstart now List.mem_cons_self
      by_cases hopen : length ≤ now - limiter.opened
      · -- A window opens: the interval has room for one less after it.
        rw [granted_open hopen]
        rcases k with _ | k
        · have hnone : (granted capacity length ⟨0, now⟩ (now :: later)).countP
              (· < start + 0 * length) = 0 :=
            granted_late (fun time htime => by simpa using hstart time htime) _ (by simp)
          omega
        · have hlengths : (k + 1) * length = k * length + length := Nat.succ_mul ..
          have hwindows : (k + 1) * capacity = k * capacity + capacity := Nat.succ_mul ..
          have hfirst : _ ≤ capacity - 0 + k * capacity :=
            granted_before hlength hsorted ⟨0, now⟩ (Nat.add_le_add_right hnow ((k + 1) * length))
          omega
      · have hlater := ih (List.pairwise_cons.mp hsorted).2
          fun time htime => hstart time (List.mem_cons_of_mem _ htime)
        rw [granted_cons, window, if_neg hopen]
        by_cases hfull : capacity ≤ limiter.spent
        · rw [if_pos hfull]
          exact hlater limiter
        · rw [if_neg hfull, List.countP_cons]
          have hmore : _ ≤ capacity - (limiter.spent + 1) + k * capacity := hlater limiter.charge
          split <;> omega

/-- **Any interval of `k` lengths** has at most `k + 1` windows' worth of granted
calls. -/
theorem granted_within (hlength : 0 < length) {times : List Nat} (hsorted : times.Pairwise (· ≤ ·))
    (limiter : Limiter) (start k : Nat) :
    (granted capacity length limiter times).countP
        (fun time => start ≤ time ∧ time < start + k * length) ≤ (k + 1) * capacity := by
  induction times generalizing limiter with
  | nil => simp [granted]
  | cons now later ih =>
      obtain ⟨hfirst, hrest⟩ := List.pairwise_cons.mp hsorted
      by_cases hbefore : now < start
      · -- Before the interval only the limiter changes.
        rw [granted_cons]
        split
        · exact ih hrest _
        · rw [List.countP_cons_of_neg (by simp only [decide_eq_true_eq]; omega)]
          exact ih hrest _
      · have hstart : ∀ time ∈ now :: later, start ≤ time := by
          intro time htime
          rcases List.mem_cons.mp htime with rfl | hlater
          · omega
          · have := hfirst time hlater
            omega
        have hwindows : (k + 1) * capacity = k * capacity + capacity := Nat.succ_mul ..
        calc _ ≤ (granted capacity length limiter (now :: later)).countP
              (· < start + k * length) := by
              refine List.countP_mono_left fun time _ hin => ?_
              simp only [decide_eq_true_eq] at hin ⊢
              exact hin.2
          _ ≤ (capacity - limiter.spent) + k * capacity :=
              granted_from hlength hsorted hstart limiter
          _ ≤ (k + 1) * capacity := by omega

end Limiter
