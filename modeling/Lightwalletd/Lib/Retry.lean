/-
A call that is tried again, a bounded number of times.

The attempts are numbered, and `run` is how each of them would end.  Between two of
them there is a pause, twice as long as the one before.
-/
import Mathlib

namespace Lightwalletd

section

variable {ε α : Type} (worth : ε → Bool) (run : Nat → Except ε α)

/-- Try `attempt`, and up to `left` more after it as long as the error is `worth` it.
The pauses that were taken are returned as well. -/
def retry : Nat → Nat → Nat → Except ε α × List Nat
  | 0, attempt, _ => (run attempt, [])
  | left + 1, attempt, delay =>
      match run attempt with
      | .ok value => (.ok value, [])
      | .error error =>
          if worth error then
            let (result, pauses) := retry left (attempt + 1) (delay * 2)
            (result, delay :: pauses)
          else (.error error, [])

variable {worth run}

/-- The result is a success if one of the attempts is and those before it are worth
another one. -/
theorem retry_eq_ok {value : α} : ∀ {left attempt delay : Nat},
    (retry worth run left attempt delay).1 = .ok value ↔
      ∃ n ≤ left, run (attempt + n) = .ok value ∧
        ∀ m < n, ∃ error, run (attempt + m) = .error error ∧ worth error = true := by
  intro left
  induction left with
  | zero =>
      intro attempt delay
      constructor
      · intro h
        exact ⟨0, Nat.le_refl 0, h, fun m hm => absurd hm (Nat.not_lt_zero m)⟩
      · rintro ⟨n, hn, h, -⟩
        obtain rfl : n = 0 := Nat.le_zero.mp hn
        exact h
  | succ left ih =>
      intro attempt delay
      rw [retry]
      rcases hrun : run attempt with error | found
      · by_cases hworth : worth error = true
        · simp only [if_pos hworth]
          rw [ih]
          constructor
          · rintro ⟨n, hn, h, hbefore⟩
            refine ⟨n + 1, Nat.succ_le_succ hn, by rw [← h]; congr 1; omega, ?_⟩
            intro m hm
            rcases m with _ | m
            · exact ⟨error, hrun, hworth⟩
            · obtain ⟨other, hother, hw⟩ := hbefore m (by omega)
              exact ⟨other, by rw [← hother]; congr 1; omega, hw⟩
          · rintro ⟨n, hn, h, hbefore⟩
            rcases n with _ | n
            · rw [Nat.add_zero, hrun] at h
              cases h
            · refine ⟨n, Nat.le_of_succ_le_succ hn, by rw [← h]; congr 1; omega, ?_⟩
              intro m hm
              obtain ⟨other, hother, hw⟩ := hbefore (m + 1) (by omega)
              exact ⟨other, by rw [← hother]; congr 1; omega, hw⟩
        · simp only [if_neg hworth]
          constructor
          · intro h
            cases h
          · rintro ⟨n, -, h, hbefore⟩
            rcases n with _ | n
            · rw [Nat.add_zero, hrun] at h
              cases h
            · obtain ⟨other, hother, hw⟩ := hbefore 0 (Nat.succ_pos n)
              rw [Nat.add_zero, hrun] at hother
              obtain rfl := Except.error.inj hother
              exact absurd hw hworth
      · constructor
        · intro h
          obtain rfl := Except.ok.inj h
          exact ⟨0, Nat.zero_le _, hrun, fun m hm => absurd hm (Nat.not_lt_zero m)⟩
        · rintro ⟨n, -, h, hbefore⟩
          rcases n with _ | n
          · rw [Nat.add_zero, hrun] at h
            exact h
          · obtain ⟨error, herror, -⟩ := hbefore 0 (Nat.succ_pos n)
            rw [Nat.add_zero, hrun] at herror
            cases herror

/-- One attempt that succeeds is enough, if the others fail in ways that are worth it. -/
theorem retry_of_exists {value : α}
    (hall : ∀ n, run n = .ok value ∨ ∃ error, run n = .error error ∧ worth error = true) :
    ∀ {left attempt delay : Nat}, (∃ n ≤ left, run (attempt + n) = .ok value) →
      (retry worth run left attempt delay).1 = .ok value := by
  intro left
  induction left with
  | zero =>
      rintro attempt delay ⟨n, hn, h⟩
      obtain rfl : n = 0 := Nat.le_zero.mp hn
      exact h
  | succ left ih =>
      rintro attempt delay ⟨n, hn, h⟩
      rw [retry]
      rcases hall attempt with hrun | ⟨error, hrun, hworth⟩
      · simp only [hrun]
      · simp only [hrun, if_pos hworth]
        rcases n with _ | n
        · rw [Nat.add_zero, hrun] at h
          cases h
        · exact ih ⟨n, Nat.le_of_succ_le_succ hn, by rw [← h]; congr 1; omega⟩

/-- There is a pause between two attempts at most, each twice the one before. -/
theorem retry_pauses : ∀ {left attempt delay : Nat},
    ∃ n ≤ left, (retry worth run left attempt delay).2
      = (List.range n).map fun i => delay * 2 ^ i := by
  intro left
  induction left with
  | zero =>
      intro attempt delay
      exact ⟨0, Nat.le_refl 0, rfl⟩
  | succ left ih =>
      intro attempt delay
      rw [retry]
      rcases run attempt with error | found
      · by_cases hworth : worth error = true
        · simp only [if_pos hworth]
          obtain ⟨n, hn, heq⟩ := @ih (attempt + 1) (delay * 2)
          refine ⟨n + 1, Nat.succ_le_succ hn, ?_⟩
          rw [heq, List.range_succ_eq_map, List.map_cons, List.map_map, Nat.pow_zero, Nat.mul_one]
          refine congrArg (delay :: ·) (List.map_congr_left fun i _ => ?_)
          show delay * 2 * 2 ^ i = delay * 2 ^ (i + 1)
          rw [Nat.pow_succ, Nat.mul_assoc, Nat.mul_comm 2]
        · simp only [if_neg hworth]
          exact ⟨0, Nat.zero_le _, rfl⟩
      · exact ⟨0, Nat.zero_le _, rfl⟩

end

end Lightwalletd
