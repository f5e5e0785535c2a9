/-
Programs that may panic.

A slice out of range and an addition past the machine word do not return an error:
the program stops.  `Checked` has that third outcome, `none`, beside an error and a
value, and `slice`, `index` and `add` are the operations that may end in it.  To say
that a program never panics is to write it with them and show that it equals the
`lift` of one written without.
-/
import Lightwalletd.Lib.Result

/-- A program that panics, fails or returns. -/
abbrev Checked (ε α : Type) := ExceptT ε Option α

namespace Checked

variable {ε α β : Type}

/-- Stop. -/
def panicked : Checked ε α := ExceptT.mk none

/-- A program that does not panic. -/
def lift (x : Except ε α) : Checked ε α := ExceptT.mk (some x)

/-- `bytes[low..high]`. -/
def slice (items : List α) (low high : Nat) : Checked ε (List α) :=
  if low ≤ high ∧ high ≤ items.length then lift (.ok ((items.drop low).take (high - low)))
  else panicked

/-- `bytes[position]`. -/
def index (items : List α) (position : Nat) : Checked ε α :=
  match items[position]? with
  | some item => lift (.ok item)
  | none => panicked

/-- `a + b` on 64-bit words. -/
def add (a b : Nat) : Checked ε Nat := if a + b < 2 ^ 64 then lift (.ok (a + b)) else panicked

/-- `a - b` on words. -/
def sub (a b : Nat) : Checked ε Nat := if b ≤ a then lift (.ok (a - b)) else panicked

theorem lift_ok_bind (a : α) (f : α → Checked ε β) : (lift (.ok a) >>= f) = f a := rfl

theorem panicked_bind (f : α → Checked ε β) : ((panicked : Checked ε α) >>= f) = panicked := rfl

theorem pure_eq (a : α) : (pure a : Checked ε α) = lift (.ok a) := rfl

theorem lift_bind {x : Except ε α} {f : α → Except ε β} {g : α → Checked ε β}
    (h : ∀ a, x = .ok a → g a = lift (f a)) : (lift x >>= g) = lift (x >>= f) := by
  cases x with
  | error e => rfl
  | ok a => exact h a rfl

theorem mapM_eq {f : α → Checked ε β} {g : α → β} {items : List α}
    (h : ∀ item ∈ items, f item = lift (.ok (g item))) :
    items.mapM f = lift (.ok (items.map g)) := by
  induction items with
  | nil => rfl
  | cons item rest ih =>
      rw [List.mapM_cons, h item List.mem_cons_self, lift_ok_bind,
        ih fun other hother => h other (List.mem_cons_of_mem _ hother)]
      rfl

theorem slice_eq {items : List α} {low high : Nat} (hlow : low ≤ high)
    (hhigh : high ≤ items.length) :
    (slice items low high : Checked ε (List α)) = lift (.ok ((items.drop low).take (high - low))) :=
  if_pos ⟨hlow, hhigh⟩

theorem slice_to_end {items : List α} {low : Nat} (hlow : low ≤ items.length) :
    (slice items low items.length : Checked ε (List α)) = lift (.ok (items.drop low)) := by
  rw [slice_eq hlow (Nat.le_refl _), List.take_of_length_le (by simp)]

theorem index_eq {items : List α} {position : Nat} {item : α} (h : items[position]? = some item) :
    (index items position : Checked ε α) = lift (.ok item) := by
  simp only [index, h]

theorem add_eq {a b : Nat} (h : a + b < 2 ^ 64) : (add a b : Checked ε Nat) = lift (.ok (a + b)) :=
  if_pos h

theorem add_panics {a b : Nat} (h : 2 ^ 64 ≤ a + b) : (add a b : Checked ε Nat) = panicked :=
  if_neg (by omega)

theorem sub_eq {a b : Nat} (h : b ≤ a) : (sub a b : Checked ε Nat) = lift (.ok (a - b)) :=
  if_pos h

end Checked
