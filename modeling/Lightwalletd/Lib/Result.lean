/-
Fallible computations.

Code that returns early on every failed step becomes a chain of binds in
`Except`.  Running one symbolically never needs its text: a chain that succeeds
succeeded at every step (`bind_eq_ok`), and `ensure` is the step that only checks
a condition.
-/
import Mathlib

namespace Except

variable {ε ε' α β : Type}

/-- Go on if the condition holds, fail otherwise. -/
def ensure (condition : Prop) [Decidable condition] (e : ε) : Except ε Unit :=
  if condition then .ok () else .error e

/-- A chain succeeds when its first step and the rest do. -/
theorem bind_eq_ok {x : Except ε α} {f : α → Except ε β} {b : β} :
    (x >>= f) = .ok b ↔ ∃ a, x = .ok a ∧ f a = .ok b := by
  cases x with
  | error e => simp [bind, Except.bind]
  | ok a => simp [bind, Except.bind]

theorem ok_bind {a : α} {f : α → Except ε β} : ((.ok a : Except ε α) >>= f) = f a := rfl

theorem error_bind {e : ε} {f : α → Except ε β} :
    ((.error e : Except ε α) >>= f) = .error e := rfl

theorem pure_eq_ok {a b : α} : (pure a : Except ε α) = .ok b ↔ a = b := by
  simp [pure, Except.pure]

theorem mapError_eq_ok {x : Except ε α} {f : ε → ε'} {a : α} :
    x.mapError f = .ok a ↔ x = .ok a := by
  cases x <;> simp [Except.mapError]

theorem map_eq_ok {x : Except ε α} {f : α → β} {b : β} :
    x.map f = .ok b ↔ ∃ a, x = .ok a ∧ f a = b := by
  cases x <;> simp [Except.map]

theorem ensure_eq_ok {condition : Prop} [Decidable condition] {e : ε} {u : Unit} :
    ensure condition e = .ok u ↔ condition := by
  unfold ensure
  split
  · rename_i h; simp [h]
  · rename_i h; simp [h]

theorem ensure_pos {condition : Prop} [Decidable condition] {e : ε} (h : condition) :
    ensure condition e = .ok () := if_pos h

theorem ensure_neg {condition : Prop} [Decidable condition] {e : ε} (h : ¬condition) :
    ensure condition e = .error e := if_neg h

/-- A traversal succeeds when every step does. -/
theorem mapM_forall₂ {f : α → Except ε β} {P : α → β → Prop} {l : List α}
    (h : ∀ a ∈ l, ∃ b, f a = .ok b ∧ P a b) : ∃ l', l.mapM f = .ok l' ∧ List.Forall₂ P l l' := by
  induction l with
  | nil => exact ⟨[], rfl, List.Forall₂.nil⟩
  | cons a l ih =>
      obtain ⟨b, hb, hab⟩ := h a List.mem_cons_self
      obtain ⟨l', hl, hall⟩ := ih fun x hx => h x (List.mem_cons_of_mem _ hx)
      refine ⟨b :: l', ?_, List.Forall₂.cons hab hall⟩
      rw [List.mapM_cons, hb, ok_bind, hl]
      rfl

theorem mapM_eq_ok {f : α → Except ε β} {l : List α} {l' : List β} :
    l.mapM f = .ok l' ↔ List.Forall₂ (fun a b => f a = .ok b) l l' := by
  induction l generalizing l' with
  | nil =>
      rw [List.mapM_nil, pure_eq_ok, List.forall₂_nil_left_iff]
      exact eq_comm
  | cons a l ih =>
      simp only [List.mapM_cons, bind_eq_ok, pure_eq_ok, List.forall₂_cons_left_iff, ih]
      constructor
      · rintro ⟨b, hb, rest, hrest, rfl⟩
        exact ⟨b, rest, hb, hrest, rfl⟩
      · rintro ⟨b, rest, hb, hrest, rfl⟩
        exact ⟨b, hb, rest, hrest, rfl⟩

theorem forM_eq_ok {f : α → Except ε Unit} {l : List α} {u : Unit} :
    l.forM f = .ok u ↔ ∀ a ∈ l, f a = .ok () := by
  induction l with
  | nil => exact iff_of_true rfl (fun _ ha => absurd ha List.not_mem_nil)
  | cons a l ih =>
      rw [List.forall_mem_cons, ← ih]
      show (f a >>= fun _ => l.forM f) = .ok () ↔ _
      rw [bind_eq_ok]
      exact ⟨fun ⟨_, ha, hl⟩ => ⟨ha, hl⟩, fun ⟨ha, hl⟩ => ⟨(), ha, hl⟩⟩

/-! ### Outcomes without their errors -/

theorem toOption_eq_some {x : Except ε α} {a : α} : x.toOption = some a ↔ x = .ok a := by
  cases x with
  | error e => exact ⟨nofun, nofun⟩
  | ok b => simp [Except.toOption]

theorem toOption_congr {x : Except ε α} {y : Except ε' α} (h : ∀ a, x = .ok a ↔ y = .ok a) :
    x.toOption = y.toOption := by
  ext a
  rw [toOption_eq_some, toOption_eq_some, h a]

theorem toOption_congr_iff {x : Except ε α} {y : Except ε' α} (h : x.toOption = y.toOption)
    (a : α) : x = .ok a ↔ y = .ok a := by
  rw [← toOption_eq_some, h, toOption_eq_some]

theorem toOption_bind {x : Except ε α} {f : α → Except ε β} :
    (x >>= f).toOption = x.toOption.bind fun a => (f a).toOption := by
  cases x <;> rfl

theorem toOption_foldlM {f : β → α → Except ε β} {l : List α} (b : β) :
    (l.foldlM f b).toOption = l.foldlM (fun b a => (f b a).toOption) b := by
  induction l generalizing b with
  | nil => rfl
  | cons a l ih =>
      rw [List.foldlM_cons, List.foldlM_cons, toOption_bind]
      simp only [ih]
      rfl

end Except

theorem Option.mapM_eq_some {α β : Type} {f : α → Option β} {l : List α} {l' : List β} :
    l.mapM f = some l' ↔ List.Forall₂ (fun a b => f a = some b) l l' := by
  induction l generalizing l' with
  | nil =>
      rw [List.mapM_nil, List.forall₂_nil_left_iff]
      exact ⟨fun h => (Option.some.inj h).symm, fun h => congrArg some h.symm⟩
  | cons a l ih =>
      simp only [List.mapM_cons, Option.bind_eq_bind, Option.bind_eq_some_iff,
        List.forall₂_cons_left_iff, ih]
      constructor
      · rintro ⟨b, hb, rest, hrest, heq⟩
        exact ⟨b, rest, hb, hrest, (Option.some.inj heq).symm⟩
      · rintro ⟨b, rest, hb, hrest, rfl⟩
        exact ⟨b, hb, rest, hrest, rfl⟩

/-- A relation over a list and over its image compose. -/
theorem List.forall₂_trans_iff {α β γ : Type} {R : α → β → Prop} {S : β → γ → Prop} {l : List α}
    {n : List γ} : (∃ m, List.Forall₂ R l m ∧ List.Forall₂ S m n) ↔
      List.Forall₂ (fun a c => ∃ b, R a b ∧ S b c) l n := by
  constructor
  · rintro ⟨m, hl, hm⟩
    induction hl generalizing n with
    | nil =>
        cases hm
        exact .nil
    | cons hab _ ih =>
        cases hm with
        | cons hbc hrest => exact .cons ⟨_, hab, hbc⟩ (ih hrest)
  · intro h
    induction h with
    | nil => exact ⟨[], .nil, .nil⟩
    | cons hac _ ih =>
        obtain ⟨b, hab, hbc⟩ := hac
        obtain ⟨m, hl, hm⟩ := ih
        exact ⟨b :: m, .cons hab hl, .cons hbc hm⟩

/-- Relations that agree on a list's members relate it to the same lists. -/
theorem List.forall₂_congr_of_mem {α β : Type} {R S : α → β → Prop} {l : List α} {m : List β}
    (h : ∀ a ∈ l, ∀ b, R a b ↔ S a b) : List.Forall₂ R l m ↔ List.Forall₂ S l m := by
  induction l generalizing m with
  | nil => rw [List.forall₂_nil_left_iff, List.forall₂_nil_left_iff]
  | cons a l ih =>
      simp only [List.forall₂_cons_left_iff, h a List.mem_cons_self,
        ih fun x hx => h x (List.mem_cons_of_mem _ hx)]

theorem List.Forall₂.exists_of_mem {α β : Type} {R : α → β → Prop} {l : List α} {m : List β}
    (h : List.Forall₂ R l m) {a : α} (ha : a ∈ l) : ∃ b ∈ m, R a b := by
  induction h with
  | nil => cases ha
  | cons hab _ ih =>
      rcases List.mem_cons.mp ha with rfl | ha
      · exact ⟨_, List.mem_cons_self, hab⟩
      · obtain ⟨b, hb, hab⟩ := ih ha
        exact ⟨b, List.mem_cons_of_mem _ hb, hab⟩
