/-
Readers of a byte string.

A reader returns what it read and the bytes it left.  `Consumes` says that it read a
prefix and that nothing else decided the result, so the same prefix reads the same
in front of any other bytes.  Reading one thing after another keeps that.
-/
import Lightwalletd.Lib.Bytes
import Lightwalletd.Lib.Result

variable {ε α β : Type}

/-- The reader takes a prefix off its input and depends on nothing after it. -/
def Consumes (read : Bytes → Except ε (α × Bytes)) : Prop :=
  ∀ bytes a rest, read bytes = .ok (a, rest) →
    ∃ taken, bytes = taken ++ rest ∧ ∀ other, read (taken ++ other) = .ok (a, other)

namespace Consumes

theorem pure (a : α) : Consumes (fun bytes => (.ok (a, bytes) : Except ε (α × Bytes))) := by
  intro bytes b rest h
  cases h
  exact ⟨[], rfl, fun _ => rfl⟩

theorem error (e : ε) : Consumes (fun _ => (.error e : Except ε (α × Bytes))) := by
  intro bytes b rest h
  cases h

theorem bind {read : Bytes → Except ε (α × Bytes)} {next : α → Bytes → Except ε (β × Bytes)}
    (hread : Consumes read) (hnext : ∀ a, Consumes (next a)) :
    Consumes (fun bytes => read bytes >>= fun read => next read.1 read.2) := by
  intro bytes b rest h
  obtain ⟨⟨a, middle⟩, hfirst, hsecond⟩ := Except.bind_eq_ok.mp h
  obtain ⟨front, hfront, hfront'⟩ := hread bytes a middle hfirst
  obtain ⟨back, hback, hback'⟩ := hnext a middle b rest hsecond
  refine ⟨front ++ back, by rw [hfront, hback, List.append_assoc], ?_⟩
  intro other
  rw [List.append_assoc]
  exact Except.bind_eq_ok.mpr ⟨(a, back ++ other), hfront' _, hback' other⟩

theorem ensure (condition : Prop) [Decidable condition] (e : ε)
    {read : Bytes → Except ε (α × Bytes)} (hread : Consumes read) :
    Consumes (fun bytes => Except.ensure condition e >>= fun _ => read bytes) := by
  intro bytes a rest h
  obtain ⟨u, hcheck, hrest⟩ := Except.bind_eq_ok.mp h
  obtain ⟨taken, htaken, htaken'⟩ := hread bytes a rest hrest
  exact ⟨taken, htaken, fun other => Except.bind_eq_ok.mpr ⟨u, hcheck, htaken' other⟩⟩

/-- What was taken is what the input has over what is left. -/
theorem take_eq {read : Bytes → Except ε (α × Bytes)} (hread : Consumes read)
    {bytes rest : Bytes} {a : α} (h : read bytes = .ok (a, rest)) :
    bytes = bytes.take (bytes.length - rest.length) ++ rest ∧
      ∀ other, read (bytes.take (bytes.length - rest.length) ++ other) = .ok (a, other) := by
  obtain ⟨taken, rfl, htaken⟩ := hread bytes a rest h
  have hlength : (taken ++ rest).length - rest.length = taken.length := by simp
  rw [hlength, List.take_left]
  exact ⟨rfl, htaken⟩

end Consumes
