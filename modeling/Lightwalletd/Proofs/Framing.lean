/-
Batching changes nothing but when messages leave.

A message is held back until what is held adds up to a frame, so what a client has
received lags behind the source, by no more than the batch.  Nothing else may come
of it: the output is the source through its first error, whatever the lengths are
and wherever the error stands.

The batch keeps its size beside its messages, and a release has to reset the two
together.  `Held` says that they agree and that they are short of a frame; a push
keeps it (`push_cases`), so that what a push releases was short of a frame just
before its last message.
-/
import Lightwalletd.Service.Framing

namespace Lightwalletd

variable {α : Type}

def encodedBytes (encodedLen : α → Nat) (messages : List α) : Nat :=
  (messages.map encodedLen).sum

private theorem encodedBytes_concat (encodedLen : α → Nat) (messages : List α) (message : α) :
    encodedBytes encodedLen (messages ++ [message])
      = encodedBytes encodedLen messages + encodedLen message := by
  simp [encodedBytes]

/-- A batch worth a frame, and not before its last message. -/
def FullFrame (encodedLen : α → Nat) (batch : List α) : Prop :=
  batchBytes ≤ encodedBytes encodedLen batch ∧ encodedBytes encodedLen batch.dropLast < batchBytes

/-! ### One push -/

namespace FrameBatch

/-- The counter is the size of what is pending, which is short of a frame. -/
structure Held (encodedLen : α → Nat) (batch : FrameBatch α) : Prop where
  counted : batch.bytes = encodedBytes encodedLen batch.pending
  short : batch.bytes < batchBytes

theorem Held.new (encodedLen : α → Nat) : Held encodedLen (FrameBatch.new : FrameBatch α) where
  counted := rfl
  short := by simp [FrameBatch.new, batchBytes]

/-- A push either releases everything held with the message and starts over, or goes
on holding it. -/
theorem push_cases {encodedLen : α → Nat} {batch : FrameBatch α}
    (h : batch.Held encodedLen) (message : α) :
    (batch.push encodedLen message = (some (batch.pending ++ [message]), new) ∧
      FullFrame encodedLen (batch.pending ++ [message])) ∨
    ∃ next : FrameBatch α, batch.push encodedLen message = (none, next) ∧
      next.pending = batch.pending ++ [message] ∧ next.Held encodedLen := by
  have hsize : encodedBytes encodedLen (batch.pending ++ [message])
      = batch.bytes + encodedLen message := by
    rw [encodedBytes_concat, h.counted]
  by_cases hfull : batch.bytes + encodedLen message ≥ batchBytes
  · refine Or.inl ⟨by simp only [push, if_pos hfull], ?_, ?_⟩
    · rw [hsize]
      exact hfull
    · rw [List.dropLast_concat, ← h.counted]
      exact h.short
  · refine Or.inr ⟨⟨batch.pending ++ [message], batch.bytes + encodedLen message⟩, ?_, rfl, ?_⟩
    · simp only [push, if_neg hfull]
    · exact ⟨hsize.symm, Nat.lt_of_not_le hfull⟩

end FrameBatch

/-! ### The loop

Between two pushes less than a frame is held, so that a batch is released as soon as it
reaches the bound.
-/

/-- The source through its first error, or to its end. -/
def throughError (source : List (Except Status α)) : List (Except Status α) :=
  source.takeWhile Except.isOk ++ (source.dropWhile Except.isOk).take 1

@[simp] theorem throughError_ok (message : α) (rest : List (Except Status α)) :
    throughError (.ok message :: rest) = .ok message :: throughError rest := rfl

@[simp] theorem throughError_error (status : Status) (rest : List (Except Status α)) :
    throughError ((.error status : Except Status α) :: rest) = [.error status] := rfl

theorem coalesceFrom_items (encodedLen : α → Nat) :
    ∀ (source : List (Except Status α)) (batch : FrameBatch α), batch.Held encodedLen →
      (coalesceFrom encodedLen batch source).items
        = batch.pending.map .ok ++ throughError source := by
  intro source
  induction source with
  | nil =>
      intro batch _
      simp [coalesceFrom, Coalesced.items, throughError]
  | cons head rest ih =>
      intro batch h
      rcases head with status | message
      · simp [coalesceFrom, Coalesced.items]
      · rw [coalesceFrom, throughError_ok]
        rcases FrameBatch.push_cases h message with ⟨hpush, -⟩ | ⟨next, hpush, hnext, hheld⟩
        · have hrest := ih FrameBatch.new (FrameBatch.Held.new encodedLen)
          simp only [hpush, Coalesced.items, List.flatten_cons, List.append_assoc,
            List.map_append] at hrest ⊢
          rw [hrest]
          simp [FrameBatch.new]
        · simp only [hpush]
          rw [ih next hheld, hnext]
          simp

/-- Every batch it releases on the way is a frame, and no message of it too many. -/
theorem coalesceFrom_released (encodedLen : α → Nat) :
    ∀ (source : List (Except Status α)) (batch : FrameBatch α), batch.Held encodedLen →
      ∀ frame ∈ (coalesceFrom encodedLen batch source).released, FullFrame encodedLen frame := by
  intro source
  induction source with
  | nil => intro batch _ frame hframe; simp [coalesceFrom] at hframe
  | cons head rest ih =>
      intro batch h frame hframe
      rcases head with status | message
      · simp [coalesceFrom] at hframe
      · rw [coalesceFrom] at hframe
        rcases FrameBatch.push_cases h message with ⟨hpush, hfull⟩ | ⟨next, hpush, -, hheld⟩
        · simp only [hpush, List.mem_cons] at hframe
          rcases hframe with rfl | hframe
          · exact hfull
          · exact ih _ (FrameBatch.Held.new encodedLen) frame hframe
        · simp only [hpush] at hframe
          exact ih next hheld frame hframe

/-- What is flushed at the end, or ahead of the error, is short of a frame. -/
theorem coalesceFrom_flushed (encodedLen : α → Nat) :
    ∀ (source : List (Except Status α)) (batch : FrameBatch α), batch.Held encodedLen →
      encodedBytes encodedLen (coalesceFrom encodedLen batch source).flushed < batchBytes := by
  intro source
  induction source with
  | nil =>
      intro batch h
      rw [coalesceFrom, ← h.counted]
      exact h.short
  | cons head rest ih =>
      intro batch h
      rcases head with status | message
      · rw [coalesceFrom, ← h.counted]
        exact h.short
      · rw [coalesceFrom]
        rcases FrameBatch.push_cases h message with ⟨hpush, -⟩ | ⟨next, hpush, -, hheld⟩
        · simp only [hpush]
          exact ih _ (FrameBatch.Held.new encodedLen)
        · simp only [hpush]
          exact ih next hheld

/-! ### The stream -/

theorem coalesce_eq_throughError (encodedLen : α → Nat) (source : List (Except Status α)) :
    coalesce encodedLen source = throughError source := by
  rw [coalesce, coalesceFrom_items encodedLen source _ (FrameBatch.Held.new encodedLen)]
  rfl

/-- A source that fails at most at its end comes through whole. -/
theorem coalesce_eq (encodedLen : α → Nat) (messages : List α) (error : Option Status) :
    coalesce encodedLen (messages.map .ok ++ (error.map Except.error).toList)
      = messages.map .ok ++ (error.map .error).toList := by
  rw [coalesce_eq_throughError]
  induction messages with
  | nil => rcases error with _ | status <;> rfl
  | cons message messages ih =>
      rw [List.map_cons, List.cons_append, throughError_ok, ih]

/-- Coalescing hands over the source up to and including its first error, message by
message, and every batch that goes out before the last flush has just become worth a
frame. -/
theorem coalesce_preserves (encodedLen : α → Nat) (source : List (Except Status α)) :
    coalesce encodedLen source
      = source.takeWhile Except.isOk ++ (source.dropWhile Except.isOk).take 1 ∧
    ∀ frame ∈ (coalesceFrom encodedLen FrameBatch.new source).released,
      batchBytes ≤ (frame.map encodedLen).sum ∧
      (frame.dropLast.map encodedLen).sum < batchBytes :=
  ⟨coalesce_eq_throughError encodedLen source,
    coalesceFrom_released encodedLen source _ (FrameBatch.Held.new encodedLen)⟩

end Lightwalletd
