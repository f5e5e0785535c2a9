/-
Metadata keys name what they describe.

The rows of the metadata table are told apart by their string keys alone: a
truncation parses each key to decide whether it is an epoch digest, and of which
epoch.  So a key written for an epoch has to parse back to that epoch, which is
what the padding to a fixed width guarantees, and no such key may be mistaken for
the base height's.  The padding also orders the keys like the epochs.

The last part is epoch arithmetic: dropping every digest from the epoch of a
cut upwards is dropping exactly the epochs that reach the cut, also where the
bounds of an epoch saturate.
-/
import Lightwalletd.Cache

namespace Lightwalletd

/-! ### Keys parse back -/

private theorem digitValue_digit {d : Nat} (h : d < 10) :
    digitValue (Char.ofNat (48 + d)) = some d := by
  interval_cases d <;> decide

theorem parseDigits_append (acc d : Nat) (front : Key) (hd : d < 10) :
    parseDigits acc (front ++ [Char.ofNat (48 + d)])
      = (parseDigits acc front).bind fun value =>
          if value * 10 + d ≤ u64Max then some (value * 10 + d) else none := by
  induction front generalizing acc with
  | nil => simp [parseDigits, digitValue_digit hd]
  | cons c rest ih =>
      rw [List.cons_append, parseDigits, parseDigits]
      cases hc : digitValue c with
      | none => rfl
      | some v =>
          simp only
          split
          · exact ih _
          · rfl

private theorem parseDigits_padded (width n : Nat) (hn : n < 10 ^ width) (hmax : n ≤ u64Max) :
    parseDigits 0 (paddedDigits width n) = some n := by
  induction width generalizing n with
  | zero =>
      have hzero : n = 0 := by simpa using hn
      rw [hzero, paddedDigits, parseDigits]
  | succ width ih =>
      rw [paddedDigits, parseDigits_append _ _ _ (Nat.mod_lt _ (by omega)),
        ih (n / 10) (by rw [Nat.pow_succ] at hn; omega) (by omega)]
      have hdiv : n / 10 * 10 + n % 10 = n := by omega
      simp [hdiv, hmax]

private theorem paddedDigits_head (width n : Nat) :
    ∃ d rest, d < 10 ∧ paddedDigits (width + 1) n = Char.ofNat (48 + d) :: rest := by
  induction width generalizing n with
  | zero => exact ⟨n % 10, [], Nat.mod_lt _ (by omega), rfl⟩
  | succ width ih =>
      obtain ⟨d, rest, hd, hrest⟩ := ih (n / 10)
      exact ⟨d, rest ++ [Char.ofNat (48 + n % 10)], hd, by rw [paddedDigits, hrest]; rfl⟩

theorem parseU64_padded {n : Nat} (h : n ≤ u64Max) : parseU64 (paddedDigits 20 n) = some n := by
  have hlt : n < 10 ^ 20 := by
    simp only [u64Max] at h
    omega
  obtain ⟨d, rest, hd, hrest⟩ := paddedDigits_head 19 n
  have hplus : Char.ofNat (48 + d) ≠ '+' := by
    interval_cases d <;> decide
  rw [← parseDigits_padded 20 n hlt h, hrest]
  unfold parseU64
  split
  · rename_i heq
    exact absurd heq (by simp)
  · rename_i heq
    exact absurd (List.cons.inj heq).1 hplus
  · rfl

/-- **A digest key parses back to its epoch.** -/
theorem epochDigestIndex_key {index : Nat} (h : index ≤ u64Max) :
    epochDigestIndex (epochDigestKey index) = some index := by
  have hpre : epochDigestPrefix.isPrefixOf (epochDigestKey index) = true :=
    List.isPrefixOf_iff_prefix.mpr (List.prefix_append _ _)
  rw [epochDigestIndex, if_pos hpre, epochDigestKey, List.drop_left]
  exact parseU64_padded h

theorem epochDigestKey_injective {i j : Nat} (hi : i ≤ u64Max) (hj : j ≤ u64Max)
    (h : epochDigestKey i = epochDigestKey j) : i = j := by
  have := epochDigestIndex_key hi
  rw [h, epochDigestIndex_key hj] at this
  exact (Option.some.inj this).symm

theorem epochDigestKey_ne_base (index : Nat) : epochDigestKey index ≠ snapshotBaseHeightKey := by
  intro h
  have hpre : epochDigestPrefix.isPrefixOf (epochDigestKey index) = true :=
    List.isPrefixOf_iff_prefix.mpr (List.prefix_append _ _)
  rw [h] at hpre
  exact absurd hpre (by decide)

/-! ### Keys are ordered like their epochs

The numbers in the keys are padded, and so the order of the texts is that of the
numbers.
-/

theorem paddedDigits_length (width n : Nat) : (paddedDigits width n).length = width := by
  induction width generalizing n with
  | zero => rfl
  | succ width ih => rw [paddedDigits, List.length_append, ih, List.length_singleton]

/-- Between keys of one length, what follows a difference does not matter. -/
private theorem append_lt_append {a b : Key} (x y : Key) (hlen : a.length = b.length) (h : a < b) :
    a ++ x < b ++ y := by
  induction a generalizing b with
  | nil =>
      rw [List.eq_nil_of_length_eq_zero hlen.symm] at h
      exact absurd h (List.lt_irrefl [])
  | cons c a ih =>
      rcases b with _ | ⟨d, b⟩
      · cases hlen
      · rw [List.cons_append, List.cons_append, List.cons_lt_cons_iff]
        rcases List.cons_lt_cons_iff.mp h with hlt | ⟨rfl, hrest⟩
        · exact Or.inl hlt
        · exact Or.inr ⟨rfl, ih (Nat.succ.inj hlen) hrest⟩

private theorem digit_lt {c d : Nat} (hd : d < 10) (h : c < d) :
    Char.ofNat (48 + c) < Char.ofNat (48 + d) := by
  interval_cases d <;> interval_cases c <;> decide

private theorem paddedDigits_lt {width i j : Nat} (hj : j < 10 ^ width) (h : i < j) :
    paddedDigits width i < paddedDigits width j := by
  induction width generalizing i j with
  | zero => omega
  | succ width ih =>
      rw [paddedDigits, paddedDigits]
      by_cases hfront : i / 10 < j / 10
      · refine append_lt_append _ _ ?_ (ih (by rw [Nat.pow_succ] at hj; omega) hfront)
        rw [paddedDigits_length, paddedDigits_length]
      · rw [show i / 10 = j / 10 by omega]
        refine List.append_left_lt (List.cons_lt_cons_iff.mpr (Or.inl ?_))
        exact digit_lt (Nat.mod_lt _ (by omega)) (by omega)

/-- **The key of an earlier epoch is the lower one.** -/
theorem epochDigestKey_lt {i j : Nat} (hj : j ≤ u64Max) (h : i < j) :
    epochDigestKey i < epochDigestKey j := by
  refine List.append_left_lt (paddedDigits_lt ?_ h)
  simp only [u64Max] at hj
  omega

/-! ### Epoch bounds -/

theorem epochFirstHeight_of_le {index : Nat} (h : index * epochSize ≤ u64Max) :
    epochFirstHeight index = index * epochSize := satMul_of_le h

theorem epochFirstHeight_le_last (index : Nat) :
    epochFirstHeight index ≤ epochLastHeight index := by
  unfold epochLastHeight satAdd
  have := satMul_le index epochSize
  unfold epochFirstHeight
  omega

/-- An epoch whose bounds do not saturate. -/
theorem epochLastHeight_of_le {index : Nat} (h : index * epochSize + (epochSize - 1) ≤ u64Max) :
    epochLastHeight index = index * epochSize + (epochSize - 1) := by
  rw [epochLastHeight, epochFirstHeight_of_le (by omega), satAdd_of_le h]

/-- An epoch lies below a cut exactly when its index is below the cut's. -/
theorem epochLastHeight_lt_iff {index cut : Nat} (hcut : cut ≤ u64Max) :
    epochLastHeight index < cut ↔ index < epochIndex cut := by
  have hsize : epochSize = 10000 := rfl
  by_cases h : index * epochSize + (epochSize - 1) ≤ u64Max
  · rw [epochLastHeight_of_le h, epochIndex, hsize]
    omega
  · have hmax : epochLastHeight index = u64Max := by
      unfold epochLastHeight epochFirstHeight satAdd satMul
      omega
    rw [hmax, epochIndex]
    rw [hsize] at h ⊢
    omega

theorem epochIndex_bounds {height : Nat} (h : height ≤ u64Max) :
    epochFirstHeight (epochIndex height) ≤ height ∧
      height ≤ epochLastHeight (epochIndex height) := by
  have hsize : epochSize = 10000 := rfl
  have hfirst : epochIndex height * epochSize ≤ height := Nat.div_mul_le_self _ _
  refine ⟨?_, ?_⟩
  · rw [epochFirstHeight_of_le (by omega)]
    exact hfirst
  · by_contra hlt
    have := (epochLastHeight_lt_iff h).mp (Nat.lt_of_not_le hlt)
    omega

end Lightwalletd
