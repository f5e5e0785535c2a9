/-
Reading the height of a coinbase inverts writing it.

A coinbase script opens with a push of the block height.  Zero and the first sixteen
heights are an opcode of their own; every other height is a length byte and the height
as a signed number, its bytes least significant first and as few as will do, where the
top bit of the last is the sign and a number that would set it gets a zero byte more.
`heightPush` writes that, and `coinbaseHeight` reads it back whatever follows in the
script, for as long as the number fits eight bytes.

One value is not read back: the genesis coinbase pushes its target difficulty where the
height belongs, and that number is taken for the height 0.
-/
import Lightwalletd.Compact

namespace Lightwalletd

/-! ### Numbers in as few bytes as will do

The highest bit of a script number is its sign, so that a number which fills its last
byte needs another one.
-/

/-- The bytes of `n`, least significant first, up to its highest one that is not zero. -/
def minimalLeBytes (n : Nat) : Bytes := (Nat.digits 256 n).map UInt8.ofNat

theorem ofLeBytes_eq_ofDigits (bytes : Bytes) :
    ofLeBytes bytes = Nat.ofDigits 256 (bytes.map UInt8.toNat) := by
  induction bytes with
  | nil => rfl
  | cons b rest ih => rw [ofLeBytes, ih, List.map_cons, Nat.ofDigits_cons]

private theorem ofLeBytes_append (front back : Bytes) :
    ofLeBytes (front ++ back) = ofLeBytes front + 256 ^ front.length * ofLeBytes back := by
  rw [ofLeBytes_eq_ofDigits, List.map_append, Nat.ofDigits_append, List.length_map,
    ← ofLeBytes_eq_ofDigits, ← ofLeBytes_eq_ofDigits]

theorem ofLeBytes_minimalLeBytes (n : Nat) : ofLeBytes (minimalLeBytes n) = n := by
  have hdigits : (minimalLeBytes n).map UInt8.toNat = Nat.digits 256 n := by
    rw [minimalLeBytes, List.map_map]
    refine (List.map_congr_left fun digit hdigit => ?_).trans (List.map_id _)
    have hlt : digit < 256 := Nat.digits_lt_base (by decide) hdigit
    simp [UInt8.toNat_ofNat', Nat.mod_eq_of_lt hlt]
  rw [ofLeBytes_eq_ofDigits, hdigits, Nat.ofDigits_digits]

private theorem minimalLeBytes_length_le {n width : Nat} :
    (minimalLeBytes n).length ≤ width ↔ n < 256 ^ width := by
  rw [minimalLeBytes, List.length_map]
  exact Nat.digits_length_le_iff (by decide) n

/-- The bytes of `n` as a signed number: a zero byte more where the top bit is set. -/
def signedLeBytes (n : Nat) : Bytes :=
  if (minimalLeBytes n).getLast?.any (0x80 ≤ ·) then minimalLeBytes n ++ [0] else minimalLeBytes n

theorem ofLeBytes_signedLeBytes (n : Nat) : ofLeBytes (signedLeBytes n) = n := by
  unfold signedLeBytes
  split
  · rw [show [(0 : UInt8)] = List.replicate 1 0 from rfl, ofLeBytes_append_zeros,
      ofLeBytes_minimalLeBytes]
  · exact ofLeBytes_minimalLeBytes n

/-- Sixty-three bits and their sign fit eight bytes. -/
private theorem signedLeBytes_length_le {n : Nat} (h : n < 2 ^ 63) :
    (signedLeBytes n).length ≤ 8 := by
  have hminimal : (minimalLeBytes n).length ≤ 8 := minimalLeBytes_length_le.mpr (by omega)
  unfold signedLeBytes
  split
  · rename_i hsign
    obtain ⟨top, htop, hbit⟩ := (Option.any_eq_true _ _).mp hsign
    obtain ⟨front, hfront⟩ := List.getLast?_eq_some_iff.mp htop
    have hbit : 128 ≤ top.toNat := by simpa [UInt8.le_iff_toNat_le] using hbit
    -- With the top bit set, the last of eight bytes alone would be too much.
    have hvalue : ofLeBytes front + 256 ^ front.length * top.toNat = n := by
      have := ofLeBytes_minimalLeBytes n
      rw [hfront, ofLeBytes_append] at this
      simpa [ofLeBytes] using this
    have hshort : front.length ≤ 6 := by
      by_contra hlong
      have hpow : 256 ^ 7 ≤ 256 ^ front.length := Nat.pow_le_pow_right (by decide) (by omega)
      have hprod : 256 ^ 7 * 128 ≤ 256 ^ front.length * top.toNat := Nat.mul_le_mul hpow hbit
      omega
    rw [hfront, List.length_append, List.length_append, List.length_singleton,
      List.length_singleton]
    omega
  · exact hminimal

private theorem signedLeBytes_pos {n : Nat} (h : 0 < n) : 1 ≤ (signedLeBytes n).length := by
  by_contra hempty
  have hnil : signedLeBytes n = [] := List.eq_nil_of_length_eq_zero (by omega)
  have := ofLeBytes_signedLeBytes n
  rw [hnil] at this
  exact absurd this (Nat.ne_of_lt h)

/-! ### The push -/

/-- The canonical push of a height. -/
def heightPush (n : Nat) : Bytes :=
  if n = 0 then [0x00]
  else if n ≤ 16 then [UInt8.ofNat (0x50 + n)]
  else UInt8.ofNat (signedLeBytes n).length :: signedLeBytes n

/-- What a number that is pushed is read as. -/
def pushedHeight (n : Nat) : Nat := if n = genesisTargetDifficulty then 0 else n

variable {tx : Transaction} {input : TransparentInput} {suffix : Bytes}

private theorem coinbaseHeight_zero (hinput : tx.transparentBundle.bind (·.vin.head?) = some input)
    (hscript : input.scriptSig = 0x00 :: suffix) : coinbaseHeight tx = .ok 0 := by
  unfold coinbaseHeight
  rw [hinput]
  simp only [hscript, if_pos]
  rfl

private theorem coinbaseHeight_opcode
    (hinput : tx.transparentBundle.bind (·.vin.head?) = some input)
    {n : Nat} (hpos : 1 ≤ n) (hn : n ≤ 16)
    (hscript : input.scriptSig = UInt8.ofNat (0x50 + n) :: suffix) :
    coinbaseHeight tx = .ok n := by
  unfold coinbaseHeight
  rw [hinput]
  simp only [hscript]
  interval_cases n <;> rfl

theorem coinbaseHeight_pushed (hinput : tx.transparentBundle.bind (·.vin.head?) = some input)
    {bytes : Bytes} (hpos : 1 ≤ bytes.length) (hlen : bytes.length ≤ 8)
    (hscript : input.scriptSig = UInt8.ofNat bytes.length :: (bytes ++ suffix)) :
    coinbaseHeight tx = .ok (pushedHeight (ofLeBytes bytes)) := by
  have hfirst : (UInt8.ofNat bytes.length).toNat = bytes.length := by
    rw [UInt8.toNat_ofNat', Nat.mod_eq_of_lt (by omega)]
  have hzero : ¬ UInt8.ofNat bytes.length = 0x00 := by
    intro h
    rw [h] at hfirst
    exact absurd hfirst (by simp; omega)
  have hopcode : ¬ (0x51 ≤ UInt8.ofNat bytes.length ∧ UInt8.ofNat bytes.length ≤ 0x60) := by
    rintro ⟨hle, -⟩
    rw [UInt8.le_iff_toNat_le, hfirst] at hle
    simp at hle
    omega
  unfold coinbaseHeight
  rw [hinput]
  simp only [hscript, if_neg hzero, if_neg hopcode, hfirst]
  rw [if_neg (by simp; omega), List.take_left]
  rfl

/--
**Reading a coinbase height inverts the canonical push.**  Whatever follows the push in
the script, every height below two to the sixty-third is read as itself, except for the
genesis target difficulty, which is read as 0.
-/
theorem coinbaseHeight_heightPush {n : Nat} (suffix : Bytes) (hn : n < 2 ^ 63)
    (hinput : tx.transparentBundle.bind (·.vin.head?) = some input)
    (hscript : input.scriptSig = heightPush n ++ suffix) :
    coinbaseHeight tx = .ok (if n = 520617983 then 0 else n) := by
  unfold heightPush at hscript
  by_cases hzero : n = 0
  · rw [if_pos hzero] at hscript
    rw [coinbaseHeight_zero hinput hscript, hzero]
    rfl
  by_cases hsmall : n ≤ 16
  · rw [if_neg hzero, if_pos hsmall] at hscript
    rw [coinbaseHeight_opcode hinput (by omega) hsmall hscript, if_neg (by omega)]
  · rw [if_neg hzero, if_neg hsmall, List.cons_append] at hscript
    rw [coinbaseHeight_pushed hinput (signedLeBytes_pos (by omega)) (signedLeBytes_length_le hn)
      hscript, ofLeBytes_signedLeBytes]
    rfl

/-- A coinbase whose script is `script`. -/
def coinbaseOf (script : Bytes) : Transaction where
  txid := []
  transparentBundle := some ⟨[⟨List.replicate 32 0, 4294967295, script⟩], []⟩
  saplingBundle := none
  orchardBundle := none
  ironwoodBundle := none

/-- The last height in three bytes, the first in four, and the genesis block's push. -/
theorem coinbaseOf_heights :
    coinbaseHeight (coinbaseOf ([3, 0xff, 0xff, 0x7f] ++ [0x2f])) = .ok 8388607 ∧
    coinbaseHeight (coinbaseOf ([4, 0x00, 0x00, 0x80, 0x00] ++ [0x2f])) = .ok 8388608 ∧
    coinbaseHeight (coinbaseOf ([4, 0xff, 0xff, 0x07, 0x1f] ++ [0x2f])) = .ok 0 :=
  ⟨coinbaseHeight_heightPush (n := 8388607) [0x2f] (by decide) rfl (by decide),
    coinbaseHeight_heightPush (n := 8388608) [0x2f] (by decide) rfl (by decide),
    coinbaseHeight_heightPush (n := 520617983) [0x2f] (by decide) rfl (by decide)⟩

end Lightwalletd
