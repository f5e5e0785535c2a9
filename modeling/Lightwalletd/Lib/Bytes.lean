/-
Bytes, fixed-width integers and hexadecimal.

Everything a program writes to disk or to the wire goes through three encodings:
an unsigned integer as a fixed number of little- or big-endian bytes, a byte
string as hexadecimal text, and the saturating arithmetic of an unsigned machine
word.  Each one is defined by structural recursion, so that it evaluates, and
comes with the one law its users need: reading back what was written.
-/
import Mathlib

abbrev Bytes := List UInt8

/-! ### Unsigned 64-bit arithmetic -/

/-- The largest value of an unsigned 64-bit word. -/
def u64Max : Nat := 18446744073709551615

/-- Addition that stops at the largest word. -/
def satAdd (a b : Nat) : Nat := min (a + b) u64Max

/-- Multiplication that stops at the largest word. -/
def satMul (a b : Nat) : Nat := min (a * b) u64Max

theorem satAdd_of_le {a b : Nat} (h : a + b ≤ u64Max) : satAdd a b = a + b :=
  Nat.min_eq_left h

theorem satMul_of_le {a b : Nat} (h : a * b ≤ u64Max) : satMul a b = a * b :=
  Nat.min_eq_left h

theorem satAdd_le (a b : Nat) : satAdd a b ≤ u64Max := Nat.min_le_right _ _

theorem satMul_le (a b : Nat) : satMul a b ≤ u64Max := Nat.min_le_right _ _

/-! ### Fixed-width integers -/

/-- The `width` low bytes of `n`, least significant first. -/
def leBytes : Nat → Nat → Bytes
  | 0, _ => []
  | width + 1, n => UInt8.ofNat (n % 256) :: leBytes width (n / 256)

/-- The `width` low bytes of `n`, most significant first. -/
def beBytes (width n : Nat) : Bytes := (leBytes width n).reverse

/-- The integer some little-endian bytes spell. -/
def ofLeBytes : Bytes → Nat
  | [] => 0
  | b :: rest => b.toNat + 256 * ofLeBytes rest

@[simp] theorem leBytes_length (width n : Nat) : (leBytes width n).length = width := by
  induction width generalizing n with
  | zero => rfl
  | succ width ih => simp [leBytes, ih]

/-- Reading back a written integer gives it modulo the width. -/
theorem ofLeBytes_leBytes (width n : Nat) : ofLeBytes (leBytes width n) = n % 256 ^ width := by
  induction width generalizing n with
  | zero => simp [leBytes, ofLeBytes, Nat.mod_one]
  | succ width ih =>
      have hb : (UInt8.ofNat (n % 256)).toNat = n % 256 := by
        simp [UInt8.toNat_ofNat']
      rw [leBytes, ofLeBytes, ih, hb, Nat.pow_succ, Nat.mul_comm (256 ^ width) 256,
        Nat.mod_mul]

theorem ofLeBytes_leBytes_of_lt {width n : Nat} (h : n < 256 ^ width) :
    ofLeBytes (leBytes width n) = n := by
  rw [ofLeBytes_leBytes, Nat.mod_eq_of_lt h]

theorem ofLeBytes_lt (bytes : Bytes) : ofLeBytes bytes < 256 ^ bytes.length := by
  induction bytes with
  | nil => simp [ofLeBytes]
  | cons b rest ih =>
      have hb : b.toNat < 256 := b.toNat_lt
      rw [ofLeBytes, List.length_cons, Nat.pow_succ]
      omega

/-- Writing what some bytes spell gives the bytes back. -/
theorem leBytes_ofLeBytes (bytes : Bytes) : leBytes bytes.length (ofLeBytes bytes) = bytes := by
  induction bytes with
  | nil => rfl
  | cons b rest ih =>
      have hb : b.toNat < 256 := b.toNat_lt
      have hlow : (b.toNat + 256 * ofLeBytes rest) % 256 = b.toNat := by omega
      have hhigh : (b.toNat + 256 * ofLeBytes rest) / 256 = ofLeBytes rest := by omega
      rw [List.length_cons, ofLeBytes, leBytes, hlow, hhigh, ih, UInt8.ofNat_toNat]

theorem ofLeBytes_append_zeros (bytes : Bytes) (count : Nat) :
    ofLeBytes (bytes ++ List.replicate count 0) = ofLeBytes bytes := by
  induction bytes with
  | nil =>
      induction count with
      | zero => rfl
      | succ count ih =>
          rw [List.nil_append] at ih
          rw [List.nil_append, List.replicate_succ]
          show (0 : UInt8).toNat + 256 * ofLeBytes (List.replicate count 0) = 0
          rw [ih]
          rfl
  | cons b rest ih => rw [List.cons_append, ofLeBytes, ih, ofLeBytes]

/-! ### Hexadecimal

Encoding is in lower case, decoding takes either.  The decoder works on the bytes of the
text, two at a time.
-/

inductive FromHexError
  | oddLength
  | invalidHexCharacter (c : Char) (index : Nat)
  deriving Repr, DecidableEq

/-- The lower-case digit of a value below sixteen. -/
def hexDigit (n : Nat) : Char :=
  if n < 10 then Char.ofNat (48 + n) else Char.ofNat (87 + n)

/-- The value of a digit of either case. -/
def hexValue (c : Char) : Option Nat :=
  if '0' ≤ c ∧ c ≤ '9' then some (c.toNat - 48)
  else if 'a' ≤ c ∧ c ≤ 'f' then some (c.toNat - 87)
  else if 'A' ≤ c ∧ c ≤ 'F' then some (c.toNat - 55)
  else none

/-- The two digits of a byte, high half first. -/
def hexPair (b : UInt8) : List Char := [hexDigit (b.toNat / 16), hexDigit (b.toNat % 16)]

def hexEncode (bytes : Bytes) : String := String.ofList (bytes.flatMap hexPair)

/-- Pairs of digits, starting at position `index`. -/
def hexDecodeChars : Nat → List Char → Except FromHexError Bytes
  | _, [] => .ok []
  | _, [_] => .error .oddLength
  | index, high :: low :: rest =>
      match hexValue high, hexValue low with
      | none, _ => .error (.invalidHexCharacter high index)
      | some _, none => .error (.invalidHexCharacter low (index + 1))
      | some h, some l => (hexDecodeChars (index + 2) rest).map (UInt8.ofNat (16 * h + l) :: ·)

/-- The bytes of a text, each as the character of its number. -/
def byteChars (text : String) : List Char :=
  text.toByteArray.data.toList.map fun b => Char.ofNat b.toNat

/-- Decode hexadecimal text of either case, byte by byte.  An odd length is refused
before any digit is looked at. -/
def hexDecode (text : String) : Except FromHexError Bytes :=
  if (byteChars text).length % 2 = 1 then .error .oddLength
  else hexDecodeChars 0 (byteChars text)

theorem hexValue_hexDigit {n : Nat} (h : n < 16) : hexValue (hexDigit n) = some n := by
  interval_cases n <;> decide

private theorem hexDecodeChars_flatMap (bytes : Bytes) (index : Nat) :
    hexDecodeChars index (bytes.flatMap hexPair) = .ok bytes := by
  induction bytes generalizing index with
  | nil => rfl
  | cons b rest ih =>
      have hb : b.toNat < 256 := b.toNat_lt
      have hhigh := hexValue_hexDigit (show b.toNat / 16 < 16 by omega)
      have hlow := hexValue_hexDigit (show b.toNat % 16 < 16 by omega)
      show hexDecodeChars index (hexDigit (b.toNat / 16) :: hexDigit (b.toNat % 16) ::
        rest.flatMap hexPair) = .ok (b :: rest)
      rw [hexDecodeChars, hhigh, hlow]
      simp only [ih, Except.map, Nat.div_add_mod, UInt8.ofNat_toNat]

private theorem byteChars_cons {c : Char} (h : c.utf8Size = 1) (chars : List Char) :
    byteChars (String.ofList (c :: chars)) = c :: byteChars (String.ofList chars) := by
  have hle : c.toNat ≤ 127 := Char.utf8Size_eq_one_iff.mp h
  have hbyte : c.toUInt8.toNat = c.toNat := by
    show c.toNat % 256 = c.toNat
    omega
  unfold byteChars
  rw [String.toByteArray_ofList, String.toByteArray_ofList, List.utf8Encode_cons,
    List.utf8Encode_singleton, String.utf8EncodeChar_eq_singleton h]
  simp [hbyte, Char.ofNat_toNat]

private theorem byteChars_ofList {chars : List Char} (h : ∀ c ∈ chars, c.utf8Size = 1) :
    byteChars (String.ofList chars) = chars := by
  induction chars with
  | nil => rfl
  | cons c chars ih =>
      rw [byteChars_cons (h c List.mem_cons_self), ih fun d hd => h d (List.mem_cons_of_mem _ hd)]

theorem utf8Size_hexDigit {n : Nat} (h : n < 16) : (hexDigit n).utf8Size = 1 := by
  interval_cases n <;> decide

theorem length_hexPairs (bytes : Bytes) : (bytes.flatMap hexPair).length = 2 * bytes.length := by
  induction bytes with
  | nil => rfl
  | cons b rest ih =>
      rw [List.flatMap_cons, List.length_append, ih, List.length_cons,
        show (hexPair b).length = 2 from rfl]
      omega

theorem utf8Size_hexPair (bytes : Bytes) : ∀ c ∈ bytes.flatMap hexPair, c.utf8Size = 1 := by
  intro c hc
  obtain ⟨b, -, hin⟩ := List.mem_flatMap.mp hc
  have hb : b.toNat < 256 := b.toNat_lt
  rcases List.mem_pair.mp hin with rfl | rfl
  · exact utf8Size_hexDigit (by omega)
  · exact utf8Size_hexDigit (by omega)

theorem hexDecode_hexEncode (bytes : Bytes) : hexDecode (hexEncode bytes) = .ok bytes := by
  have heven : (bytes.flatMap hexPair).length % 2 = 0 := by
    rw [length_hexPairs]
    omega
  simp only [hexDecode, hexEncode, byteChars_ofList (utf8Size_hexPair bytes), heven,
    hexDecodeChars_flatMap]
  rfl

/-! ### UTF-8

What is wrong with bytes that are no text: where their first character that is none
starts, and how many of the bytes there can start no character at all.  The second byte
of a character is the only one that its first narrows down. -/

structure Utf8Error where
  validUpTo : Nat
  errorLen : Option Nat
  deriving Repr, DecidableEq

def Utf8Error.display (error : Utf8Error) : String :=
  match error.errorLen with
  | some length => s!"invalid utf-8 sequence of {length} bytes from index {error.validUpTo}"
  | none => s!"incomplete utf-8 byte sequence from index {error.validUpTo}"

/-- How many bytes a character has, by its first; zero if none starts so. -/
def utf8Width (first : UInt8) : Nat :=
  if first < 0x80 then 1
  else if first < 0xc2 then 0
  else if first < 0xe0 then 2
  else if first < 0xf0 then 3
  else if first < 0xf5 then 4
  else 0

/-- A byte that goes on with a character. -/
def isContinuation (b : UInt8) : Bool := 0x80 ≤ b && b < 0xc0

/-- A second byte that goes with `first`. -/
def isSecond (first second : UInt8) : Bool :=
  isContinuation second &&
    (first != 0xe0 || 0xa0 ≤ second) && (first != 0xed || second < 0xa0) &&
    (first != 0xf0 || 0x90 ≤ second) && (first != 0xf4 || second < 0x90)

/-- The first of some bytes that are no character; at their end if there is none. -/
def utf8Error (index : Nat) : Bytes → Utf8Error
  | [] => ⟨index, none⟩
  | first :: rest =>
      let width := utf8Width first
      if width = 0 then ⟨index, some 1⟩
      else if width = 1 then utf8Error (index + 1) rest
      else
        match rest with
        | [] => ⟨index, none⟩
        | second :: rest =>
            if !isSecond first second then ⟨index, some 1⟩
            else if width = 2 then utf8Error (index + 2) rest
            else
              match rest with
              | [] => ⟨index, none⟩
              | third :: rest =>
                  if !isContinuation third then ⟨index, some 2⟩
                  else if width = 3 then utf8Error (index + 3) rest
                  else
                    match rest with
                    | [] => ⟨index, none⟩
                    | fourth :: rest =>
                        if !isContinuation fourth then ⟨index, some 3⟩
                        else utf8Error (index + 4) rest
