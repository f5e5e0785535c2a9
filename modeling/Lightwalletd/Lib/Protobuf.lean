/-
The protobuf wire format.

A message on the wire is a sequence of fields, each a key, that is a number and a
wire type, and a value: a varint, or bytes with their length in front.  A reader
goes through the fields from front to back.  The ones it declares it merges into the
message it has so far, which starts with every field at its default; over all others
it steps, by their wire type and length alone.  So a message round-trips as soon as
merging its own fields into the default one rebuilds it.

Numbers are naturals here, and a varint may be as long as its number needs.  A number
of 64 bits is read from the same bytes as anywhere else; the longer ones stand for
what no machine word holds, and other readers refuse them.
-/
import Lightwalletd.Lib.Result

namespace Protobuf

/-! ### Varints

Seven bits to a byte, the lowest first, and the high bit says that there is more.
-/

/-- Seven bits a byte, the lowest first, and the high bit set on all but the last. -/
def varintLoop : Nat → Nat → List UInt8
  | 0, n => [UInt8.ofNat n]
  | rounds + 1, n =>
      if n < 128 then [UInt8.ofNat n]
      else UInt8.ofNat (n % 128 + 128) :: varintLoop rounds (n / 128)

def varint (n : Nat) : List UInt8 := varintLoop n n

/-- The number at the front, after `index` of its bytes, and what follows it.  Ten bytes
hold a word, and no number ends in zeros behind them. -/
def readVarintFrom : Nat → List UInt8 → Except String (Nat × List UInt8)
  | _, [] => .error "invalid varint"
  | index, byte :: rest =>
      if byte.toNat < 128 then
        if 10 ≤ index ∧ byte.toNat = 0 then .error "invalid varint" else .ok (byte.toNat, rest)
      else
        match readVarintFrom (index + 1) rest with
        | .ok (n, rest) => .ok (byte.toNat - 128 + 128 * n, rest)
        | .error error => .error error

/-- The number at the front, and what follows it. -/
def readVarint : List UInt8 → Except String (Nat × List UInt8) := readVarintFrom 0

private theorem readVarintFrom_varintLoop :
    ∀ (rounds n index : Nat) (rest : List UInt8), n ≤ rounds → index < 10 ∨ 0 < n →
      readVarintFrom index (varintLoop rounds n ++ rest) = .ok (n, rest) := by
  intro rounds
  induction rounds with
  | zero =>
      intro n index rest h hindex
      obtain rfl : n = 0 := by omega
      show (if 10 ≤ index ∧ (0 : UInt8).toNat = 0 then _ else _) = _
      rw [if_neg (by omega)]
      rfl
  | succ rounds ih =>
      intro n index rest h hindex
      unfold varintLoop
      by_cases hsmall : n < 128
      · have hbyte : (UInt8.ofNat n).toNat = n := by
          rw [UInt8.toNat_ofNat']
          omega
        rw [if_pos hsmall, List.singleton_append, readVarintFrom, hbyte, if_pos hsmall,
          if_neg (by omega)]
      · have hbyte : (UInt8.ofNat (n % 128 + 128)).toNat = n % 128 + 128 := by
          rw [UInt8.toNat_ofNat']
          omega
        rw [if_neg hsmall, List.cons_append, readVarintFrom, hbyte, if_neg (by omega),
          ih (n / 128) (index + 1) rest (by omega) (Or.inr (by omega))]
        simp only [Except.ok.injEq, Prod.mk.injEq, and_true]
        omega

theorem readVarint_varint (n : Nat) (rest : List UInt8) :
    readVarint (varint n ++ rest) = .ok (n, rest) :=
  readVarintFrom_varintLoop n n 0 rest (Nat.le_refl n) (Or.inl (by decide))

private theorem varint_ne_nil (n : Nat) : varint n ≠ [] := by
  unfold varint varintLoop
  split
  · simp
  · split <;> simp

/-! ### Words of 32 bits

They are written as varints like all numbers, and a reader takes the low half of what it
finds.  What no such word holds is written above the 64-bit words, out of its way. -/

def writeUint32 (n : Nat) : Nat := if n < 0x100000000 then n else n + 0x10000000000000000

def readUint32 (n : Nat) : Nat :=
  if n < 0x10000000000000000 then n % 0x100000000 else n - 0x10000000000000000

@[simp] theorem readUint32_writeUint32 (n : Nat) : readUint32 (writeUint32 n) = n := by
  unfold readUint32 writeUint32
  by_cases h : n < 0x100000000
  · rw [if_pos h, if_pos (by omega), Nat.mod_eq_of_lt h]
  · rw [if_neg h, if_neg (by omega), Nat.add_sub_cancel]

/-! ### Keys -/

inductive WireType
  | varint
  | sixtyFourBit
  | lengthDelimited
  | startGroup
  | endGroup
  | thirtyTwoBit
  deriving DecidableEq

namespace WireType

def code : WireType → Nat
  | varint => 0
  | sixtyFourBit => 1
  | lengthDelimited => 2
  | startGroup => 3
  | endGroup => 4
  | thirtyTwoBit => 5

def name : WireType → String
  | varint => "Varint"
  | sixtyFourBit => "SixtyFourBit"
  | lengthDelimited => "LengthDelimited"
  | startGroup => "StartGroup"
  | endGroup => "EndGroup"
  | thirtyTwoBit => "ThirtyTwoBit"

private theorem code_lt (wire : WireType) : wire.code < 8 := by
  cases wire <;> decide

end WireType

def wireType : Nat → Except String WireType
  | 0 => .ok .varint
  | 1 => .ok .sixtyFourBit
  | 2 => .ok .lengthDelimited
  | 3 => .ok .startGroup
  | 4 => .ok .endGroup
  | 5 => .ok .thirtyTwoBit
  | value => .error s!"invalid wire type value: {value}"

private theorem wireType_code (wire : WireType) : wireType wire.code = .ok wire := by
  cases wire <;> rfl

/-- The key at the front: the number of a field and its wire type. -/
def readKey (input : List UInt8) : Except String (Nat × WireType × List UInt8) := do
  let (key, rest) ← readVarint input
  if 2 ^ 32 ≤ key then throw s!"invalid key value: {key}"
  let wire ← wireType (key % 8)
  if key / 8 = 0 then throw "invalid tag value: 0"
  return (key / 8, wire, rest)

/-- A tag that a key has room for. -/
def ValidTag (tag : Nat) : Prop := 1 ≤ tag ∧ tag < 2 ^ 29

instance (tag : Nat) : Decidable (ValidTag tag) := inferInstanceAs (Decidable (_ ∧ _))

private theorem readKey_key {tag : Nat} (htag : ValidTag tag) (wire : WireType)
    (rest : List UInt8) :
    readKey (varint (tag * 8 + wire.code) ++ rest) = .ok (tag, wire, rest) := by
  obtain ⟨hpos, hroom⟩ : 1 ≤ tag ∧ tag < 2 ^ 29 := htag
  have hcode := wire.code_lt
  have hwire : (tag * 8 + wire.code) % 8 = wire.code := by omega
  have htag : (tag * 8 + wire.code) / 8 = tag := by omega
  rw [readKey, readVarint_varint, Except.ok_bind]
  simp only [hwire, htag, wireType_code, if_neg (show ¬2 ^ 32 ≤ tag * 8 + wire.code by omega),
    if_neg (show tag ≠ 0 by omega)]
  rfl

/-! ### Values -/

/-- What a field holds, by wire type. -/
inductive Value
  | number (n : Nat)
  | bytes (bytes : List UInt8)
  deriving DecidableEq

namespace Value

def wireType : Value → WireType
  | number _ => .varint
  | bytes _ => .lengthDelimited

def encode : Value → List UInt8
  | number n => varint n
  | bytes b => varint b.length ++ b

end Value

def advance (length : Nat) (input : List UInt8) : Except String (List UInt8) :=
  if length ≤ input.length then .ok (input.drop length) else .error "buffer underflow"

theorem advance_append (front rest : List UInt8) :
    advance front.length (front ++ rest) = .ok rest := by
  rw [advance, if_pos (by simp), List.drop_left]

/-- The value at the front of the wire type `expected`, and what follows it. -/
def readValue (expected wire : WireType) (input : List UInt8) :
    Except String (Value × List UInt8) := do
  if wire ≠ expected then
    throw s!"invalid wire type: {wire.name} (expected {expected.name})"
  let (n, rest) ← readVarint input
  if wire = .varint then return (.number n, rest)
  let after ← advance n rest
  return (.bytes (rest.take n), after)

private theorem readValue_encode (value : Value) (rest : List UInt8) :
    readValue value.wireType value.wireType (value.encode ++ rest) = .ok (value, rest) := by
  unfold readValue
  rw [if_neg (by simp)]
  rcases value with n | bytes
  · show (readVarint (varint n ++ rest) >>= _) = _
    rw [readVarint_varint]
    rfl
  · show (readVarint (varint bytes.length ++ bytes ++ rest) >>= _) = _
    rw [List.append_assoc, readVarint_varint, Except.ok_bind]
    simp only [Value.wireType, advance_append, List.take_left, reduceCtorEq, if_false]
    rfl

/-! ### Values that are stepped over

A field nobody declared is stepped over by its wire type, a group together with what is
in it.
-/

/-- Step over a value that is no group. -/
def skipScalar (wire : WireType) (input : List UInt8) : Except String (List UInt8) :=
  match wire with
  | .varint => (readVarint input).map (·.2)
  | .sixtyFourBit => advance 8 input
  | .thirtyTwoBit => advance 4 input
  | .lengthDelimited => do
      let (length, rest) ← readVarint input
      advance length rest
  | .startGroup => .ok input
  | .endGroup => .error "unexpected end group tag"

/-- How deep groups may nest. -/
def recursionLimit : Nat := 100

/-- Step over fields until the groups in `open_`, the innermost first, are closed. -/
def skipGroups : Nat → List Nat → List UInt8 → Except String (List UInt8)
  | _, [], input => .ok input
  | 0, _ :: _, _ => .error "buffer underflow"
  | rounds + 1, innermost :: outer, input => do
      let (tag, wire, rest) ← readKey input
      if wire = .endGroup then
        if tag = innermost then skipGroups rounds outer rest
        else throw "unexpected end group tag"
      else
        if recursionLimit ≤ outer.length + 1 then throw "recursion limit reached"
        let rest ← skipScalar wire rest
        skipGroups rounds (if wire = .startGroup then tag :: innermost :: outer
          else innermost :: outer) rest

@[simp] theorem skipGroups_nil (rounds : Nat) (input : List UInt8) :
    skipGroups rounds [] input = .ok input := by
  cases rounds <;> rfl

/-- Step over the value of a field that is not declared. -/
def skipField (tag : Nat) (wire : WireType) (input : List UInt8) : Except String (List UInt8) := do
  let rest ← skipScalar wire input
  skipGroups rest.length (if wire = .startGroup then [tag] else []) rest

private theorem skipField_encode (tag : Nat) (value : Value) (rest : List UInt8) :
    skipField tag value.wireType (value.encode ++ rest) = .ok rest := by
  rcases value with n | bytes
  · show ((readVarint (varint n ++ rest)).map (·.2) >>= fun rest =>
      skipGroups rest.length [] rest) = _
    rw [readVarint_varint]
    exact skipGroups_nil _ _
  · show ((readVarint (varint bytes.length ++ bytes ++ rest) >>= fun read => advance read.1 read.2)
      >>= fun rest => skipGroups rest.length [] rest) = _
    rw [List.append_assoc, readVarint_varint, Except.ok_bind, advance_append]
    exact skipGroups_nil _ _

/-! ### Messages -/

structure Field where
  tag : Nat
  value : Value
  deriving DecidableEq

def Field.encode (field : Field) : List UInt8 :=
  varint (field.tag * 8 + field.value.wireType.code) ++ field.value.encode

theorem Field.encode_ne_nil (field : Field) : field.encode ≠ [] := by
  simp [Field.encode, varint_ne_nil]

section

variable {α : Type} (declared : Nat → Option WireType) (merge : α → Field → Except String α)

/-- Merge the fields on the wire into `message`, those of a tag that is not declared
stepped over.  A field has at least one byte. -/
def mergeFields : Nat → α → List UInt8 → Except String α
  | _, message, [] => .ok message
  | 0, _, _ :: _ => .error "buffer underflow"
  | rounds + 1, message, input => do
      let (tag, wire, rest) ← readKey input
      match declared tag with
      | some expected =>
          let (value, rest) ← readValue expected wire rest
          let message ← merge message ⟨tag, value⟩
          mergeFields rounds message rest
      | none =>
          let rest ← skipField tag wire rest
          mergeFields rounds message rest

/-- What one field does to a message. -/
def mergeDeclared (message : α) (field : Field) : Except String α :=
  if (declared field.tag).isSome then merge message field else .ok message

/-- A field that a reader with these declarations takes or steps over. -/
def Readable (field : Field) : Prop :=
  ValidTag field.tag ∧ ∀ wire ∈ declared field.tag, field.value.wireType = wire

variable {declared merge}

/-- Fields that are written one after the other are merged one after the other. -/
theorem mergeFields_encode :
    ∀ (fields : List Field) (rounds : Nat) (message : α),
      (∀ field ∈ fields, Readable declared field) → fields.length ≤ rounds →
      mergeFields declared merge rounds message (fields.flatMap Field.encode)
        = fields.foldlM (mergeDeclared declared merge) message := by
  intro fields
  induction fields with
  | nil =>
      intro rounds message _ _
      simp [mergeFields, pure, Except.pure]
  | cons field fields ih =>
      intro rounds message hfields h
      obtain ⟨rounds, rfl⟩ : ∃ r, rounds = r + 1 := ⟨rounds - 1, by simp at h; omega⟩
      obtain ⟨htag, hwire⟩ := hfields field List.mem_cons_self
      have hrest : ∀ message, mergeFields declared merge rounds message
          (fields.flatMap Field.encode) = fields.foldlM (mergeDeclared declared merge) message :=
        fun message => ih rounds message
          (fun other hother => hfields other (List.mem_cons_of_mem _ hother)) (by simpa using h)
      rw [List.flatMap_cons]
      have hne : field.encode ++ fields.flatMap Field.encode ≠ [] := by
        simp [field.encode_ne_nil]
      rw [mergeFields.eq_3 _ _ _ _ _ hne, Field.encode, List.append_assoc, readKey_key htag,
        Except.ok_bind, List.foldlM_cons, mergeDeclared]
      rcases hdeclared : declared field.tag with _ | expected
      · simp only [hdeclared, skipField_encode, Except.ok_bind, hrest]
        rfl
      · obtain rfl := hwire expected hdeclared
        simp only [hdeclared, readValue_encode, Except.ok_bind, hrest, Option.isSome_some, if_true]

theorem length_le_encode (l : List Field) : l.length ≤ (l.flatMap Field.encode).length := by
  induction l with
  | nil => simp
  | cons field l ih =>
      have := List.length_pos_of_ne_nil field.encode_ne_nil
      simp only [List.length_cons, List.flatMap_cons, List.length_append]
      omega

end

section

variable {α : Type} (declared : Nat → Option WireType) (merge : α → Field → Except String α)
  (fields : α → List Field)

/-- A message as its fields on the wire. -/
def encodeMessage (message : α) : List UInt8 := (fields message).flatMap Field.encode

/-- Merge the fields on the wire into a message, the default one to begin with. -/
def decodeMessage (message : α) (input : List UInt8) : Except String α :=
  mergeFields declared merge input.length message input

/-- Fields that are all declared as what they are. -/
def Declares (l : List Field) : Prop :=
  ∀ field ∈ l, ValidTag field.tag ∧ declared field.tag = some field.value.wireType

variable {declared merge fields}

theorem Declares.readable {l : List Field} (h : Declares declared l) {field : Field}
    (hin : field ∈ l) : Readable declared field := by
  obtain ⟨htag, hdeclared⟩ := h field hin
  refine ⟨htag, fun wire hwire => ?_⟩
  exact Option.some.inj (hdeclared.symm.trans hwire)

/-- A message that its own fields rebuild round-trips. -/
theorem decodeMessage_encodeMessage {zero message : α}
    (hfields : Declares declared (fields message))
    (h : (fields message).foldlM merge zero = .ok message) :
    decodeMessage declared merge zero (encodeMessage fields message) = .ok message := by
  unfold decodeMessage encodeMessage
  rw [mergeFields_encode _ _ _ (fun _ hin => hfields.readable hin) (length_le_encode _), ← h]
  have hmerge : ∀ (l : List Field), Declares declared l → ∀ before : α,
      l.foldlM (mergeDeclared declared merge) before = l.foldlM merge before := by
    intro l
    induction l with
    | nil =>
        intro _ before
        rfl
    | cons field l ih =>
        intro hl before
        have hrest := ih fun other hother => hl other (List.mem_cons_of_mem _ hother)
        rw [List.foldlM_cons, List.foldlM_cons, mergeDeclared, (hl field List.mem_cons_self).2]
        exact bind_congr fun next => hrest next
  exact hmerge _ hfields zero

end

/-! ### The fields of a message

A message is written field by field, with those left out that have their
default.  Reading merges each field into what was read before it.
-/

/-- A number, left out if it is zero. -/
def number (tag n : Nat) : List Field := if n = 0 then [] else [⟨tag, .number n⟩]

/-- A word of 32 bits, left out if it is zero. -/
def number32 (tag n : Nat) : List Field := number tag (writeUint32 n)

/-- Bytes, left out if there are none. -/
def bytes (tag : Nat) (b : List UInt8) : List Field := if b = [] then [] else [⟨tag, .bytes b⟩]

/-- Nested messages, one field each. -/
def repeated {β : Type} (tag : Nat) (encode : β → List UInt8) (l : List β) : List Field :=
  l.map fun item => ⟨tag, .bytes (encode item)⟩

theorem mem_number {field : Field} {tag n : Nat} (h : field ∈ number tag n) :
    field.tag = tag ∧ field.value.wireType = .varint := by
  unfold number at h
  split at h
  · cases h
  · obtain rfl := List.mem_singleton.mp h
    exact ⟨rfl, rfl⟩

theorem mem_number32 {field : Field} {tag n : Nat} (h : field ∈ number32 tag n) :
    field.tag = tag ∧ field.value.wireType = .varint := mem_number h

theorem mem_bytes {field : Field} {tag : Nat} {b : List UInt8} (h : field ∈ bytes tag b) :
    field.tag = tag ∧ field.value.wireType = .lengthDelimited := by
  unfold bytes at h
  split at h
  · cases h
  · obtain rfl := List.mem_singleton.mp h
    exact ⟨rfl, rfl⟩

theorem mem_repeated {β : Type} {field : Field} {tag : Nat} {encode : β → List UInt8} {l : List β}
    (h : field ∈ repeated tag encode l) :
    field.tag = tag ∧ field.value.wireType = .lengthDelimited := by
  obtain ⟨item, -, rfl⟩ := List.mem_map.mp h
  exact ⟨rfl, rfl⟩

section

variable {declared : Nat → Option WireType}

theorem Declares.append {front back : List Field} (hfront : Declares declared front)
    (hback : Declares declared back) : Declares declared (front ++ back) := by
  intro field h
  rcases List.mem_append.mp h with h | h
  · exact hfront field h
  · exact hback field h

theorem Declares.of_forall {l : List Field} {tag : Nat} {wire : WireType} (htag : ValidTag tag)
    (hdeclared : declared tag = some wire)
    (h : ∀ field ∈ l, field.tag = tag ∧ field.value.wireType = wire) : Declares declared l := by
  intro field hin
  obtain ⟨rfl, rfl⟩ := h field hin
  exact ⟨htag, hdeclared⟩

variable {tag : Nat} (htag : ValidTag tag)

include htag in
theorem Declares.number (h : declared tag = some .varint) (n : Nat) :
    Declares declared (number tag n) := .of_forall htag h fun _ => mem_number

include htag in
theorem Declares.number32 (h : declared tag = some .varint) (n : Nat) :
    Declares declared (number32 tag n) := .of_forall htag h fun _ => mem_number32

include htag in
theorem Declares.bytes (h : declared tag = some .lengthDelimited) (b : List UInt8) :
    Declares declared (bytes tag b) := .of_forall htag h fun _ => mem_bytes

include htag in
theorem Declares.repeated {β : Type} (h : declared tag = some .lengthDelimited)
    (encode : β → List UInt8) (l : List β) : Declares declared (repeated tag encode l) :=
  .of_forall htag h fun _ => mem_repeated

end

section

variable {α β : Type} (merge : α → Field → Except String α)

theorem foldlM_number {tag : Nat} (put : Nat → α)
    (hmerge : ∀ n, merge (put 0) ⟨tag, .number n⟩ = .ok (put n)) (n : Nat) :
    (number tag n).foldlM merge (put 0) = .ok (put n) := by
  unfold number
  by_cases hn : n = 0
  · rw [if_pos hn, hn]
    rfl
  · rw [if_neg hn, List.foldlM_cons, hmerge]
    rfl

theorem foldlM_number32 {tag : Nat} (put : Nat → α)
    (hmerge : ∀ n, merge (put 0) ⟨tag, .number n⟩ = .ok (put (readUint32 n))) (n : Nat) :
    (number32 tag n).foldlM merge (put 0) = .ok (put n) := by
  have h := foldlM_number merge (fun n => put (readUint32 n)) (fun n => hmerge n) (writeUint32 n)
  rwa [readUint32_writeUint32] at h

theorem foldlM_bytes {tag : Nat} (put : List UInt8 → α)
    (hmerge : ∀ b, merge (put []) ⟨tag, .bytes b⟩ = .ok (put b)) (b : List UInt8) :
    (bytes tag b).foldlM merge (put []) = .ok (put b) := by
  unfold bytes
  by_cases hb : b = []
  · rw [if_pos hb, hb]
    rfl
  · rw [if_neg hb, List.foldlM_cons, hmerge]
    rfl

/-- Nested messages add up to the list they came from. -/
theorem foldlM_repeated {tag : Nat} {encode : β → List UInt8} (put : List β → α)
    (hmerge : ∀ before item, merge (put before) ⟨tag, .bytes (encode item)⟩
      = .ok (put (before ++ [item]))) (l : List β) :
    (repeated tag encode l).foldlM merge (put []) = .ok (put l) := by
  have hloop : ∀ l before, (repeated tag encode l).foldlM merge (put before)
      = .ok (put (before ++ l)) := by
    intro l
    induction l with
    | nil =>
        intro before
        simp [repeated, pure, Except.pure]
    | cons item l ih =>
        intro before
        rw [repeated, List.map_cons, List.foldlM_cons, hmerge]
        show (repeated tag encode l).foldlM merge (put (before ++ [item])) = _
        rw [ih (before ++ [item]), List.append_assoc, List.singleton_append]
  exact hloop l []

variable {merge}

theorem foldlM_append_ok {fields rest : List Field} {message next final : α}
    (h : fields.foldlM merge message = .ok next) (hrest : rest.foldlM merge next = .ok final) :
    (fields ++ rest).foldlM merge message = .ok final := by
  rw [List.foldlM_append, h]
  exact hrest

end

/-! ### One field of a message -/

/-- What a field does to the bytes found so far. -/
def Field.found (declared : Nat) (found : List UInt8) (field : Field) : List UInt8 :=
  match field.value with
  | .bytes bytes => if field.tag = declared then bytes else found
  | .number _ => found

/-- A reader that declares a single field, of bytes. -/
def onlyBytes (declared tag : Nat) : Option WireType :=
  if tag = declared then some .lengthDelimited else none

/-- The bytes of the field `declared` of a message, the last ones if it is there more
than once. -/
def findBytes (declared : Nat) : Nat → List UInt8 → List UInt8 → Except String (List UInt8) :=
  mergeFields (onlyBytes declared) fun found field => .ok (field.found declared found)

/-- Among fields of which the declared ones hold bytes, the reader finds the last of
those. -/
theorem findBytes_encode (declared : Nat) (fields : List Field) (rounds : Nat)
    (found : List UInt8)
    (hfields : ∀ field ∈ fields, ValidTag field.tag ∧
      (field.tag = declared → field.value.wireType = .lengthDelimited))
    (hrounds : fields.length ≤ rounds) :
    findBytes declared rounds found (fields.flatMap Field.encode)
      = .ok (fields.foldl (Field.found declared) found) := by
  unfold findBytes
  rw [mergeFields_encode fields rounds found ?_ hrounds]
  · have hstep : mergeDeclared (onlyBytes declared)
        (fun found field => .ok (field.found declared found))
        = fun found field => .ok (field.found declared found) := by
      funext found field
      unfold mergeDeclared onlyBytes
      by_cases hdeclared : field.tag = declared
      · rw [if_pos (by rw [if_pos hdeclared]; rfl)]
      · rw [if_neg (by rw [if_neg hdeclared]; simp)]
        obtain ⟨tag, n | bytes⟩ := field
        · rfl
        · simp [Field.found, show tag ≠ declared from hdeclared]
    rw [hstep]
    exact List.foldlM_pure (m := Except String)
  · intro field hin
    obtain ⟨htag, hwire⟩ := hfields field hin
    refine ⟨htag, fun wire h => ?_⟩
    unfold onlyBytes at h
    split at h
    · next hdeclared =>
        obtain rfl := Option.some.inj h
        exact hwire hdeclared
    · cases h

end Protobuf
