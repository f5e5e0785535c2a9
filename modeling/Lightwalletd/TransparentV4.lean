/-
Transactions of version 4 without shielded parts, in the layout the network uses.

The coinbase of a synthetic block is one of them, written out by hand, and it is up to
the library to read it.  `ReadsTransparentV4` is what the library documents about such
transactions: it finds the inputs and outputs that were laid out, whatever follows.

A reader of just this layout keeps that and the rest of the contract, so the two can be
had together.
-/
import Lightwalletd.Codec

namespace Lightwalletd

/-! ### The layout -/

/-- A transaction of version 4 without shielded parts; each input with its sequence number. -/
structure TransparentV4 where
  vin : List (TransparentInput × Nat)
  vout : List TxOut
  lockTime : Nat
  expiryHeight : Nat

namespace TransparentV4

/-- The version, with the bit of an overwintered transaction. -/
def version : Nat := 0x80000004

def versionGroupId : Nat := 0x892f2085

/-- The most value an output can have. -/
def maxMoney : Nat := 2100000000000000

def writeScript (script : Bytes) : Bytes := writeCompactSize script.length ++ script

def writeInput (input : TransparentInput × Nat) : Bytes :=
  input.1.prevoutHash ++ (leBytes 4 input.1.prevoutIndex ++
    (writeScript input.1.scriptSig ++ leBytes 4 input.2))

def writeOutput (output : TxOut) : Bytes :=
  leBytes 8 output.value ++ writeScript output.scriptPubKey

/-- Everything after the inputs and outputs: no value balance, no spends, no outputs and no
joinsplits. -/
def writeTail (tx : TransparentV4) : Bytes :=
  leBytes 4 tx.lockTime ++ (leBytes 4 tx.expiryHeight ++ (leBytes 8 0 ++ [0, 0, 0]))

def write (tx : TransparentV4) : Bytes :=
  leBytes 4 version ++ (leBytes 4 versionGroupId ++
    (writeCompactSize tx.vin.length ++ (tx.vin.flatMap writeInput ++
      (writeCompactSize tx.vout.length ++ (tx.vout.flatMap writeOutput ++ tx.writeTail)))))

/-- The fields have the sizes of their places in the layout, and there is something in it. -/
structure WellFormed (tx : TransparentV4) : Prop where
  some : tx.vin ≠ [] ∨ tx.vout ≠ []
  inputs : tx.vin.length ≤ 0x02000000
  outputs : tx.vout.length ≤ 0x02000000
  input : ∀ input ∈ tx.vin, input.1.prevoutHash.length = 32 ∧ input.1.prevoutIndex < 2 ^ 32 ∧
    input.1.scriptSig.length ≤ 0x02000000
  output : ∀ output ∈ tx.vout, output.value ≤ maxMoney ∧
    output.scriptPubKey.length ≤ 0x02000000

end TransparentV4

/-- The library reads such a transaction as it was laid out. -/
def ReadsTransparentV4 [Librustzcash] : Prop :=
  ∀ tx : TransparentV4, tx.WellFormed → ∃ parsed : Transaction,
    parsed.transparentBundle = some ⟨tx.vin.map (·.1), tx.vout⟩ ∧
    ∀ rest, Librustzcash.readTransaction (tx.write ++ rest) = .ok (parsed, rest)

/-! ### A reader of the layout -/

/-- The inputs and outputs of a transaction of version 4 without shielded parts. -/
def readPartsV4 (bytes : Bytes) : Except String ((List TransparentInput × List TxOut) × Bytes) := do
  let (version, rest) ← readBytes 4 bytes
  Except.ensure (ofLeBytes version = TransparentV4.version) "not a version 4 transaction"
  let (group, rest) ← readBytes 4 rest
  Except.ensure (ofLeBytes group = TransparentV4.versionGroupId) "unknown version group"
  let (count, rest) ← readSize rest
  let (vin, rest) ← readItems readInput count rest
  let (count, rest) ← readSize rest
  let (vout, rest) ← readItems readOutput count rest
  let (_, rest) ← readBytes 8 rest
  let (shielded, rest) ← readBytes 11 rest
  Except.ensure (ofLeBytes shielded = 0) "not a transparent transaction"
  return ((vin, vout), rest)

def readV4 (bytes : Bytes) : Except String (Transaction × Bytes) := do
  let (parts, rest) ← readPartsV4 bytes
  let raw := bytes.take (bytes.length - rest.length)
  return ({
    txid := Sha2.digest (Sha2.digest raw)
    transparentBundle := if parts.1.isEmpty ∧ parts.2.isEmpty then none else some ⟨parts.1, parts.2⟩
    saplingBundle := none
    orchardBundle := none
    ironwoodBundle := none }, rest)

/-- The library on transparent transactions of version 4. -/
@[reducible] def overwintered : Librustzcash where
  readTransaction := readV4
  readCompactSize := readSize

private theorem consumes_readPartsV4 : Consumes readPartsV4 :=
  (consumes_readBytes 4).bind fun version =>
    Consumes.ensure (ofLeBytes version = TransparentV4.version) "not a version 4 transaction" <|
      (consumes_readBytes 4).bind fun group =>
        Consumes.ensure (ofLeBytes group = TransparentV4.versionGroupId) "unknown version group" <|
          consumes_readSize.bind fun inputs =>
            (consumes_readItems consumes_readInput inputs).bind fun vin =>
              consumes_readSize.bind fun outputs =>
                (consumes_readItems consumes_readOutput outputs).bind fun vout =>
                  (consumes_readBytes 8).bind fun _ => (consumes_readBytes 11).bind fun shielded =>
                    Consumes.ensure (ofLeBytes shielded = 0) "not a transparent transaction" <|
                      Consumes.pure (vin, vout)

theorem readV4_eq_ok {bytes rest : Bytes} {tx : Transaction} :
    readV4 bytes = .ok (tx, rest) ↔ ∃ parts, readPartsV4 bytes = .ok (parts, rest) ∧
      tx = {
        txid := Sha2.digest (Sha2.digest (bytes.take (bytes.length - rest.length)))
        transparentBundle :=
          if parts.1.isEmpty ∧ parts.2.isEmpty then none else some ⟨parts.1, parts.2⟩
        saplingBundle := none
        orchardBundle := none
        ironwoodBundle := none } := by
  unfold readV4
  simp only [Except.bind_eq_ok, Except.pure_eq_ok, Prod.mk.injEq]
  constructor
  · rintro ⟨⟨parts, left⟩, hparts, rfl, rfl⟩
    exact ⟨parts, hparts, rfl⟩
  · rintro ⟨parts, hparts, rfl⟩
    exact ⟨(parts, rest), hparts, rfl, rfl⟩

private theorem consumes_readV4 : Consumes readV4 := by
  intro bytes tx rest h
  obtain ⟨parts, hparts, rfl⟩ := readV4_eq_ok.mp h
  obtain ⟨taken, rfl, htaken⟩ := consumes_readPartsV4 bytes parts rest hparts
  refine ⟨taken, rfl, ?_⟩
  intro other
  refine readV4_eq_ok.mpr ⟨parts, htaken other, ?_⟩
  simp

theorem overwintered_lawful : @LawfulLibrustzcash overwintered := by
  refine @LawfulLibrustzcash.mk overwintered (fun _ _ _ => readSize_eq_ok) consumes_readV4 ?_
  intro bytes tx rest h
  obtain ⟨parts, -, rfl⟩ := readV4_eq_ok.mp h
  exact ⟨by simp, by simp, by simp⟩

/-! ### It reads what is laid out -/

theorem readBytes_append {count : Nat} {taken : Bytes} (rest : Bytes) (h : taken.length = count) :
    readBytes count (taken ++ rest) = .ok (taken, rest) :=
  readBytes_eq_ok.mpr ⟨h, rfl⟩

theorem readSize_write {n : Nat} (rest : Bytes) (h : n ≤ 0x02000000) :
    readSize (writeCompactSize n ++ rest) = .ok (n, rest) :=
  readSize_eq_ok.mpr ⟨h, rfl⟩

theorem readItems_flatMap {α β : Type} {item : Bytes → Except String (α × Bytes)}
    {write : β → Bytes} {value : β → α} (items : List β)
    (h : ∀ b ∈ items, ∀ rest, item (write b ++ rest) = .ok (value b, rest)) (rest : Bytes) :
    readItems item items.length (items.flatMap write ++ rest) = .ok (items.map value, rest) := by
  induction items with
  | nil => rfl
  | cons b items ih =>
      have hfirst := h b (by simp) (items.flatMap write ++ rest)
      have hothers := ih fun c hc => h c (List.mem_cons_of_mem _ hc)
      rw [List.length_cons, List.flatMap_cons, List.append_assoc]
      exact Except.bind_eq_ok.mpr ⟨_, hfirst, Except.bind_eq_ok.mpr ⟨_, hothers, rfl⟩⟩

namespace TransparentV4

theorem readScript_write {script : Bytes} (rest : Bytes) (h : script.length ≤ 0x02000000) :
    readScript (writeScript script ++ rest) = .ok (script, rest) := by
  unfold readScript writeScript
  rw [List.append_assoc]
  exact Except.bind_eq_ok.mpr ⟨_, readSize_write _ h, readBytes_append _ rfl⟩

private theorem readInput_write {input : TransparentInput × Nat} (rest : Bytes)
    (hhash : input.1.prevoutHash.length = 32) (hindex : input.1.prevoutIndex < 2 ^ 32)
    (hscript : input.1.scriptSig.length ≤ 0x02000000) :
    readInput (writeInput input ++ rest) = .ok (input.1, rest) := by
  have hvalue : ofLeBytes (leBytes 4 input.1.prevoutIndex) = input.1.prevoutIndex :=
    ofLeBytes_leBytes_of_lt hindex
  unfold readInput writeInput
  simp only [List.append_assoc, Except.bind_eq_ok]
  exact ⟨_, readBytes_append _ hhash, _, readBytes_append _ (by simp), _,
    readScript_write _ hscript, _, readBytes_append _ (by simp), by rw [hvalue]; rfl⟩

private theorem readOutput_write {output : TxOut} (rest : Bytes) (hvalue : output.value ≤ maxMoney)
    (hscript : output.scriptPubKey.length ≤ 0x02000000) :
    readOutput (writeOutput output ++ rest) = .ok (output, rest) := by
  have hread : ofLeBytes (leBytes 8 output.value) = output.value := by
    refine ofLeBytes_leBytes_of_lt ?_
    unfold maxMoney at hvalue
    omega
  unfold readOutput writeOutput
  simp only [List.append_assoc, Except.bind_eq_ok]
  exact ⟨_, readBytes_append _ (by simp), _, readScript_write _ hscript, by rw [hread]; rfl⟩

theorem readPartsV4_write {tx : TransparentV4} (h : tx.WellFormed) (rest : Bytes) :
    readPartsV4 (tx.write ++ rest) = .ok ((tx.vin.map (·.1), tx.vout), rest) := by
  have hversion : ofLeBytes (leBytes 4 version) = version := ofLeBytes_leBytes_of_lt (by decide)
  have hgroup : ofLeBytes (leBytes 4 versionGroupId) = versionGroupId :=
    ofLeBytes_leBytes_of_lt (by decide)
  have hvin : ∀ rest, readItems readInput tx.vin.length (tx.vin.flatMap writeInput ++ rest)
      = .ok (tx.vin.map (·.1), rest) :=
    readItems_flatMap tx.vin fun input hinput rest =>
      readInput_write rest (h.input input hinput).1 (h.input input hinput).2.1
        (h.input input hinput).2.2
  have hvout : ∀ rest, readItems readOutput tx.vout.length (tx.vout.flatMap writeOutput ++ rest)
      = .ok (tx.vout.map id, rest) :=
    readItems_flatMap tx.vout fun output houtput rest =>
      readOutput_write rest (h.output output houtput).1 (h.output output houtput).2
  have hzero : ofLeBytes (leBytes 8 0 ++ [0, 0, 0]) = 0 := by decide
  have htail : tx.writeTail = (leBytes 4 tx.lockTime ++ leBytes 4 tx.expiryHeight) ++
      (leBytes 8 0 ++ [0, 0, 0]) := by
    simp [writeTail]
  rw [List.map_id] at hvout
  unfold readPartsV4 write
  rw [htail]
  simp only [List.append_assoc, Except.bind_eq_ok, Except.ensure_eq_ok]
  refine ⟨_, readBytes_append _ (by simp), (), hversion, _,
    readBytes_append _ (by simp), (), hgroup,
    _, readSize_write _ h.inputs, _, hvin _, _, readSize_write _ h.outputs, _, hvout _, ?_⟩
  rw [← List.append_assoc (leBytes 4 tx.lockTime), ← List.append_assoc (leBytes 8 0)]
  exact ⟨_, readBytes_append _ (by simp), _, readBytes_append _ (by simp), (), hzero, rfl⟩

end TransparentV4

theorem overwintered_reads : @ReadsTransparentV4 overwintered := by
  intro tx h
  refine ⟨{
    txid := Sha2.digest (Sha2.digest tx.write)
    transparentBundle := some ⟨tx.vin.map (·.1), tx.vout⟩
    saplingBundle := none
    orchardBundle := none
    ironwoodBundle := none }, rfl, ?_⟩
  intro rest
  refine readV4_eq_ok.mpr ⟨_, TransparentV4.readPartsV4_write h rest, ?_⟩
  have hsome : ¬ ((tx.vin.map (·.1)).isEmpty ∧ tx.vout.isEmpty) := by
    rcases h.some with hvin | hvout
    · simp [hvin]
    · simp [hvout]
  rw [if_neg hsome, List.length_append, Nat.add_sub_cancel, List.take_left]

end Lightwalletd
