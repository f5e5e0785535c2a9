/-
The generated code of `proto/compact_formats.proto`, as an instance of `Prost`, the
hash function as one of `Sha256`, and as much of the transaction parser as
transactions of the first version need as one of `Librustzcash`.

Each message is the list of its fields in the order of their tags, the wire type of
each tag it declares, and a merge that puts one field where it belongs.  Nothing else
depends on any of it but the runs on concrete blocks.
-/
import Lightwalletd.Lib.Protobuf
import Lightwalletd.Lib.Sha2
import Lightwalletd.Compact

namespace Lightwalletd

open Protobuf

/-! ### The parts of a transaction -/

namespace CompactSaplingSpend

def fields (m : CompactSaplingSpend) : List Field := bytes 1 m.nf

def declared : Nat → Option WireType
  | 1 => some .lengthDelimited
  | _ => none

def merge (m : CompactSaplingSpend) : Field → Except String CompactSaplingSpend
  | ⟨1, .bytes b⟩ => .ok { m with nf := b }
  | _ => .error "invalid wire type"

def encode : CompactSaplingSpend → Bytes := encodeMessage fields

def decode : Bytes → Except String CompactSaplingSpend := decodeMessage declared merge {}

theorem declares (m : CompactSaplingSpend) : Declares declared m.fields :=
  .bytes (by decide) rfl _

theorem decode_encode (m : CompactSaplingSpend) : decode m.encode = .ok m :=
  decodeMessage_encodeMessage (declares _)
    (foldlM_bytes merge (fun b => { nf := b }) (fun _ => rfl) m.nf)

end CompactSaplingSpend

namespace CompactSaplingOutput

def fields (m : CompactSaplingOutput) : List Field :=
  bytes 1 m.cmu ++ (bytes 2 m.ephemeralKey ++ bytes 3 m.ciphertext)

def declared : Nat → Option WireType
  | 1 | 2 | 3 => some .lengthDelimited
  | _ => none

def merge (m : CompactSaplingOutput) : Field → Except String CompactSaplingOutput
  | ⟨1, .bytes b⟩ => .ok { m with cmu := b }
  | ⟨2, .bytes b⟩ => .ok { m with ephemeralKey := b }
  | ⟨3, .bytes b⟩ => .ok { m with ciphertext := b }
  | _ => .error "invalid wire type"

def encode : CompactSaplingOutput → Bytes := encodeMessage fields

def decode : Bytes → Except String CompactSaplingOutput := decodeMessage declared merge {}

theorem declares (m : CompactSaplingOutput) : Declares declared m.fields :=
  .append (.bytes (by decide) rfl _) <| .append (.bytes (by decide) rfl _) <|
  .bytes (by decide) rfl _

theorem decode_encode (m : CompactSaplingOutput) : decode m.encode = .ok m := by
  obtain ⟨cmu, key, ciphertext⟩ := m
  refine decodeMessage_encodeMessage (declares _) ?_
  refine foldlM_append_ok (foldlM_bytes merge (fun b => { cmu := b }) (fun _ => rfl) cmu) ?_
  refine foldlM_append_ok
    (foldlM_bytes merge (fun b => { cmu := cmu, ephemeralKey := b }) (fun _ => rfl) key) ?_
  exact foldlM_bytes merge (fun b => ⟨cmu, key, b⟩) (fun _ => rfl) ciphertext

end CompactSaplingOutput

namespace CompactOrchardAction

def fields (m : CompactOrchardAction) : List Field :=
  bytes 1 m.nullifier ++ (bytes 2 m.cmx ++ (bytes 3 m.ephemeralKey ++ bytes 4 m.ciphertext))

def declared : Nat → Option WireType
  | 1 | 2 | 3 | 4 => some .lengthDelimited
  | _ => none

def merge (m : CompactOrchardAction) : Field → Except String CompactOrchardAction
  | ⟨1, .bytes b⟩ => .ok { m with nullifier := b }
  | ⟨2, .bytes b⟩ => .ok { m with cmx := b }
  | ⟨3, .bytes b⟩ => .ok { m with ephemeralKey := b }
  | ⟨4, .bytes b⟩ => .ok { m with ciphertext := b }
  | _ => .error "invalid wire type"

def encode : CompactOrchardAction → Bytes := encodeMessage fields

def decode : Bytes → Except String CompactOrchardAction := decodeMessage declared merge {}

theorem declares (m : CompactOrchardAction) : Declares declared m.fields :=
  .append (.bytes (by decide) rfl _) <| .append (.bytes (by decide) rfl _) <|
  .append (.bytes (by decide) rfl _) <| .bytes (by decide) rfl _

theorem decode_encode (m : CompactOrchardAction) : decode m.encode = .ok m := by
  obtain ⟨nullifier, cmx, key, ciphertext⟩ := m
  refine decodeMessage_encodeMessage (declares _) ?_
  refine foldlM_append_ok
    (foldlM_bytes merge (fun b => { nullifier := b }) (fun _ => rfl) nullifier) ?_
  refine foldlM_append_ok
    (foldlM_bytes merge (fun b => { nullifier := nullifier, cmx := b }) (fun _ => rfl) cmx) ?_
  refine foldlM_append_ok (foldlM_bytes merge
    (fun b => { nullifier := nullifier, cmx := cmx, ephemeralKey := b }) (fun _ => rfl) key) ?_
  exact foldlM_bytes merge (fun b => ⟨nullifier, cmx, key, b⟩) (fun _ => rfl) ciphertext

end CompactOrchardAction

namespace CompactTxIn

def fields (m : CompactTxIn) : List Field := bytes 1 m.prevoutTxid ++ number32 2 m.prevoutIndex

def declared : Nat → Option WireType
  | 2 => some .varint
  | 1 => some .lengthDelimited
  | _ => none

def merge (m : CompactTxIn) : Field → Except String CompactTxIn
  | ⟨1, .bytes b⟩ => .ok { m with prevoutTxid := b }
  | ⟨2, .number n⟩ => .ok { m with prevoutIndex := readUint32 n }
  | _ => .error "invalid wire type"

def encode : CompactTxIn → Bytes := encodeMessage fields

def decode : Bytes → Except String CompactTxIn := decodeMessage declared merge {}

theorem declares (m : CompactTxIn) : Declares declared m.fields :=
  .append (.bytes (by decide) rfl _) <| .number32 (by decide) rfl _

theorem decode_encode (m : CompactTxIn) : decode m.encode = .ok m := by
  obtain ⟨txid, index⟩ := m
  refine decodeMessage_encodeMessage (declares _) ?_
  refine foldlM_append_ok
    (foldlM_bytes merge (fun b => { prevoutTxid := b }) (fun _ => rfl) txid) ?_
  exact foldlM_number32 merge (fun n => ⟨txid, n⟩) (fun _ => rfl) index

end CompactTxIn

namespace TxOut

def fields (m : TxOut) : List Field := number 1 m.value ++ bytes 2 m.scriptPubKey

def declared : Nat → Option WireType
  | 1 => some .varint
  | 2 => some .lengthDelimited
  | _ => none

def merge (m : TxOut) : Field → Except String TxOut
  | ⟨1, .number n⟩ => .ok { m with value := n }
  | ⟨2, .bytes b⟩ => .ok { m with scriptPubKey := b }
  | _ => .error "invalid wire type"

def encode : TxOut → Bytes := encodeMessage fields

def decode : Bytes → Except String TxOut := decodeMessage declared merge {}

theorem declares (m : TxOut) : Declares declared m.fields :=
  .append (.number (by decide) rfl _) <| .bytes (by decide) rfl _

theorem decode_encode (m : TxOut) : decode m.encode = .ok m := by
  obtain ⟨value, script⟩ := m
  refine decodeMessage_encodeMessage (declares _) ?_
  refine foldlM_append_ok (foldlM_number merge (fun n => { value := n }) (fun _ => rfl) value) ?_
  exact foldlM_bytes merge (fun b => ⟨value, b⟩) (fun _ => rfl) script

end TxOut

/-! ### Transactions -/

namespace CompactTx

def fields (m : CompactTx) : List Field :=
  number 1 m.index ++ (bytes 2 m.txid ++ (number32 3 m.fee ++
    (repeated 4 CompactSaplingSpend.encode m.spends ++
    (repeated 5 CompactSaplingOutput.encode m.outputs ++
    (repeated 6 CompactOrchardAction.encode m.actions ++
    (repeated 7 CompactTxIn.encode m.vin ++ (repeated 8 TxOut.encode m.vout ++
    repeated 9 CompactOrchardAction.encode m.ironwoodActions)))))))

def declared : Nat → Option WireType
  | 1 | 3 => some .varint
  | 2 | 4 | 5 | 6 | 7 | 8 | 9 => some .lengthDelimited
  | _ => none

def merge (m : CompactTx) : Field → Except String CompactTx
  | ⟨1, .number n⟩ => .ok { m with index := n }
  | ⟨2, .bytes b⟩ => .ok { m with txid := b }
  | ⟨3, .number n⟩ => .ok { m with fee := readUint32 n }
  | ⟨4, .bytes b⟩ =>
      (CompactSaplingSpend.decode b).map fun item => { m with spends := m.spends ++ [item] }
  | ⟨5, .bytes b⟩ =>
      (CompactSaplingOutput.decode b).map fun item => { m with outputs := m.outputs ++ [item] }
  | ⟨6, .bytes b⟩ =>
      (CompactOrchardAction.decode b).map fun item => { m with actions := m.actions ++ [item] }
  | ⟨7, .bytes b⟩ => (CompactTxIn.decode b).map fun item => { m with vin := m.vin ++ [item] }
  | ⟨8, .bytes b⟩ => (TxOut.decode b).map fun item => { m with vout := m.vout ++ [item] }
  | ⟨9, .bytes b⟩ =>
      (CompactOrchardAction.decode b).map fun item =>
        { m with ironwoodActions := m.ironwoodActions ++ [item] }
  | _ => .error "invalid wire type"

def encode : CompactTx → Bytes := encodeMessage fields

def decode : Bytes → Except String CompactTx := decodeMessage declared merge {}

theorem declares (m : CompactTx) : Declares declared m.fields :=
  .append (.number (by decide) rfl _) <| .append (.bytes (by decide) rfl _) <|
  .append (.number32 (by decide) rfl _) <| .append (.repeated (by decide) rfl _ _) <|
  .append (.repeated (by decide) rfl _ _) <| .append (.repeated (by decide) rfl _ _) <|
  .append (.repeated (by decide) rfl _ _) <| .append (.repeated (by decide) rfl _ _) <|
  .repeated (by decide) rfl _ _

theorem decode_encode (m : CompactTx) : decode m.encode = .ok m := by
  obtain ⟨index, txid, fee, spends, outputs, actions, vin, vout, ironwood⟩ := m
  refine decodeMessage_encodeMessage (declares _) ?_
  refine foldlM_append_ok (foldlM_number merge (fun n => { index := n }) (fun _ => rfl) index) ?_
  refine foldlM_append_ok
    (foldlM_bytes merge (fun b => { index := index, txid := b }) (fun _ => rfl) txid) ?_
  refine foldlM_append_ok (foldlM_number32 merge
    (fun n => { index := index, txid := txid, fee := n }) (fun _ => rfl) fee) ?_
  refine foldlM_append_ok (foldlM_repeated merge
    (fun l => ⟨index, txid, fee, l, [], [], [], [], []⟩) (fun before item => ?_) spends) ?_
  · rw [merge, CompactSaplingSpend.decode_encode]
    rfl
  refine foldlM_append_ok (foldlM_repeated merge
    (fun l => ⟨index, txid, fee, spends, l, [], [], [], []⟩) (fun before item => ?_) outputs) ?_
  · rw [merge, CompactSaplingOutput.decode_encode]
    rfl
  refine foldlM_append_ok (foldlM_repeated merge
    (fun l => ⟨index, txid, fee, spends, outputs, l, [], [], []⟩)
    (fun before item => ?_) actions) ?_
  · rw [merge, CompactOrchardAction.decode_encode]
    rfl
  refine foldlM_append_ok (foldlM_repeated merge
    (fun l => ⟨index, txid, fee, spends, outputs, actions, l, [], []⟩)
    (fun before item => ?_) vin) ?_
  · rw [merge, CompactTxIn.decode_encode]
    rfl
  refine foldlM_append_ok (foldlM_repeated merge
    (fun l => ⟨index, txid, fee, spends, outputs, actions, vin, l, []⟩)
    (fun before item => ?_) vout) ?_
  · rw [merge, TxOut.decode_encode]
    rfl
  refine foldlM_repeated merge
    (fun l => ⟨index, txid, fee, spends, outputs, actions, vin, vout, l⟩)
    (fun before item => ?_) ironwood
  rw [merge, CompactOrchardAction.decode_encode]
  rfl

end CompactTx

/-! ### Blocks -/

namespace ChainMetadata

def fields (m : ChainMetadata) : List Field :=
  number32 1 m.saplingCommitmentTreeSize ++ (number32 2 m.orchardCommitmentTreeSize ++
    number32 3 m.ironwoodCommitmentTreeSize)

def declared : Nat → Option WireType
  | 1 | 2 | 3 => some .varint
  | _ => none

def merge (m : ChainMetadata) : Field → Except String ChainMetadata
  | ⟨1, .number n⟩ => .ok { m with saplingCommitmentTreeSize := readUint32 n }
  | ⟨2, .number n⟩ => .ok { m with orchardCommitmentTreeSize := readUint32 n }
  | ⟨3, .number n⟩ => .ok { m with ironwoodCommitmentTreeSize := readUint32 n }
  | _ => .error "invalid wire type"

def encode : ChainMetadata → Bytes := encodeMessage fields

/-- A nested message that stands alone is merged into the one already there. -/
def decodeInto (m : ChainMetadata) : Bytes → Except String ChainMetadata :=
  decodeMessage declared merge m

theorem declares (m : ChainMetadata) : Declares declared m.fields :=
  .append (.number32 (by decide) rfl _) <| .append (.number32 (by decide) rfl _) <|
  .number32 (by decide) rfl _

theorem decode_encode (m : ChainMetadata) : decodeInto {} m.encode = .ok m := by
  obtain ⟨sapling, orchard, ironwood⟩ := m
  refine decodeMessage_encodeMessage (declares _) ?_
  refine foldlM_append_ok
    (foldlM_number32 merge (fun n => { saplingCommitmentTreeSize := n }) (fun _ => rfl) sapling) ?_
  refine foldlM_append_ok
    (foldlM_number32 merge (fun n => ⟨sapling, n, 0⟩) (fun _ => rfl) orchard) ?_
  exact foldlM_number32 merge (fun n => ⟨sapling, orchard, n⟩) (fun _ => rfl) ironwood

end ChainMetadata

namespace CompactBlock

def fields (m : CompactBlock) : List Field :=
  number 2 m.height ++ (bytes 3 m.hash ++ (bytes 4 m.prevHash ++ (number32 5 m.time ++
    (bytes 6 m.header ++ (repeated 7 CompactTx.encode m.vtx ++
    repeated 8 ChainMetadata.encode m.chainMetadata.toList)))))

def declared : Nat → Option WireType
  | 2 | 5 => some .varint
  | 3 | 4 | 6 | 7 | 8 => some .lengthDelimited
  | _ => none

def merge (m : CompactBlock) : Field → Except String CompactBlock
  | ⟨2, .number n⟩ => .ok { m with height := n }
  | ⟨3, .bytes b⟩ => .ok { m with hash := b }
  | ⟨4, .bytes b⟩ => .ok { m with prevHash := b }
  | ⟨5, .number n⟩ => .ok { m with time := readUint32 n }
  | ⟨6, .bytes b⟩ => .ok { m with header := b }
  | ⟨7, .bytes b⟩ => (CompactTx.decode b).map fun item => { m with vtx := m.vtx ++ [item] }
  | ⟨8, .bytes b⟩ =>
      (ChainMetadata.decodeInto (m.chainMetadata.getD {}) b).map fun item =>
        { m with chainMetadata := some item }
  | _ => .error "invalid wire type"

def encode : CompactBlock → Bytes := encodeMessage fields

def decode : Bytes → Except String CompactBlock := decodeMessage declared merge {}

theorem declares (m : CompactBlock) : Declares declared m.fields :=
  .append (.number (by decide) rfl _) <| .append (.bytes (by decide) rfl _) <|
  .append (.bytes (by decide) rfl _) <| .append (.number32 (by decide) rfl _) <|
  .append (.bytes (by decide) rfl _) <| .append (.repeated (by decide) rfl _ _) <|
  .repeated (by decide) rfl _ _

theorem decode_encode (m : CompactBlock) : decode m.encode = .ok m := by
  obtain ⟨height, hash, prevHash, time, header, vtx, chainMetadata⟩ := m
  refine decodeMessage_encodeMessage (declares _) ?_
  refine foldlM_append_ok (foldlM_number merge (fun n => { height := n }) (fun _ => rfl) height) ?_
  refine foldlM_append_ok
    (foldlM_bytes merge (fun b => { height := height, hash := b }) (fun _ => rfl) hash) ?_
  refine foldlM_append_ok (foldlM_bytes merge
    (fun b => { height := height, hash := hash, prevHash := b }) (fun _ => rfl) prevHash) ?_
  refine foldlM_append_ok (foldlM_number32 merge
    (fun n => { height := height, hash := hash, prevHash := prevHash, time := n })
    (fun _ => rfl) time) ?_
  refine foldlM_append_ok (foldlM_bytes merge
    (fun b => ⟨height, hash, prevHash, time, b, [], none⟩) (fun _ => rfl) header) ?_
  refine foldlM_append_ok (foldlM_repeated merge
    (fun l => ⟨height, hash, prevHash, time, header, l, none⟩) (fun before item => ?_) vtx) ?_
  · rw [merge, CompactTx.decode_encode]
    rfl
  rcases chainMetadata with _ | metadata
  · rfl
  · show List.foldlM merge _ [⟨8, .bytes metadata.encode⟩] = _
    rw [List.foldlM_cons, merge]
    show ((ChainMetadata.decodeInto {} metadata.encode).map _ >>= _) = _
    rw [ChainMetadata.decode_encode]
    rfl

end CompactBlock

/-- The codec, as the cache and the snapshots use it. -/
instance protobuf : Prost where
  encode := CompactBlock.encode
  decode bytes := (CompactBlock.decode bytes).mapError DecodeError.mk
  decode_encode block := by rw [CompactBlock.decode_encode]; rfl

instance sha2 : Sha256 where
  digest := Sha2.digest
  digest_length := Sha2.digest_length

/-! ### Transparent transactions -/

/-- The next `count` bytes. -/
def readBytes (count : Nat) (bytes : Bytes) : Except String (Bytes × Bytes) :=
  if count ≤ bytes.length then .ok (bytes.take count, bytes.drop count)
  else .error "failed to fill whole buffer"

/-- A little-endian integer of `width` bytes that would not fit a shorter form. -/
def readWide (width least : Nat) (bytes : Bytes) : Except String (Nat × Bytes) := do
  let (digits, rest) ← readBytes width bytes
  Except.ensure (least ≤ ofLeBytes digits) "non-canonical CompactSize"
  return (ofLeBytes digits, rest)

/-- A length prefix, in its shortest form and within what a message may hold. -/
def readSize (bytes : Bytes) : Except String (Nat × Bytes) := do
  let (flag, rest) ← readBytes 1 bytes
  let (size, rest) ←
    if ofLeBytes flag < 253 then .ok (ofLeBytes flag, rest)
    else if ofLeBytes flag = 253 then readWide 2 253 rest
    else if ofLeBytes flag = 254 then readWide 4 0x10000 rest
    else readWide 8 0x100000000 rest
  Except.ensure (size ≤ 0x02000000) "CompactSize too large"
  return (size, rest)

/-- As many items as the count in front of them says. -/
def readItems {α : Type} (item : Bytes → Except String (α × Bytes)) :
    Nat → Bytes → Except String (List α × Bytes)
  | 0, bytes => .ok ([], bytes)
  | count + 1, bytes => do
      let (first, rest) ← item bytes
      let (others, rest) ← readItems item count rest
      return (first :: others, rest)

def readScript (bytes : Bytes) : Except String (Bytes × Bytes) := do
  let (length, rest) ← readSize bytes
  readBytes length rest

def readInput (bytes : Bytes) : Except String (TransparentInput × Bytes) := do
  let (hash, rest) ← readBytes 32 bytes
  let (index, rest) ← readBytes 4 rest
  let (script, rest) ← readScript rest
  let (_, rest) ← readBytes 4 rest
  return (⟨hash, ofLeBytes index, script⟩, rest)

def readOutput (bytes : Bytes) : Except String (TxOut × Bytes) := do
  let (value, rest) ← readBytes 8 bytes
  let (script, rest) ← readScript rest
  return (⟨ofLeBytes value, script⟩, rest)

/-- A transaction of version 1, which has a transparent part only. -/
def readTransparent (bytes : Bytes) : Except String (Transaction × Bytes) := do
  let (version, rest) ← readBytes 4 bytes
  Except.ensure (ofLeBytes version = 1) "not a version 1 transaction"
  let (count, rest) ← readSize rest
  let (vin, rest) ← readItems readInput count rest
  let (count, rest) ← readSize rest
  let (vout, rest) ← readItems readOutput count rest
  let (_, rest) ← readBytes 4 rest
  let raw := bytes.take (bytes.length - rest.length)
  return ({
    txid := Sha2.digest (Sha2.digest raw)
    transparentBundle := if vin.isEmpty ∧ vout.isEmpty then none else some ⟨vin, vout⟩
    saplingBundle := none
    orchardBundle := none
    ironwoodBundle := none }, rest)

/-- The library on transparent transactions of the first version. -/
instance transparent : Librustzcash where
  readTransaction := readTransparent
  readCompactSize := readSize

/-! ### They keep the library's contract -/

theorem readBytes_eq_ok {count : Nat} {bytes taken rest : Bytes} :
    readBytes count bytes = .ok (taken, rest) ↔ taken.length = count ∧ bytes = taken ++ rest := by
  unfold readBytes
  constructor
  · intro h
    split at h
    · next hle =>
        cases h
        exact ⟨by simp [hle], (List.take_append_drop count bytes).symm⟩
    · cases h
  · rintro ⟨rfl, rfl⟩
    rw [if_pos (by simp), List.take_left, List.drop_left]

theorem consumes_readBytes (count : Nat) : Consumes (readBytes count) := by
  intro bytes taken rest h
  obtain ⟨hlength, hbytes⟩ := readBytes_eq_ok.mp h
  exact ⟨taken, hbytes, fun other => readBytes_eq_ok.mpr ⟨hlength, rfl⟩⟩

theorem readWide_eq_ok {width least : Nat} {bytes rest : Bytes} {n : Nat} :
    readWide width least bytes = .ok (n, rest) ↔
      least ≤ n ∧ n < 256 ^ width ∧ bytes = leBytes width n ++ rest := by
  unfold readWide
  simp only [Except.bind_eq_ok, Except.ensure_eq_ok, Except.pure_eq_ok, Prod.mk.injEq]
  constructor
  · rintro ⟨⟨digits, left⟩, hread, -, hleast, rfl, rfl⟩
    obtain ⟨rfl, hbytes⟩ := readBytes_eq_ok.mp hread
    exact ⟨hleast, ofLeBytes_lt digits, by rw [leBytes_ofLeBytes]; exact hbytes⟩
  · rintro ⟨hleast, hlt, hbytes⟩
    have hvalue := ofLeBytes_leBytes_of_lt hlt
    exact ⟨(leBytes width n, rest), readBytes_eq_ok.mpr ⟨by simp, hbytes⟩, (),
      by rw [hvalue]; exact hleast, hvalue, rfl⟩

/-- The size itself, after its marker. -/
def sizeForm (flag : Nat) (rest : Bytes) : Except String (Nat × Bytes) :=
  if flag < 253 then .ok (flag, rest)
  else if flag = 253 then readWide 2 253 rest
  else if flag = 254 then readWide 4 0x10000 rest
  else readWide 8 0x100000000 rest

private theorem readSize_cases {bytes rest : Bytes} {n : Nat} :
    readSize bytes = .ok (n, rest) ↔ ∃ flag left, readBytes 1 bytes = .ok (flag, left) ∧
      sizeForm (ofLeBytes flag) left = .ok (n, rest) ∧ n ≤ 0x02000000 := by
  have hcheck : ∀ x : Except String (Nat × Bytes),
      (x >>= fun read => Except.ensure (read.1 ≤ 0x02000000) "CompactSize too large" >>=
        fun _ => pure (read.1, read.2)) = .ok (n, rest) ↔ x = .ok (n, rest) ∧ n ≤ 0x02000000 := by
    intro x
    simp only [Except.bind_eq_ok, Except.ensure_eq_ok, Except.pure_eq_ok, Prod.mk.injEq]
    constructor
    · rintro ⟨⟨size, last⟩, hx, -, hmax, rfl, rfl⟩
      exact ⟨hx, hmax⟩
    · rintro ⟨hx, hmax⟩
      exact ⟨(n, rest), hx, (), hmax, rfl, rfl⟩
  have hform : readSize bytes = (readBytes 1 bytes >>= fun flag =>
      sizeForm (ofLeBytes flag.1) flag.2 >>= fun read =>
        Except.ensure (read.1 ≤ 0x02000000) "CompactSize too large" >>=
          fun _ => pure (read.1, read.2)) := by
    unfold readSize sizeForm
    refine bind_congr fun flag => ?_
    obtain ⟨digits, left⟩ := flag
    dsimp only
    split_ifs <;> rfl
  rw [hform, Except.bind_eq_ok]
  simp only [hcheck]
  constructor
  · rintro ⟨⟨flag, left⟩, hflag, hsize⟩
    exact ⟨flag, left, hflag, hsize⟩
  · rintro ⟨flag, left, hflag, hsize⟩
    exact ⟨(flag, left), hflag, hsize⟩

/-- A length prefix is read in its canonical encoding, and in no other. -/
theorem readSize_eq_ok {bytes rest : Bytes} {n : Nat} :
    readSize bytes = .ok (n, rest) ↔ n ≤ 0x02000000 ∧ bytes = writeCompactSize n ++ rest := by
  rw [readSize_cases]
  unfold sizeForm
  constructor
  · rintro ⟨flag, left, hflag, hform, hmax⟩
    obtain ⟨hlength, rfl⟩ := readBytes_eq_ok.mp hflag
    obtain ⟨b, rfl⟩ := List.length_eq_one_iff.mp hlength
    have hb : b.toNat < 256 := b.toNat_lt
    have hvalue : ofLeBytes [b] = b.toNat := by simp [ofLeBytes]
    have hbyte : ∀ value : Nat, b.toNat = value → b = UInt8.ofNat value := by
      intro value h
      rw [← h, UInt8.ofNat_toNat]
    refine ⟨hmax, ?_⟩
    simp only [hvalue] at hform
    unfold writeCompactSize
    split at hform
    · next hlt =>
        cases hform
        rw [if_pos hlt, UInt8.ofNat_toNat]
    · split at hform
      · next heq =>
          obtain ⟨hleast, hlt, rfl⟩ := readWide_eq_ok.mp hform
          rw [if_neg (by omega), if_pos (by omega), hbyte 253 heq]
          rfl
      · split at hform
        · next heq =>
            obtain ⟨hleast, hlt, rfl⟩ := readWide_eq_ok.mp hform
            rw [if_neg (by omega), if_neg (by omega), if_pos (by omega), hbyte 254 heq]
            rfl
        · -- A marker of eight bytes stands for more than a message may hold.
          obtain ⟨hleast, -, -⟩ := readWide_eq_ok.mp hform
          omega
  · rintro ⟨hmax, rfl⟩
    unfold writeCompactSize
    by_cases hone : n < 253
    · have hvalue : ofLeBytes [UInt8.ofNat n] = n := by
        simp [ofLeBytes, UInt8.toNat_ofNat', Nat.mod_eq_of_lt (show n < 256 by omega)]
      refine ⟨[UInt8.ofNat n], rest, readBytes_eq_ok.mpr ⟨rfl, by rw [if_pos hone]⟩, ?_, hmax⟩
      rw [hvalue, if_pos hone]
    · by_cases htwo : n ≤ 0xffff
      · refine ⟨[253], leBytes 2 n ++ rest, readBytes_eq_ok.mpr ⟨rfl, ?_⟩, ?_, hmax⟩
        · rw [if_neg hone, if_pos htwo]
          rfl
        · exact readWide_eq_ok.mpr ⟨by omega, by omega, rfl⟩
      · refine ⟨[254], leBytes 4 n ++ rest, readBytes_eq_ok.mpr ⟨rfl, ?_⟩, ?_, hmax⟩
        · rw [if_neg hone, if_neg htwo, if_pos (by omega)]
          rfl
        · exact readWide_eq_ok.mpr ⟨by omega, by omega, rfl⟩

theorem consumes_readSize : Consumes readSize := by
  intro bytes n rest h
  obtain ⟨hmax, hbytes⟩ := readSize_eq_ok.mp h
  exact ⟨writeCompactSize n, hbytes, fun other => readSize_eq_ok.mpr ⟨hmax, rfl⟩⟩

theorem consumes_readItems {α : Type} {item : Bytes → Except String (α × Bytes)}
    (h : Consumes item) (count : Nat) : Consumes (readItems item count) := by
  induction count with
  | zero => exact Consumes.pure []
  | succ count ih =>
      exact h.bind fun first => ih.bind fun others => Consumes.pure (first :: others)

theorem consumes_readScript : Consumes readScript :=
  consumes_readSize.bind fun length => consumes_readBytes length

theorem consumes_readInput : Consumes readInput :=
  (consumes_readBytes 32).bind fun hash => (consumes_readBytes 4).bind fun index =>
    consumes_readScript.bind fun script => (consumes_readBytes 4).bind fun _ =>
      Consumes.pure (⟨hash, ofLeBytes index, script⟩ : TransparentInput)

theorem consumes_readOutput : Consumes readOutput :=
  (consumes_readBytes 8).bind fun value => consumes_readScript.bind fun script =>
    Consumes.pure (⟨ofLeBytes value, script⟩ : TxOut)

/-- The inputs and outputs of a transaction, without its txid. -/
def readParts (bytes : Bytes) : Except String ((List TransparentInput × List TxOut) × Bytes) := do
  let (version, rest) ← readBytes 4 bytes
  Except.ensure (ofLeBytes version = 1) "not a version 1 transaction"
  let (count, rest) ← readSize rest
  let (vin, rest) ← readItems readInput count rest
  let (count, rest) ← readSize rest
  let (vout, rest) ← readItems readOutput count rest
  let (_, rest) ← readBytes 4 rest
  return ((vin, vout), rest)

private theorem consumes_readParts : Consumes readParts :=
  (consumes_readBytes 4).bind fun version =>
    Consumes.ensure (ofLeBytes version = 1) "not a version 1 transaction" <|
      consumes_readSize.bind fun inputs =>
        (consumes_readItems consumes_readInput inputs).bind fun vin =>
          consumes_readSize.bind fun outputs =>
            (consumes_readItems consumes_readOutput outputs).bind fun vout =>
              (consumes_readBytes 4).bind fun _ => Consumes.pure (vin, vout)

/-- A transaction is its parts with the hash of its bytes. -/
theorem readTransparent_eq_ok {bytes rest : Bytes} {tx : Transaction} :
    readTransparent bytes = .ok (tx, rest) ↔ ∃ parts, readParts bytes = .ok (parts, rest) ∧
      tx = {
        txid := Sha2.digest (Sha2.digest (bytes.take (bytes.length - rest.length)))
        transparentBundle :=
          if parts.1.isEmpty ∧ parts.2.isEmpty then none else some ⟨parts.1, parts.2⟩
        saplingBundle := none
        orchardBundle := none
        ironwoodBundle := none } := by
  unfold readTransparent readParts
  simp only [Except.bind_eq_ok, Except.pure_eq_ok, Prod.mk.injEq]
  constructor
  · rintro ⟨version, hversion, u, hu, inputs, hinputs, vin, hvin, outputs, houtputs, vout, hvout,
      lock, hlock, rfl, rfl⟩
    exact ⟨(vin.1, vout.1), ⟨version, hversion, u, hu, inputs, hinputs, vin, hvin, outputs,
      houtputs, vout, hvout, lock, hlock, rfl, rfl⟩, rfl⟩
  · rintro ⟨parts, ⟨version, hversion, u, hu, inputs, hinputs, vin, hvin, outputs, houtputs, vout,
      hvout, lock, hlock, rfl, rfl⟩, rfl⟩
    exact ⟨version, hversion, u, hu, inputs, hinputs, vin, hvin, outputs, houtputs, vout, hvout,
      lock, hlock, rfl, rfl⟩

private theorem consumes_readTransparent : Consumes readTransparent := by
  intro bytes tx rest h
  obtain ⟨parts, hparts, rfl⟩ := readTransparent_eq_ok.mp h
  obtain ⟨taken, rfl, htaken⟩ := consumes_readParts bytes parts rest hparts
  refine ⟨taken, rfl, ?_⟩
  intro other
  refine readTransparent_eq_ok.mpr ⟨parts, htaken other, ?_⟩
  simp

instance transparent_lawful : LawfulLibrustzcash where
  compactSize _ _ _ := readSize_eq_ok
  transaction := consumes_readTransparent
  ciphertexts := by
    intro bytes tx rest h
    obtain ⟨parts, -, rfl⟩ := readTransparent_eq_ok.mp h
    exact ⟨by simp, by simp, by simp⟩

/-! ### Two chains -/

/-- A coinbase transaction whose script starts with `push`. -/
def coinbaseTx (push : UInt8) : Bytes :=
  leBytes 4 1 ++ [1] ++ List.replicate 32 0 ++ List.replicate 4 0xff ++ [2, push, 0]
    ++ List.replicate 4 0xff ++ [0] ++ leBytes 4 0

/-- The header of a block, with an empty solution. -/
def rawHeader (prevHash : Bytes) : Bytes := leBytes 4 4 ++ prevHash ++ List.replicate 104 0 ++ [0]

/-- The headers of a chain from genesis on. -/
def headerAt : Nat → Bytes
  | 0 => rawHeader (List.replicate 32 0)
  | height + 1 => rawHeader (sha256d (headerAt height))

/-- What the node of that chain answers about a block whose height is a single opcode. -/
def repliesAt (height : Nat) : BlockReplies where
  verbose := .ok ⟨wireToDisplayHex (sha256d (headerAt height)), [], 0, 0, 0⟩
  raw _ := .ok (headerAt height ++ [1] ++
    coinbaseTx (if height = 0 then 0x00 else UInt8.ofNat (0x50 + height)))
  parseTask := none

/-- The blocks of the node's chain, as they are fetched. -/
def fetchedAt (height : Nat) : CompactBlock :=
  ((compactBlock (repliesAt height) height).toOption).getD {}

theorem fetchedAt_eq {height : Nat} (h : height ≤ 2) :
    compactBlock (repliesAt height) height = .ok (fetchedAt height) := by
  have hok : (compactBlock (repliesAt height) height).toOption.isSome = true := by
    interval_cases height <;> decide +kernel
  unfold fetchedAt
  revert hok
  rcases compactBlock (repliesAt height) height with e | block
  · intro hok
    cases hok
  · intro _
    rfl

/-- A fetched block of that chain has the hash of its header and the link in it. -/
theorem fetched_place {height : Nat} {block : CompactBlock}
    (h : compactBlock (repliesAt height) height = .ok block) :
    block.hash = sha256d (headerAt height) ∧
      ∃ tail, block.prevHash = ((headerAt height ++ tail).drop 4).take 32 := by
  unfold compactBlock at h
  simp only [Except.bind_eq_ok, Except.mapError_eq_ok, Except.ensure_eq_ok, Except.pure_eq_ok] at h
  obtain ⟨verbose, hverbose, raw, hraw, parsed, hparsed, -, -, -, hhash, -, -, rfl⟩ := h
  obtain rfl := Except.ok.inj hverbose
  obtain rfl := Except.ok.inj hraw
  refine ⟨wireToDisplayHex_inj hhash,
    [1] ++ coinbaseTx (if height = 0 then 0x00 else UInt8.ofNat (0x50 + height)), ?_⟩
  have hblock := Except.mapError_eq_ok.mp hparsed
  change toCompactBlock _ = _ at hblock
  unfold toCompactBlock at hblock
  simp only [Except.bind_eq_ok] at hblock
  obtain ⟨stop, -, read, -, vtx, -, -, -, hmatch⟩ := hblock
  split at hmatch
  · cases hmatch
  · cases hmatch
    rw [List.append_assoc]

theorem fetchedAt_linked {height : Nat} (h : height ≤ 1) :
    (fetchedAt (height + 1)).prevHash = (fetchedAt height).hash := by
  obtain ⟨-, tail, hprev⟩ := fetched_place (fetchedAt_eq (show height + 1 ≤ 2 by omega))
  rw [hprev, (fetched_place (fetchedAt_eq (show height ≤ 2 by omega))).1]
  show ((rawHeader (sha256d (headerAt height)) ++ tail).drop 4).take 32 = _
  have hlength : (sha256d (headerAt height)).length = 32 := Sha256.digest_length _
  unfold rawHeader
  rw [List.append_assoc, List.append_assoc, List.append_assoc, List.drop_left' (leBytes_length 4 4),
    List.take_left' hlength]

/-- The blocks of a chain in which nothing happens. -/
def emptyBlock (height : Nat) : CompactBlock where
  height := height
  hash := beBytes 32 (height + 1)
  prevHash := beBytes 32 height
  chainMetadata := some {}

end Lightwalletd
