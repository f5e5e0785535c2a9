/-
Epoch bodies are an exact format.

What is written reads back, and what reads is laid out again to the bytes it was read
from: the parser takes every length from the body itself and leaves nothing over, so
a body is the only one with its content.  Nor can it be made to read outside: the
parser with its offsets written out never panics.
-/
import Lightwalletd.Proofs.Body
import Lightwalletd.Snapshot.Indexed

namespace Lightwalletd

open Checked

/-! ### Writing -/

def layoutRecord (record : Bytes) : Bytes := leBytes 4 record.length ++ record

def layout (header : EpochHeader) (records : List Bytes) : Bytes :=
  magic ++ [UInt8.ofNat (chainBytes header.chain).length] ++ chainBytes header.chain
    ++ leBytes 8 header.start ++ leBytes 4 header.count ++ records.flatMap layoutRecord

def writeAll (chain : String) (start : Nat) (records : List Bytes) :
    Except SnapshotError Bytes := do
  let out ← writeHeader [] chain start records.length
  records.foldlM writeRecord out

private theorem foldlM_writeRecord {records : List Bytes}
    (h : ∀ record ∈ records, record.length < 2 ^ 32)
    (out : Bytes) : records.foldlM writeRecord out = .ok (out ++ records.flatMap layoutRecord) := by
  induction records generalizing out with
  | nil =>
      rw [List.flatMap_nil, List.append_nil]
      rfl
  | cons record records ih =>
      have hrecord := writeRecord_eq_ok.mpr ⟨h record List.mem_cons_self, (rfl : _ = out ++ _)⟩
      rw [List.foldlM_cons, hrecord, Except.ok_bind,
        ih fun other hin => h other (List.mem_cons_of_mem _ hin), List.flatMap_cons,
        List.append_assoc]
      rfl

private theorem writeAll_eq {chain : String} (hchain : validChain chain = true) (start : Nat)
    {records : List Bytes} (hrecords : ∀ record ∈ records, record.length < 2 ^ 32) :
    writeAll chain start records = .ok (layout ⟨chain, start, records.length⟩ records) := by
  unfold writeAll writeHeader
  rw [if_pos hchain, Except.ok_bind, foldlM_writeRecord hrecords]
  rfl

/-! ### Reading what was written

Each reader takes what its writer put down and leaves the rest.
-/

/-- What is laid out is what rows with these records are written as. -/
theorem layout_eq_bodyOf (chain : String) (start : Nat) (records : List Bytes) :
    layout ⟨chain, start, records.length⟩ records
      = bodyOf chain start (records.map fun record => (0, record)) := by
  simp only [layout, bodyOf, recordsOf, List.length_map, List.flatMap_map]
  rfl

theorem parseEpoch_layout {chain : String} {start : Nat} {records : List Bytes}
    (hchain : validChain chain = true) (hstart : start ≤ u64Max)
    (hcount : records.length < 2 ^ 32) (hrecords : ∀ record ∈ records, record.length < 2 ^ 32) :
    parseEpoch (layout ⟨chain, start, records.length⟩ records)
      = .ok (⟨chain, start, records.length⟩, records) := by
  have hlength : (records.map fun record => ((0 : Nat), record)).length < 2 ^ 32 := by
    rw [List.length_map]
    exact hcount
  have hread := parseEpoch_bodyOf hchain hstart hlength (by simpa using hrecords)
  rw [layout_eq_bodyOf, hread]
  simp

/-! ### Laying out what was read

The other direction: whatever the parser accepts is what the writer would have written,
so that no body has two readings.
-/

theorem cursorTake_eq_ok {body rest taken rest' : Bytes} {length : Nat}
    (h : cursorTake body rest length = .ok (taken, rest')) :
    rest = taken ++ rest' ∧ taken.length = length := by
  unfold cursorTake at h
  split at h
  · next hle =>
      cases h
      exact ⟨(List.take_append_drop length rest).symm, List.length_take_of_le hle⟩
  · cases h

theorem parseRecords_eq_ok {body rest rest' : Bytes} {count : Nat} {records : List Bytes}
    (h : parseRecords body count rest = .ok (records, rest')) :
    records.length = count ∧ rest = records.flatMap layoutRecord ++ rest' := by
  induction count generalizing rest records with
  | zero =>
      cases h
      exact ⟨rfl, rfl⟩
  | succ count ih =>
      simp only [parseRecords, Except.bind_eq_ok, Except.pure_eq_ok, Prod.exists,
        Prod.mk.injEq] at h
      obtain ⟨size, afterSize, hsize, record, afterRecord, hrecord, later, last, hlater,
          rfl, rfl⟩ := h
      obtain ⟨rfl, hwidth⟩ := cursorTake_eq_ok hsize
      obtain ⟨rfl, hlength⟩ := cursorTake_eq_ok hrecord
      obtain ⟨hcount, rfl⟩ := ih hlater
      refine ⟨by rw [List.length_cons, hcount], ?_⟩
      have hread : leBytes 4 record.length = size := by
        rw [hlength, ← hwidth, leBytes_ofLeBytes]
      simp only [List.flatMap_cons, layoutRecord, hread, List.append_assoc]

theorem parseChain_eq_ok {name : Bytes} {chain : String} (h : parseChain name = .ok chain) :
    chainBytes chain = name := by
  unfold parseChain String.fromUTF8? at h
  split at h
  · next chain' hsome =>
      cases h
      split at hsome
      · cases hsome
        simp [chainBytes, String.fromUTF8]
      · cases hsome
  · cases h

/-- **What is read is laid out to the bytes it was read from.** -/
theorem layout_of_parsed {body : Bytes} {header : EpochHeader} {records : List Bytes}
    (h : parseEpoch body = .ok (header, records)) : layout header records = body := by
  simp only [parseEpoch, Except.bind_eq_ok, Except.ensure_eq_ok, Except.pure_eq_ok, Prod.exists,
    Prod.mk.injEq] at h
  obtain ⟨found, rest₁, hmagic, -, rfl, size, rest₂, hsize, name, rest₃, hname, chain,
      hchain, start,
    rest₄, hstart, count, rest₅, hcount, parsed, rest₆, hparsed, -, rfl, rfl, rfl⟩ := h
  obtain ⟨rfl, -⟩ := cursorTake_eq_ok hmagic
  obtain ⟨rfl, hsizeLength⟩ := cursorTake_eq_ok hsize
  obtain ⟨rfl, hnameLength⟩ := cursorTake_eq_ok hname
  obtain ⟨rfl, hstartLength⟩ := cursorTake_eq_ok hstart
  obtain ⟨rfl, hcountLength⟩ := cursorTake_eq_ok hcount
  obtain ⟨-, rfl⟩ := parseRecords_eq_ok hparsed
  obtain ⟨byte, rfl⟩ := List.length_eq_one_iff.mp hsizeLength
  have hbyte : UInt8.ofNat (chainBytes chain).length = byte := by
    rw [parseChain_eq_ok hchain, hnameLength]
    simp [ofLeBytes]
  have hread : ∀ {width : Nat} {bytes : Bytes}, bytes.length = width →
      leBytes width (ofLeBytes bytes) = bytes := by
    rintro width bytes rfl
    exact leBytes_ofLeBytes bytes
  unfold layout
  rw [hbyte, parseChain_eq_ok hchain, hread hstartLength, hread hcountLength]
  simp only [List.append_assoc, List.append_nil]

/-! ### Staying inside

With its offsets written out the parser checks each of them against the length before it
slices, and the sums are checked as well.
-/

section

variable {α : Type} {body : Bytes}

theorem take_bind (hbody : body.length < 2 ^ 64) {offset : Nat} (hoffset : offset ≤ body.length)
    (length : Nat) {f : Bytes × Bytes → Except SnapshotError α}
    {g : Bytes × Nat → Checked SnapshotError α}
    (h : ∀ taken, taken.length = length → offset + length ≤ body.length →
      g (taken, offset + length) = lift (f (taken, body.drop (offset + length)))) :
    (cursorTakeIndexed body offset length >>= g)
      = lift (cursorTake body (body.drop offset) length >>= f) := by
  unfold cursorTakeIndexed cursorTake
  have hleft : (body.drop offset).length = body.length - offset := List.length_drop
  by_cases hfits : offset + length ≤ body.length
  · have hsum : (checkedAdd offset length).filter (· ≤ body.length) = some (offset + length) := by
      simp only [checkedAdd, if_pos (Nat.lt_of_le_of_lt hfits hbody)]
      exact Option.filter_some_pos (by simpa using hfits)
    have htaken : ((body.drop offset).take length).length = length := by
      rw [List.length_take]
      omega
    rw [hsum, if_pos (by omega), Except.ok_bind, List.drop_drop]
    dsimp only
    rw [slice_eq (by omega) hfits, lift_ok_bind, Nat.add_sub_cancel_left, pure_eq, lift_ok_bind]
    exact h _ htaken hfits
  · have hsum : (checkedAdd offset length).filter (· ≤ body.length) = none := by
      unfold checkedAdd
      split
      · exact Option.filter_some_neg (by simpa using hfits)
      · rfl
    rw [hsum, if_neg (by omega), Except.error_bind, hleft, Nat.sub_sub_self hoffset]
    rfl

private theorem records_bind (hbody : body.length < 2 ^ 64) (count : Nat) {offset : Nat}
    (hoffset : offset ≤ body.length) {f : List Bytes × Bytes → Except SnapshotError α}
    {g : List Bytes × Nat → Checked SnapshotError α}
    (h : ∀ records offset, offset ≤ body.length →
      g (records, offset) = lift (f (records, body.drop offset))) :
    (parseRecordsIndexed body count offset >>= g)
      = lift (parseRecords body count (body.drop offset) >>= f) := by
  induction count generalizing offset f g with
  | zero => exact h [] offset hoffset
  | succ count ih =>
      simp only [parseRecordsIndexed, parseRecords, bind_assoc]
      refine take_bind hbody hoffset 4 fun size hsize hfits => ?_
      dsimp only
      rw [tryInto, if_pos hsize, lift_ok_bind]
      refine take_bind hbody hfits (ofLeBytes size) fun record _ hfits => ?_
      refine ih hfits fun records offset hoffset => ?_
      exact h (record :: records) offset hoffset

end

/-- **No body makes the parser panic**: with its offsets written out it is the same. -/
theorem parseEpochIndexed_eq {body : Bytes} (hbody : body.length < 2 ^ 64) :
    parseEpochIndexed body = lift (parseEpoch body) := by
  unfold parseEpochIndexed parseEpoch
  refine take_bind hbody (Nat.zero_le _) magic.length fun found _ hfits => ?_
  refine lift_bind fun _ _ => ?_
  refine take_bind hbody hfits 1 fun size hsize hfits => ?_
  obtain ⟨byte, rfl⟩ := List.length_eq_one_iff.mp hsize
  have hread : ofLeBytes [byte] = byte.toNat := by simp [ofLeBytes]
  dsimp only
  rw [index_eq (List.getElem?_cons_zero), lift_ok_bind, hread]
  refine take_bind hbody hfits byte.toNat fun name _ hfits => ?_
  refine lift_bind fun chain _ => ?_
  refine take_bind hbody hfits 8 fun start hstart hfits => ?_
  dsimp only
  rw [tryInto, if_pos hstart, lift_ok_bind]
  refine take_bind hbody hfits 4 fun count hcount hfits => ?_
  dsimp only
  rw [tryInto, if_pos hcount, lift_ok_bind]
  refine records_bind hbody (ofLeBytes count) hfits fun records offset hoffset => ?_
  have hleft : (body.drop offset).length = body.length - offset := List.length_drop
  dsimp only
  by_cases hend : offset = body.length
  · rw [if_neg (not_not.mpr hend), Except.ensure_pos (by rw [hend, List.drop_length])]
    rfl
  · rw [if_pos hend, Except.ensure_neg, sub_eq hoffset, lift_ok_bind, hleft]
    · rfl
    · intro hnil
      rw [hnil] at hleft
      simp at hleft
      omega

/--
**Epoch bodies are an exact format.**  For a chain name a header can carry and records
it can count and measure, what is written reads back to exactly the header and the
records; what is read, of any bytes, is laid out to exactly these bytes, so that no two
bodies have the same content; and no body makes the parser read outside of it.
-/
theorem epochBody_exact :
    (∀ (chain : String) (start : Nat) (records : List Bytes), validChain chain = true →
      start ≤ u64Max → records.length < 2 ^ 32 → (∀ record ∈ records, record.length < 2 ^ 32) →
      ∃ body, writeAll chain start records = .ok body ∧
        parseEpoch body = .ok (⟨chain, start, records.length⟩, records)) ∧
    (∀ (body : Bytes) (header : EpochHeader) (records : List Bytes),
      parseEpoch body = .ok (header, records) →
        layout header records = body ∧
        ∀ body', parseEpoch body' = .ok (header, records) → body' = body) ∧
    ∀ body : Bytes, body.length < 2 ^ 64 → parseEpochIndexed body = lift (parseEpoch body) := by
  refine ⟨?_, ?_, fun body hbody => parseEpochIndexed_eq hbody⟩
  · intro chain start records hchain hstart hcount hrecords
    exact ⟨_, writeAll_eq hchain start hrecords, parseEpoch_layout hchain hstart hcount hrecords⟩
  · intro body header records hbody
    refine ⟨layout_of_parsed hbody, fun body' hbody' => ?_⟩
    rw [← layout_of_parsed hbody, layout_of_parsed hbody']

/-- A body of two records. -/
theorem twoRecords_exact :
    ∃ body, writeAll "main" 10000 [[1, 2, 3], []] = .ok body ∧
      parseEpoch body = .ok (⟨"main", 10000, 2⟩, [[1, 2, 3], []]) ∧
      layout ⟨"main", 10000, 2⟩ [[1, 2, 3], []] = body := by
  obtain ⟨body, hwrite, hparse⟩ :=
    epochBody_exact.1 "main" 10000 [[1, 2, 3], []] (by decide +kernel)
    (by decide) (by decide) (by decide)
  exact ⟨body, hwrite, hparse, (epochBody_exact.2.1 body _ _ hparse).1⟩

end Lightwalletd
