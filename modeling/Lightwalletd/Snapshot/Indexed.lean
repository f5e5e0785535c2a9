/-
The manifest check of `src/snapshot/import.rs` and the body parser of
`src/snapshot/format.rs` with their arithmetic and indexing written out.

The check adds one to an index the peer has chosen, and the parser walks a body with
an offset into it: a sum past the machine word, where overflow is checked, and a slice
or an index out of range are panics, not errors.  These are the same functions as
`validateManifest` and `parseEpoch`, with every such operation a checked one and in the
order the source runs them.
-/
import Lightwalletd.Lib.Checked
import Lightwalletd.Snapshot.Import

namespace Lightwalletd

open Checked

/-! ### Manifests -/

/-- The checks of one manifest entry against the one before it. -/
def checkEntryIndexed (baseHeight : Nat) (previous : Option EpochEntry) (entry : EpochEntry) :
    Checked SnapshotError Unit :=
  if entry.start > entry.stop ∨ entry.stop ≠ epochLastHeight entry.index then
    lift (.error (.malformedManifest
      s!"epoch {entry.index} declares [{entry.start}, {entry.stop}], which is not the range of that index"))
  else
    match previous with
    | none =>
        if entry.start < epochFirstHeight entry.index ∨ baseHeight ≠ entry.start then
          lift (.error (.malformedManifest
            s!"first epoch starts at {entry.start} but the manifest advertises base {baseHeight}"))
        else lift (.ok ())
    | some previous => do
        let next ← add previous.index 1
        if entry.index ≠ next ∨ entry.start ≠ epochFirstHeight entry.index then
          lift (.error (.malformedManifest
            s!"epoch {entry.index} does not continue epoch {previous.index}"))
        else lift (.ok ())

/-- The loop of `validate_manifest`. -/
def checkEntriesIndexed (baseHeight : Nat) :
    Option EpochEntry → List EpochEntry → Checked SnapshotError Unit
  | _, [] => lift (.ok ())
  | previous, entry :: entries => do
      checkEntryIndexed baseHeight previous entry
      checkEntriesIndexed baseHeight (some entry) entries

def validateManifestIndexed (manifest : Manifest) (chain : String) :
    Checked SnapshotError Unit := do
  lift (Except.ensure (manifest.formatVersion = formatVersion)
    (.unsupportedVersion formatVersion manifest.formatVersion))
  lift (Except.ensure (manifest.epochSize = epochSize)
    (.epochSizeMismatch epochSize manifest.epochSize))
  lift (Except.ensure (manifest.chain = chain) (.chainMismatch chain manifest.chain))
  checkEntriesIndexed manifest.baseHeight none manifest.epochs

/-! ### Bodies -/

def checkedAdd (a b : Nat) : Option Nat := if a + b < 2 ^ 64 then some (a + b) else none

/-- `Cursor::take`: the next `length` bytes and the new offset. -/
def cursorTakeIndexed (body : Bytes) (offset length : Nat) : Checked SnapshotError (Bytes × Nat) :=
  match (checkedAdd offset length).filter (· ≤ body.length) with
  | none => lift (.error (.malformed
      s!"body ends after {body.length} bytes, need {length} more at offset {offset}"))
  | some stop => do
      let taken ← slice body offset stop
      return (taken, stop)

/-- `try_into` of a slice to an array of `width` bytes. -/
def tryInto (width : Nat) (bytes : Bytes) (detail : String) : Except SnapshotError Bytes :=
  if bytes.length = width then .ok bytes else .error (.malformed detail)

/-- The loop of `parse_epoch` over the records, and the offset it ends at. -/
def parseRecordsIndexed (body : Bytes) : Nat → Nat → Checked SnapshotError (List Bytes × Nat)
  | 0, offset => lift (.ok ([], offset))
  | count + 1, offset => do
      let (length, offset) ← cursorTakeIndexed body offset 4
      let length ← lift (tryInto 4 length "truncated record length")
      let (record, offset) ← cursorTakeIndexed body offset (ofLeBytes length)
      let (records, offset) ← parseRecordsIndexed body count offset
      return (record :: records, offset)

def parseEpochIndexed (body : Bytes) : Checked SnapshotError (EpochHeader × List Bytes) := do
  let (found, offset) ← cursorTakeIndexed body 0 magic.length
  lift (Except.ensure (found = magic) (.malformed
    s!"bad magic \"{hexEncode found}\", expected a version {formatVersion} epoch body"))
  let (chainLength, offset) ← cursorTakeIndexed body offset 1
  let chainLength ← index chainLength 0
  let (name, offset) ← cursorTakeIndexed body offset chainLength.toNat
  let chain ← lift (parseChain name)
  let (start, offset) ← cursorTakeIndexed body offset 8
  let start ← lift (tryInto 8 start "truncated start height")
  let (count, offset) ← cursorTakeIndexed body offset 4
  let count ← lift (tryInto 4 count "truncated record count")
  let (records, offset) ← parseRecordsIndexed body (ofLeBytes count) offset
  if offset ≠ body.length then do
    let trailing ← sub body.length offset
    lift (.error (.malformed s!"{trailing} trailing bytes after {ofLeBytes count} records"))
  else return ({ chain, start := ofLeBytes start, count := ofLeBytes count }, records)

end Lightwalletd
