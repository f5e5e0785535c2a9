/-
The snapshot wire format, `src/snapshot/format.rs`: epoch arithmetic, the
manifest, the epoch body framing and the two digests.

An epoch is a fixed span of `epochSize` heights.  Its bounds saturate at the
largest word, so every index has bounds, even one no chain will ever reach.

A body is a header followed by length-prefixed records.  A sink is the bytes
written to it so far, for the export and for the digest computation alike: hashing
them or counting them at the end is all an incremental hasher promises.

`Sha256` stands for the hash function, of which only the length of its output is
used.
-/
import Lightwalletd.Error
import Lightwalletd.Lib.Result

namespace Lightwalletd

/-- Heights covered by one epoch. -/
def epochSize : Nat := 10000

/-- Version of both the manifest and the epoch framing. -/
def formatVersion : Nat := 1

/-- First bytes of every epoch body: `LWDSNAP` and the version. -/
def magic : Bytes := [0x4c, 0x57, 0x44, 0x53, 0x4e, 0x41, 0x50, 0x01]

def epochIndex (height : Nat) : Nat := height / epochSize

/-- The first height `index` covers, ignoring where a cache actually starts. -/
def epochFirstHeight (index : Nat) : Nat := satMul index epochSize

/-- The last height `index` covers. -/
def epochLastHeight (index : Nat) : Nat := satAdd (epochFirstHeight index) (epochSize - 1)

/-- One downloadable epoch.  `stop` is the source's `end`. -/
structure EpochEntry where
  index : Nat
  start : Nat
  stop : Nat
  bytes : Nat
  contentDigest : String
  anchor : String
  deriving Repr, DecidableEq

/-- What a server publishes about the range it can serve. -/
structure Manifest where
  formatVersion : Nat
  chain : String
  epochSize : Nat
  baseHeight : Nat
  tipHeight : Nat
  epochs : List EpochEntry
  deriving Repr, DecidableEq

/-- The SHA-256 implementation. -/
class Sha256 where
  digest : Bytes → Bytes
  digest_length : ∀ bytes, (digest bytes).length = 32

/-! ### A completed epoch's digests -/

/-- What the `meta` table stores of a completed epoch. -/
structure EpochDigest where
  start : Nat
  stop : Nat
  bytes : Nat
  content : Bytes
  anchor : Bytes
  deriving Repr, DecidableEq

/-- Length of the encoded form: three `u64` fields followed by the two digests. -/
def EpochDigest.encodedLen : Nat := 8 * 3 + 32 * 2

def EpochDigest.encode (d : EpochDigest) : Bytes :=
  leBytes 8 d.start ++ leBytes 8 d.stop ++ leBytes 8 d.bytes ++ d.content ++ d.anchor

/-- Decode a stored row, or `none` if it is not exactly `encodedLen` bytes. -/
def EpochDigest.decode (row : Bytes) : Option EpochDigest :=
  if row.length = EpochDigest.encodedLen then
    some {
      start := ofLeBytes (row.take 8)
      stop := ofLeBytes ((row.drop 8).take 8)
      bytes := ofLeBytes ((row.drop 16).take 8)
      content := (row.drop 24).take 32
      anchor := (row.drop 56).take 32 }
  else none

/-- The manifest entry for this epoch. -/
def EpochDigest.entry (d : EpochDigest) (index : Nat) : EpochEntry where
  index := index
  start := d.start
  stop := d.stop
  bytes := d.bytes
  contentDigest := hexEncode d.content
  anchor := hexEncode d.anchor

/-! ### Writing a body -/

/-- The bytes of a chain name. -/
def chainBytes (chain : String) : Bytes := chain.toByteArray.data.toList

/-- A chain name an epoch header can carry: not empty, ASCII, at most 255 bytes. -/
def validChain (chain : String) : Bool :=
  !(chainBytes chain).isEmpty && (chainBytes chain).all (· < 128)
    && (chainBytes chain).length ≤ 255

/-- Write an epoch body header: magic, chain, first height, and how many records follow. -/
def writeHeader (out : Bytes) (chain : String) (start count : Nat) :
    Except SnapshotError Bytes :=
  if validChain chain then
    .ok (out ++ magic ++ [UInt8.ofNat (chainBytes chain).length] ++ chainBytes chain
      ++ leBytes 8 start ++ leBytes 4 count)
  else .error (.invalidChain chain)

def writeRecord (out block : Bytes) : Except SnapshotError Bytes :=
  if block.length < 2 ^ 32 then .ok (out ++ leBytes 4 block.length ++ block)
  else .error (.malformed s!"block of {block.length} bytes")

/-! ### Reading a body -/

/-- The decoded header of an epoch body. -/
structure EpochHeader where
  chain : String
  start : Nat
  count : Nat
  deriving DecidableEq

/-- `Cursor::take`: the next `length` bytes and what is left, or an error that says
where the body ends.  The cursor is what is left of the body; `body` and `offset`
only go into the error. -/
def cursorTake (body rest : Bytes) (length : Nat) : Except SnapshotError (Bytes × Bytes) :=
  if length ≤ rest.length then .ok (rest.take length, rest.drop length)
  else
    let offset := body.length - rest.length
    .error (.malformed
      s!"body ends after {body.length} bytes, need {length} more at offset {offset}")

/-- The records of a body, `count` of them, and what is left after the last. -/
def parseRecords (body : Bytes) : Nat → Bytes → Except SnapshotError (List Bytes × Bytes)
  | 0, rest => .ok ([], rest)
  | count + 1, rest => do
      let (length, rest) ← cursorTake body rest 4
      let (record, rest) ← cursorTake body rest (ofLeBytes length)
      let (records, rest) ← parseRecords body count rest
      return (record :: records, rest)

/-- `std::str::from_utf8` of a chain name. -/
def parseChain (name : Bytes) : Except SnapshotError String :=
  match String.fromUTF8? ⟨name.toArray⟩ with
  | some chain => .ok chain
  | none => .error (.malformed s!"chain name is not UTF-8: {(utf8Error 0 name).display}")

/-- Split an epoch body into its header and its record payloads, in order. -/
def parseEpoch (body : Bytes) : Except SnapshotError (EpochHeader × List Bytes) := do
  let (found, rest) ← cursorTake body body magic.length
  Except.ensure (found = magic) (.malformed
    s!"bad magic \"{hexEncode found}\", expected a version {formatVersion} epoch body")
  let (chainLength, rest) ← cursorTake body rest 1
  let (name, rest) ← cursorTake body rest (ofLeBytes chainLength)
  let chain ← parseChain name
  let (start, rest) ← cursorTake body rest 8
  let (count, rest) ← cursorTake body rest 4
  let (records, rest) ← parseRecords body (ofLeBytes count) rest
  Except.ensure (rest = []) (.malformed
    s!"{rest.length} trailing bytes after {ofLeBytes count} records")
  return ({ chain, start := ofLeBytes start, count := ofLeBytes count }, records)

/-! ### Digests -/

/-- SHA-256 of an uncompressed epoch body. -/
def contentDigest [Sha256] (body : Bytes) : Bytes := Sha256.digest body

/-- `DigestWriter::finish`: the digest of everything written, and how many bytes that was. -/
def digestWriterFinish [Sha256] (written : Bytes) : Bytes × Nat :=
  (Sha256.digest written, written.length)

/-- `AnchorHasher::update`: fold in one height and its block hash, in wire byte order. -/
def anchorUpdate (folded : Bytes) (height : Nat) (blockHash : Bytes) : Bytes :=
  folded ++ beBytes 8 height ++ blockHash

/-- `AnchorHasher::finish`: the anchor over everything folded in so far. -/
def anchorFinish [Sha256] (folded : Bytes) : Bytes := Sha256.digest folded

end Lightwalletd
