/-
The endpoint that publishes epoch bodies, `src/snapshot/serve.rs`.

A request reads the cache in three transactions: the stored digest for the headers of
the response, the stored digest again when the export begins, and the rows of the
epoch.  The ingestor may write between any two, so `EpochReads` is the cache under
each of them.

The export writes into a buffer that goes out as soon as it is a chunk.  `reading n`
says whether the client still reads when it is handed its chunk `n`; the export of a
client that does not is over.  What has gone out by then is a body cut short, since
the status line is long gone.
-/
import Lightwalletd.Snapshot.Export

namespace Lightwalletd

/-- Bytes buffered before a chunk is handed to the response stream. -/
def chunkSize : Nat := 64 * 1024

/-! ### The writes of a body -/

/-- What `write_header` writes, piece by piece. -/
def headerPieces (chain : String) (start count : Nat) : Except SnapshotError (List Bytes) :=
  if validChain chain then
    .ok [magic, [UInt8.ofNat (chainBytes chain).length], chainBytes chain, leBytes 8 start,
      leBytes 4 count]
  else .error (.invalidChain chain)

def recordPieces (block : Bytes) : Except SnapshotError (List Bytes) :=
  if block.length < 2 ^ 32 then .ok [leBytes 4 block.length, block]
  else .error (.malformed s!"block of {block.length} bytes")

/-- The records of a body, up to one that cannot be written. -/
def recordsPieces : List (Nat × Bytes) → List Bytes × Except SnapshotError Unit
  | [] => ([], .ok ())
  | (_, raw) :: rest =>
      match recordPieces raw with
      | .error error => ([], .error error)
      | .ok pieces => (pieces ++ (recordsPieces rest).1, (recordsPieces rest).2)

/-- What `write_body` writes for `[start, stop]`, and how it ends. -/
def bodyPieces (cache : Cache) (chain : String) (start stop : Nat) :
    List Bytes × Except SnapshotError Unit :=
  match bodyCount start stop with
  | .error error => ([], .error error)
  | .ok count =>
      match headerPieces chain start count with
      | .error error => ([], .error error)
      | .ok header =>
          let rows := cache.blocks.range start stop
          match recordsPieces rows with
          | (records, .error error) => (header ++ records, .error error)
          | (records, .ok ()) =>
              if rows.length = count then (header ++ records, .ok ())
              else (header ++ records, .error (.malformed
                s!"epoch [{start}, {stop}] holds {rows.length} of {count} blocks"))

/-! ### Handing it over -/

/-- A writer that hands buffered chunks to the response stream. -/
structure ChunkWriter where
  /-- What has been handed over. -/
  sent : List Bytes := []
  buffer : Bytes := []

namespace ChunkWriter

variable (reading : Nat → Bool)

/-- Hand over what is buffered. -/
def send (writer : ChunkWriter) : ChunkWriter × Except String Unit :=
  if writer.buffer = [] then (writer, .ok ())
  else if reading writer.sent.length then ({ sent := writer.sent ++ [writer.buffer] }, .ok ())
  else ({ sent := writer.sent }, .error "the client stopped reading")

/-- `Write::write`, which always takes all of it. -/
def write (writer : ChunkWriter) (piece : Bytes) : ChunkWriter × Except String Unit :=
  let writer := { writer with buffer := writer.buffer ++ piece }
  if chunkSize ≤ writer.buffer.length then writer.send reading else (writer, .ok ())

/-- One write after the other, up to the first that fails. -/
def writeAll (writer : ChunkWriter) : List Bytes → ChunkWriter × Except String Unit
  | [] => (writer, .ok ())
  | piece :: pieces =>
      match writer.write reading piece with
      | (writer, .error error) => (writer, .error error)
      | (writer, .ok ()) => writer.writeAll pieces

end ChunkWriter

/-! ### The route -/

/-- The cache under each transaction of a request. -/
structure EpochReads where
  headers : Cache
  digest : Cache
  rows : Cache

/-- What `write_epoch` writes, and how it ends. -/
def epochPieces (reads : EpochReads) (chain : String) (index : Nat) :
    List Bytes × Except SnapshotError Unit :=
  match reads.digest.epochDigest index with
  | none => ([], .error (.unknownEpoch index))
  | some row =>
      match EpochDigest.decode row with
      | none => ([], .error (.malformedDigest index))
      | some digest => bodyPieces reads.rows chain digest.start digest.stop

/-- The export task: the chunks it hands over, and whether it gets to the end.  The
rest of the buffer is only flushed behind a whole body. -/
def exportEpoch (reading : Nat → Bool) (reads : EpochReads) (chain : String) (index : Nat) :
    List Bytes × Bool :=
  let (pieces, written) := epochPieces reads chain index
  match ({} : ChunkWriter).writeAll reading pieces, written with
  | (writer, .ok ()), .ok () =>
      match writer.send reading with
      | (writer, flushed) => (writer.sent, flushed.toBool)
  | (writer, _), _ => (writer.sent, false)

/-- A response of the epoch route. -/
inductive EpochResponse
  /-- A status without a body, or with a line that says so. -/
  | status (code : Nat)
  /-- The declared length, the chunks, and whether they are all. -/
  | body (contentLength : Nat) (chunks : List Bytes) (finished : Bool)

/-- `GET /snapshot/epoch/{index}`.  A request that finds no free slot is refused. -/
def epochRoute (slotFree : Bool) (reading : Nat → Bool) (reads : EpochReads) (chain : String)
    (index : Nat) : EpochResponse :=
  match reads.headers.epochDigest index with
  | none => .status 404
  | some row =>
      match EpochDigest.decode row with
      | none => .status 500
      | some digest =>
          if slotFree then
            let (chunks, finished) := exportEpoch reading reads chain index
            .body digest.bytes chunks finished
          else .status 429

end Lightwalletd
