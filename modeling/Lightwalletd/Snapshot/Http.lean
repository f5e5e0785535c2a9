/-
An epoch source over a peer's HTTP endpoints, `HttpEpochSource` of
`src/snapshot/import.rs`.

`HttpAnswer` is what the HTTP client makes of one request: an error before there is a
response, or a status and the pieces of the body as they arrive, decompressed.  The
attempts of a request are numbered from 1.
-/
import Lightwalletd.Lib.Retry
import Lightwalletd.Snapshot.Import

namespace Lightwalletd

/-- An error of the HTTP client, with the status if the peer chose one. -/
structure HttpError where
  status : Option Nat
  detail : String

/-- How one request comes back.  `refusal` is the text of the status as an error. -/
inductive HttpAnswer
  | failed (error : HttpError)
  | response (status : Nat) (refusal : String) (pieces : List Bytes) (cut : Option HttpError)

inductive DownloadError
  | http (error : HttpError)
  | rejected (error : SnapshotError)

/-- The error an import reports. -/
def DownloadError.toSnapshotError : DownloadError → SnapshotError
  | http error => .http error.detail
  | rejected error => error

/-- Collect the pieces of a body, refusing to hold more than `maxBytes`. -/
def readCapped (maxBytes : Nat) (tooLong : SnapshotError) (cut : Option HttpError) :
    Bytes → List Bytes → Except DownloadError Bytes
  | body, [] =>
      match cut with
      | some error => .error (.http error)
      | none => .ok body
  | body, piece :: pieces =>
      if body.length + piece.length > maxBytes then .error (.rejected tooLong)
      else readCapped maxBytes tooLong cut (body ++ piece) pieces

/-- `GET` under a cap.  A status from 400 to 599 is an error. -/
def getCapped (answer : HttpAnswer) (maxBytes : Nat) (tooLong : SnapshotError) :
    Except DownloadError Bytes :=
  match answer with
  | .failed error => .error (.http error)
  | .response status refusal pieces cut =>
      if 400 ≤ status ∧ status < 600 then .error (.http ⟨some status, refusal⟩)
      else readCapped maxBytes tooLong cut [] pieces

namespace HttpEpochSource

/-- Attempts per epoch before giving up. -/
def fetchAttempts : Nat := 3

/-- First backoff between attempts, in seconds. -/
def retryBackoff : Nat := 2

/-- Fetch one epoch, refusing to hold more than `maxBytes`. -/
def fetchEpoch (answer : HttpAnswer) (index maxBytes : Nat) : Except DownloadError Bytes :=
  getCapped answer maxBytes
    (.epochRejected index .length s!"body ran past the declared {maxBytes} bytes")

/-- Whether another attempt could plausibly land differently: a failure of the
transport, of the server, or a refusal for want of a slot. -/
def isWorthRetrying : DownloadError → Bool
  | .http error =>
      match error.status with
      | some status => (500 ≤ status && status < 600) || status = 429
      | none => true
  | .rejected _ => false

/-- `EpochSource::epoch`, with the seconds slept on the way. -/
def epoch (answers : Nat → HttpAnswer) (index maxBytes : Nat) :
    Except DownloadError Bytes × List Nat :=
  retry isWorthRetrying (fun attempt => fetchEpoch (answers attempt) index maxBytes)
    (fetchAttempts - 1) 1 retryBackoff

end HttpEpochSource

end Lightwalletd
