/-
gRPC statuses, `src/service/errors.rs`, and the batching of streamed messages,
`src/service/framing.rs`.

A stream is the list of what it hands over: messages, ended by at most one error
if the source is one that stops at its first.  `coalesce` holds messages back
until they add up to a frame; the batches it releases are kept apart, since what
the wire sees is each of them going out with nothing in between.
-/
import Lightwalletd.Fetch

namespace Lightwalletd

/-! ### Statuses -/

/-- The gRPC status codes the service uses. -/
inductive Code
  | invalidArgument
  | notFound
  | resourceExhausted
  | aborted
  | outOfRange
  | unimplemented
  | internal
  | unavailable
  | deadlineExceeded
  deriving Repr, DecidableEq

structure Status where
  code : Code
  message : String
  deriving Repr, DecidableEq

/-- The status of a node error.  A transport or read-state error keeps its detail
on the server. -/
def NodeError.toStatus : NodeError → Status
  | http _ => ⟨.unavailable, "backend node unavailable"⟩
  | state _ => ⟨.unavailable, "read state unavailable"⟩
  | overloaded class_ =>
      ⟨.resourceExhausted, s!"too many {class_} queries in flight; retry shortly"⟩
  | task _ => ⟨.internal, "node call failed"⟩
  | error => ⟨.unavailable, error.display⟩

def FetchError.toStatus : FetchError → Status
  | node error => error.toStatus
  | parse error => ⟨.internal, error.display⟩
  | unexpectedHeight requested got =>
      ⟨.unavailable, s!"node returned block at height {got}, expected {requested}"⟩
  | hashMismatch requested computed =>
      ⟨.unavailable, s!"node returned bytes hashing to {computed}, expected {requested}"⟩
  | txidMismatch height index listed computed => ⟨.internal,
      s!"txid mismatch at height {height} tx {index}: node says {listed}, computed {computed}"⟩
  | txCountMismatch height listed computed => ⟨.internal,
      s!"tx count mismatch at height {height}: node lists {listed}, parsed {computed}"⟩
  | parseTask detail => ⟨.internal, detail⟩
  | windowClosed detail => ⟨.internal, detail⟩

def CacheError.toStatus (error : CacheError) : Status := ⟨.internal, error.display⟩

/-- The RPC error code of a height past the chain tip. -/
def rpcInvalidParameter : Int := -8

/-- Map a block-fetch failure: a height past the tip is out of range. -/
def blockFetchToStatus (error : FetchError) (height : Nat) : Status :=
  match error with
  | .node (.rpc code _) =>
      if code = rpcInvalidParameter then
        ⟨.outOfRange, s!"block {height} is newer than the latest block"⟩
      else error.toStatus
  | _ => error.toStatus

/-- Await a call of the node under a deadline, which may fire first. -/
def withDeadline {α : Type} (fired : Bool) (context : String) (call : α) : Except Status α :=
  if fired then .error ⟨.deadlineExceeded, s!"{context}: timed out waiting for the node"⟩
  else .ok call

/-- Decode a hex string, tagging a failure with `context`. -/
def decodeHex (value context : String) : Except Status Bytes :=
  (hexDecode value).mapError fun error =>
    ⟨.internal, s!"decoding {context}: {hexErrorDisplay error}"⟩

/-! ### Batches -/

/-- Encoded bytes a batch holds before it is released. -/
def batchBytes : Nat := 4 * 1024

/-- Messages held back until they add up to a frame worth sending. -/
structure FrameBatch (α : Type) where
  pending : List α
  bytes : Nat

namespace FrameBatch

variable {α : Type}

def new : FrameBatch α := ⟨[], 0⟩

/-- Add `message`, returning everything held once it is worth a frame. -/
def push (encodedLen : α → Nat) (batch : FrameBatch α) (message : α) :
    Option (List α) × FrameBatch α :=
  let bytes := batch.bytes + encodedLen message
  let pending := batch.pending ++ [message]
  if bytes ≥ batchBytes then (some pending, new) else (none, ⟨pending, bytes⟩)

end FrameBatch

/-- What `coalesce` hands over: the batches released on the way, what is still held
when the source ends or fails, and the error it ends with. -/
structure Coalesced (α : Type) where
  released : List (List α)
  flushed : List α
  error : Option Status

/-- The loop of `coalesce` over the source. -/
def coalesceFrom {α : Type} (encodedLen : α → Nat) :
    FrameBatch α → List (Except Status α) → Coalesced α
  | batch, [] => ⟨[], batch.pending, none⟩
  | batch, .error status :: _ => ⟨[], batch.pending, some status⟩
  | batch, .ok message :: rest =>
      match batch.push encodedLen message with
      | (some ready, batch) =>
          let out := coalesceFrom encodedLen batch rest
          { out with released := ready :: out.released }
      | (none, batch) => coalesceFrom encodedLen batch rest

/-- The messages a client receives, in order. -/
def Coalesced.items {α : Type} (out : Coalesced α) : List (Except Status α) :=
  (out.released.flatten ++ out.flushed).map .ok ++ (out.error.map .error).toList

/-- Batch `source` so its messages leave in groups worth a frame each. -/
def coalesce {α : Type} (encodedLen : α → Nat) (source : List (Except Status α)) :
    List (Except Status α) :=
  (coalesceFrom encodedLen FrameBatch.new source).items

end Lightwalletd
