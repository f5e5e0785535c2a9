/-
`GetMempoolStream` without a monitor, `get_mempool_stream_from_node` of
`src/service/mempool.rs`.

The stream asks the node itself, round after round, until a block is mined.  A round
asks in a fixed order, each transaction once, so its answers are numbered by the place
of the transaction in the node's list, as those of a refresh are.  Every round asks for
the tip again, also the first.
-/
import Lightwalletd.Service.Mempool

namespace Lightwalletd

structure RawTransaction where
  data : Bytes
  height : Nat
  deriving Repr, DecidableEq

/-- What the stream carries from one round to the next. -/
structure PollStream where
  startTip : String
  seen : List String
  deriving Repr, DecidableEq

/-- A stream that has snapshotted its tip. -/
def PollStream.start (startTip : String) : PollStream := ⟨startTip, []⟩

/-- How a round ended: the stream is over, with an error or because a block was mined,
or it sleeps and goes on. -/
inductive Polled
  | failed (status : Status)
  | finished
  | sleeping (stream : PollStream)
  deriving Repr, DecidableEq

/-- The loop over the node's list, from the given place on, with the txids seen so far.
A transaction that is already mined is only noted. -/
def pollTxs (answers : RefreshAnswers) :
    Nat → List String → List String → List RawTransaction × Except Status (List String)
  | _, seen, [] => ([], .ok seen)
  | place, seen, txid :: txids =>
      if txid ∈ seen then pollTxs answers (place + 1) seen txids
      else
        match answers.rawTransaction place with
        | .error error => ([], .error error.toStatus)
        | .ok raw =>
            if raw.height ≠ 0 then pollTxs answers (place + 1) (txid :: seen) txids
            else
              match decodeHex raw.hex "mempool tx" with
              | .error status => ([], .error status)
              | .ok data =>
                  let (items, result) := pollTxs answers (place + 1) (txid :: seen) txids
                  (⟨data, 0⟩ :: items, result)

/-- The body of the stream's loop: what it yields, and how it ends. -/
def PollStream.poll (stream : PollStream) (answers : RefreshAnswers) :
    List RawTransaction × Polled :=
  match answers.blockchainInfo with
  | .error error => ([], .failed error.toStatus)
  | .ok info =>
      if info.bestblockhash ≠ stream.startTip then ([], .finished)
      else
        match answers.rawMempool with
        | .error error => ([], .failed error.toStatus)
        | .ok txids =>
            match pollTxs answers 0 stream.seen txids with
            | (items, .error status) => (items, .failed status)
            | (items, .ok seen) => (items, .sleeping { stream with seen := seen })

/-- Round after round, as far as the stream goes. -/
def PollStream.run : PollStream → List RefreshAnswers → List RawTransaction × Polled
  | stream, [] => ([], .sleeping stream)
  | stream, answers :: rest =>
      match stream.poll answers with
      | (items, .sleeping next) => (items ++ (next.run rest).1, (next.run rest).2)
      | (items, ended) => (items, ended)

/-- The first request of the stream, and its rounds. -/
def getMempoolStreamFromNode (start : Except NodeError GetBlockchainInfo)
    (rounds : List RefreshAnswers) : List RawTransaction × Polled :=
  match start with
  | .error error => ([], .failed error.toStatus)
  | .ok info => (PollStream.start info.bestblockhash).run rounds

end Lightwalletd
