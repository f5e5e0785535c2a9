/-
The mempool as it is served, `src/service/mempool_monitor.rs` and
`get_mempool_stream` of `src/service/mempool.rs`.

One task refreshes the mempool and publishes a snapshot after each refresh that
succeeds; a refresh that fails keeps what it has learned so far and publishes
nothing.  A channel keeps the latest snapshot only.  A stream wakes up, reads it,
and yields the entries it has not sent yet, as counted by an index.

A refresh asks the node in a fixed order, each transaction once, so its answers are
numbered by the place of the transaction in the node's list.  A stream reads one
snapshot and then works on its own copy, so that a wakeup is one step, however
slowly its yields are taken.  Times are in nanoseconds.
-/
import Lightwalletd.Compact
import Lightwalletd.Service.Framing

namespace Lightwalletd

/-- How long a snapshot may go without a successful refresh before it is too stale to
serve: 60 seconds. -/
def stalenessCutoff : Nat := 60 * 1000000000

/-- One mempool transaction, parsed once. -/
structure MempoolEntry where
  txidDisplay : String
  wireTxid : Bytes
  raw : Bytes
  compact : CompactTx
  deriving Repr, DecidableEq

/-- The mempool as of the last refresh. -/
structure MempoolSnapshot where
  tipHash : String
  entries : List MempoolEntry
  refreshedAt : Option Nat
  deriving Repr, DecidableEq

namespace MempoolSnapshot

/-- The snapshot published before the first refresh completes. -/
def empty : MempoolSnapshot := ⟨"", [], none⟩

/-- A snapshot stamped fresh as of now. -/
def fresh (tipHash : String) (entries : List MempoolEntry) (now : Nat) : MempoolSnapshot :=
  ⟨tipHash, entries, some now⟩

/-- Whether this snapshot is too old, or was never refreshed. -/
def isStale (snapshot : MempoolSnapshot) (now : Nat) : Bool :=
  match snapshot.refreshedAt with
  | none => true
  | some refreshedAt => now - refreshedAt > stalenessCutoff

end MempoolSnapshot

/-! ### The monitor

The node's answers are taken in one after the other, and a refresh that fails leaves
what it has taken in.
-/

/-- The verbose `getrawtransaction`. -/
structure GetRawTransaction where
  hex : String
  height : Int

inductive RefreshError
  | node (error : NodeError)
  | hex (error : FromHexError)
  | parse (error : ParseError)
  deriving Repr, DecidableEq

/-- Accumulator carried across refreshes within one block interval. -/
structure MonitorState where
  tipHash : String
  seen : List String
  entries : List MempoolEntry
  deriving Repr, DecidableEq

def MonitorState.empty : MonitorState := ⟨"", [], []⟩

/-- What the node answers during one refresh. -/
structure RefreshAnswers where
  blockchainInfo : Except NodeError GetBlockchainInfo
  rawMempool : Except NodeError (List String)
  rawTransaction : Nat → Except NodeError GetRawTransaction

section

variable [Librustzcash]

/-- Take in one listed transaction.  One that cannot be fetched is left for the next
refresh, and one that has been mined meanwhile is only noted. -/
def refreshTx (answer : Except NodeError GetRawTransaction) (state : MonitorState)
    (txid : String) : MonitorState × Except RefreshError Unit :=
  if txid ∈ state.seen then (state, .ok ())
  else
    match answer with
    | .error _ => (state, .ok ())
    | .ok raw =>
        let state := { state with seen := txid :: state.seen }
        if raw.height ≠ 0 then (state, .ok ())
        else
          match hexDecode raw.hex with
          | .error error => (state, .error (.hex error))
          | .ok bytes =>
              match displayHexToWire txid with
              | .error error => (state, .error (.hex error))
              | .ok wireTxid =>
                  match compactTxFromRaw state.entries.length bytes with
                  | .error error => (state, .error (.parse error))
                  | .ok compact =>
                      let entry := ⟨txid, wireTxid, bytes, compact⟩
                      ({ state with entries := state.entries ++ [entry] }, .ok ())

/-- The loop over the node's list, from the given place on. -/
def refreshTxs (answers : RefreshAnswers) :
    Nat → MonitorState → List String → MonitorState × Except RefreshError Unit
  | _, state, [] => (state, .ok ())
  | place, state, txid :: txids =>
      match refreshTx (answers.rawTransaction place) state txid with
      | (state, .error error) => (state, .error error)
      | (state, .ok ()) => refreshTxs answers (place + 1) state txids

/-- Reset the interval state when the tip changed. -/
def MonitorState.atTip (state : MonitorState) (bestblockhash : String) : MonitorState :=
  if bestblockhash ≠ state.tipHash then ⟨bestblockhash, [], []⟩ else state

/-- Refresh the mempool once. -/
def refresh (answers : RefreshAnswers) (now : Nat) (state : MonitorState) :
    MonitorState × Except RefreshError MempoolSnapshot :=
  match answers.blockchainInfo with
  | .error error => (state, .error (.node error))
  | .ok info =>
      let state := state.atTip info.bestblockhash
      match answers.rawMempool with
      | .error error => (state, .error (.node error))
      | .ok txids =>
          match refreshTxs answers 0 state txids with
          | (state, .error error) => (state, .error error)
          | (state, .ok ()) => (state, .ok (MempoolSnapshot.fresh state.tipHash state.entries now))

end

/-! ### The stream -/

/-- What a stream carries from one wakeup to the next. -/
structure MempoolStream where
  startTip : String
  sent : Nat
  deriving Repr, DecidableEq

def MempoolStream.new : MempoolStream := ⟨"", 0⟩

/-- The status served instead of a snapshot that is too old. -/
def staleMempoolStatus : Status where
  code := .unavailable
  message :=
    "mempool snapshot is stale: the backend node has not refreshed it recently and may be " ++
    "unavailable"

/-- How a wakeup ended: the stream is over, with an error or because a block was mined,
or it has yielded entries. -/
inductive Wakeup
  | failed (status : Status)
  | finished
  | yielded (entries : List MempoolEntry) (stream : MempoolStream)

/-- The body of the loop of `get_mempool_stream`, on the snapshot it has read. -/
def MempoolStream.wake (stream : MempoolStream) (snapshot : MempoolSnapshot) (now : Nat) : Wakeup :=
  if snapshot.isStale now then .failed staleMempoolStatus
  else if stream.startTip = "" then
    .yielded (snapshot.entries.drop stream.sent) ⟨snapshot.tipHash, snapshot.entries.length⟩
  else if snapshot.tipHash ≠ stream.startTip then .finished
  else .yielded (snapshot.entries.drop stream.sent) ⟨stream.startTip, snapshot.entries.length⟩

end Lightwalletd
