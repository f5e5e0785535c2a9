/-
The concurrency bulkhead in front of the node, `src/node/bulkhead.rs`.

A call of a wallet is a future that waits for a permit of its pool, hands the
permit to a task of its own and waits for the task.  Dropping the future at either
wait is what a client's cancellation does: before the task there is no permit to
give back, and after it the task keeps the permit.

An action is one thing the runtime can do next.  The semaphore may set a permit
aside for a waiter that has not run yet: that permit is still free here, and any
waiter may be the one to take it, so every order the runtime has is among the
orders of actions.

Clocks are natural numbers of milliseconds.
-/
import Lightwalletd.Error
import Lightwalletd.Lib.Run

namespace Lightwalletd

/-! ### The calls -/

/-- A call of the node's interface, with its arguments. -/
inductive NodeRpc
  | getInfo
  | getBlockchainInfo
  | getBlockVerbose (height : Nat)
  | getBlockCount
  | getBlockHash (height : Nat)
  | getBlockHashes (heights : List Nat)
  | getBlockRaw (hash : String)
  | getRawTransaction (txid : String)
  | sendRawTransaction (hex : String)
  | getTreestate (id : String)
  | getAddressBalance (addresses : List String)
  | getAddressUtxos (addresses : List String)
  | getAddressTxids (addresses : List String) (start stop : Nat)
  | getSubtrees (protocol : String) (startIndex maxEntries : Nat)
  | getRawMempool
  deriving Repr, DecidableEq

/-- The two semaphores. -/
inductive PermitPool
  | scans
  | general
  deriving Repr, DecidableEq

/-- The label a refused call is turned away with. -/
def PermitPool.label : PermitPool → String
  | scans => "transparent-address"
  | general => "node"

/-- How many calls of each kind clients may have at the node. -/
structure ClientNodeLimits where
  concurrency : Nat
  scanConcurrency : Nat

/-- How long a call waits for a permit before it is refused. -/
def permitWait : Nat := 250

/-! ### The bulkhead -/

/-- An `OwnedSemaphorePermit`: how many permits of which semaphore it gives back when
it is dropped. -/
structure Permit where
  pool : PermitPool
  count : Nat
  deriving Repr, DecidableEq

/-- A spawned task: the node call it awaits, and the permit it holds until then. -/
structure NodeTask where
  id : Nat
  call : NodeRpc
  permit : Permit
  deriving Repr, DecidableEq

/-- Where a client's future is: at either wait, or done, with what the node answered
left out of a success. -/
inductive ClientPhase
  | admitting (deadline : Nat)
  | joining
  | returned (result : Except NodeError Unit)
  deriving DecidableEq

/-- A future a client still holds. -/
structure ClientCall where
  id : Nat
  call : NodeRpc
  phase : ClientPhase
  deriving DecidableEq

/-- The bulkhead among its calls: the free permits of each pool, the futures clients
hold and the tasks at the node. -/
structure Bulkhead where
  scans : Nat
  general : Nat
  clients : List ClientCall
  tasks : List NodeTask
  nextId : Nat
  now : Nat
  deriving DecidableEq

namespace Bulkhead

/-- Two pools, each with at least one permit. -/
def new (limits : ClientNodeLimits) : Bulkhead where
  scans := max limits.scanConcurrency 1
  general := max limits.concurrency 1
  clients := []
  tasks := []
  nextId := 0
  now := 0

def available (b : Bulkhead) : PermitPool → Nat
  | .scans => b.scans
  | .general => b.general

def setAvailable (b : Bulkhead) (count : Nat) : PermitPool → Bulkhead
  | .scans => { b with scans := count }
  | .general => { b with general := count }

/-- What a method asks of the bulkhead: a permit of a pool, to run a call under. -/
structure Request where
  pool : PermitPool
  call : NodeRpc

/-- Run `call` under a permit from the transparent-address pool. -/
def viaScan (call : NodeRpc) : Request := ⟨.scans, call⟩

/-- Run `call` under a permit from the general pool. -/
def viaGeneral (call : NodeRpc) : Request := ⟨.general, call⟩

/-- The methods, `impl NodeRpc for Bulkhead`. -/
def method : NodeRpc → Request
  | .getInfo => viaGeneral .getInfo
  | .getBlockchainInfo => viaGeneral .getBlockchainInfo
  | .getBlockVerbose height => viaGeneral (.getBlockVerbose height)
  | .getBlockCount => viaGeneral .getBlockCount
  | .getBlockHash height => viaGeneral (.getBlockHash height)
  | .getBlockHashes heights => viaGeneral (.getBlockHashes heights)
  | .getBlockRaw hash => viaGeneral (.getBlockRaw hash)
  | .getRawTransaction txid => viaGeneral (.getRawTransaction txid)
  | .sendRawTransaction hex => viaGeneral (.sendRawTransaction hex)
  | .getTreestate id => viaGeneral (.getTreestate id)
  | .getAddressBalance addresses => viaScan (.getAddressBalance addresses)
  | .getAddressUtxos addresses => viaScan (.getAddressUtxos addresses)
  | .getAddressTxids addresses start stop => viaScan (.getAddressTxids addresses start stop)
  | .getSubtrees protocol startIndex maxEntries =>
      viaGeneral (.getSubtrees protocol startIndex maxEntries)
  | .getRawMempool => viaGeneral .getRawMempool

/-! ### What can happen next

A future acquires its permit and spawns a task, is refused, or is cancelled.  A task
ends with an answer or in a panic.
-/

/-- One thing the runtime can do. -/
inductive Action
  | arrive (call : NodeRpc)
  | acquire (id : Nat)
  | refuse (id : Nat)
  | cancel (id : Nat)
  | finish (id : Nat) (answer : Except NodeError Unit)
  | panic (id : Nat) (detail : String)
  | tick (elapsed : Nat)
  deriving DecidableEq

/-- The future of a call, if its client still holds it. -/
def client (b : Bulkhead) (id : Nat) : Option ClientCall := b.clients.find? (·.id = id)

/-- Move the future of a call on. -/
def setPhase (b : Bulkhead) (id : Nat) (phase : ClientPhase) : Bulkhead :=
  { b with clients := b.clients.map fun client =>
      if client.id = id then { client with phase := phase } else client }

/-- The end of `admit` and the start of `hold`: take one permit and spawn the task
that keeps it. -/
def hold (b : Bulkhead) (id : Nat) (request : Request) : Bulkhead :=
  let b := b.setAvailable (b.available request.pool - 1) request.pool
  { b with tasks := ⟨id, request.call, ⟨request.pool, 1⟩⟩ :: b.tasks }.setPhase id .joining

/-- The end of a task: its permit is dropped, and its result goes to the future that
waits for it, if there is one. -/
def endTask (b : Bulkhead) (id : Nat) (result : Except NodeError Unit) : Option Bulkhead :=
  match b.tasks.find? (·.id = id) with
  | none => none
  | some task =>
      let b := b.setAvailable (b.available task.permit.pool + task.permit.count) task.permit.pool
      some ({ b with tasks := b.tasks.eraseP (·.id = id) }.setPhase id (.returned result))

/-- Where an action leads, if it is enabled. -/
def step (b : Bulkhead) : Action → Option Bulkhead
  | .arrive call =>
      let client : ClientCall := ⟨b.nextId, call, .admitting (b.now + permitWait)⟩
      some { b with clients := client :: b.clients, nextId := b.nextId + 1 }
  | .acquire id =>
      match b.client id with
      | some ⟨_, call, .admitting _⟩ =>
          if 0 < b.available (method call).pool then some (b.hold id (method call)) else none
      | _ => none
  | .refuse id =>
      match b.client id with
      | some ⟨_, call, .admitting deadline⟩ =>
          if deadline ≤ b.now then
            some (b.setPhase id (.returned (.error (.overloaded (method call).pool.label))))
          else none
      | _ => none
  | .cancel id => some { b with clients := b.clients.filter (·.id ≠ id) }
  | .finish id answer => b.endTask id answer
  | .panic id detail => b.endTask id (.error (.task detail))
  | .tick elapsed => some { b with now := b.now + elapsed }

end Bulkhead

end Lightwalletd
