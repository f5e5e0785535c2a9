/-
The ingestor, `src/ingestor.rs`: the background task that polls the node, fills the
cache and rolls back reorgs.

`StepEnv` is what one step gets to see of the node and of the runtime: the answer
to `getblockchaininfo`, how each fetch of the window turns out, and which task the
runtime lets go next.  Nothing ties the answers of one step to each other or to
those of another step, so an adversarial node is any choice of them.

Clocks are natural numbers of nanoseconds.
-/
import Lightwalletd.Cache
import Lightwalletd.Fetch
import Lightwalletd.Repair

namespace Lightwalletd

/-! ### The repair budget -/

/-- How many reported discontinuities may truncate the cache within one window. -/
def maxRepairsPerWindow : Nat := 5

/-- The span the repair budget is charged over. -/
def repairWindow : Nat := 600 * 1000000000

/-- How often a reported discontinuity may truncate the cache. -/
structure RepairBudget where
  spent : Nat
  windowStarted : Nat
  refusalLogged : Bool
  deriving Repr, DecidableEq

namespace RepairBudget

def new (now : Nat) : RepairBudget := ⟨0, now, false⟩

/-- Whether a repair may run, charging it to the current window. -/
def trySpend (budget : RepairBudget) (now : Nat) : Bool × RepairBudget :=
  let budget := if now - budget.windowStarted ≥ repairWindow then new now else budget
  if budget.spent ≥ maxRepairsPerWindow then (false, budget)
  else (true, { budget with spent := budget.spent + 1 })

/-- Whether this refusal is the first of its window. -/
def firstRefusalOfWindow (budget : RepairBudget) : Bool × RepairBudget :=
  (!budget.refusalLogged, { budget with refusalLogged := true })

end RepairBudget

/-! ### Rolling back -/

/-- Roll the cache back to `target`, keeping `target` itself.  A rollback that would
cross the floor, or that could not lower the tip, empties the cache. -/
def reorgToFloor (cache : Cache) (target startHeight : Nat) : Cache × Except CacheError Unit :=
  let wouldNotLowerTip := cache.latestHeight.all fun tip => target ≥ tip
  if target < startHeight ∨ wouldNotLowerTip then cache.truncateFrom 0
  else cache.reorg target

theorem reorgToFloor_below {cache : Cache} {height tip : Nat}
    (hlatest : cache.latestHeight = some tip)
    (hgenesis : height = 0 → tip = 0) (htip : height ≤ tip) (hword : height ≤ u64Max)
    (startHeight : Nat) :
    reorgToFloor cache (height - 1) startHeight
      = cache.removeFrom (if height ≤ startHeight then 0 else height) := by
  unfold reorgToFloor
  simp only [hlatest, Option.all_some, decide_eq_true_eq]
  by_cases hfloor : height ≤ startHeight
  · rw [if_pos (by omega), if_pos hfloor]
    rfl
  · rw [if_neg (by omega), if_neg hfloor, Cache.reorg, satAdd_of_le (by omega),
      Nat.sub_add_cancel (by omega)]

/-- Act on a discontinuity the read path reported at `height`. -/
def repairReported (cache : Cache) (height startHeight : Nat) (repair : RepairSignal)
    (budget : RepairBudget) (now : Nat) : Cache × RepairSignal × RepairBudget :=
  match cache.range with
  | none => (cache, repair, budget)
  | some (base, tip) =>
      if base ≤ height ∧ height ≤ tip then
        match budget.trySpend now with
        | (false, budget) => (cache, repair.report height, budget.firstRefusalOfWindow.2)
        | (true, budget) =>
            ((reorgToFloor cache (height - 1) startHeight).1, repair, budget)
      else (cache, repair, budget)

/-- Locate the lowest corrupt height and truncate from it. -/
def recover [Prost] (cache : Cache) : Cache × Except CacheError Unit :=
  match cache.lowestCorruptHeight with
  | some corrupt => cache.reorg (corrupt - 1)
  | none => (cache, .ok ())

/-- The open-time check of `run`, `src/lib.rs`: a pre-existing gap or schema mismatch
is localized and truncated. -/
def openTimeCheck [Prost] (cache : Cache) : Cache × Except CacheError Unit :=
  match cache.validateLight with
  | .ok () => (cache, .ok ())
  | .error _ => recover cache

/-! ### The window

The tasks of a window end in any order, and any of them may panic.  The order comes from
a schedule, on which no result depends.
-/

structure IngestConfig where
  window : Nat
  concurrency : Nat

/-- How one fetch task ended. -/
inductive TaskOutcome
  | fetched (replies : BlockReplies)
  | windowClosed (detail : String)
  | panicked (detail : String)
  | cancelled

/-- What one step gets to see. -/
structure StepEnv where
  blockchainInfo : Except NodeError GetBlockchainInfo
  task : Nat → TaskOutcome
  schedule : Nat → Nat

/-- The tasks of a window: waiting for a permit, holding one, and joined, the last
one first. -/
structure WindowTasks where
  waiting : List Nat
  running : List Nat
  joined : List Nat

/-- Let one task move: one that waits starts if a permit is free, and one that holds
a permit ends.  If none can, nothing changes. -/
def WindowTasks.step (permits choice : Nat) (tasks : WindowTasks) : WindowTasks :=
  let ready := if tasks.running.length < permits then tasks.waiting else []
  let moving := choice % (ready.length + tasks.running.length)
  if moving < ready.length then
    { tasks with
      waiting := tasks.waiting.eraseIdx moving
      running := tasks.waiting[moving]?.toList ++ tasks.running }
  else
    let ending := moving - ready.length
    { tasks with
      running := tasks.running.eraseIdx ending
      joined := tasks.running[ending]?.toList ++ tasks.joined }

/-- Let `count` tasks move. -/
def WindowTasks.steps (permits : Nat) (schedule : Nat → Nat) : Nat → WindowTasks → WindowTasks
  | 0, tasks => tasks
  | count + 1, tasks => steps permits schedule count (tasks.step permits (schedule count))

/-- The order in which the tasks of a window are joined: each moves twice. -/
def completionOrder (permits : Nat) (schedule : Nat → Nat) (heights : List Nat) : List Nat :=
  (WindowTasks.steps permits schedule (2 * heights.length) ⟨heights, [], []⟩).joined.reverse

/-- The results of a window by height, and the first task that panicked. -/
structure WindowResults where
  results : Table Nat (Except FetchError CompactBlock)
  panicked : Option String

/-- Take in one joined task. -/
def WindowResults.join [BlockParser] (task : Nat → TaskOutcome) (window : WindowResults)
    (height : Nat) : WindowResults :=
  match task height with
  | .fetched replies =>
      { window with results := window.results.insert height (compactBlock replies height) }
  | .windowClosed detail =>
      { window with results := window.results.insert height (.error (.windowClosed detail)) }
  | .panicked detail => { window with panicked := window.panicked.or (some detail) }
  | .cancelled => window

/-- Fetch `heights` with at most `concurrency` requests in flight, and at least one. -/
def fetchWindow [BlockParser] (env : StepEnv) (heights : List Nat) (concurrency : Nat) :
    WindowResults :=
  (completionOrder (max concurrency 1) env.schedule heights).foldl
    (WindowResults.join env.task) ⟨Table.empty, none⟩

/-! ### One step -/

inductive StepError
  | node (error : NodeError)
  | fetch (error : FetchError)
  | cache (error : CacheError)
  | encoding (error : FromHexError)
  | fetchTask (detail : String)
  deriving Repr, DecidableEq

/-- Whether this error is a cache corruption recoverable by truncation. -/
def StepError.isCorruption : StepError → Bool
  | cache (.corruption _ _) => true
  | cache (.decode _) => true
  | _ => false

/-- Outcome of a successful ingestor step. -/
inductive Progress
  | advanced
  | idle
  deriving Repr, DecidableEq

/-- What comparing the cached tip with the node's calls for. -/
inductive TipDecision
  | idle
  | rollBack (target : Nat)
  | fetchFrom (next : Nat)
  deriving Repr, DecidableEq

/-- Compare the cached tip with the node's, by height and hash. -/
def compareTip [Prost] (cache : Cache) (info : GetBlockchainInfo) (startHeight : Nat) :
    Except StepError TipDecision :=
  match cache.latestHeight with
  | none => .ok (.fetchFrom startHeight)
  | some latestHeight =>
      if latestHeight = info.blocks then do
        let tipHash ← (displayHexToWire info.bestblockhash).mapError .encoding
        let latest ← cache.latestHash.mapError .cache
        return if latest = some tipHash then .idle else .rollBack (latestHeight - 1)
      else if latestHeight > info.blocks then do
        let tipHash ← (displayHexToWire info.bestblockhash).mapError .encoding
        match ← (cache.get info.blocks).mapError .cache with
        | some cached =>
            return if cached.hash = tipHash then .idle else .rollBack (latestHeight - 1)
        | none => return .idle
      else .ok (.fetchFrom (latestHeight + 1))

/-- What is kept of a window: the longest run that chains onto the cached tip, with
the error that ended it, unless its very first block replaces the tip. -/
inductive Kept
  | reorg
  | batch (blocks : List CompactBlock) (failure : Option StepError)

/-- The loop over the results of a window. -/
def keepChained : Nat → Option Bytes → List CompactBlock →
    List (Nat × Except FetchError CompactBlock) → Kept
  | _, _, blocks, [] => .batch blocks none
  | expected, prevHash, blocks, (height, result) :: rest =>
      if height ≠ expected then .batch blocks none
      else match result with
        | .error error => .batch blocks (some (.fetch error))
        | .ok block =>
            if prevHash.any (· ≠ block.prevHash) then
              if blocks.isEmpty then .reorg else .batch blocks none
            else keepChained (expected + 1) (some block.hash) (blocks ++ [block]) rest

def rollBack (cache : Cache) (target startHeight : Nat) : Cache × Except StepError Progress :=
  match reorgToFloor cache target startHeight with
  | (cache, .ok ()) => (cache, .ok .advanced)
  | (cache, .error error) => (cache, .error (.cache error))

/-- Commit the kept run, and report how the window went. -/
def commitWindow [Prost] (cache : Cache) (blocks : List CompactBlock)
    (failure : Option StepError) : Cache × Except StepError Progress :=
  if blocks.isEmpty then
    match failure with
    | some error => (cache, .error error)
    | none => (cache, .ok .advanced)
  else
    match cache.addBatch blocks with
    | (cache, .error error) => (cache, .error (.cache error))
    | (cache, .ok ()) => (cache, .ok .advanced)

section

variable [Prost] [BlockParser] (env : StepEnv) (cache : Cache) (startHeight : Nat)
  (config : IngestConfig)

/-- Fetch the window from `next` on and keep what chains onto the cached tip. -/
def ingestWindow (tipHeight next : Nat) : Cache × Except StepError Progress :=
  let last := min tipHeight (satAdd next (config.window - 1))
  let window := fetchWindow env (List.range' next (last + 1 - next)) config.concurrency
  match cache.latestHash with
  | .error error => (cache, .error (.cache error))
  | .ok prevHash =>
      match keepChained next prevHash [] window.results.rows with
      | .reorg => rollBack cache (next - 2) startHeight
      | .batch blocks failure =>
          commitWindow cache blocks (failure.or (window.panicked.map .fetchTask))

/-- Try to ingest the next window of blocks. -/
def step : Cache × Except StepError Progress :=
  match env.blockchainInfo with
  | .error error => (cache, .error (.node error))
  | .ok info =>
      match compareTip cache info startHeight with
      | .error error => (cache, .error error)
      | .ok .idle => (cache, .ok .idle)
      | .ok (.rollBack target) => rollBack cache target startHeight
      | .ok (.fetchFrom next) =>
          if next > info.blocks then (cache, .ok .idle)
          else ingestWindow env cache startHeight config info.blocks next

end

/-! ### The loop

An iteration acts on a report, takes a step and reacts to its outcome.  It says for how
long it sleeps, if it does.
-/

/-- After this many consecutive corruption recoveries without a successful step, back
off. -/
def maxConsecutiveRecoveries : Nat := 5

/-- How long to wait when the cache is at the node's tip before polling again. -/
def idlePoll : Nat := 2 * 1000000000

def errorBackoff : Nat := 8 * 1000000000

/-- Whether a failed step should truncate and retry rather than back off. -/
def shouldRecover (error : StepError) (consecutiveRecoveries : Nat) : Bool :=
  error.isCorruption && decide (consecutiveRecoveries < maxConsecutiveRecoveries)

/-- What the loop of `run` carries from one iteration to the next, with the slot it
shares with the read path. -/
structure IngestLoop where
  cache : Cache
  repair : RepairSignal
  budget : RepairBudget
  consecutiveRecoveries : Nat

namespace IngestLoop

/-- The loop as it is entered. -/
def new (cache : Cache) (repair : RepairSignal) (now : Nat) : IngestLoop :=
  ⟨cache, repair, .new now, 0⟩

/-- Take the reported height and act on it. -/
def takeReport (loop : IngestLoop) (startHeight now : Nat) : IngestLoop :=
  match loop.repair.take with
  | (some height, repair) =>
      let (cache, repair, budget) :=
        repairReported loop.cache height startHeight repair loop.budget now
      { loop with cache := cache, repair := repair, budget := budget }
  | (none, repair) => { loop with repair := repair }

/-- React to how a step ended: what the loop carries on, and for how long it sleeps. -/
def afterStep [Prost] (loop : IngestLoop) : Except StepError Progress → IngestLoop × Nat
  | .ok .advanced => ({ loop with consecutiveRecoveries := 0 }, 0)
  | .ok .idle => ({ loop with consecutiveRecoveries := 0 }, idlePoll)
  | .error error =>
      if shouldRecover error loop.consecutiveRecoveries then
        let loop := { loop with consecutiveRecoveries := loop.consecutiveRecoveries + 1 }
        match recover loop.cache with
        | (cache, .ok ()) => ({ loop with cache := cache }, 0)
        | (cache, .error _) => ({ loop with cache := cache }, errorBackoff)
      else ({ loop with consecutiveRecoveries := 0 }, errorBackoff)

/-- One iteration: what it carries on, how its step ended, and for how long it sleeps. -/
def iterate [Prost] [BlockParser] (loop : IngestLoop) (startHeight : Nat) (config : IngestConfig)
    (now : Nat) (env : StepEnv) : IngestLoop × Except StepError Progress × Nat :=
  let loop := loop.takeReport startHeight now
  let (cache, result) := step env loop.cache startHeight config
  let (loop, sleep) := { loop with cache := cache }.afterStep result
  (loop, result, sleep)

end IngestLoop

/-- What moves the loop: a stream reports a height, or an iteration runs. -/
inductive LoopEvent
  | report (height : Nat)
  | iterate (now : Nat) (env : StepEnv)

def LoopEvent.apply [Prost] [BlockParser] (startHeight : Nat) (config : IngestConfig)
    (loop : IngestLoop) : LoopEvent → IngestLoop
  | report height => { loop with repair := loop.repair.report height }
  | iterate now env => (loop.iterate startHeight config now env).1

def IngestLoop.run [Prost] [BlockParser] (startHeight : Nat) (config : IngestConfig)
    (loop : IngestLoop) (events : List LoopEvent) : IngestLoop :=
  events.foldl (fun loop event => event.apply startHeight config loop) loop

end Lightwalletd
