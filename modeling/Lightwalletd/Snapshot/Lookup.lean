/-
The parallel hash lookup of an import, `fetch_block_hashes` of
`src/snapshot/import.rs`.

A fixed pool of workers pulls batches of heights off a shared counter and stops
early once one of them has set the failure flag.  The pool is a state machine that
advances one worker at a time, by as little as it can do without another worker
getting in between: it reads the flag, takes a number off the counter, gets its
answer, or is joined.  Which worker is next is the schedule's choice, so every
interleaving is some schedule; the order of the workers in the list means nothing.

Every worker that is not joined yet can advance, and a measure falls each time, so
the pool always runs to its end.
-/
import Lightwalletd.Fetch
import Lightwalletd.Lib.Table

namespace Lightwalletd

/-- Heights per batched lookup. -/
def lookupBatch : Nat := 250

/-- How one batched lookup came back: with the node's answer, or not at all because
the worker that made it panicked. -/
inductive BatchReply
  | answered (answer : Except NodeError (List String))
  | panicked (detail : String)

/-- What decides one lookup: how the workers interleave, and the reply to each
batch, by its number. -/
structure LookupEnv where
  schedule : Nat → Nat
  reply : Nat → BatchReply

/-- Where a worker stands in its loop, with the hashes it has found. -/
inductive Worker
  | checking (found : List (Nat × String))
  | claiming (found : List (Nat × String))
  | asking (number : Nat) (batch : List Nat) (found : List (Nat × String))
  | finished (result : Except SnapshotError (List (Nat × String)))

/-- The workers not joined yet, what they share, and the hashes joined so far. -/
structure Pool where
  next : Nat
  failed : Bool
  workers : List Worker
  hashes : Table Nat String

/-- The heights of a lookup in batches of `lookupBatch`, the last one shorter. -/
def lookupBatches (start stop : Nat) : List (List Nat) :=
  let heights := List.range' start (stop + 1 - start)
  (List.range ((heights.length + lookupBatch - 1) / lookupBatch)).map fun number =>
    (heights.drop (number * lookupBatch)).take lookupBatch

section

variable (env : LookupEnv) (epoch : Nat) (batches : List (List Nat))

/-- `BTreeMap::extend`. -/
def extendHashes (hashes : Table Nat String) (found : List (Nat × String)) : Table Nat String :=
  found.foldl (fun hashes row => hashes.insert row.1 row.2) hashes

/-- Advance `worker`, the rest of the pool's workers being `rest`.  Joining one that
failed ends the pool. -/
def Pool.advance (pool : Pool) (worker : Worker) (rest : List Worker) :
    Except SnapshotError Pool :=
  match worker with
  | .checking found =>
      let worker := if pool.failed then .finished (.ok found) else .claiming found
      .ok { pool with workers := worker :: rest }
  | .claiming found =>
      let worker := match batches[pool.next]? with
        | some batch => .asking pool.next batch found
        | none => .finished (.ok found)
      .ok { pool with next := pool.next + 1, workers := worker :: rest }
  | .asking number batch found =>
      match env.reply number with
      | .answered (.ok hashes) =>
          if hashes.length = batch.length then
            .ok { pool with workers := .checking (found ++ batch.zip hashes) :: rest }
          else
            let error := SnapshotError.epochRejected epoch .anchor
              s!"asked the node for {batch.length} hashes from height {batch.headD 0}, got {hashes.length}"
            .ok { pool with failed := true, workers := .finished (.error error) :: rest }
      | .answered (.error source) =>
          let error := SnapshotError.nodeLookup (batch.headD 0) source
          .ok { pool with failed := true, workers := .finished (.error error) :: rest }
      | .panicked detail =>
          .ok { pool with workers := .finished (.error (.lookupTask detail)) :: rest }
  | .finished (.ok found) =>
      .ok { pool with workers := rest, hashes := extendHashes pool.hashes found }
  | .finished (.error error) => .error error

/-- How many more times a worker can advance without a new batch. -/
def Worker.rank : Worker → Nat
  | checking _ => 3
  | claiming _ => 2
  | asking _ _ _ => 4
  | finished _ => 1

/-- A bound on how many more times the pool can advance. -/
def Pool.measure (pool : Pool) : Nat :=
  3 * (batches.length - pool.next) + (pool.workers.map Worker.rank).sum

/-- Every advance lowers the measure: a batch is worth the steps it gives. -/
theorem Pool.advance_measure {pool next : Pool} {worker : Worker} {rest : List Worker}
    (hworkers : (worker :: rest).Perm pool.workers)
    (h : pool.advance env epoch batches worker rest = .ok next) :
    next.measure batches < pool.measure batches := by
  have hsum := (hworkers.map Worker.rank).sum_eq
  simp only [List.map_cons, List.sum_cons] at hsum
  unfold Pool.measure
  rcases worker with found | found | ⟨number, batch, found⟩ | result
  · simp only [advance, Except.ok.injEq] at h
    subst h
    by_cases hfailed : pool.failed = true <;>
      simp [hfailed, Worker.rank] at hsum ⊢ <;> omega
  · simp only [advance, Except.ok.injEq] at h
    subst h
    rcases hbatch : batches[pool.next]? with _ | batch
    · simp [Worker.rank] at hsum ⊢
      omega
    · have hlt := (List.getElem?_eq_some_iff.mp hbatch).1
      simp [Worker.rank] at hsum ⊢
      omega
  · simp only [advance] at h
    have hrank : ∀ pool' : Pool, pool'.next = pool.next →
        (pool'.workers.map Worker.rank).sum < (pool.workers.map Worker.rank).sum →
        3 * (batches.length - pool'.next) + (pool'.workers.map Worker.rank).sum
          < 3 * (batches.length - pool.next) + (pool.workers.map Worker.rank).sum := by
      intro pool' hnext hlt
      omega
    refine hrank next ?_ ?_
    · repeat' split at h
      all_goals simp only [Except.ok.injEq] at h; subst h; rfl
    · repeat' split at h
      all_goals
        simp only [Except.ok.injEq] at h
        subst h
        simp [Worker.rank] at hsum ⊢
        omega
  · rcases result with error | found
    · simp [advance] at h
    · simp only [advance, Except.ok.injEq] at h
      subst h
      simp [Worker.rank] at hsum ⊢
      omega

/-- Run the pool until every worker is joined. -/
def Pool.run (clock : Nat) (pool : Pool) : Except SnapshotError (Table Nat String) :=
  if hsome : 0 < pool.workers.length then
    let i : Fin pool.workers.length := ⟨env.schedule clock % pool.workers.length,
      Nat.mod_lt _ hsome⟩
    match hstep : pool.advance env epoch batches (pool.workers.get i) (pool.workers.eraseIdx i) with
    | .ok next => next.run (clock + 1)
    | .error error => .error error
  else .ok pool.hashes
termination_by pool.measure batches
decreasing_by
  exact Pool.advance_measure env epoch batches (List.getElem_cons_eraseIdx_perm i.isLt) hstep

end

def Pool.start (concurrency : Nat) : Pool where
  next := 0
  failed := false
  workers := List.replicate (max concurrency 1) (.checking [])
  hashes := Table.empty

/-- Look up every height's block hash, in batches, with at most `concurrency`
requests in flight. -/
def fetchBlockHashes (env : LookupEnv) (epoch start stop concurrency : Nat) :
    Except SnapshotError (Table Nat String) :=
  (Pool.start concurrency).run env epoch (lookupBatches start stop) 0

end Lightwalletd
