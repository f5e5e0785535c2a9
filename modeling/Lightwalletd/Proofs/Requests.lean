/-
Which batches the hash lookup asks for, and which answer ends up at a height.

A worker asks the node for the batch it takes off the counter, before anything can
come between the two.  The counter only goes up, so the batches asked for so far are
the numbers below it, in order, whoever asked: none is asked for twice.  And a bad
answer is never lost: its worker's result is an error until it is joined, and
joining it is what ends the lookup.
-/
import Lightwalletd.Proofs.Lookup

namespace Lightwalletd

section

variable (env : LookupEnv) (epoch : Nat) (batches : List (List Nat))

/-- The batch a worker asks the node for as it advances. -/
def Pool.request (pool : Pool) : Worker → Option Nat
  | .claiming _ => if pool.next < batches.length then some pool.next else none
  | _ => none

/-- The batches that a pool's run asks for, in order. -/
def Pool.requested (clock : Nat) (pool : Pool) : List Nat :=
  if hsome : 0 < pool.workers.length then
    let i : Fin pool.workers.length := ⟨env.schedule clock % pool.workers.length,
      Nat.mod_lt _ hsome⟩
    match _hstep :
      pool.advance env epoch batches (pool.workers.get i) (pool.workers.eraseIdx i) with
    | .ok next => (pool.request batches (pool.workers.get i)).toList ++ next.requested (clock + 1)
    | .error _ => (pool.request batches (pool.workers.get i)).toList
  else []
termination_by pool.measure batches
decreasing_by
  exact Pool.advance_measure env epoch batches (List.getElem_cons_eraseIdx_perm i.isLt) _hstep

/-- What some interleaving of the workers leads to, with the batches asked for on the
way. -/
inductive Pool.Trace (concurrency : Nat) : List Nat → Pool → Prop
  | start : Trace concurrency [] (Pool.start concurrency)
  | advance {requests : List Nat} {pool next : Pool} {worker : Worker} {rest : List Worker}
      (before : Trace concurrency requests pool) (chosen : (worker :: rest).Perm pool.workers)
      (step : pool.advance env epoch batches worker rest = .ok next) :
      Trace concurrency (requests ++ (pool.request batches worker).toList) next

/-- The node's answer to batch `number` is as many hashes as it was asked for. -/
def GoodReply (number : Nat) : Prop :=
  ∃ hashes, env.reply number = .answered (.ok hashes) ∧
    some hashes.length = batches[number]?.map List.length

end

/-- The node's answer for a height, in its place in the reply to the height's batch. -/
def LookupEnv.answerAt (env : LookupEnv) (start height : Nat) : Option String :=
  match env.reply ((height - start) / lookupBatch) with
  | .answered (.ok hashes) => hashes[(height - start) % lookupBatch]?
  | _ => none

section

variable {env : LookupEnv} {epoch : Nat} {batches : List (List Nat)}
  {pool next : Pool} {worker : Worker} {rest : List Worker}

/-! ### No batch twice

Numbers come off a counter, and no two workers get the same.
-/

theorem Pool.advance_request (hstep : pool.advance env epoch batches worker rest = .ok next) :
    List.range (min pool.next batches.length) ++ (pool.request batches worker).toList
      = List.range (min next.next batches.length) := by
  rcases worker with found | found | ⟨number, batch, found⟩ | (error | found)
  · obtain rfl := Except.ok.inj hstep
    simp [request]
  · obtain rfl := Except.ok.inj hstep
    unfold request
    by_cases hlt : pool.next < batches.length
    · simp only [if_pos hlt, Option.toList_some, Nat.min_eq_left (Nat.le_of_lt hlt),
        Nat.min_eq_left hlt, List.range_succ]
    · have hlen : batches.length ≤ pool.next := by omega
      simp only [if_neg hlt, Option.toList_none, List.append_nil, Nat.min_eq_right hlen,
        Nat.min_eq_right (Nat.le_succ_of_le hlen)]
  · have hnext : next.next = pool.next := by
      simp only [advance] at hstep
      repeat' split at hstep
      all_goals
        obtain rfl := Except.ok.inj hstep
        rfl
    simp [request, hnext]
  · cases hstep
  · obtain rfl := Except.ok.inj hstep
    simp [request]

/-- Joining a worker that failed asks for nothing. -/
theorem Pool.advance_error_request {error : SnapshotError}
    (hstep : pool.advance env epoch batches worker rest = .error error) :
    pool.request batches worker = none := by
  rcases worker with found | found | ⟨number, batch, found⟩ | result
  · cases hstep
  · cases hstep
  · rfl
  · rfl

theorem Pool.Trace.requests {concurrency : Nat} {requests : List Nat}
    (h : Trace env epoch batches concurrency requests pool) :
    requests = List.range (min pool.next batches.length) := by
  induction h with
  | start => simp [Pool.start]
  | advance before chosen step ih =>
      rw [ih]
      exact advance_request step

variable (env epoch batches) in
/-- Together with the numbers handed out before, a run asks for the batches up to some
number. -/
theorem Pool.run_requested (clock : Nat) (pool : Pool) :
    ∃ count, List.range (min pool.next batches.length) ++ pool.requested env epoch batches clock
      = List.range count := by
  fun_induction Pool.requested env epoch batches clock pool with
  | case1 clock pool hsome i next hstep ih =>
      rw [← List.append_assoc, advance_request hstep]
      exact ih
  | case2 clock pool hsome i error hstep =>
      refine ⟨min pool.next batches.length, ?_⟩
      rw [advance_error_request hstep, Option.toList_none, List.append_nil]
  | case3 clock pool hnone => exact ⟨min pool.next batches.length, by simp⟩

/-! ### No bad answer lost

A worker that got a bad answer keeps it until it is joined, and the pool ends with an
error then.
-/

variable (env batches) in
/-- A worker failed, or each batch taken off the counter is being asked for or has a
good answer, and no worker has left its loop but at the counter's end. -/
def Pool.Answering (pool : Pool) : Prop :=
  pool.Broken ∨ pool.failed = false ∧
    (∀ number < pool.next, number < batches.length →
      (∃ batch found, .asking number batch found ∈ pool.workers) ∨ GoodReply env batches number)

theorem Pool.start_answering (concurrency : Nat) : (Pool.start concurrency).Answering env batches :=
  Or.inr ⟨rfl, fun _ h => absurd h (Nat.not_lt_zero _)⟩

/-- A worker that moves on inside the pool, having got no bad answer. -/
theorem Pool.Answering.replace (h : pool.Answering env batches) (worker' : List Worker)
    (hchosen : (worker :: rest).Perm pool.workers)
    (hworker : ∀ error, worker ≠ .finished (.error error))
    (hnext : next.workers = worker' ++ rest) (hfailed : next.failed = pool.failed)
    (hasked : ∀ number < next.next, number < batches.length →
      number < pool.next ∧ (∀ batch found, worker ≠ .asking number batch found) ∨
      (∃ batch found, .asking number batch found ∈ worker') ∨ GoodReply env batches number) :
    next.Answering env batches := by
  rcases h with hbroken | ⟨hrunning, hclaimed⟩
  · exact Or.inl (hbroken.keep hchosen (fun w hw => hnext ▸ List.mem_append_right _ hw) hworker)
  refine Or.inr ⟨hfailed.trans hrunning, fun number hlt hlen => ?_⟩
  rcases hasked number hlt hlen with ⟨hold, hne⟩ | ⟨batch, found, hmem⟩ | hgood
  · rcases hclaimed number hold hlen with ⟨batch, found, hasking⟩ | hgood
    · have hin := asking_mem_rest hchosen hasking (hne batch found)
      exact Or.inl ⟨batch, found, hnext ▸ List.mem_append_right _ hin⟩
    · exact Or.inr hgood
  · exact Or.inl ⟨batch, found, hnext ▸ List.mem_append_left _ hmem⟩
  · exact Or.inr hgood

theorem Pool.advance_answering (h : pool.Answering env batches) (hinv : pool.Inv env batches)
    (hchosen : (worker :: rest).Perm pool.workers)
    (hstep : pool.advance env epoch batches worker rest = .ok next) :
    next.Answering env batches := by
  rcases worker with found | found | ⟨number, batch, found⟩ | (error | found)
  · obtain rfl := Except.ok.inj hstep
    exact h.replace [_] hchosen (by simp) rfl rfl fun number hlt _ => Or.inl ⟨hlt, by simp⟩
  · obtain rfl := Except.ok.inj hstep
    refine h.replace [_] hchosen (by simp) rfl rfl fun number hlt hlen => ?_
    rcases Nat.lt_succ_iff_lt_or_eq.mp hlt with hold | rfl
    · exact Or.inl ⟨hold, by simp⟩
    · rw [List.getElem?_eq_getElem hlen]
      exact Or.inr (Or.inl ⟨_, _, List.mem_singleton_self _⟩)
  · have hbatch := hinv.asked number batch found (hchosen.mem_iff.mp List.mem_cons_self)
    have hbad : ∀ (error : SnapshotError) (failed : Bool), Pool.Answering env batches
        { pool with failed := failed, workers := .finished (.error error) :: rest } :=
      fun error _ => Or.inl ⟨error, List.mem_cons_self⟩
    simp only [Pool.advance] at hstep
    rcases hreply : env.reply number with (source | hashes) | detail
    · simp only [hreply, Except.ok.injEq] at hstep
      exact hstep ▸ hbad _ true
    · simp only [hreply] at hstep
      by_cases hlen : hashes.length = batch.length
      · rw [if_pos hlen, Except.ok.injEq] at hstep
        subst hstep
        refine h.replace [_] hchosen (by simp) rfl rfl fun number' hlt _ => ?_
        by_cases hthis : number' = number
        · subst hthis
          exact Or.inr (Or.inr ⟨hashes, hreply, by rw [hbatch, Option.map_some, hlen]⟩)
        · refine Or.inl ⟨hlt, fun batch' found' heq => hthis ?_⟩
          exact (Worker.asking.inj heq).1.symm
      · rw [if_neg hlen, Except.ok.injEq] at hstep
        exact hstep ▸ hbad _ true
    · simp only [hreply, Except.ok.injEq] at hstep
      exact hstep ▸ hbad _ pool.failed
  · cases hstep
  · obtain rfl := Except.ok.inj hstep
    exact h.replace [] hchosen (by simp) rfl rfl fun number hlt _ => Or.inl ⟨hlt, by simp⟩

theorem Pool.Trace.inv {concurrency : Nat} {requests : List Nat}
    (h : Trace env epoch batches concurrency requests pool) :
    pool.Inv env batches ∧ pool.Answering env batches := by
  induction h with
  | start => exact ⟨Pool.start_inv concurrency, Pool.start_answering concurrency⟩
  | advance before chosen step ih =>
      exact ⟨advance_inv ih.1 chosen step, advance_answering ih.2 ih.1 chosen step⟩

/-- A pool that ends without an error has handed out every number, and each batch has a
good answer. -/
theorem Pool.run_answered (clock : Nat) (pool : Pool) :
    pool.Inv env batches → pool.Answering env batches →
      ∀ hashes, pool.run env epoch batches clock = .ok hashes →
        List.range (min pool.next batches.length) ++ pool.requested env epoch batches clock
          = List.range batches.length ∧
        ∀ number < batches.length, GoodReply env batches number := by
  fun_induction Pool.run env epoch batches clock pool with
  | case1 clock pool hsome i next hstep ih =>
      intro hinv hanswering hashes hrun
      have hperm := List.getElem_cons_eraseIdx_perm i.isLt
      have hrest := ih (advance_inv hinv hperm hstep)
          (advance_answering hanswering hinv hperm hstep)
        hashes hrun
      have hrequested : pool.requested env epoch batches clock
          = (pool.request batches (pool.workers.get i)).toList
            ++ next.requested env epoch batches (clock + 1) := by
        rw [requested, dif_pos hsome]
        dsimp only
        split
        next next' hstep' => rw [Except.ok.inj (hstep.symm.trans hstep')]
        next error hstep' => exact absurd (hstep.symm.trans hstep') (by simp)
      rw [hrequested, ← List.append_assoc, advance_request hstep]
      exact hrest
  | case2 clock pool hsome i error hstep =>
      intro _ _ hashes hrun
      cases hrun
  | case3 clock pool hnone =>
      intro hinv hanswering hashes _
      have hempty : pool.workers = [] := List.length_eq_zero_iff.mp (by omega)
      have hwhole : ¬pool.Broken := by
        rintro ⟨error, hmem⟩
        simp [hempty] at hmem
      have hlen : batches.length ≤ pool.next :=
        (hinv.accounted.resolve_left hwhole).exhausted (by simp [hempty])
      refine ⟨?_, fun number hlt => ?_⟩
      · rw [requested, dif_neg hnone, List.append_nil, Nat.min_eq_right hlen]
      · rcases (hanswering.resolve_left hwhole).2 number (by omega) hlt with ⟨_, _, hmem⟩ | hgood
        · simp [hempty] at hmem
        · exact hgood

theorem Pool.advance_keeps (hstep : pool.advance env epoch batches worker rest = .ok next) :
    ∀ w ∈ rest, w ∈ next.workers := by
  intro w hw
  rcases worker with found | found | ⟨number, batch, found⟩ | (error | found)
  · obtain rfl := Except.ok.inj hstep
    exact List.mem_cons_of_mem _ hw
  · obtain rfl := Except.ok.inj hstep
    exact List.mem_cons_of_mem _ hw
  · simp only [advance] at hstep
    repeat' split at hstep
    all_goals
      obtain rfl := Except.ok.inj hstep
      exact List.mem_cons_of_mem _ hw
  · cases hstep
  · obtain rfl := Except.ok.inj hstep
    exact hw

theorem Pool.run_broken (clock : Nat) (pool : Pool) :
    pool.Broken → ∃ error, pool.run env epoch batches clock = .error error := by
  fun_induction Pool.run env epoch batches clock pool with
  | case1 clock pool hsome i next hstep ih =>
      intro hbroken
      refine ih (hbroken.keep (List.getElem_cons_eraseIdx_perm i.isLt) ?_ ?_)
      · intro w hw
        exact advance_keeps hstep w hw
      · intro error heq
        have hself : pool.workers.get i = .finished (.error error) := heq
        rw [hself] at hstep
        cases hstep
  | case2 clock pool hsome i error hstep =>
      intro _
      exact ⟨error, rfl⟩
  | case3 clock pool hnone =>
      rintro ⟨error, hmem⟩
      rw [List.length_eq_zero_iff.mp (by omega : pool.workers.length = 0)] at hmem
      cases hmem

end

/-! ### The answer at a height -/

theorem answered_answerAt {env : LookupEnv} {start stop : Nat} {row : Nat × String}
    (h : Answered env (lookupBatches start stop) row) :
    start ≤ row.1 ∧ row.1 ≤ stop ∧ env.answerAt start row.1 = some row.2 := by
  obtain ⟨number, batch, hashes, hbatch, hreply, hmem⟩ := h
  have hheight : row.1 ∈ batch := (List.of_mem_zip hmem).1
  obtain ⟨hlow, hhigh⟩ := lookupBatches_mem hbatch hheight
  refine ⟨hlow, hhigh, ?_⟩
  obtain ⟨i, hi⟩ := List.mem_iff_getElem?.mp hmem
  obtain ⟨hleft, hright⟩ := List.getElem?_zip_eq_some.mp hi
  obtain ⟨hnumber, rfl⟩ := List.getElem?_eq_some_iff.mp hbatch
  simp only [lookupBatches, List.getElem_map, List.getElem_range, List.getElem?_take] at hleft
  split at hleft
  next hlt =>
    rw [List.getElem?_drop] at hleft
    obtain ⟨hin, hrow⟩ := List.getElem?_eq_some_iff.mp hleft
    rw [List.getElem_range'] at hrow
    have hplace : row.1 - start = i + lookupBatch * number := by
      rw [← hrow, Nat.mul_comm number]
      omega
    unfold LookupEnv.answerAt
    rw [hplace, Nat.add_mul_div_left _ _ (Nat.zero_lt_of_lt hlt), Nat.div_eq_of_lt hlt,
      Nat.zero_add, hreply, Nat.add_mul_mod_self_left, Nat.mod_eq_of_lt hlt]
    exact hright
  next => cases hleft

/--
**The lookup is all or nothing, and asks for nothing twice.**  If it ends without an
error, it has the heights asked for and no others, each with the node's answer for it,
and it has asked for every batch exactly once, in order.  If a batch it asks for gets a
bad answer, it ends with an error.  And in no interleaving is a batch asked for twice,
nor can a worker's error be lost from any point of it on.
-/
theorem fetchBlockHashes_atomic (env : LookupEnv) (epoch start stop concurrency : Nat) :
    (∀ hashes, fetchBlockHashes env epoch start stop concurrency = .ok hashes →
      (∀ height, (hashes.get height).isSome = true ↔ start ≤ height ∧ height ≤ stop) ∧
      (∀ height, start ≤ height → height ≤ stop →
        hashes.get height = env.answerAt start height) ∧
      (Pool.start concurrency).requested env epoch (lookupBatches start stop) 0
        = List.range (lookupBatches start stop).length) ∧
    (∀ number ∈ (Pool.start concurrency).requested env epoch (lookupBatches start stop) 0,
      ¬GoodReply env (lookupBatches start stop) number →
      ∃ error, fetchBlockHashes env epoch start stop concurrency = .error error) ∧
    ((Pool.start concurrency).requested env epoch (lookupBatches start stop) 0).Nodup ∧
    ∀ requests pool, Pool.Trace env epoch (lookupBatches start stop) concurrency requests pool →
      requests.Nodup ∧
      ∀ clock, (pool.Broken →
        ∃ error, pool.run env epoch (lookupBatches start stop) clock = .error error) ∧
      (requests ++ pool.requested env epoch (lookupBatches start stop) clock).Nodup := by
  have hstart : List.range (min (Pool.start concurrency).next (lookupBatches start stop).length)
      = [] := by simp [Pool.start]
  obtain ⟨count, hcount⟩ := Pool.run_requested env epoch (lookupBatches start stop) 0
    (Pool.start concurrency)
  rw [hstart, List.nil_append] at hcount
  have hended : ∀ hashes, fetchBlockHashes env epoch start stop concurrency = .ok hashes →
      (Pool.start concurrency).requested env epoch (lookupBatches start stop) 0
        = List.range (lookupBatches start stop).length ∧
      ∀ number < (lookupBatches start stop).length,
        GoodReply env (lookupBatches start stop) number := by
    intro hashes hrun
    have hall := Pool.run_answered 0 (Pool.start concurrency) (Pool.start_inv concurrency)
      (Pool.start_answering concurrency) hashes hrun
    rwa [hstart, List.nil_append] at hall
  refine ⟨fun hashes hrun => ?_, fun number hmem hbad => ?_, hcount ▸ List.nodup_range,
    fun requests pool htrace => ⟨htrace.requests ▸ List.nodup_range, fun clock =>
      ⟨Pool.run_broken clock pool, ?_⟩⟩⟩
  · obtain ⟨hsound, hall⟩ := fetchBlockHashes_ok hrun
    have hplace : ∀ height hash, hashes.get height = some hash →
        start ≤ height ∧ height ≤ stop ∧ env.answerAt start height = some hash :=
      fun height hash hget => answered_answerAt (hsound _ (Table.get_eq_some_iff.mp hget))
    refine ⟨fun height => ⟨fun hsome => ?_, fun hin => hall height hin.1 hin.2⟩,
      fun height hlow hhigh => ?_, (hended hashes hrun).1⟩
    · obtain ⟨hash, hget⟩ := Option.isSome_iff_exists.mp hsome
      obtain ⟨hlow, hhigh, -⟩ := hplace height hash hget
      exact ⟨hlow, hhigh⟩
    · obtain ⟨hash, hget⟩ := Option.isSome_iff_exists.mp (hall height hlow hhigh)
      rw [hget, (hplace height hash hget).2.2]
  · rcases hrun : fetchBlockHashes env epoch start stop concurrency with error | hashes
    · exact ⟨error, rfl⟩
    · obtain ⟨hrequested, hgood⟩ := hended hashes hrun
      rw [hrequested] at hmem
      exact absurd (hgood number (List.mem_range.mp hmem)) hbad
  · obtain ⟨total, htotal⟩ := Pool.run_requested env epoch (lookupBatches start stop) clock pool
    rw [htrace.requests, htotal]
    exact List.nodup_range

end Lightwalletd
