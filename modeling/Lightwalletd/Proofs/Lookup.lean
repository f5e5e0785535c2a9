/-
The parallel hash lookup is all or nothing.

Whatever the schedule, a pool that ends without an error has asked the node for
every batch and kept every answer.  The invariant behind it, `Accounted`, says
that no batch is ever lost silently: a batch whose number has been taken off the
counter is being asked for, or its hashes are held by some worker or by the pool;
and if it is not, there is a worker whose result is an error, which the pool will
return when it joins it.
-/
import Lightwalletd.Snapshot.Lookup
import Lightwalletd.Lib.Segment

namespace Lightwalletd

/-! ### The batches -/

private theorem mem_lookupBatches {start stop height : Nat} (hlow : start ≤ height)
    (hhigh : height ≤ stop) : ∃ (number : Nat) (batch : List Nat),
      (lookupBatches start stop)[number]? = some batch ∧ height ∈ batch := by
  have hlt : height - start < stop + 1 - start := by omega
  refine ⟨(height - start) / lookupBatch, _, List.getElem?_eq_some_iff.mpr ⟨?_, rfl⟩, ?_⟩
  · simp only [lookupBatches, List.length_map, List.length_range, List.length_range',
      lookupBatch]
    omega
  · simp only [lookupBatches, List.getElem_map, List.getElem_range]
    refine List.mem_iff_getElem?.mpr ⟨(height - start) % lookupBatch, ?_⟩
    have hmod : (height - start) % lookupBatch < lookupBatch :=
      Nat.mod_lt _ (by simp [lookupBatch])
    have hdiv : (height - start) / lookupBatch * lookupBatch + (height - start) % lookupBatch
        = height - start := Nat.div_add_mod' _ _
    rw [List.getElem?_take, if_pos hmod, List.getElem?_drop, hdiv, List.getElem?_range' hlt]
    congr 1
    omega

theorem lookupBatches_mem {start stop number height : Nat} {batch : List Nat}
    (hbatch : (lookupBatches start stop)[number]? = some batch) (hmem : height ∈ batch) :
    start ≤ height ∧ height ≤ stop := by
  obtain ⟨hlt, rfl⟩ := List.getElem?_eq_some_iff.mp hbatch
  simp only [lookupBatches, List.getElem_map] at hmem
  have := List.mem_range'_1.mp (List.mem_of_mem_drop (List.mem_of_mem_take hmem))
  omega

/-! ### The hashes held

A hash that was found is with the worker that found it until that is joined, and in the
pool from then on.
-/

private theorem mem_extendHashes {row : Nat × String} :
    ∀ {found : List (Nat × String)} {hashes : Table Nat String},
      row ∈ (extendHashes hashes found).rows → row ∈ found ∨ row ∈ hashes.rows := by
  intro found
  induction found with
  | nil => intro hashes h; exact Or.inr h
  | cons first rest ih =>
      intro hashes h
      rcases ih h with hr | hr
      · exact Or.inl (List.mem_cons_of_mem _ hr)
      · rcases Table.mem_insertRow hr with rfl | hr
        · exact Or.inl (by simp)
        · exact Or.inr hr

theorem extendHashes_isSome {height : Nat} :
    ∀ {found : List (Nat × String)} (hashes : Table Nat String),
      height ∈ found.map (·.1) ∨ (hashes.get height).isSome = true →
      ((extendHashes hashes found).get height).isSome = true := by
  intro found
  induction found with
  | nil => intro hashes h; simpa [extendHashes] using h
  | cons first rest ih =>
      intro hashes h
      refine ih (hashes.insert first.1 first.2) ?_
      rw [Table.get_insert]
      by_cases hfirst : height = first.1
      · exact Or.inr (by simp [hfirst])
      · rw [if_neg hfirst]
        simpa [hfirst] using h

/-- The hashes a worker holds, also one that is done. -/
def Worker.found : Worker → List (Nat × String)
  | checking found => found
  | claiming found => found
  | asking _ _ found => found
  | finished (.ok found) => found
  | finished (.error _) => []

/-- The worker has left its loop. -/
def Worker.IsFinished : Worker → Prop
  | finished _ => True
  | _ => False

section

variable {env : LookupEnv} {epoch : Nat} {batches : List (List Nat)}

variable (env batches) in
/-- A height and its hash as some answer of the node has them. -/
def Answered (row : Nat × String) : Prop :=
  ∃ number batch hashes, batches[number]? = some batch ∧
    env.reply number = .answered (.ok hashes) ∧ row ∈ batch.zip hashes

/-- Some worker's result is an error, not joined yet. -/
def Pool.Broken (pool : Pool) : Prop := ∃ error, .finished (.error error) ∈ pool.workers

/-- The height's hash is held by the pool or by one of its workers. -/
def Pool.Holds (pool : Pool) (height : Nat) : Prop :=
  (∃ worker ∈ pool.workers, height ∈ worker.found.map (·.1)) ∨
    (pool.hashes.get height).isSome = true

variable (batches) in
/-- Nothing is lost as long as no worker failed. -/
structure Pool.Accounted (pool : Pool) : Prop where
  running : pool.failed = false
  claimed : ∀ number < pool.next, ∀ batch, batches[number]? = some batch →
    (∃ found, .asking number batch found ∈ pool.workers) ∨ ∀ height ∈ batch, pool.Holds height
  exhausted : (∀ worker ∈ pool.workers, worker.IsFinished) → batches.length ≤ pool.next

variable (env batches) in
structure Pool.Inv (pool : Pool) : Prop where
  asked : ∀ number batch found, .asking number batch found ∈ pool.workers →
    batches[number]? = some batch
  sound : ∀ worker ∈ pool.workers, ∀ row ∈ worker.found, Answered env batches row
  hashes : ∀ row ∈ pool.hashes.rows, Answered env batches row
  accounted : pool.Broken ∨ pool.Accounted batches

theorem Pool.start_inv (concurrency : Nat) : (Pool.start concurrency).Inv env batches := by
  have hworkers : ∀ worker ∈ (Pool.start concurrency).workers, worker = .checking [] :=
    fun worker h => List.eq_of_mem_replicate h
  refine ⟨?_, ?_, by simp [Pool.start], Or.inr ⟨rfl, by simp [Pool.start], ?_⟩⟩
  · intro number batch found h
    exact absurd (hworkers _ h) (by simp)
  · intro worker h row hrow
    rw [hworkers worker h] at hrow
    simp [Worker.found] at hrow
  · intro hall
    have hmem : Worker.checking [] ∈ (Pool.start concurrency).workers :=
      List.mem_replicate.mpr ⟨by omega, rfl⟩
    exact absurd (hall _ hmem) (by simp [Worker.IsFinished])

/-! ### One worker advances

There are four advances: the flag is read, a number is taken off the counter, the node
answers, or the worker is joined.
-/

section

variable {pool next : Pool} {worker worker' : Worker} {rest : List Worker}

/-- The pool is not accounted for if the flag is up, so some worker failed. -/
theorem Pool.Inv.broken_of_failed (h : pool.Inv env batches) (hfailed : pool.failed = true) :
    pool.Broken := by
  rcases h.accounted with hbroken | hacc
  · exact hbroken
  · rw [hacc.running] at hfailed
    cases hfailed

theorem Pool.Broken.keep (hbroken : pool.Broken) (hworkers : (worker :: rest).Perm pool.workers)
    (hnext : ∀ w ∈ rest, w ∈ next.workers) (hworker : ∀ error, worker ≠ .finished (.error error)) :
    next.Broken := by
  obtain ⟨error, hmem⟩ := hbroken
  refine ⟨error, hnext _ ?_⟩
  rcases List.mem_cons.mp (hworkers.mem_iff.mpr hmem) with heq | hin
  · exact absurd heq.symm (hworker error)
  · exact hin

theorem asking_mem_rest {number : Nat} {batch : List Nat} {found : List (Nat × String)}
    (hworkers : (worker :: rest).Perm pool.workers)
    (hmem : .asking number batch found ∈ pool.workers)
    (hne : worker ≠ .asking number batch found) : .asking number batch found ∈ rest := by
  rcases List.mem_cons.mp (hworkers.mem_iff.mpr hmem) with heq | hin
  · exact absurd heq.symm hne
  · exact hin

/-- A worker that moves on inside the pool loses nothing, if it keeps what it found
and every batch claimed so far is either not the one it was asking for, or the one
it asks for now, or among what it has found. -/
theorem Pool.Accounted.replace (hacc : pool.Accounted batches)
    (hworkers : (worker :: rest).Perm pool.workers) (hnext : next.workers = worker' :: rest)
    (hhashes : next.hashes = pool.hashes) (hfailed : next.failed = pool.failed)
    (hfound : ∀ height, height ∈ worker.found.map (·.1) → height ∈ worker'.found.map (·.1))
    (hclaimed : ∀ number < next.next, ∀ batch, batches[number]? = some batch →
      number < pool.next ∧ (∀ found, worker ≠ .asking number batch found) ∨
      (∃ found, worker' = .asking number batch found) ∨
      ∀ height ∈ batch, height ∈ worker'.found.map (·.1))
    (hexhausted : worker'.IsFinished → batches.length ≤ next.next) :
    next.Accounted batches := by
  have hholds : ∀ height, pool.Holds height → next.Holds height := by
    rintro height (⟨w, hw, hmem⟩ | hheld)
    · rcases List.mem_cons.mp (hworkers.mem_iff.mpr hw) with rfl | hin
      · exact Or.inl ⟨worker', by simp [hnext], hfound height hmem⟩
      · exact Or.inl ⟨w, by simp [hnext, hin], hmem⟩
    · exact Or.inr (by rwa [hhashes])
  refine ⟨by rw [hfailed]; exact hacc.running, ?_, ?_⟩
  · intro number hlt batch hbatch
    rcases hclaimed number hlt batch hbatch with ⟨hold, hne⟩ | ⟨found, hnew⟩ | hheld
    · rcases hacc.claimed number hold batch hbatch with ⟨found, hasking⟩ | hall
      · have hin := asking_mem_rest hworkers hasking (hne found)
        exact Or.inl ⟨found, by simp [hnext, hin]⟩
      · exact Or.inr fun height hin => hholds height (hall height hin)
    · exact Or.inl ⟨found, by simp [hnext, hnew]⟩
    · exact Or.inr fun height hin => Or.inl ⟨worker', by simp [hnext], hheld height hin⟩
  · intro hall
    exact hexhausted (hall worker' (by simp [hnext]))

/-- A worker that moves on inside the pool keeps the invariant if it breaks the pool
or loses nothing. -/
theorem Pool.Inv.replace (h : pool.Inv env batches)
    (hworkers : (worker :: rest).Perm pool.workers) (hnext : next.workers = worker' :: rest)
    (hhashes : next.hashes = pool.hashes)
    (hasked : ∀ number batch found, worker' = .asking number batch found →
      batches[number]? = some batch)
    (hfound : ∀ row ∈ worker'.found, Answered env batches row)
    (hworker : ∀ error, worker ≠ .finished (.error error))
    (hacc : next.Broken ∨ (pool.Accounted batches → next.Accounted batches)) :
    next.Inv env batches := by
  refine ⟨?_, ?_, by rw [hhashes]; exact h.hashes, ?_⟩
  · intro number batch found hmem
    rw [hnext] at hmem
    rcases List.mem_cons.mp hmem with heq | hin
    · exact hasked number batch found heq.symm
    · exact h.asked number batch found (hworkers.mem_iff.mp (List.mem_cons_of_mem _ hin))
  · intro w hw
    rw [hnext] at hw
    rcases List.mem_cons.mp hw with rfl | hin
    · exact hfound
    · exact h.sound w (hworkers.mem_iff.mp (List.mem_cons_of_mem _ hin))
  · rcases hacc with hbroken | hkeeps
    · exact Or.inl hbroken
    rcases h.accounted with hbroken | hold
    · exact Or.inl (hbroken.keep hworkers (by simp +contextual [hnext]) hworker)
    · exact Or.inr (hkeeps hold)

theorem Pool.advance_checking {found : List (Nat × String)} (h : pool.Inv env batches)
    (hworkers : (.checking found :: rest).Perm pool.workers)
    (hstep : pool.advance env epoch batches (.checking found) rest = .ok next) :
    next.Inv env batches := by
  have hfound : ∀ row ∈ found, Answered env batches row :=
    h.sound _ (hworkers.mem_iff.mp List.mem_cons_self)
  simp only [Pool.advance, Except.ok.injEq] at hstep
  by_cases hfailed : pool.failed = true
  · rw [if_pos hfailed] at hstep
    subst hstep
    refine h.replace hworkers rfl rfl (by simp) hfound (by simp) (Or.inl ?_)
    exact (h.broken_of_failed hfailed).keep hworkers (by simp +contextual) (by simp)
  · rw [if_neg hfailed] at hstep
    subst hstep
    refine h.replace hworkers rfl rfl (by simp) hfound (by simp) (Or.inr fun hacc => ?_)
    refine hacc.replace hworkers rfl rfl rfl (fun height hin => hin) ?_
      (by simp [Worker.IsFinished])
    intro number hlt batch _
    exact Or.inl ⟨hlt, by simp⟩

theorem Pool.advance_claiming {found : List (Nat × String)} (h : pool.Inv env batches)
    (hworkers : (.claiming found :: rest).Perm pool.workers)
    (hstep : pool.advance env epoch batches (.claiming found) rest = .ok next) :
    next.Inv env batches := by
  have hfound : ∀ row ∈ found, Answered env batches row :=
    h.sound _ (hworkers.mem_iff.mp List.mem_cons_self)
  simp only [Pool.advance, Except.ok.injEq] at hstep
  rcases hbatch : batches[pool.next]? with _ | batch
  · rw [hbatch] at hstep
    subst hstep
    have hlen : batches.length ≤ pool.next := List.getElem?_eq_none_iff.mp hbatch
    refine h.replace hworkers rfl rfl (by simp) hfound (by simp) (Or.inr fun hacc => ?_)
    refine hacc.replace hworkers rfl rfl rfl (fun height hin => hin) ?_
      (fun _ => Nat.le_succ_of_le hlen)
    intro number _ batch hget
    have hlt := (List.getElem?_eq_some_iff.mp hget).1
    exact Or.inl ⟨by omega, by simp⟩
  · rw [hbatch] at hstep
    subst hstep
    refine h.replace hworkers rfl rfl ?_ hfound (by simp) (Or.inr fun hacc => ?_)
    · intro number batch' found' heq
      simp only [Worker.asking.injEq] at heq
      obtain ⟨rfl, rfl, -⟩ := heq
      exact hbatch
    · refine hacc.replace hworkers rfl rfl rfl (fun height hin => hin) ?_
        (by simp [Worker.IsFinished])
      intro number hlt batch' hget
      by_cases hnew : number = pool.next
      · subst hnew
        obtain rfl : batch = batch' := Option.some.inj (hbatch.symm.trans hget)
        exact Or.inr (Or.inl ⟨found, rfl⟩)
      · have hold : number < pool.next := by
          simp only at hlt
          omega
        exact Or.inl ⟨hold, by simp⟩

/-- Getting an answer: a bad one breaks the pool, and a good one turns the batch
from asked into held. -/
theorem Pool.advance_asking {number : Nat} {batch : List Nat} {found : List (Nat × String)}
    (h : pool.Inv env batches) (hworkers : (.asking number batch found :: rest).Perm pool.workers)
    (hstep : pool.advance env epoch batches (.asking number batch found) rest = .ok next) :
    next.Inv env batches := by
  have hself := hworkers.mem_iff.mp List.mem_cons_self
  have hfound : ∀ row ∈ found, Answered env batches row := h.sound _ hself
  have hbatch := h.asked number batch found hself
  have hbad : ∀ (error : SnapshotError) (failed : Bool), Pool.Inv env batches
      { pool with failed := failed, workers := .finished (.error error) :: rest } := by
    intro error failed
    exact h.replace hworkers rfl rfl (by simp) (by simp [Worker.found]) (by simp)
      (Or.inl ⟨error, by simp⟩)
  simp only [Pool.advance] at hstep
  rcases hreply : env.reply number with (source | hashes) | detail
  · simp only [hreply, Except.ok.injEq] at hstep
    subst hstep
    exact hbad _ true
  · simp only [hreply] at hstep
    by_cases hlen : hashes.length = batch.length
    · rw [if_pos hlen, Except.ok.injEq] at hstep
      subst hstep
      refine h.replace hworkers rfl rfl (by simp) ?_ (by simp) (Or.inr fun hacc => ?_)
      · intro row hrow
        rcases List.mem_append.mp hrow with hin | hin
        · exact hfound row hin
        · exact ⟨number, batch, hashes, hbatch, hreply, hin⟩
      · refine hacc.replace hworkers rfl rfl rfl ?_ ?_ (by simp [Worker.IsFinished])
        · intro height hin
          simp only [Worker.found, List.map_append] at hin ⊢
          exact List.mem_append_left _ hin
        · intro number' hlt batch' hget
          by_cases hthis : number' = number
          · subst hthis
            obtain rfl : batch = batch' := Option.some.inj (hbatch.symm.trans hget)
            have hzip : (batch.zip hashes).map (·.1) = batch := List.map_fst_zip (by omega)
            refine Or.inr (Or.inr fun height hin => ?_)
            simp only [Worker.found, List.map_append, List.mem_append, hzip]
            exact Or.inr hin
          · exact Or.inl ⟨hlt, by simp [Ne.symm hthis]⟩
    · rw [if_neg hlen, Except.ok.injEq] at hstep
      subst hstep
      exact hbad _ true
  · simp only [hreply, Except.ok.injEq] at hstep
    subst hstep
    exact hbad _ pool.failed

/-- Joining a worker: what it held goes to the pool. -/
theorem Pool.advance_finished {result : Except SnapshotError (List (Nat × String))}
    (h : pool.Inv env batches) (hworkers : (.finished result :: rest).Perm pool.workers)
    (hstep : pool.advance env epoch batches (.finished result) rest = .ok next) :
    next.Inv env batches := by
  have hrest : ∀ w ∈ rest, w ∈ pool.workers := fun w hw =>
    hworkers.mem_iff.mp (List.mem_cons_of_mem _ hw)
  rcases result with error | found
  · simp [Pool.advance] at hstep
  have hfound : ∀ row ∈ found, Answered env batches row :=
    h.sound _ (hworkers.mem_iff.mp List.mem_cons_self)
  simp only [Pool.advance, Except.ok.injEq] at hstep
  subst hstep
  have hholds : ∀ height, pool.Holds height → Pool.Holds
      { pool with workers := rest, hashes := extendHashes pool.hashes found } height := by
    rintro height (⟨w, hw, hmem⟩ | hheld)
    · rcases List.mem_cons.mp (hworkers.mem_iff.mpr hw) with rfl | hin
      · exact Or.inr (extendHashes_isSome _ (Or.inl hmem))
      · exact Or.inl ⟨w, hin, hmem⟩
    · exact Or.inr (extendHashes_isSome _ (Or.inr hheld))
  refine ⟨fun number batch f hin => h.asked number batch f (hrest _ hin),
    fun w hw => h.sound w (hrest w hw), ?_, ?_⟩
  · intro row hrow
    rcases mem_extendHashes hrow with hin | hin
    · exact hfound row hin
    · exact h.hashes row hin
  · rcases h.accounted with hbroken | hacc
    · exact Or.inl (hbroken.keep hworkers (fun w hw => hw) (by simp))
    refine Or.inr ⟨hacc.running, ?_, ?_⟩
    · intro number hlt batch hget
      rcases hacc.claimed number hlt batch hget with ⟨f, hasking⟩ | hall
      · exact Or.inl ⟨f, asking_mem_rest hworkers hasking (by simp)⟩
      · exact Or.inr fun height hin => hholds height (hall height hin)
    · intro hall
      refine hacc.exhausted fun w hw => ?_
      rcases List.mem_cons.mp (hworkers.mem_iff.mpr hw) with rfl | hin
      · trivial
      · exact hall w hin

theorem Pool.advance_inv (h : pool.Inv env batches)
    (hworkers : (worker :: rest).Perm pool.workers)
    (hstep : pool.advance env epoch batches worker rest = .ok next) : next.Inv env batches := by
  rcases worker with found | found | ⟨number, batch, found⟩ | result
  · exact advance_checking h hworkers hstep
  · exact advance_claiming h hworkers hstep
  · exact advance_asking h hworkers hstep
  · exact advance_finished h hworkers hstep

end

/-! ### The whole pool

A pool that ends without an error has joined every worker, so that all it accounts for
is its own.
-/

/-- A pool that ends without an error holds the node's answer for every height of
every batch, and nothing else. -/
theorem Pool.run_ok (clock : Nat) (pool : Pool) :
    pool.Inv env batches → ∀ hashes, pool.run env epoch batches clock = .ok hashes →
      (∀ row ∈ hashes.rows, Answered env batches row) ∧
      ∀ (number : Nat) (batch : List Nat), batches[number]? = some batch →
        ∀ height ∈ batch, (hashes.get height).isSome = true := by
  fun_induction Pool.run env epoch batches clock pool with
  | case1 clock pool hsome i next hstep ih =>
      intro h hashes hrun
      exact ih (Pool.advance_inv h (List.getElem_cons_eraseIdx_perm i.isLt) hstep) hashes hrun
  | case2 clock pool hsome i error hstep =>
      intro h hashes hrun
      cases hrun
  | case3 clock pool hnone =>
      intro h hashes hrun
      have hempty : pool.workers = [] := List.length_eq_zero_iff.mp (by omega)
      obtain rfl : pool.hashes = hashes := Except.ok.inj hrun
      refine ⟨h.hashes, ?_⟩
      intro number batch hbatch height hin
      rcases h.accounted with ⟨error, hmem⟩ | hacc
      · simp [hempty] at hmem
      have hlen := hacc.exhausted (by simp [hempty])
      have hlt := (List.getElem?_eq_some_iff.mp hbatch).1
      rcases hacc.claimed number (by omega) batch hbatch with ⟨f, hmem⟩ | hholds
      · simp [hempty] at hmem
      · rcases hholds height hin with ⟨w, hw, -⟩ | hheld
        · simp [hempty] at hw
        · exact hheld

variable (env batches) in
/-- The node answers every batch with as many hashes as it was asked for. -/
def Answers : Prop :=
  ∀ (number : Nat) (batch : List Nat), batches[number]? = some batch →
    ∃ hashes, env.reply number = .answered (.ok hashes) ∧ hashes.length = batch.length

/-- If it does, no worker fails. -/
theorem Pool.advance_answers (epoch : Nat) (hanswers : Answers env batches) {pool : Pool}
    {worker : Worker}
    {rest : List Worker} (h : pool.Inv env batches) (hbroken : ¬pool.Broken)
    (hworkers : (worker :: rest).Perm pool.workers) :
    ∃ next, pool.advance env epoch batches worker rest = .ok next ∧ ¬next.Broken := by
  have hself : worker ∈ pool.workers := hworkers.mem_iff.mp List.mem_cons_self
  have hrest : ∀ error, .finished (.error error) ∉ rest := by
    intro error hin
    exact hbroken ⟨error, hworkers.mem_iff.mp (List.mem_cons_of_mem _ hin)⟩
  have hnext : ∀ (next : Pool) (worker' : Worker), next.workers = worker' :: rest →
      (∀ error, worker' ≠ .finished (.error error)) → ¬next.Broken := by
    rintro next worker' hws hne ⟨error, hmem⟩
    rw [hws] at hmem
    rcases List.mem_cons.mp hmem with heq | hin
    · exact hne error heq.symm
    · exact hrest error hin
  rcases worker with found | found | ⟨number, batch, found⟩ | (error | found)
  · refine ⟨_, rfl, hnext _ _ rfl ?_⟩
    by_cases hfailed : pool.failed = true <;> simp [hfailed]
  · refine ⟨_, rfl, hnext _ _ rfl ?_⟩
    rcases batches[pool.next]? with _ | batch <;> simp
  · obtain ⟨hashes, hreply, hlen⟩ := hanswers number batch (h.asked number batch found hself)
    refine ⟨{ pool with workers := .checking (found ++ batch.zip hashes) :: rest }, ?_,
      hnext _ _ rfl (by simp)⟩
    simp only [Pool.advance, hreply, if_pos hlen]
  · exact absurd ⟨error, hself⟩ hbroken
  · refine ⟨_, rfl, ?_⟩
    rintro ⟨error, hmem⟩
    exact hrest error hmem

theorem Pool.run_answers (hanswers : Answers env batches) (clock : Nat) (pool : Pool) :
    pool.Inv env batches → ¬pool.Broken →
      ∃ hashes, pool.run env epoch batches clock = .ok hashes := by
  fun_induction Pool.run env epoch batches clock pool with
  | case1 clock pool hsome i next hstep ih =>
      intro h hbroken
      have hperm := List.getElem_cons_eraseIdx_perm i.isLt
      obtain ⟨next', hstep', hnext⟩ := advance_answers epoch hanswers h hbroken hperm
      obtain rfl : next = next' := Except.ok.inj (hstep.symm.trans hstep')
      exact ih (Pool.advance_inv h hperm hstep) hnext
  | case2 clock pool hsome i error hstep =>
      intro h hbroken
      have hperm := List.getElem_cons_eraseIdx_perm i.isLt
      obtain ⟨next', hstep', -⟩ := advance_answers epoch hanswers h hbroken hperm
      exact absurd (hstep.symm.trans hstep') (by simp)
  | case3 clock pool hnone =>
      intro _ _
      exact ⟨pool.hashes, rfl⟩

end

/-- **The lookup is all or nothing**: without an error, it has the node's answer for
every height asked for, whatever the schedule. -/
theorem fetchBlockHashes_ok {env : LookupEnv} {epoch start stop concurrency : Nat}
    {hashes : Table Nat String}
    (h : fetchBlockHashes env epoch start stop concurrency = .ok hashes) :
    (∀ row ∈ hashes.rows, Answered env (lookupBatches start stop) row) ∧
    ∀ height, start ≤ height → height ≤ stop → (hashes.get height).isSome = true := by
  obtain ⟨hsound, hall⟩ := Pool.run_ok _ _ (Pool.start_inv concurrency) hashes h
  refine ⟨hsound, ?_⟩
  intro height hlow hhigh
  obtain ⟨number, batch, hbatch, hin⟩ := mem_lookupBatches hlow hhigh
  exact hall number batch hbatch height hin

/-- And if the node answers every batch, there is no error. -/
theorem fetchBlockHashes_answers {env : LookupEnv} {start stop : Nat}
    (hanswers : Answers env (lookupBatches start stop)) (epoch concurrency : Nat) :
    ∃ hashes, fetchBlockHashes env epoch start stop concurrency = .ok hashes := by
  refine Pool.run_answers hanswers _ _ (Pool.start_inv concurrency) ?_
  rintro ⟨error, hmem⟩
  have := List.eq_of_mem_replicate hmem
  cases this

end Lightwalletd
