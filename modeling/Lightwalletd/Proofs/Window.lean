/-
What a window delivers, and how much of it is kept.

The tasks of a window end in whichever order the runtime lets them, and each of
them leaves at most one result, under its own height.  So the results do not depend
on that order: there is at least one permit, every task gets to run, and what
stands under a height is what the task for it delivered, or nothing if it died.

What is kept of the results is then a function of them alone.  `chainedRun` reads
it off height by height, and it is the longest run there is: every run of delivered
blocks that starts on the tip is a prefix of it.
-/
import Lightwalletd.Proofs.Ingestor

namespace Lightwalletd

/-! ### Every task of a window is joined

A scheduler that moves some task in each round gets to the end of all, in some order.
-/

/-- The tasks of a window, wherever they are. -/
def WindowTasks.all (tasks : WindowTasks) : List Nat :=
  tasks.waiting ++ (tasks.running ++ tasks.joined)

/-- How often the tasks of a window still have to move. -/
def WindowTasks.left (tasks : WindowTasks) : Nat :=
  2 * tasks.waiting.length + tasks.running.length

/-- A move loses no task, and is one less to make. -/
theorem WindowTasks.step_moves {permits : Nat} (hpermits : 0 < permits) (choice : Nat)
    (tasks : WindowTasks) :
    (tasks.step permits choice).all.Perm tasks.all ∧
      (tasks.step permits choice).left = tasks.left - 1 := by
  obtain ⟨ready, hready⟩ : ∃ r, r = if tasks.running.length < permits then tasks.waiting else [] :=
    ⟨_, rfl⟩
  unfold WindowTasks.step
  simp only [← hready]
  by_cases hmove : choice % (ready.length + tasks.running.length) < ready.length
  · -- A waiting task starts.
    rw [if_pos hmove]
    have hwaiting : ready = tasks.waiting := by
      by_cases hfree : tasks.running.length < permits
      · rw [hready, if_pos hfree]
      · rw [hready, if_neg hfree] at hmove
        simp at hmove
    rw [hwaiting] at hmove ⊢
    have hperm := List.getElem_cons_eraseIdx_perm hmove
    have hlen := hperm.length_eq
    rw [List.length_cons] at hlen
    refine ⟨?_, ?_⟩
    · simp only [WindowTasks.all, List.getElem?_eq_getElem hmove, Option.toList_some,
        List.cons_append, List.nil_append]
      exact List.perm_middle.trans (hperm.append_right _)
    · simp only [WindowTasks.left, List.getElem?_eq_getElem hmove, Option.toList_some,
        List.cons_append, List.nil_append, List.length_cons]
      omega
  · rw [if_neg hmove]
    by_cases hsome : 0 < ready.length + tasks.running.length
    · -- A running task ends.
      have hmod := Nat.mod_lt choice hsome
      have hend : choice % (ready.length + tasks.running.length) - ready.length
          < tasks.running.length := by omega
      have hperm := List.getElem_cons_eraseIdx_perm hend
      have hlen := hperm.length_eq
      rw [List.length_cons] at hlen
      refine ⟨?_, ?_⟩
      · simp only [WindowTasks.all, List.getElem?_eq_getElem hend, Option.toList_some,
          List.cons_append, List.nil_append]
        exact (List.perm_middle.trans (hperm.append_right _)).append_left _
      · simp only [WindowTasks.left]
        omega
    · -- Nothing is left: with a permit free, no task can be waiting.
      have hrunning : tasks.running = [] := List.length_eq_zero_iff.mp (by omega)
      have hwaiting : tasks.waiting = [] := by
        rw [hrunning] at hready
        rw [if_pos (by simpa using hpermits)] at hready
        rw [← hready]
        exact List.length_eq_zero_iff.mp (by omega)
      simp [WindowTasks.all, WindowTasks.left, hrunning, hwaiting]

theorem WindowTasks.steps_moves {permits : Nat} (hpermits : 0 < permits) (schedule : Nat → Nat) :
    ∀ (count : Nat) (tasks : WindowTasks),
      (WindowTasks.steps permits schedule count tasks).all.Perm tasks.all ∧
        (WindowTasks.steps permits schedule count tasks).left = tasks.left - count := by
  intro count
  induction count with
  | zero => intro tasks; exact ⟨List.Perm.refl _, rfl⟩
  | succ count ih =>
      intro tasks
      obtain ⟨hperm, hleft⟩ := WindowTasks.step_moves hpermits (schedule count) tasks
      obtain ⟨hperm', hleft'⟩ := ih (tasks.step permits (schedule count))
      refine ⟨hperm'.trans hperm, ?_⟩
      rw [WindowTasks.steps, hleft', hleft]
      omega

theorem completionOrder_perm {permits : Nat} (hpermits : 0 < permits) (schedule : Nat → Nat)
    (heights : List Nat) : (completionOrder permits schedule heights).Perm heights := by
  obtain ⟨hperm, hleft⟩ := WindowTasks.steps_moves hpermits schedule (2 * heights.length)
    ⟨heights, [], []⟩
  unfold completionOrder
  obtain ⟨tasks, htasks⟩ : ∃ t, t = WindowTasks.steps permits schedule (2 * heights.length)
    ⟨heights, [], []⟩ := ⟨_, rfl⟩
  rw [← htasks] at hperm hleft ⊢
  simp only [WindowTasks.left, List.length_nil, Nat.add_zero, Nat.sub_self] at hleft
  have hwaiting : tasks.waiting = [] := List.length_eq_zero_iff.mp (by omega)
  have hrunning : tasks.running = [] := List.length_eq_zero_iff.mp (by omega)
  simp only [WindowTasks.all, hwaiting, hrunning, List.nil_append, List.append_nil] at hperm
  exact (List.reverse_perm _).trans hperm

/-! ### The results do not depend on the order

Each task writes under its own height, so that the order only decides which panic is
reported.
-/

/-- What a task leaves under its height.  One that dies leaves nothing. -/
def TaskOutcome.result [BlockParser] (height : Nat) :
    TaskOutcome → Option (Except FetchError CompactBlock)
  | fetched replies => some (compactBlock replies height)
  | windowClosed detail => some (.error (.windowClosed detail))
  | panicked _ => none
  | cancelled => none

/-- The panic a task ended in. -/
def TaskOutcome.panic : TaskOutcome → Option String
  | panicked detail => some detail
  | _ => none

section

variable [BlockParser] {env : StepEnv}

/-- What the window has at `height`. -/
def StepEnv.delivered (env : StepEnv) (height : Nat) : Option (Except FetchError CompactBlock) :=
  (env.task height).result height

theorem StepEnv.delivered_height {height : Nat} {block : CompactBlock}
    (h : env.delivered height = some (.ok block)) : block.height = height := by
  unfold delivered at h
  rcases htask : env.task height with replies | detail | detail | _
  · rw [htask] at h
    exact compactBlock_height (Option.some.inj h)
  all_goals
    rw [htask] at h
    simp [TaskOutcome.result] at h

/-- A task that left nothing and was not cancelled panicked. -/
theorem StepEnv.panic_of_missing {height : Nat} (h : env.delivered height = none)
    (hcancelled : env.task height ≠ .cancelled) : ((env.task height).panic).isSome = true := by
  unfold delivered at h
  rcases htask : env.task height with replies | detail | detail | _
  · rw [htask] at h
    cases h
  · rw [htask] at h
    cases h
  · rfl
  · exact absurd htask hcancelled

theorem WindowResults.join_get (task : Nat → TaskOutcome) (window : WindowResults)
    (height k : Nat) :
    (window.join task height).results.get k
      = if k = height then ((task height).result height).or (window.results.get k)
        else window.results.get k := by
  unfold WindowResults.join
  rcases task height with replies | detail | detail | _
  · exact Table.get_insert ..
  · exact Table.get_insert ..
  · simp [TaskOutcome.result]
  · simp [TaskOutcome.result]

theorem WindowResults.join_panicked (task : Nat → TaskOutcome) (window : WindowResults)
    (height : Nat) :
    (window.join task height).panicked = window.panicked.or (task height).panic := by
  unfold WindowResults.join
  rcases task height with replies | detail | detail | _ <;> simp [TaskOutcome.panic]

private theorem foldl_join_get (task : Nat → TaskOutcome) (k : Nat) :
    ∀ (order : List Nat) (window : WindowResults),
      (order.foldl (WindowResults.join task) window).results.get k
        = if k ∈ order then ((task k).result k).or (window.results.get k)
          else window.results.get k := by
  intro order
  induction order with
  | nil => intro window; simp
  | cons height order ih =>
      intro window
      rw [List.foldl_cons, ih, WindowResults.join_get]
      by_cases heq : k = height
      · subst heq
        rcases (task k).result k with _ | result <;> simp
      · simp [heq]

private theorem foldl_join_panicked (task : Nat → TaskOutcome) :
    ∀ (order : List Nat) (window : WindowResults),
      (order.foldl (WindowResults.join task) window).panicked
        = window.panicked.or (order.findSome? fun height => (task height).panic) := by
  intro order
  induction order with
  | nil => intro window; simp
  | cons height order ih =>
      intro window
      rw [List.foldl_cons, ih, WindowResults.join_panicked, List.findSome?_cons, Option.or_assoc]
      rcases (task height).panic with _ | detail <;> rfl

/-- The row of a height, if its task left one. -/
def StepEnv.row (env : StepEnv) (height : Nat) : Option (Nat × Except FetchError CompactBlock) :=
  (env.delivered height).map (height, ·)

/-- The rows of a window, lowest height first. -/
def StepEnv.rows (env : StepEnv) (next count : Nat) :
    List (Nat × Except FetchError CompactBlock) :=
  (List.range' next count).filterMap env.row

theorem StepEnv.row_eq_some {height : Nat} {row : Nat × Except FetchError CompactBlock} :
    env.row height = some row ↔ row.1 = height ∧ env.delivered height = some row.2 := by
  unfold StepEnv.row
  rw [Option.map_eq_some_iff]
  constructor
  · rintro ⟨result, hresult, rfl⟩
    exact ⟨rfl, hresult⟩
  · rintro ⟨rfl, hresult⟩
    exact ⟨row.2, hresult, rfl⟩

theorem StepEnv.mem_rows {next count : Nat} {row : Nat × Except FetchError CompactBlock} :
    row ∈ env.rows next count ↔
      row.1 ∈ List.range' next count ∧ env.delivered row.1 = some row.2 := by
  unfold rows
  rw [List.mem_filterMap]
  constructor
  · rintro ⟨height, hheight, hrow⟩
    obtain ⟨rfl, hresult⟩ := row_eq_some.mp hrow
    exact ⟨hheight, hresult⟩
  · rintro ⟨hheight, hresult⟩
    exact ⟨row.1, hheight, row_eq_some.mpr ⟨rfl, hresult⟩⟩

/-- **A window in order**, whichever order its tasks ended in. -/
theorem fetchWindow_rows (next count concurrency : Nat) :
    (fetchWindow env (List.range' next count) concurrency).results.rows = env.rows next count := by
  have hperm := completionOrder_perm (by omega : 0 < max concurrency 1) env.schedule
    (List.range' next count)
  have hsorted : (env.rows next count).Pairwise (fun a b => a.1 < b.1) := by
    refine List.Pairwise.filterMap env.row ?_ List.pairwise_lt_range'
    intro lower upper hlt row hrow row' hrow'
    rw [(StepEnv.row_eq_some.mp hrow).1, (StepEnv.row_eq_some.mp hrow').1]
    exact hlt
  have htable : (fetchWindow env (List.range' next count) concurrency).results
      = ⟨env.rows next count, hsorted⟩ := by
    refine Table.ext_get fun k => Option.ext fun result => ?_
    have hrow : Table.get ⟨env.rows next count, hsorted⟩ k = some result ↔
        k ∈ List.range' next count ∧ env.delivered k = some result :=
      Table.get_eq_some_iff.trans StepEnv.mem_rows
    refine Iff.trans ?_ hrow.symm
    unfold fetchWindow
    rw [foldl_join_get, Table.empty_get, Option.or_none]
    by_cases hin : k ∈ List.range' next count
    · rw [if_pos (hperm.mem_iff.mpr hin)]
      exact ⟨fun h => ⟨hin, h⟩, fun h => h.2⟩
    · rw [if_neg (mt hperm.mem_iff.mp hin)]
      exact ⟨nofun, fun h => absurd h.1 hin⟩
  rw [htable]

/-- A window has a panic to report exactly if one of its tasks panicked. -/
theorem fetchWindow_panicked (heights : List Nat) (concurrency : Nat) :
    (fetchWindow env heights concurrency).panicked.isSome = true ↔
      ∃ height ∈ heights, ((env.task height).panic).isSome = true := by
  have hperm := completionOrder_perm (by omega : 0 < max concurrency 1) env.schedule heights
  unfold fetchWindow
  rw [foldl_join_panicked, Option.none_or, List.findSome?_isSome_iff]
  exact exists_congr fun height => and_congr_left fun _ => hperm.mem_iff

end

/-! ### What is kept

The run kept is described by the results alone.
-/

section

variable [BlockParser] {env : StepEnv}

/-- The run read off the results from `height` on: it ends at the first height with
no block, or with a block that does not follow. -/
def chainedRun (env : StepEnv) : Nat → Nat → Option Bytes → List CompactBlock
  | 0, _, _ => []
  | count + 1, height, prevHash =>
      match env.delivered height with
      | some (.ok block) =>
          if prevHash.any (· ≠ block.prevHash) then []
          else block :: chainedRun env count (height + 1) (some block.hash)
      | _ => []

/-- A run of delivered blocks from `next` on, of consecutive heights, each linked to
the one before and the first to the tip. -/
structure WindowRun (env : StepEnv) (count next : Nat) (tipHash : Option Bytes)
    (blocks : List CompactBlock) : Prop where
  within : blocks.length ≤ count
  delivered : ∀ i block, blocks[i]? = some block → env.delivered (next + i) = some (.ok block)
  heights : blocks.map (·.height) = List.range' next blocks.length
  linked : blocks.IsChain Follows
  joined : ∀ hash ∈ tipHash, ∀ first ∈ blocks.head?, first.prevHash = hash

/-- The longest such run: every other one is a prefix of it. -/
def LongestRun (env : StepEnv) (count next : Nat) (tipHash : Option Bytes)
    (blocks : List CompactBlock) : Prop :=
  WindowRun env count next tipHash blocks ∧
    ∀ other, WindowRun env count next tipHash other → other <+: blocks

theorem WindowRun.nil (env : StepEnv) (count next : Nat) (tipHash : Option Bytes) :
    WindowRun env count next tipHash [] :=
  ⟨Nat.zero_le _, by simp, rfl, List.isChain_nil, by simp⟩

theorem windowRun_cons {count next : Nat} {tipHash : Option Bytes} {block : CompactBlock}
    {rest : List CompactBlock} :
    WindowRun env (count + 1) next tipHash (block :: rest) ↔
      env.delivered next = some (.ok block) ∧ (∀ hash ∈ tipHash, block.prevHash = hash) ∧
        WindowRun env count (next + 1) (some block.hash) rest := by
  constructor
  · intro h
    have hheights := h.heights
    rw [List.map_cons, List.length_cons, List.range'_succ] at hheights
    obtain ⟨hfirst, hlinked⟩ := List.isChain_cons.mp h.linked
    refine ⟨h.delivered 0 block rfl, fun hash hhash => h.joined hash hhash block rfl,
      Nat.le_of_succ_le_succ h.within, ?_, (List.cons.inj hheights).2, hlinked, ?_⟩
    · intro i b hi
      rw [Nat.add_assoc, Nat.add_comm 1]
      exact h.delivered (i + 1) b hi
    · intro hash hhash first hhead
      rw [← Option.some.inj hhash]
      exact hfirst first hhead
  · rintro ⟨hblock, hjoin, h⟩
    refine ⟨Nat.succ_le_succ h.within, ?_, ?_, ?_, ?_⟩
    · intro i b hi
      rcases i with _ | i
      · obtain rfl : block = b := Option.some.inj hi
        exact hblock
      · have hnext := h.delivered i b hi
        rwa [Nat.add_assoc, Nat.add_comm 1] at hnext
    · rw [List.map_cons, h.heights, StepEnv.delivered_height hblock, List.length_cons,
        List.range'_succ]
    · exact List.isChain_cons.mpr ⟨fun first hhead => h.joined _ rfl first hhead, h.linked⟩
    · intro hash hhash first hhead
      rw [← Option.some.inj hhead]
      exact hjoin hash hhash

omit [BlockParser] in
/-- Whether a block goes onto the tip, as the loop tests it. -/
theorem mismatch_iff {tipHash : Option Bytes} {block : CompactBlock} :
    (tipHash.any (· ≠ block.prevHash)) = true ↔ ¬∀ hash ∈ tipHash, block.prevHash = hash := by
  rcases tipHash with _ | hash
  · simp
  · rw [Option.any_some, decide_eq_true_eq]
    constructor
    · intro hne hall
      exact hne (hall hash rfl).symm
    · intro hnot heq
      refine hnot fun other hother => ?_
      rw [← Option.some.inj hother]
      exact heq.symm

/-- Without a first block that goes onto the tip, the run is empty. -/
theorem chainedRun_nil {count next : Nat} {tipHash : Option Bytes}
    (h : ∀ block, env.delivered next = some (.ok block) →
      ¬∀ hash ∈ tipHash, block.prevHash = hash) :
    chainedRun env count next tipHash = [] := by
  rcases count with _ | count
  · rfl
  · unfold chainedRun
    rcases hdelivered : env.delivered next with _ | (error | block)
    · rfl
    · rfl
    · exact if_pos (mismatch_iff.mpr (h block hdelivered))

theorem chainedRun_cons {next : Nat} {tipHash : Option Bytes} {block : CompactBlock}
    (hblock : env.delivered next = some (.ok block))
    (hjoin : ∀ hash ∈ tipHash, block.prevHash = hash) (count : Nat) :
    chainedRun env (count + 1) next tipHash
      = block :: chainedRun env count (next + 1) (some block.hash) := by
  rw [chainedRun, hblock]
  exact if_neg fun hmismatch => mismatch_iff.mp hmismatch hjoin

/-- **What is read off the results is the longest run.** -/
theorem chainedRun_longest (env : StepEnv) :
    ∀ (count next : Nat) (tipHash : Option Bytes),
      LongestRun env count next tipHash (chainedRun env count next tipHash) := by
  intro count
  induction count with
  | zero =>
      intro next tipHash
      refine ⟨WindowRun.nil .., fun other hother => ?_⟩
      rw [List.length_eq_zero_iff.mp (Nat.le_zero.mp hother.within)]
      exact List.nil_prefix
  | succ count ih =>
      intro next tipHash
      by_cases hfirst : ∃ block, env.delivered next = some (.ok block) ∧
          ∀ hash ∈ tipHash, block.prevHash = hash
      · obtain ⟨block, hblock, hjoin⟩ := hfirst
        rw [chainedRun_cons hblock hjoin]
        obtain ⟨hrun, hlongest⟩ := ih (next + 1) (some block.hash)
        refine ⟨windowRun_cons.mpr ⟨hblock, hjoin, hrun⟩, fun other hother => ?_⟩
        rcases other with _ | ⟨first, rest⟩
        · exact List.nil_prefix
        · obtain ⟨hother, -, hrest⟩ := windowRun_cons.mp hother
          obtain rfl : block = first := Except.ok.inj (Option.some.inj (hblock.symm.trans hother))
          exact (List.prefix_cons_inj block).mpr (hlongest rest hrest)
      · rw [chainedRun_nil fun block hblock hjoin => hfirst ⟨block, hblock, hjoin⟩]
        refine ⟨WindowRun.nil .., fun other hother => ?_⟩
        rcases other with _ | ⟨block, rest⟩
        · exact List.nil_prefix
        · obtain ⟨hblock, hjoin, -⟩ := windowRun_cons.mp hother
          exact absurd ⟨block, hblock, hjoin⟩ hfirst

/-! ### The loop over the results -/

omit [BlockParser] in
/-- A gap at the expected height ends the run without an error. -/
private theorem keepChained_gap {expected : Nat} {prevHash : Option Bytes}
    {kept : List CompactBlock}
    {rows : List (Nat × Except FetchError CompactBlock)} (h : ∀ row ∈ rows, expected < row.1) :
    keepChained expected prevHash kept rows = .batch kept none := by
  rcases rows with _ | ⟨⟨height, result⟩, rest⟩
  · rfl
  · have hlt : expected < height := h _ List.mem_cons_self
    unfold keepChained
    rw [if_pos (by omega)]

theorem StepEnv.rows_succ (env : StepEnv) (next count : Nat) :
    env.rows next (count + 1) = (env.row next).toList ++ env.rows (next + 1) count := by
  unfold rows
  rw [List.range'_succ, List.filterMap_cons]
  rcases env.row next with _ | row <;> rfl

theorem StepEnv.rows_above {next count : Nat} {row : Nat × Except FetchError CompactBlock}
    (h : row ∈ env.rows (next + 1) count) : next < row.1 := by
  have := List.mem_range'_1.mp (StepEnv.mem_rows.mp h).1
  omega

section

variable (count next : Nat) (tipHash : Option Bytes) (kept : List CompactBlock)

theorem keepChained_missing (h : env.delivered next = none) :
    keepChained next tipHash kept (env.rows next (count + 1)) = .batch kept none := by
  have hrow : env.row next = none := by simp [StepEnv.row, h]
  rw [StepEnv.rows_succ, hrow]
  exact keepChained_gap fun row hrow => StepEnv.rows_above hrow

theorem keepChained_failed {error : FetchError} (h : env.delivered next = some (.error error)) :
    keepChained next tipHash kept (env.rows next (count + 1))
      = .batch kept (some (.fetch error)) := by
  have hrow : env.row next = some (next, .error error) := by simp [StepEnv.row, h]
  rw [StepEnv.rows_succ, hrow]
  simp [keepChained]

theorem keepChained_delivered {block : CompactBlock} (h : env.delivered next = some (.ok block)) :
    keepChained next tipHash kept (env.rows next (count + 1))
      = if tipHash.any (· ≠ block.prevHash) then
          if kept.isEmpty then .reorg else .batch kept none
        else keepChained (next + 1) (some block.hash) (kept ++ [block])
          (env.rows (next + 1) count) := by
  have hrow : env.row next = some (next, .ok block) := by simp [StepEnv.row, h]
  rw [StepEnv.rows_succ, hrow]
  rw [Option.toList_some, List.cons_append, List.nil_append, keepChained, if_neg (by simp)]

end

/-- Once a block is kept, so is the longest run after it. -/
theorem keepChained_more (env : StepEnv) :
    ∀ (count next : Nat) (tipHash : Option Bytes) (kept : List CompactBlock), kept ≠ [] →
      ∃ failure, keepChained next tipHash kept (env.rows next count)
        = .batch (kept ++ chainedRun env count next tipHash) failure := by
  intro count
  induction count with
  | zero =>
      intro next tipHash kept _
      exact ⟨none, by simp [StepEnv.rows, keepChained, chainedRun]⟩
  | succ count ih =>
      intro next tipHash kept hkept
      unfold chainedRun
      rcases hdelivered : env.delivered next with _ | (error | block)
      · exact ⟨none, by rw [keepChained_missing _ _ _ _ hdelivered, List.append_nil]⟩
      · exact ⟨_, by rw [keepChained_failed _ _ _ _ hdelivered, List.append_nil]⟩
      · rw [keepChained_delivered _ _ _ _ hdelivered]
        by_cases hmismatch : (tipHash.any (· ≠ block.prevHash)) = true
        · rw [if_pos hmismatch, if_neg (by simpa using hkept)]
          simp only [if_pos hmismatch, List.append_nil]
          exact ⟨none, rfl⟩
        · rw [if_neg hmismatch]
          obtain ⟨failure, hmore⟩ := ih (next + 1) (some block.hash) (kept ++ [block]) (by simp)
          simp only [if_neg hmismatch]
          exact ⟨failure, by rw [hmore, List.append_assoc]; rfl⟩

/-- **How the loop reads a window**, by what was delivered at its first height.  Only a
block that does not go onto the tip is taken for a reorg. -/
theorem keepChained_cases (env : StepEnv) (count next : Nat) (tipHash : Option Bytes) :
    (env.delivered next = none ∧
      keepChained next tipHash [] (env.rows next (count + 1)) = .batch [] none) ∨
    (∃ error, env.delivered next = some (.error error) ∧
      keepChained next tipHash [] (env.rows next (count + 1))
        = .batch [] (some (.fetch error))) ∨
    (∃ block, env.delivered next = some (.ok block) ∧
      (¬∀ hash ∈ tipHash, block.prevHash = hash) ∧
      keepChained next tipHash [] (env.rows next (count + 1)) = .reorg) ∨
    ∃ block failure, env.delivered next = some (.ok block) ∧
      (∀ hash ∈ tipHash, block.prevHash = hash) ∧
      keepChained next tipHash [] (env.rows next (count + 1))
        = .batch (chainedRun env (count + 1) next tipHash) failure := by
  rcases hdelivered : env.delivered next with _ | (error | block)
  · exact Or.inl ⟨rfl, keepChained_missing _ _ _ _ hdelivered⟩
  · exact Or.inr (Or.inl ⟨error, rfl, keepChained_failed _ _ _ _ hdelivered⟩)
  · refine Or.inr (Or.inr ?_)
    rw [keepChained_delivered _ _ _ _ hdelivered]
    by_cases hmismatch : (tipHash.any (· ≠ block.prevHash)) = true
    · refine Or.inl ⟨block, rfl, mismatch_iff.mp hmismatch, ?_⟩
      rw [if_pos hmismatch]
      rfl
    · obtain ⟨failure, hmore⟩ :=
        keepChained_more env count (next + 1) (some block.hash) [block] (by simp)
      refine Or.inr ⟨block, failure, rfl, not_not.mp (mt mismatch_iff.mpr hmismatch), ?_⟩
      rw [if_neg hmismatch, List.nil_append, hmore, chainedRun, hdelivered]
      simp only [if_neg hmismatch]
      rfl

end

end Lightwalletd
