/-
The bulkhead bounds node work, not admissions.

A permit leaves a pool when a task is spawned and comes back when the task ends,
and nothing else an action does touches a permit or a task: `step_effect` says so
once for every action.  With the tasks' ids kept distinct, the rest is counting.
In every state the free permits of a pool and its calls at the node add up to its
capacity, and a task stays, whoever cancels what, until the node has answered it or
its call has panicked.
-/
import Lightwalletd.Node.Bulkhead

namespace Lightwalletd

/-- The pool a call belongs in: the scans are the calls that name transparent
addresses. -/
def NodeRpc.pool : NodeRpc → PermitPool
  | getAddressBalance _ => .scans
  | getAddressUtxos _ => .scans
  | getAddressTxids _ _ _ => .scans
  | _ => .general

/-- The calls a pool may have at the node. -/
def ClientNodeLimits.capacity (limits : ClientNodeLimits) : PermitPool → Nat
  | .scans => max limits.scanConcurrency 1
  | .general => max limits.concurrency 1

namespace Bulkhead

variable {b b' : Bulkhead}

def inProgress (b : Bulkhead) (pool : PermitPool) : Nat :=
  b.tasks.countP fun task => decide (task.call.pool = pool)

/-! ### The small steps -/

/-- Every method asks for one permit of the pool its call belongs in. -/
theorem method_eq (call : NodeRpc) : method call = ⟨call.pool, call⟩ := by
  cases call <;> rfl

theorem available_setAvailable (b : Bulkhead) (count : Nat) (pool other : PermitPool) :
    (b.setAvailable count pool).available other
      = if other = pool then count else b.available other := by
  cases pool <;> cases other <;> rfl

@[simp] theorem setAvailable_tasks (b : Bulkhead) (count : Nat) (pool : PermitPool) :
    (b.setAvailable count pool).tasks = b.tasks := by cases pool <;> rfl

@[simp] theorem setAvailable_clients (b : Bulkhead) (count : Nat) (pool : PermitPool) :
    (b.setAvailable count pool).clients = b.clients := by cases pool <;> rfl

@[simp] theorem setAvailable_nextId (b : Bulkhead) (count : Nat) (pool : PermitPool) :
    (b.setAvailable count pool).nextId = b.nextId := by cases pool <;> rfl

theorem setPhase_available (b : Bulkhead) (id : Nat) (phase : ClientPhase) (pool : PermitPool) :
    (b.setPhase id phase).available pool = b.available pool := by cases pool <;> rfl

/-- A future that waits for a permit after the phase of one was set waited before,
and is not that one unless it was set to wait. -/
private theorem mem_setPhase {id : Nat} {phase : ClientPhase} {client : ClientCall}
    (h : client ∈ (b.setPhase id phase).clients) :
    ∃ old ∈ b.clients, old.id = client.id ∧
      (client.id = id ∧ client.phase = phase ∨ client.id ≠ id ∧ client = old) := by
  obtain ⟨old, hold, heq⟩ := List.mem_map.mp h
  by_cases hid : old.id = id
  · rw [if_pos hid] at heq
    subst heq
    exact ⟨old, hold, rfl, Or.inl ⟨hid, rfl⟩⟩
  · rw [if_neg hid] at heq
    subst heq
    exact ⟨old, hold, rfl, Or.inr ⟨hid, rfl⟩⟩

private theorem client_mem {id : Nat} {client : ClientCall} (h : b.client id = some client) :
    client ∈ b.clients ∧ client.id = id :=
  ⟨List.mem_of_find?_eq_some h, by simpa using List.find?_some h⟩

/-! ### What an action does to the permits and the tasks

Two kinds of action move permits, and they undo each other: one starts a task with a
permit, and the other ends a task.  All others leave both alone.
-/

/-- A permit of the call's pool is taken, and a task holds it. -/
structure Spawned (b b' : Bulkhead) (id : Nat) (call : NodeRpc) : Prop where
  waiting : ∃ client ∈ b.clients, client.id = id ∧ client.call = call ∧
    ∃ deadline, client.phase = .admitting deadline
  free : 0 < b.available call.pool
  tasks : b'.tasks = ⟨id, call, ⟨call.pool, 1⟩⟩ :: b.tasks
  available : ∀ pool, b'.available pool
    = if pool = call.pool then b.available pool - 1 else b.available pool

/-- A task is gone, and its permit is back in its pool. -/
structure Ended (b b' : Bulkhead) (task : NodeTask) : Prop where
  tasks : ∃ before after, b.tasks = before ++ task :: after ∧ b'.tasks = before ++ after
  available : ∀ pool, b'.available pool
    = if pool = task.permit.pool then b.available pool + task.permit.count else b.available pool

/-- What a pool has lost, a call at the node has taken. -/
theorem Spawned.conserved {id : Nat} {call : NodeRpc} (h : Spawned b b' id call)
    (pool : PermitPool) :
    b'.available pool + b'.inProgress pool = b.available pool + b.inProgress pool := by
  have hfree := h.free
  rw [h.available, inProgress, inProgress, h.tasks, List.countP_cons]
  by_cases hpool : pool = call.pool
  · subst hpool
    simp only [if_true, decide_true]
    omega
  · have hpool' : ¬ call.pool = pool := fun hc => hpool hc.symm
    simp only [hpool, hpool', if_false, decide_false]
    simp

theorem Ended.sublist {task : NodeTask} (h : Ended b b' task) : b'.tasks.Sublist b.tasks := by
  obtain ⟨before, after, hbefore, hafter⟩ := h.tasks
  rw [hbefore, hafter]
  exact (List.Sublist.refl _).append (List.sublist_cons_self _ _)

theorem Ended.mem {task : NodeTask} (h : Ended b b' task) : task ∈ b.tasks := by
  obtain ⟨before, after, hbefore, -⟩ := h.tasks
  rw [hbefore]
  exact List.mem_append_right _ List.mem_cons_self

/-- What a call at the node had taken, its pool has again. -/
theorem Ended.conserved {task : NodeTask} (h : Ended b b' task)
    (hpermit : task.permit = ⟨task.call.pool, 1⟩) (pool : PermitPool) :
    b'.available pool + b'.inProgress pool = b.available pool + b.inProgress pool := by
  obtain ⟨before, after, hbefore, hafter⟩ := h.tasks
  rw [h.available, inProgress, inProgress, hbefore, hafter, hpermit, List.countP_append,
    List.countP_append, List.countP_cons]
  by_cases hpool : pool = task.call.pool
  · subst hpool
    simp only [if_true, decide_true]
    omega
  · have hpool' : ¬ task.call.pool = pool := fun hc => hpool hc.symm
    simp only [hpool, hpool', if_false, decide_false]
    simp

/-- The action that ends a task: its answer, or its panic. -/
def Action.Ends (action : Action) (id : Nat) : Prop :=
  (∃ answer, action = .finish id answer) ∨ ∃ detail, action = .panic id detail

private theorem hold_spawned {id deadline : Nat} {call : NodeRpc} {client : ClientCall}
    (hmem : client ∈ b.clients) (hid : client.id = id) (hcall : client.call = call)
    (hphase : client.phase = .admitting deadline) (hfree : 0 < b.available call.pool) :
    Spawned b (b.hold id ⟨call.pool, call⟩) id call := by
  refine ⟨⟨client, hmem, hid, hcall, deadline, hphase⟩, hfree, ?_, ?_⟩
  · simp [hold, setPhase]
  · intro pool
    rw [hold, setPhase_available]
    show (b.setAvailable (b.available call.pool - 1) call.pool).available pool = _
    rw [available_setAvailable]
    by_cases hpool : pool = call.pool
    · rw [if_pos hpool, if_pos hpool, hpool]
    · rw [if_neg hpool, if_neg hpool]

theorem endTask_ended {id : Nat} {result : Except NodeError Unit}
    (h : b.endTask id result = some b') : ∃ task, task.id = id ∧ Ended b b' task := by
  unfold endTask at h
  rcases hfind : b.tasks.find? (·.id = id) with _ | task
  · rw [hfind] at h
    cases h
  · rw [hfind] at h
    have hid : task.id = id := by simpa using List.find?_some hfind
    refine ⟨task, hid, ?_, ?_⟩
    · -- The task that was found is the first with its id, and so the one that is erased.
      obtain ⟨hp, before, after, hsplit, hbefore⟩ := List.find?_eq_some_iff_append.mp hfind
      refine ⟨before, after, hsplit, ?_⟩
      have herase : b.tasks.eraseP (·.id = id) = before ++ after := by
        rw [hsplit, List.eraseP_append_right _ (by simpa using hbefore),
          List.eraseP_cons_of_pos (by simpa using hid)]
      simp only [Option.some.injEq] at h
      rw [← h]
      simpa [setPhase] using herase
    · intro pool
      simp only [Option.some.injEq] at h
      rw [← h, setPhase_available]
      show (b.setAvailable (b.available task.permit.pool + task.permit.count)
        task.permit.pool).available pool = _
      rw [available_setAvailable]
      by_cases hpool : pool = task.permit.pool
      · rw [if_pos hpool, if_pos hpool, hpool]
      · rw [if_neg hpool, if_neg hpool]

/-- **The effect of an action**: it spawns the task of a call that waits, ends a task,
or touches neither tasks nor permits. -/
theorem step_effect {action : Action} (h : b.step action = some b') :
    (∃ id call, action = .acquire id ∧ Spawned b b' id call) ∨
    (∃ task, action.Ends task.id ∧ Ended b b' task) ∨
    ((∀ id, action ≠ .acquire id) ∧ (∀ id, ¬ action.Ends id) ∧
      b'.tasks = b.tasks ∧ ∀ pool, b'.available pool = b.available pool) := by
  cases action with
  | arrive call =>
      refine Or.inr (Or.inr ⟨by simp, by simp [Action.Ends], ?_⟩)
      cases h
      exact ⟨rfl, fun pool => by cases pool <;> rfl⟩
  | acquire id =>
      refine Or.inl ⟨id, ?_⟩
      simp only [step] at h
      split at h
      · next client call deadline hclient =>
          rw [method_eq] at h
          split at h
          · next hfree =>
              cases h
              obtain ⟨hmem, hid⟩ := client_mem hclient
              exact ⟨call, rfl, hold_spawned hmem hid rfl rfl hfree⟩
          · cases h
      · cases h
  | refuse id =>
      refine Or.inr (Or.inr ⟨by simp, by simp [Action.Ends], ?_⟩)
      simp only [step] at h
      split at h
      · split at h
        · cases h
          exact ⟨rfl, fun pool => setPhase_available b id _ pool⟩
        · cases h
      · cases h
  | cancel id =>
      refine Or.inr (Or.inr ⟨by simp, by simp [Action.Ends], ?_⟩)
      cases h
      exact ⟨rfl, fun pool => by cases pool <;> rfl⟩
  | finish id answer =>
      obtain ⟨task, hid, hended⟩ := endTask_ended h
      exact Or.inr (Or.inl ⟨task, by rw [hid]; exact Or.inl ⟨answer, rfl⟩, hended⟩)
  | panic id detail =>
      obtain ⟨task, hid, hended⟩ := endTask_ended h
      exact Or.inr (Or.inl ⟨task, by rw [hid]; exact Or.inr ⟨detail, rfl⟩, hended⟩)
  | tick elapsed =>
      refine Or.inr (Or.inr ⟨by simp, by simp [Action.Ends], ?_⟩)
      cases h
      exact ⟨rfl, fun pool => by cases pool <;> rfl⟩

/-! ### The futures

A client may drop its future at any time.  The task does not end with it, and neither
does its permit come back.
-/

/-- Ids are handed out in order, and a future that still waits has no task yet. -/
theorem step_clients {action : Action} (h : b.step action = some b') :
    b.nextId ≤ b'.nextId ∧ ∀ client ∈ b'.clients,
      (client.id = b.nextId ∧ b'.nextId = b.nextId + 1) ∨
      ∃ old ∈ b.clients, old.id = client.id ∧
        ((∃ deadline, client.phase = .admitting deadline) →
          client = old ∧ action ≠ .acquire client.id) := by
  have hkept : ∀ {id : Nat} {phase : ClientPhase} {c : Bulkhead},
      (∀ deadline, phase ≠ .admitting deadline) → (∀ other, action = .acquire other → other = id) →
      c.clients = b.clients →
      ∀ client ∈ (c.setPhase id phase).clients, ∃ old ∈ b.clients, old.id = client.id ∧
        ((∃ deadline, client.phase = .admitting deadline) →
          client = old ∧ action ≠ .acquire client.id) := by
    intro id phase c hphase hacquire hclients client hclient
    obtain ⟨old, hold, hid, hcases⟩ := mem_setPhase hclient
    refine ⟨old, hclients ▸ hold, hid, ?_⟩
    intro hwaits
    obtain ⟨deadline, hdeadline⟩ := hwaits
    rcases hcases with ⟨-, hset⟩ | ⟨hne, heq⟩
    · exact absurd (hset.symm.trans hdeadline) (hphase deadline)
    · exact ⟨heq, fun hact => hne (hacquire _ hact)⟩
  cases action with
  | arrive call =>
      cases h
      refine ⟨Nat.le_succ _, ?_⟩
      intro client hclient
      rcases List.mem_cons.mp hclient with rfl | hold
      · exact Or.inl ⟨rfl, rfl⟩
      · exact Or.inr ⟨client, hold, rfl, fun _ => ⟨rfl, by simp⟩⟩
  | acquire id =>
      simp only [step] at h
      split at h
      · split at h
        · cases h
          refine ⟨by simp [hold, setPhase], fun client hclient => Or.inr ?_⟩
          exact hkept (by simp) (by simp) (by simp) client hclient
        · cases h
      · cases h
  | refuse id =>
      simp only [step] at h
      split at h
      · split at h
        · cases h
          refine ⟨Nat.le_refl _, fun client hclient => Or.inr ?_⟩
          exact hkept (by simp) (by simp) rfl client hclient
        · cases h
      · cases h
  | cancel id =>
      cases h
      refine ⟨Nat.le_refl _, fun client hclient => Or.inr ⟨client, ?_, rfl, ?_⟩⟩
      · exact (List.mem_filter.mp hclient).1
      · exact fun _ => ⟨rfl, by simp⟩
  | finish id answer =>
      simp only [step, endTask] at h
      split at h
      · cases h
      · cases h
        refine ⟨by simp [setPhase], fun client hclient => Or.inr ?_⟩
        exact hkept (by simp) (by simp) (by simp) client hclient
  | panic id detail =>
      simp only [step, endTask] at h
      split at h
      · cases h
      · cases h
        refine ⟨by simp [setPhase], fun client hclient => Or.inr ?_⟩
        exact hkept (by simp) (by simp) (by simp) client hclient
  | tick elapsed =>
      cases h
      exact ⟨Nat.le_refl _, fun client hclient => Or.inr ⟨client, hclient, rfl,
        fun _ => ⟨rfl, by simp⟩⟩⟩

/-! ### The accounts

A pool starts with its capacity, and what it has lost since is held by the tasks of its
calls.  The bounds are read off these accounts.
-/

/-- The accounts of the bulkhead add up: free permits and calls at the node make the
capacity of each pool, and each call there has a permit of its own. -/
structure Accounted (limits : ClientNodeLimits) (b : Bulkhead) : Prop where
  conserved : ∀ pool, b.available pool + b.inProgress pool = limits.capacity pool
  permits : ∀ task ∈ b.tasks, task.permit = ⟨task.call.pool, 1⟩
  distinct : (b.tasks.map (·.id)).Nodup
  taskIds : ∀ task ∈ b.tasks, task.id < b.nextId
  clientIds : ∀ client ∈ b.clients, client.id < b.nextId
  waiting : ∀ client ∈ b.clients, (∃ deadline, client.phase = .admitting deadline) →
    ∀ task ∈ b.tasks, task.id ≠ client.id

private theorem accounted_new (limits : ClientNodeLimits) : Accounted limits (new limits) where
  conserved := by intro pool; cases pool <;> rfl
  permits := by simp [new]
  distinct := by simp [new]
  taskIds := by simp [new]
  clientIds := by simp [new]
  waiting := by simp [new]

/-- The futures after an action, whatever it did to the tasks: a task it left is an
old one or that of the future it acquired for. -/
theorem Accounted.futures {limits : ClientNodeLimits} {action : Action} (hb : Accounted limits b)
    (h : b.step action = some b')
    (htasks : ∀ task ∈ b'.tasks, task ∈ b.tasks ∨ action = .acquire task.id) :
    (∀ client ∈ b'.clients, client.id < b'.nextId) ∧
      ∀ client ∈ b'.clients, (∃ deadline, client.phase = .admitting deadline) →
        ∀ task ∈ b'.tasks, task.id ≠ client.id := by
  obtain ⟨hnext, hclients⟩ := step_clients h
  refine ⟨?_, ?_⟩
  · intro client hclient
    rcases hclients client hclient with ⟨hid, hsucc⟩ | ⟨old, hold, hid, -⟩
    · omega
    · have := hb.clientIds old hold
      omega
  · intro client hclient hwaits task htask heq
    rcases hclients client hclient with ⟨hid, hsucc⟩ | ⟨old, hold, hid, hsame⟩
    · -- A future that has just arrived has an id no task has.
      rcases htasks task htask with hin | hact
      · have := hb.taskIds task hin
        omega
      · subst hact
        rcases step_effect h with ⟨id, call, hid', hspawn⟩ | ⟨t, hends, -⟩ | ⟨hne, -⟩
        · obtain ⟨old, hold, hoid, -⟩ := hspawn.waiting
          have := hb.clientIds old hold
          cases hid'
          omega
        · rcases hends with ⟨_, hc⟩ | ⟨_, hc⟩ <;> cases hc
        · exact hne _ rfl
    · obtain ⟨hcl, hact⟩ := hsame hwaits
      rcases htasks task htask with hin | hact'
      · exact hb.waiting old hold (hcl ▸ hwaits) task hin (heq.trans hid.symm)
      · exact hact (heq ▸ hact')

theorem Accounted.step {limits : ClientNodeLimits} {action : Action} (hb : Accounted limits b)
    (h : b.step action = some b') : Accounted limits b' := by
  have hnext := (step_clients h).1
  rcases step_effect h with ⟨id, call, rfl, hspawn⟩ | ⟨task, -, hended⟩ | ⟨-, -, htasks, havail⟩
  · obtain ⟨client, hclient, hid, -, hwaits⟩ := hspawn.waiting
    have hnew : ∀ task ∈ b'.tasks, task = ⟨id, call, ⟨call.pool, 1⟩⟩ ∨ task ∈ b.tasks := by
      intro task htask
      rw [hspawn.tasks] at htask
      exact List.mem_cons.mp htask
    have hfutures := hb.futures h (by
      intro task htask
      rcases hnew task htask with rfl | hold
      · exact Or.inr rfl
      · exact Or.inl hold)
    refine ⟨?_, ?_, ?_, ?_, hfutures.1, hfutures.2⟩
    · exact fun pool => (hspawn.conserved pool).trans (hb.conserved pool)
    · intro task htask
      rcases hnew task htask with rfl | hold
      · rfl
      · exact hb.permits task hold
    · rw [hspawn.tasks, List.map_cons, List.nodup_cons]
      refine ⟨?_, hb.distinct⟩
      intro hin
      obtain ⟨task, htask, heq⟩ := List.mem_map.mp hin
      exact hb.waiting client hclient hwaits task htask (heq.trans hid.symm)
    · intro task htask
      rcases hnew task htask with rfl | hold
      · have := hb.clientIds client hclient
        show id < b'.nextId
        omega
      · have := hb.taskIds task hold
        omega
  · have hsub := hended.sublist
    have hfutures := hb.futures h (fun other hother => Or.inl (hsub.subset hother))
    refine ⟨?_, ?_, ?_, ?_, hfutures.1, hfutures.2⟩
    · exact fun pool =>
        (hended.conserved (hb.permits task hended.mem) pool).trans (hb.conserved pool)
    · exact fun other hother => hb.permits other (hsub.subset hother)
    · exact hb.distinct.sublist (hsub.map _)
    · intro other hother
      have := hb.taskIds other (hsub.subset hother)
      omega
  · have hfutures := hb.futures h (fun task htask => Or.inl (htasks ▸ htask))
    refine ⟨?_, ?_, ?_, ?_, hfutures.1, hfutures.2⟩
    · intro pool
      rw [havail, inProgress, htasks]
      exact hb.conserved pool
    · rw [htasks]
      exact hb.permits
    · rw [htasks]
      exact hb.distinct
    · intro task htask
      have := hb.taskIds task (htasks ▸ htask)
      omega

theorem accounted_run {limits : ClientNodeLimits} {actions : List Action}
    (h : Run.run step (new limits) actions = some b) : Accounted limits b :=
  Run.invariant (Accounted limits) (fun _ _ _ _ hm hstep => hm.step hstep) h (accounted_new limits)

private theorem task_stays {limits : ClientNodeLimits} {actions : List Action}
    (hb : Accounted limits b)
    (h : Run.run step b actions = some b') {task : NodeTask} (htask : task ∈ b.tasks)
    (hends : ∀ action ∈ actions, ¬ action.Ends task.id) : task ∈ b'.tasks := by
  have hrun : Accounted limits b' ∧ task ∈ b'.tasks := by
    refine Run.invariant (fun m => Accounted limits m ∧ task ∈ m.tasks) ?_ h ⟨hb, htask⟩
    intro m action n haction hm hstep
    obtain ⟨hacc, hin⟩ := hm
    refine ⟨hacc.step hstep, ?_⟩
    rcases step_effect hstep with ⟨id, call, -, hspawn⟩ | ⟨other, hother, hended⟩ | ⟨-,
      -, htasks, -⟩
    · rw [hspawn.tasks]
      exact List.mem_cons_of_mem _ hin
    · obtain ⟨before, after, hbefore, hafter⟩ := hended.tasks
      have hne : task ≠ other := by
        intro heq
        exact hends action haction (heq ▸ hother)
      rw [hbefore] at hin
      rw [hafter]
      rcases List.mem_append.mp hin with hl | hr
      · exact List.mem_append_left _ hl
      · exact List.mem_append_right _ ((List.mem_cons.mp hr).resolve_left hne)
    · rw [htasks]
      exact hin
  exact hrun.2

/-- How many permits of a pool the tasks of one call hold. -/
def heldBy (b : Bulkhead) (id : Nat) (pool : PermitPool) : Nat :=
  ((b.tasks.filter fun task => task.id = id ∧ task.permit.pool = pool).map (·.permit.count)).sum

/-- A call at the node holds one permit of its own pool, and none of the other. -/
theorem Accounted.heldBy_eq {limits : ClientNodeLimits} (hb : Accounted limits b)
    {task : NodeTask} (htask : task ∈ b.tasks) (pool : PermitPool) :
    b.heldBy task.id pool = if pool = task.call.pool then 1 else 0 := by
  have hunique : ∀ other ∈ b.tasks, other.id = task.id → other = task := by
    intro other hother heq
    exact List.inj_on_of_nodup_map hb.distinct hother htask heq
  have hpermit := hb.permits task htask
  have hnodup : b.tasks.Nodup := List.Nodup.of_map _ hb.distinct
  unfold heldBy
  by_cases hpool : pool = task.call.pool
  · have hfilter : (b.tasks.filter fun other => other.id = task.id ∧ other.permit.pool = pool)
        = [task] := by
      refine List.perm_singleton.mp ((List.perm_ext_iff_of_nodup (hnodup.filter _)
        (List.nodup_singleton _)).mpr ?_)
      intro other
      rw [List.mem_filter, List.mem_singleton]
      constructor
      · intro hin
        exact hunique other hin.1 (by simpa using (of_decide_eq_true hin.2).1)
      · intro heq
        subst heq
        exact ⟨htask, by simp [hpermit, hpool]⟩
    rw [hfilter, if_pos hpool, List.map_cons, List.map_nil, hpermit]
    rfl
  · have hfilter : (b.tasks.filter fun other => other.id = task.id ∧ other.permit.pool = pool)
        = [] := by
      refine List.filter_eq_nil_iff.mpr ?_
      intro other hother hin
      have hin' := of_decide_eq_true hin
      obtain rfl := hunique other hother hin'.1
      rw [hpermit] at hin'
      exact hpool hin'.2.symm
    rw [hfilter, if_neg hpool]
    rfl

/--
**The bulkhead bounds node work.**  In every order of arrivals, acquisitions,
refusals, cancellations, answers and panics: no pool has more calls at the node than
its capacity, what is free and what is at the node make up the capacity, each call
at the node holds exactly one permit, of its own pool, only an acquisition takes a
permit, and only the end of a call gives its permit back.
-/
theorem bounds_node_work (limits : ClientNodeLimits) (actions : List Action)
    (h : Run.run step (new limits) actions = some b) :
    (∀ pool, b.inProgress pool ≤ limits.capacity pool) ∧
    (∀ pool, b.available pool + b.inProgress pool = limits.capacity pool) ∧
    (∀ task ∈ b.tasks, ∀ pool, b.heldBy task.id pool = if pool = task.call.pool then 1 else 0) ∧
    (∀ action next, b.step action = some next → ∀ pool,
      (next.available pool < b.available pool → ∃ id call, action = .acquire id ∧
        call.pool = pool ∧ (∃ client ∈ b.clients, client.id = id ∧ client.call = call) ∧
        next.available pool + 1 = b.available pool) ∧
      (b.available pool < next.available pool → ∃ task ∈ b.tasks, action.Ends task.id ∧
        task.call.pool = pool ∧ task ∉ next.tasks ∧
        next.available pool = b.available pool + 1)) ∧
    (∀ later final, Run.run step b later = some final → ∀ task ∈ b.tasks,
      (∀ action ∈ later, ¬ action.Ends task.id) → task ∈ final.tasks) := by
  have hb := accounted_run h
  refine ⟨?_, hb.conserved, fun task htask => hb.heldBy_eq htask, ?_, ?_⟩
  · intro pool
    have := hb.conserved pool
    omega
  · intro action next hstep pool
    rcases step_effect hstep with ⟨id, call, hact, hspawn⟩ | ⟨task, hends, hended⟩ |
      ⟨-, -, -, havail⟩
    · have hav := hspawn.available pool
      have hfree := hspawn.free
      obtain ⟨client, hclient, hid, hcall, -⟩ := hspawn.waiting
      by_cases hpool : pool = call.pool
      · subst hpool
        rw [if_pos rfl] at hav
        exact ⟨fun _ => ⟨id, call, hact, rfl, ⟨client, hclient, hid, hcall⟩, by omega⟩,
          fun hlt => absurd hlt (by omega)⟩
      · rw [if_neg hpool] at hav
        exact ⟨fun hlt => absurd hlt (by omega), fun hlt => absurd hlt (by omega)⟩
    · obtain ⟨before, after, hbefore, hafter⟩ := hended.tasks
      have hmem : task ∈ b.tasks := by
        rw [hbefore]
        exact List.mem_append_right _ List.mem_cons_self
      have hgone : task ∉ next.tasks := by
        have hnodup : (before ++ task :: after).Nodup := by
          rw [← hbefore]
          exact List.Nodup.of_map _ hb.distinct
        rw [hafter]
        have := List.nodup_middle.mp hnodup
        exact (List.nodup_cons.mp this).1
      have hav := hended.available pool
      rw [hb.permits task hmem] at hav
      by_cases hpool : pool = task.call.pool
      · subst hpool
        rw [if_pos rfl] at hav
        exact ⟨fun hlt => absurd hlt (by omega),
          fun _ => ⟨task, hmem, hends, rfl, hgone, hav⟩⟩
      · rw [if_neg hpool] at hav
        exact ⟨fun hlt => absurd hlt (by omega), fun hlt => absurd hlt (by omega)⟩
    · rw [havail]
      exact ⟨fun hlt => absurd hlt (lt_irrefl _), fun hlt => absurd hlt (lt_irrefl _)⟩
  · intro later final hrun task htask hends
    exact task_stays hb hrun htask hends

/-- One permit in each pool: a scan whose client walks away, a second scan that is
refused, and a batch of hashes whose call panics. -/
def abandonedScan : List Action :=
  [.arrive (.getAddressUtxos []), .acquire 0, .cancel 0, .arrive (.getAddressBalance []),
    .arrive (.getBlockHashes [1, 2, 3]), .acquire 2, .tick 250, .refuse 1, .panic 2 "boom"]

theorem abandonedScan_keeps_its_permit :
    ∃ b, Run.run step (new ⟨1, 1⟩) abandonedScan = some b ∧
      b.tasks = [⟨0, .getAddressUtxos [], ⟨.scans, 1⟩⟩] ∧
      b.available .scans = 0 ∧ b.available .general = 1 ∧
      b.inProgress .scans ≤ max 1 1 ∧ b.available .scans + b.inProgress .scans = max 1 1 := by
  obtain ⟨b, hb⟩ : ∃ b, Run.run step (new ⟨1, 1⟩) abandonedScan = some b :=
    Option.isSome_iff_exists.mp (by decide)
  have hbounds := bounds_node_work ⟨1, 1⟩ abandonedScan hb
  have hrun : (Run.run step (new ⟨1, 1⟩) abandonedScan).map
      (fun b => (b.tasks, b.available .scans, b.available .general))
        = some ([⟨0, .getAddressUtxos [], ⟨.scans, 1⟩⟩], 0, 1) := by decide
  rw [hb] at hrun
  simp only [Option.map_some, Option.some.injEq, Prod.mk.injEq] at hrun
  exact ⟨b, hb, hrun.1, hrun.2.1, hrun.2.2, hbounds.1 .scans, hbounds.2.1 .scans⟩

end Bulkhead

end Lightwalletd
