import GoLabs.MapReduce.Snapshot

/-!
# The schedule of the workers

`GetTask` notes when a task was handed out, and only `timeoutTasks` looks at it.  In a run in which
no task times out the readings of the clock therefore do not matter, and neither do the polls of
`Done`: one that returns true deletes the `m-out` files, but then every task has been reported and
no worker looks at a file any more.  What is left of such a run are the steps of its workers.
-/

open GoLabs.Reasoning

namespace GoLabs.MapReduce

def Task.untimed (task : Task) : Task := { task with startTime := 0 }

namespace Coordinator

variable {φ : Type} {c c' : Coordinator}

def untimed (c : Coordinator) : Coordinator := { c with tasks := c.tasks.map Task.untimed }

theorem workers_untimed (c : Coordinator) : c.untimed.workers = c.workers := rfl

theorem findIdleTask_untimed (c : Coordinator) :
    c.untimed.findIdleTask = (c.findIdleTask.1, c.findIdleTask.2.map Task.untimed) := by
  have hidle : (fun task : Task => decide (task.status = .idle)) ∘ Task.untimed =
      fun task => decide (task.status = .idle) := rfl
  unfold findIdleTask untimed
  rw [List.findIdx?_map, hidle]
  cases c.tasks.findIdx? fun task => decide (task.status = .idle) with
  | none => rfl
  | some i => simp

theorem getTask_untimed {w : Nat} {now : Int} {res : GetTaskRes}
    (h : c.getTask w now = some (c', res)) : c.untimed.getTask w 0 = some (c'.untimed, res) := by
  unfold getTask at h ⊢
  rw [findIdleTask_untimed, workers_untimed]
  cases hw : c.workers[w]? with
  | none => simp [hw] at h
  | some v =>
      rcases hfind : c.findIdleTask with ⟨n, _ | task⟩
      · simp only [hw, hfind, Option.some.injEq, Prod.mk.injEq] at h
        obtain ⟨rfl, rfl⟩ := h
        rfl
      · simp only [hw, hfind, Option.some.injEq, Prod.mk.injEq] at h
        obtain ⟨rfl, rfl⟩ := h
        simp [untimed, Task.untimed, List.map_set]

theorem complete_untimed (n : Nat) (task : Task) (committed : Bool) :
    c.untimed.complete n task.untimed committed = (c.complete n task committed).untimed := by
  simp [complete, untimed, Task.untimed, List.map_set]

theorem TaskDone.untimed {os : Os φ} {it : Iteration GoString} {fs fs' : φ} {n : Nat}
    {files : List GoString} {err : Option GoString} (h : TaskDone os it c fs n files c' fs' err) :
    TaskDone os it c.untimed fs n files c'.untimed fs' err := by
  have hrow : ∀ {task : Task}, c.tasks[n]? = some task →
      c.untimed.tasks[n]? = some task.untimed := by
    intro task ht
    simp [Coordinator.untimed, ht]
  cases h with
  | late ht hs hremove => exact .late (hrow ht) hs hremove
  | failed ht hs htype hrename =>
      rw [← complete_untimed]
      exact .failed (hrow ht) hs htype hrename
  | mapped ht hs htype hrename hnum =>
      have hdone : TaskDone os it c.untimed fs n files _ fs' none :=
        .mapped (hrow ht) hs htype hrename hnum
      rwa [complete_untimed] at hdone
  | @lastMapped task fs' names m ht hs htype hrename hnum hglob hgroup =>
      have hdone : TaskDone os it c.untimed fs n files _ fs' none :=
        .lastMapped (hrow ht) hs htype hrename hnum hglob hgroup
      -- the new tasks are idle and have no start time yet
      have hnew : ((m.range it).map reduceTask).map Task.untimed = (m.range it).map reduceTask := by
        rw [List.map_map]
        rfl
      rw [complete_untimed] at hdone
      unfold Coordinator.untimed at hdone ⊢
      rw [List.map_append, hnew]
      exact hdone
  | lastFailed ht hs htype hrename hnum hglob =>
      have hdone : TaskDone os it c.untimed fs n files _ fs' _ :=
        .lastFailed (hrow ht) hs htype hrename hnum hglob
      rwa [complete_untimed] at hdone
  | reduced ht hs htype hrename hphase =>
      have hdone : TaskDone os it c.untimed fs n files _ fs' none :=
        .reduced (hrow ht) hs htype hrename hphase
      rwa [complete_untimed] at hdone
  | other ht hs htype =>
      rw [← complete_untimed]
      exact .other (hrow ht) hs htype

theorem stopRunning_untimed (b : Beat) :
    c.untimed.stopRunning b = (c.stopRunning b).untimed := by
  unfold stopRunning
  split <;> split <;> first | rfl | contradiction

theorem timeoutTasks_of_tasks {now : Nat → Int} (h : (c.timeoutTasks now).tasks = c.tasks) :
    c.timeoutTasks now = c := by
  obtain ⟨tasks, heq⟩ := c.timeoutTasks_eq now
  rw [heq] at h ⊢
  subst h
  rfl

end Coordinator

/-! ## Runs of a job -/

/-- The action of a worker, without the reading of the clock. -/
def JobAction.ofWorker : JobAction → Option JobAction
  | .getTask w _ => some (.getTask w 0)
  | .done _ => none
  | act => some act

namespace Job

variable {spec : JobSpec} {d : Disk} {s t u : Job}

/-- Whether the action lets every task have its time. -/
def noTimeout (s : Job) : JobAction → Bool
  | .done now => (s.coord.timeoutTasks now).tasks = s.coord.tasks
  | _ => true

def Timely (s : Job) : Prop := ∀ task ∈ s.coord.tasks, task.status ≠ .timedOut

theorem Timely.step {act : JobAction} (h : Timely s) (hno : s.noTimeout act = true)
    (hs : s.step spec act = some t) : Timely t := by
  cases step_cases hs with
  | registerWorker => exact h
  | @getTask w now sys res hpc hget =>
      obtain ⟨c, hc, rfl⟩ := CoordSys.getTask_eq_some.mp hget
      cases (Coordinator.getTask_cases hc).1 with
      | nothing => exact h
      | found ht hidle => exact forall_mem_set h (by simp)
  | advance hpc hadv hun => exact h
  | taskDone hpc hdone hnext hsnap =>
      intro task htask
      -- an old task, a new reduce task, or the one reported: its status says how it went
      obtain hold | hidle | ⟨old, b, -, -, rfl⟩ :=
        (CoordSys.taskDone_given hdone).2.2.mem_tasks htask
      · exact h task hold
      · simp [hidle]
      · simp
  | heartbeat => exact h
  | stopRunning =>
      intro task htask
      exact h task (s.sys.tasks_stopRunning _ ▸ htask)
  | done hdone =>
      obtain rfl := (Coordinator.done_cases hdone).1
      intro task htask
      exact h task (of_decide_eq_true hno ▸ htask)
  | crash => exact h

/-- Nothing to hand out, and nobody busy. -/
structure AtRest (s : Job) : Prop where
  tasks : ∀ task ∈ s.coord.tasks, task.status ≠ .idle
  workers : ∀ pc ∈ s.workers, pc.task = none

theorem atRest_of_settled (hw : Wired spec d s) (htimely : Timely s)
    (hsettled : s.coord.settled = true) : AtRest s := by
  refine ⟨fun task htask ↦ (hw.accounting.ended hsettled htask).1, ?_⟩
  intro pc hmem
  obtain ⟨w, hpc⟩ := List.getElem?_of_mem hmem
  cases hn : pc.task with
  | none => rfl
  | some n =>
      -- without time-outs a busy worker's task is still in progress, and a settled job has none
      obtain ⟨hgiven, hfirst, task, htask, -⟩ := hw.busy w n pc hpc hn
      have hmem' := List.mem_of_getElem? htask
      have hp := hw.accounting.inProgress hgiven hfirst htask (htimely task hmem')
      exact absurd hp (hw.accounting.ended hsettled hmem').2

/-- The job as its workers know it, over the directory `e`. -/
def plain (s : Job) (e : Disk) : Job :=
  { s with sys := { s.sys with coord := s.coord.untimed, fs := e }, finished := false }

/-- `u` has taken the steps of the workers of `s` only. -/
structure Follows (s u : Job) : Prop where
  same : u = s.plain u.disk
  renames : u.disk.renames = s.disk.renames
  disk : u.disk = s.disk ∨ AtRest s ∧
    ∀ name, globMatch (lit "m-out*") name = false → u.disk.read name = s.disk.read name

theorem follows_init (spec : JobSpec) (d : Disk) : Follows (Job.init spec d) (Job.init spec d) := by
  have htasks : (createMapTasks spec.inputs).map Task.untimed = createMapTasks spec.inputs := by
    apply List.ext_getElem
    · simp
    · intro i hi hi'
      simp [createMapTasks, Task.untimed]
  refine ⟨?_, rfl, .inl rfl⟩
  unfold plain Job.init Job.coord CoordSys.init makeCoordinator Coordinator.untimed
  dsimp only
  rw [htasks]
  rfl

/-- A step that leaves the directory alone and keeps a job at rest. -/
theorem Follows.keep (h : Follows s u) (hdisk : t.disk = s.disk) (hrest : AtRest s → AtRest t) :
    Follows t (t.plain u.disk) := by
  refine ⟨rfl, ?_, ?_⟩
  · rw [hdisk]
    exact h.renames
  · rw [hdisk]
    exact h.disk.imp id fun hr ↦ ⟨hrest hr.1, hr.2⟩

/-- While a worker is busy, `Done` has not deleted anything. -/
theorem Follows.disk_of_busy (h : Follows s u) {w : Nat} {pc : WorkerPc}
    (hpc : s.workers[w]? = some pc) (hbusy : pc.task ≠ none) : u.disk = s.disk := by
  obtain hsame | ⟨hrest, -⟩ := h.disk
  · exact hsame
  · exact absurd (hrest.workers pc (List.mem_of_getElem? hpc)) hbusy

theorem Follows.step {act b : JobAction} (h : Follows s u) (hb : act.ofWorker = some b)
    (hs : s.step spec act = some t) : ∃ v, u.step spec b = some v ∧ Follows t v := by
  obtain ⟨e, hu⟩ : ∃ e, u = s.plain e := ⟨_, h.same⟩
  subst hu
  cases step_cases hs with
  | registerWorker =>
      cases hb
      refine ⟨_, rfl, h.keep rfl fun hrest ↦ ⟨hrest.tasks, ?_⟩⟩
      exact List.forall_mem_append.mpr ⟨hrest.workers, List.forall_mem_singleton.mpr rfl⟩
  | getTask hpc hget =>
      cases hb
      obtain ⟨c, hc, rfl⟩ := CoordSys.getTask_eq_some.mp hget
      have hcall := (CoordSys.getTask_eq_some (s := (s.plain e).sys)).mpr
        ⟨_, Coordinator.getTask_untimed hc, rfl⟩
      refine ⟨_, step_getTask (s := s.plain e) hpc hcall, h.keep rfl fun hrest ↦ ?_⟩
      cases (Coordinator.getTask_cases hc).1 with
      | nothing => exact ⟨hrest.tasks, forall_mem_set hrest.workers rfl⟩
      | found ht hidle =>
          -- a job at rest has no idle task to hand out
          exact absurd hidle (hrest.tasks _ (List.mem_of_getElem? ht))
  | advance hpc hadv hun =>
      cases hb
      subst hun
      have hdisk : e = s.disk := h.disk_of_busy hpc (by cases hadv <;> simp [WorkerPc.task])
      subst hdisk
      exact ⟨_, step_advance (s := s.plain s.disk) hpc hadv.call, rfl, rfl, .inl rfl⟩
  | @taskDone w n it files sys err pc snapshot hpc hdone hnext hsnap =>
      cases hb
      obtain ⟨c, fs, hc, rfl⟩ := CoordSys.taskDone_eq_some.mp hdone
      subst hnext hsnap
      have hdisk : e = s.disk := h.disk_of_busy hpc (by simp [WorkerPc.task])
      subst hdisk
      have hcall := (CoordSys.taskDone_eq_some (s := (s.plain s.disk).sys) (w := w)).mpr
        ⟨_, _, (Coordinator.taskDone_cases hc).untimed.call, rfl⟩
      exact ⟨_, step_taskDone (s := s.plain s.disk) hpc hcall, rfl, rfl, .inl rfl⟩
  | heartbeat hpc hthere hfree hbeat =>
      cases hb
      refine ⟨_, step_heartbeat (s := s.plain e) hpc hthere hfree hbeat, h.keep rfl fun hrest ↦ ?_⟩
      exact ⟨hrest.tasks, hrest.workers⟩
  | @stopRunning b hb' =>
      cases hb
      refine ⟨_, step_stopRunning (s := s.plain e) hb', ?_⟩
      have hkeep := h.keep (t := { s with
        sys := s.sys.stopRunning b
        told := s.told ++ [(b.workerId, b.array != s.coord.array)] }) rfl fun hrest ↦
          ⟨fun task htask ↦ hrest.tasks task (s.sys.tasks_stopRunning b ▸ htask), hrest.workers⟩
      unfold plain Job.coord CoordSys.stopRunning at hkeep ⊢
      dsimp only at hkeep ⊢
      rw [Coordinator.stopRunning_untimed]
      exact hkeep
  | done hdone => cases hb
  | crash =>
      cases hb
      obtain ⟨pc, hpc⟩ := crash_worker hs
      refine ⟨_, step_crash (s := s.plain e) hpc, h.keep rfl fun hrest ↦ ?_⟩
      exact ⟨hrest.tasks, forall_mem_set hrest.workers rfl⟩

/-- A poll of `Done` that times nothing out deletes files only when nobody will look at them. -/
theorem Follows.poll {act : JobAction} (h : Follows s u) (hw : Wired spec d s)
    (htimely : Timely s) (hno : s.noTimeout act = true) (hpoll : act.ofWorker = none)
    (hs : s.step spec act = some t) : Follows t u := by
  cases step_cases hs with
  | @done now c e result hdone =>
      obtain ⟨hcoord, hdisk⟩ := Coordinator.done_cases hdone
      have hkeep := Coordinator.timeoutTasks_of_tasks (of_decide_eq_true hno)
      rw [hkeep] at hcoord
      subst hcoord
      obtain ⟨-, rfl⟩ | ⟨-, hsettled, rfl⟩ := hdisk
      · exact ⟨h.same, h.renames, h.disk.imp id fun hr ↦ ⟨⟨hr.1.tasks, hr.1.workers⟩, hr.2⟩⟩
      · -- `Done` deletes the map output, which a job at rest does not read again
        have hrest := atRest_of_settled hw htimely hsettled
        refine ⟨h.same, ?_, .inr ⟨⟨hrest.tasks, hrest.workers⟩, ?_⟩⟩
        · exact h.renames.trans (renames_deleteFiles s.disk _).symm
        · intro name hname
          have hread := read_deleteFiles s.disk (lit "m-out*") name
          simp only [hname, Bool.false_eq_true, false_and, or_false] at hread
          refine Eq.trans ?_ hread.symm
          obtain hsame | ⟨-, hreads⟩ := h.disk
          · rw [hsame]
          · exact hreads name hname
  | registerWorker => cases hpoll
  | getTask hpc hget => cases hpoll
  | advance hpc hadv hun => cases hpoll
  | taskDone hpc hdone hnext hsnap => cases hpoll
  | heartbeat => cases hpoll
  | stopRunning => cases hpoll
  | crash => cases hpoll

/-- A run in which no task times out, reduced to the steps of its workers. -/
theorem follows_of_run {as : List JobAction} {guard guard' : Job → JobAction → Bool}
    (hno : ∀ {s : Job} {act : JobAction}, guard s act = true → s.noTimeout act = true)
    (hguard : ∀ {s u t v : Job} {act b : JobAction}, act.ofWorker = some b → Follows s u →
      s.step spec act = some t → u.step spec b = some v → Follows t v → guard s act = true →
      guard' u b = true)
    (hrun : run (restrict (step spec) guard) (Job.init spec d) as = some t) :
    ∃ u, run (restrict (step spec) guard') (Job.init spec d) (as.filterMap JobAction.ofWorker) =
      some u ∧ Follows t u := by
  have hinit : Timely (Job.init spec d) := by
    intro task htask
    obtain ⟨i, file, -, rfl⟩ := CoordSys.mem_createMapTasks htask
    simp
  have hsim : ∃ u, run (restrict (step spec) guard') (Job.init spec d)
      (as.filterMap JobAction.ofWorker) = some u ∧ Follows t u ∧ Wired spec d t ∧ Timely t := by
    refine run_simulates (R := fun s u => Follows s u ∧ Wired spec d s ∧ Timely s) ?_ ?_ hrun
      ⟨follows_init spec d, Wired.init, hinit⟩
    · intro s act b t u hb hR hs
      obtain ⟨hfollows, hw, htimely⟩ := hR
      obtain ⟨hg, hs⟩ := restrict_eq_some.mp hs
      obtain ⟨v, hv, hfollows'⟩ := hfollows.step hb hs
      exact ⟨v, restrict_eq_some.mpr ⟨hguard hb hfollows hs hv hfollows' hg, hv⟩, hfollows',
        hw.step hs, htimely.step (hno hg) hs⟩
    · intro s act t u hb hR hs
      obtain ⟨hfollows, hw, htimely⟩ := hR
      obtain ⟨hg, hs⟩ := restrict_eq_some.mp hs
      exact ⟨hfollows.poll hw htimely (hno hg) hb hs, hw.step hs, htimely.step (hno hg) hs⟩
  obtain ⟨u, hu, hfollows, -⟩ := hsim
  exact ⟨u, hu, hfollows⟩

end Job

end GoLabs.MapReduce
