import GoLabs.MapReduce.Job
import GoLabs.MapReduce.Names

/-!
# Runs of a job

A run of a job is a run of its coordinator: every worker reports only tasks it was given, each once.
A worker that is busy with a task works for the origin of that task and creates files with the names
of that origin only.
-/

open GoLabs.Reasoning

namespace GoLabs.MapReduce

/-! ## The tasks along a run -/

/-- What a step may do to a task: it keeps its files and origin, and one that has timed out or
completed does not change any more. -/
structure Task.Later (a b : Task) : Prop where
  files : b.files = a.files
  taskType : b.taskType = a.taskType
  origin : b.origin = a.origin
  settled : a.status = .timedOut ∨ a.status = .completed → b = a

theorem Task.Later.refl (a : Task) : Task.Later a a := ⟨rfl, rfl, rfl, fun _ ↦ rfl⟩

theorem Task.Later.trans {a b c : Task} (h : Task.Later a b) (h' : Task.Later b c) :
    Task.Later a c := by
  refine ⟨h'.files.trans h.files, h'.taskType.trans h.taskType, h'.origin.trans h.origin, ?_⟩
  intro hs
  have hba := h.settled hs
  rw [h'.settled (hba ▸ hs), hba]

/-- Every task of the one table has a later state in the other. -/
def Tasks.Later (l l' : List Task) : Prop :=
  ∀ (n : Nat) (task : Task), l[n]? = some task → ∃ task', l'[n]? = some task' ∧ task.Later task'

theorem Tasks.Later.refl (l : List Task) : Tasks.Later l l :=
  fun _ task ht ↦ ⟨task, ht, .refl task⟩

theorem Tasks.Later.trans {l l' l'' : List Task} (h : Tasks.Later l l')
    (h' : Tasks.Later l' l'') : Tasks.Later l l'' := by
  intro n task ht
  rcases h n task ht with ⟨task', ht', hl⟩
  rcases h' n task' ht' with ⟨task'', ht'', hl'⟩
  exact ⟨task'', ht'', hl.trans hl'⟩

theorem Tasks.Later.set {l : List Task} {n : Nat} {a b : Task} (ha : l[n]? = some a)
    (h : a.Later b) : Tasks.Later l (l.set n b) := by
  intro k task ht
  by_cases hk : k = n
  · subst hk
    rw [ha, Option.some.injEq] at ht
    subst ht
    exact ⟨b, getElem?_set_eq_some.mpr (.inl ⟨rfl, lt_length_of_getElem? ha, rfl⟩), h⟩
  · exact ⟨task, getElem?_set_eq_some.mpr (.inr ⟨hk, ht⟩), .refl task⟩

theorem Tasks.Later.append (l new : List Task) : Tasks.Later l (l ++ new) := by
  intro n task ht
  exact ⟨task, by rw [List.getElem?_append_left (lt_length_of_getElem? ht), ht], .refl task⟩

theorem Coordinator.later_timeoutTasks (c : Coordinator) (now : Nat → Int) :
    Tasks.Later c.tasks (c.timeoutTasks now).tasks := by
  refine timeoutTasks_induct (P := fun d => Tasks.Later c.tasks d.tasks) now (.refl _) ?_
  rintro d e ih ⟨ht, hs⟩
  refine ih.trans (Tasks.Later.trans (Tasks.Later.set ht ?_) (.append _ _))
  exact ⟨rfl, rfl, rfl, by simp [hs]⟩

/-- A task that times out has not committed, and neither has its replacement. -/
theorem Coordinator.committed_timeoutTasks {c : Coordinator}
    (hc : ∀ task ∈ c.tasks, task.committed = true → task.status = .completed) (now : Nat → Int)
    {n : Nat} {task : Task} (ht : (c.timeoutTasks now).tasks[n]? = some task)
    (hcommitted : task.committed = true) : c.tasks[n]? = some task := by
  revert n task
  refine timeoutTasks_induct (P := fun d => ∀ {n : Nat} {task : Task}, d.tasks[n]? = some task →
    task.committed = true → c.tasks[n]? = some task) now (fun ht _ ↦ ht) ?_
  rintro d e ih ⟨hold, hs⟩ n task ht hcom
  obtain hset | ⟨-, rfl⟩ := getElem?_snoc_eq_some.mp ht
  · obtain ⟨rfl, -, rfl⟩ | ⟨-, hrest⟩ := getElem?_set_eq_some.mp hset
    · have hcompleted := hc _ (List.mem_of_getElem? (ih hold hcom)) hcom
      rw [hs] at hcompleted
      simp at hcompleted
    · exact ih hrest hcom
  · simp [replacement] at hcom

namespace CoordSys

variable {φ : Type} {os : Os φ} {inputs : List GoString} {s t : CoordSys φ}

/-- While an attempt at an input is in progress, `createReduceTasks` has not run. -/
theorem Accounting.created_of_input (h : Accounting inputs s) {n i : Nat} {task : Task}
    (ht : s.coord.tasks[n]? = some task) (hp : task.status = .inProgress)
    (ho : task.origin = .input i) : s.coord.created = [] := by
  apply h.created_nil
  have hmem := List.mem_of_getElem? ht
  have hpos : 0 < s.coord.tasks.countP (Task.pending .map) := by
    apply List.countP_pos_iff.mpr ⟨task, hmem, ?_⟩
    simp [Task.pending, h.rows.typed hmem, ho, Origin.taskType, hp, h.uncommitted ht hp]
  rw [h.numMap]
  omega

theorem later_complete {c : Coordinator} {n : Nat} {task : Task} (ht : c.tasks[n]? = some task)
    (hp : task.status = .inProgress) (b : Bool) :
    Tasks.Later c.tasks (c.complete n task b).tasks :=
  Tasks.Later.set ht ⟨rfl, rfl, rfl, by simp [hp]⟩

theorem later_of_step {act : CoordAction φ} (h : Accounting inputs s)
    (hs : s.step os act = some t) : Tasks.Later s.coord.tasks t.coord.tasks := by
  cases step_cases hs with
  | registerWorker => exact .refl _
  | getTask hw hget hgiven =>
      cases hget with
      | nothing => exact .refl _
      | found ht hidle => exact Tasks.Later.set ht ⟨rfl, rfl, rfl, by simp [hidle]⟩
  | taskDone hgiven hfirst hdone =>
      cases hdone with
      | late ht hst hremove => exact .refl _
      | failed ht hst htype hrename =>
          exact later_complete ht (h.inProgress hgiven hfirst ht hst) _
      | mapped ht hst htype hrename hnum =>
          exact later_complete ht (h.inProgress hgiven hfirst ht hst) _
      | lastMapped ht hst htype hrename hnum hglob hgroup =>
          exact (later_complete ht (h.inProgress hgiven hfirst ht hst) true).trans (.append _ _)
      | lastFailed ht hst htype hrename hnum hglob =>
          exact later_complete ht (h.inProgress hgiven hfirst ht hst) _
      | reduced ht hst htype hrename hphase =>
          exact later_complete ht (h.inProgress hgiven hfirst ht hst) _
      | other ht hst htype => exact later_complete ht (h.inProgress hgiven hfirst ht hst) _
  | heartbeat => exact .refl _
  | stopRunning => exact .refl _
  | done => exact Coordinator.later_timeoutTasks _ _
  | files => exact .refl _

theorem nReduce_of_step {act : CoordAction φ} (hs : s.step os act = some t) :
    t.coord.nReduce = s.coord.nReduce := by
  cases step_cases hs with
  | registerWorker => rfl
  | getTask hw hget hgiven => cases hget <;> rfl
  | taskDone hgiven hfirst hdone => cases hdone <;> rfl
  | heartbeat => rfl
  | stopRunning => rfl
  | @done now fs =>
      rcases s.coord.timeoutTasks_eq now with ⟨tasks, heq⟩
      change (s.coord.timeoutTasks now).nReduce = _
      rw [heq]
  | files => rfl

/-- What `GetTask` hands out, and what it keeps. -/
theorem getTask_cases {w : Nat} {now : Int} {res : GetTaskRes} (h : Accounting inputs s)
    (hget : s.getTask w now = some (t, res)) :
    t.fs = s.fs ∧ t.reported = s.reported ∧
      ((res = ⟨[], 0, .noTask, 0⟩ ∧ t.given = s.given ∧ t.coord.tasks = s.coord.tasks) ∨
        ∃ n task, s.coord.tasks[n]? = some task ∧ task.status = .idle ∧
          res = ⟨task.files, s.coord.nReduce, task.taskType, n⟩ ∧
          t.given = s.given ++ [(w, n)] ∧ t.coord.tasks =
            s.coord.tasks.set n { task with status := .inProgress, startTime := now }) := by
  obtain ⟨c, hc, rfl⟩ := getTask_eq_some.mp hget
  refine ⟨rfl, rfl, ?_⟩
  cases (Coordinator.getTask_cases hc).1 with
  | nothing => exact .inl ⟨rfl, rfl, rfl⟩
  | @found n task workers ht hidle =>
      have htyped := h.rows.typed (List.mem_of_getElem? ht)
      refine .inr ⟨n, task, ht, hidle, rfl, ?_, rfl⟩
      rw [if_neg (by rw [htyped]; cases task.origin <;> simp [Origin.taskType])]

theorem created_getTask {w : Nat} {now : Int} {res : GetTaskRes}
    (hget : s.getTask w now = some (t, res)) : t.coord.created = s.coord.created := by
  obtain ⟨c, hc, rfl⟩ := getTask_eq_some.mp hget
  cases (Coordinator.getTask_cases hc).1 <;> rfl

theorem taskDone_given {w n : Nat} {it : Iteration GoString} {files : List GoString}
    {err : Option GoString} (h : s.taskDone os it w n files = some (t, err)) :
    t.given = s.given ∧ t.reported = s.reported ++ [(w, n)] ∧
      Coordinator.TaskDone os it s.coord s.fs n files t.coord t.fs err := by
  obtain ⟨c, fs, hc, rfl⟩ := taskDone_eq_some.mp h
  exact ⟨rfl, rfl, Coordinator.taskDone_cases hc⟩

end CoordSys

/-! ## The workers along a run -/

/-- A worker busy with task `t` works for the origin of the task and with the names of it. -/
def WorkerPc.Fits (nReduce t : Nat) (task : Task) : WorkerPc → Prop
  | .mapping _ n _ _ created =>
      n = nReduce ∧ (∃ i, task.origin = .input i) ∧ ∀ f ∈ created.keys, ∃ r, f = mapOutName t r
  | .mapOpen _ n _ _ _ created _ =>
      n = nReduce ∧ (∃ i, task.origin = .input i) ∧ ∀ f ∈ created.keys, ∃ r, f = mapOutName t r
  | .reading _ r _ _ => task.origin = .partition r
  | .writing _ r _ created | .reduceOpen _ r _ _ _ created _ =>
      task.origin = .partition r ∧ ∀ f ∈ created.keys, f = reduceOutName r
  | .reporting _ files => files.Nodup ∧
      match task.origin with
      | .input _ => ∀ f ∈ files, ∃ r, f = mapOutName t r
      | .partition r => ∀ f ∈ files, f = reduceOutName r
  | .idle | .gone => True

theorem WorkerPc.Fits.later {nReduce t : Nat} {a b : Task} {pc : WorkerPc}
    (h : pc.Fits nReduce t a) (hl : a.Later b) : pc.Fits nReduce t b := by
  cases pc <;> simp only [WorkerPc.Fits, hl.origin] at h ⊢ <;> exact h

namespace Job

structure Wired (spec : JobSpec) (d : Disk) (s : Job) : Prop where
  reaches : Reaches (CoordSys.step Disk.os) (CoordSys.init spec.inputs spec.nReduce d) s.sys
  nReduce : s.coord.nReduce = spec.nReduce
  reported : ∀ e ∈ s.sys.reported, e ∈ s.sys.given
  busy : ∀ (w t : Nat) (pc : WorkerPc), s.workers[w]? = some pc → pc.task = some t →
    (w, t) ∈ s.sys.given ∧ (w, t) ∉ s.sys.reported ∧
      ∃ task, s.coord.tasks[t]? = some task ∧ pc.Fits spec.nReduce t task

variable {spec : JobSpec} {d : Disk} {s t : Job}

theorem Wired.accounting (h : Wired spec d s) : CoordSys.Accounting spec.inputs s.sys :=
  CoordSys.accounting_of_reaches h.reaches

theorem Wired.init : Wired spec d (Job.init spec d) :=
  ⟨Reaches.refl _, rfl, by simp [Job.init, CoordSys.init], by simp [Job.init]⟩

/-- A step of the coordinator that gives and takes no task, with at most one worker changed to one
that fits what it is busy with. -/
theorem Wired.next (h : Wired spec d s) {act : CoordAction Disk} {sys : CoordSys Disk}
    (hs : s.sys.step Disk.os act = some sys) {workers : List WorkerPc} {told : List (Nat × Bool)}
    {snapshot : Option Disk} {finished : Bool} {unreported : List Nat}
    (hreported : ∀ e ∈ sys.reported, e ∈ sys.given)
    (hbusy : ∀ (w t : Nat) (pc : WorkerPc), workers[w]? = some pc → pc.task = some t →
      (w, t) ∈ sys.given ∧ (w, t) ∉ sys.reported ∧
        ∃ task, sys.coord.tasks[t]? = some task ∧ pc.Fits spec.nReduce t task) :
    Wired spec d ⟨sys, workers, told, snapshot, finished, unreported⟩ where
  reaches := h.reaches.snoc hs
  nReduce := (CoordSys.nReduce_of_step hs).trans h.nReduce
  reported := hreported
  busy := hbusy

/-- The workers that a step leaves alone stay as they are. -/
theorem Wired.keep (h : Wired spec d s) {act : CoordAction Disk} {sys : CoordSys Disk}
    (hs : s.sys.step Disk.os act = some sys) (hgiven : ∀ e ∈ s.sys.given, e ∈ sys.given)
    {w t : Nat} {pc : WorkerPc} (hpc : s.workers[w]? = some pc) (ht : pc.task = some t)
    (hreported : (w, t) ∉ s.sys.reported → (w, t) ∉ sys.reported) :
    (w, t) ∈ sys.given ∧ (w, t) ∉ sys.reported ∧
      ∃ task, sys.coord.tasks[t]? = some task ∧ pc.Fits spec.nReduce t task := by
  rcases h.busy w t pc hpc ht with ⟨hg, hr, task, htask, hfits⟩
  rcases CoordSys.later_of_step h.accounting hs t task htask with ⟨task', htask', hl⟩
  exact ⟨hgiven _ hg, hreported hr, task', htask', hfits.later hl⟩

/-- A worker that is given a task maps the input file, or reads the files of the reducer id. -/
theorem begin_cases {inputs : List GoString} (n nReduce : Nat) {task : Task}
    (hfits : task.Fits inputs) :
    (∃ i, task.origin = .input i ∧ WorkerPc.begin ⟨task.files, nReduce, task.taskType, n⟩ =
      .mapping n nReduce task.files [] ∅) ∨
    ∃ r, task.origin = .partition r ∧ WorkerPc.begin ⟨task.files, nReduce, task.taskType, n⟩ =
      .reading n r task.files ∅ := by
  unfold Task.Fits at hfits
  cases ho : task.origin with
  | input i =>
      rw [ho] at hfits
      rw [hfits.1]
      exact .inl ⟨i, rfl, rfl⟩
  | partition r =>
      rw [ho] at hfits
      obtain ⟨htype, hne, hids⟩ := hfits
      rw [htype]
      cases hfiles : task.files with
      | nil => exact absurd hfiles hne
      | cons first rest =>
          -- the reducer id is taken from the first file
          have hfirst := hids first (by rw [hfiles]; exact List.mem_cons_self)
          simp only [WorkerPc.begin, hfirst]
          exact .inr ⟨r, rfl, rfl⟩

/-- What a worker does with a task that `GetTask` found. -/
theorem begin_fits {inputs : List GoString} (n nReduce : Nat) {task : Task}
    (hfits : task.Fits inputs) :
    (WorkerPc.begin ⟨task.files, nReduce, task.taskType, n⟩).task = some n ∧
      (WorkerPc.begin ⟨task.files, nReduce, task.taskType, n⟩).Fits nReduce n task := by
  obtain ⟨i, ho, hpc⟩ | ⟨r, ho, hpc⟩ := begin_cases n nReduce hfits <;> rw [hpc]
  · exact ⟨rfl, rfl, ⟨i, ho⟩, by simp⟩
  · exact ⟨rfl, ho⟩

theorem advance_fits {nReduce t : Nat} {task : Task} {it : Iteration GoString} {e e' : Disk}
    {pc pc' : WorkerPc} (hadv : WorkerPc.Advance spec it e pc pc' e') (ht : pc.task = some t)
    (hfits : pc.Fits nReduce t task) :
    (pc'.task = some t ∨ pc'.task = none) ∧ pc'.Fits nReduce t task := by
  cases hadv with
  | mapPanic => exact ⟨.inr rfl, trivial⟩
  | @mapOpen t' n files kv kvs created hn =>
      simp only [WorkerPc.task, Option.some.injEq] at ht
      subst ht
      rcases hfits with ⟨hnr, hin, hnames⟩
      refine ⟨.inl rfl, hnr, hin, ?_⟩
      intro f hf
      rcases GoMap.mem_keys_insert.mp hf with rfl | hold
      · exact ⟨_, rfl⟩
      · exact hnames f hold
  | mapWrite => exact ⟨.inl ht, hfits⟩
  | mapMissing hread => exact ⟨.inr rfl, trivial⟩
  | mapRead hread => exact ⟨.inl ht, hfits⟩
  | @mapEnd t' n created =>
      simp only [WorkerPc.task, Option.some.injEq] at ht
      subst ht
      rcases hfits with ⟨-, ⟨i, hin⟩, hnames⟩
      refine ⟨.inl rfl, (it.perm _).nodup_iff.mpr created.keys_nodup, ?_⟩
      rw [hin]
      exact fun f hf ↦ hnames f ((it.perm _).mem_iff.mp hf)
  | readFail hread => exact ⟨.inr rfl, trivial⟩
  | read hread hparse => exact ⟨.inl ht, hfits⟩
  | readEnd => exact ⟨.inl ht, hfits, by simp⟩
  | reduceOpen =>
      refine ⟨.inl ht, hfits.1, ?_⟩
      intro f hf
      rcases GoMap.mem_keys_insert.mp hf with rfl | hold
      · rfl
      · exact hfits.2 f hold
  | write => exact ⟨.inl ht, hfits⟩
  | @writeEnd t' r created =>
      simp only [WorkerPc.task, Option.some.injEq] at ht
      subst ht
      refine ⟨.inl rfl, (it.perm _).nodup_iff.mpr created.keys_nodup, ?_⟩
      rw [hfits.1]
      exact fun f hf ↦ hfits.2 f ((it.perm _).mem_iff.mp hf)

/-- The step of the coordinator in a step of a job. -/
def sysAction (s : Job) (t : Job) : JobAction → CoordAction Disk
  | .registerWorker grows => .registerWorker grows
  | .getTask w now => .getTask w now
  | .advance _ _ => .files t.disk
  | .taskDone w it =>
      match s.workers[w]? with
      | some (.reporting n files) => .taskDone w n files it
      | _ => .files t.disk
  | .heartbeat w => .heartbeat w
  | .stopRunning b => .stopRunning b
  | .done now => .done now
  | .crash _ => .files t.disk

/-- Every step of a job is a step of its coordinator. -/
theorem sys_step {act : JobAction} (h : Wired spec d s) (hs : s.step spec act = some t) :
    s.sys.step Disk.os (sysAction s t act) = some t.sys := by
  cases step_cases hs with
  | registerWorker => rfl
  | getTask hpc hget => simp [sysAction, CoordSys.step, hget]
  | advance hpc hadv hun => rfl
  | taskDone hpc hdone hnext hsnap =>
      rcases h.busy _ _ _ hpc rfl with ⟨hg, hr, -⟩
      simp [sysAction, hpc, CoordSys.step, hg, hr, hdone]
  | heartbeat hpc hthere hfree hbeat =>
      change s.sys.coord.heartbeat _ = _ at hbeat
      simp [sysAction, CoordSys.step, hbeat]
  | stopRunning hb => simp [sysAction, CoordSys.step, hb]
  | done hdone =>
      change s.sys.coord.done Disk.os s.sys.fs _ = _ at hdone
      simp [sysAction, CoordSys.step, hdone]
  | crash => rfl

/-- A worker that advances has a task, and stays with it if it still has one. -/
theorem Wired.advancing (h : Wired spec d s) {w : Nat} {it : Iteration GoString}
    {pc pc' : WorkerPc} {e : Disk} (hpc : s.workers[w]? = some pc)
    (hadv : WorkerPc.Advance spec it s.disk pc pc' e) :
    ∃ (n : Nat) (task : Task), pc.task = some n ∧ (w, n) ∈ s.sys.given ∧
      (w, n) ∉ s.sys.reported ∧ s.coord.tasks[n]? = some task ∧ pc.Fits spec.nReduce n task ∧
      pc'.Fits spec.nReduce n task ∧ ∀ m, pc'.task = some m → m = n := by
  cases hn : pc.task with
  | none => cases hadv <;> simp [WorkerPc.task] at hn
  | some n =>
      obtain ⟨hg, hr, task, ht, hfits⟩ := h.busy w n pc hpc hn
      obtain ⟨hsame, hfits'⟩ := advance_fits hadv hn hfits
      refine ⟨n, task, rfl, hg, hr, ht, hfits, hfits', ?_⟩
      intro m hm
      obtain hsame | hnone := hsame
      · rw [hm, Option.some.injEq] at hsame
        exact hsame
      · rw [hm] at hnone
        cases hnone

/-- An idle task has not been given to anyone, so nobody has reported it. -/
theorem Wired.not_reported_idle (h : Wired spec d s) {w n : Nat} {task : Task}
    (ht : s.sys.coord.tasks[n]? = some task) (hidle : task.status = .idle) :
    (w, n) ∉ s.sys.reported := by
  intro hold
  have hmem := List.mem_map_of_mem (f := Prod.snd) (h.reported _ hold)
  obtain ⟨task', ht', hne⟩ := (h.accounting.rows.given_iff n).mp hmem
  rw [ht, Option.some.injEq] at ht'
  exact hne (ht' ▸ hidle)

/-- A worker that has just been given a task works on the row as the coordinator marks it. -/
theorem Wired.begin_fits_given (h : Wired spec d s) {n : Nat} {task : Task}
    (ht : s.sys.coord.tasks[n]? = some task) (hidle : task.status = .idle) (now : Int) :
    (WorkerPc.begin ⟨task.files, s.sys.coord.nReduce, task.taskType, n⟩).Fits spec.nReduce n
      { task with status := .inProgress, startTime := now } := by
  have hfits := begin_fits n s.sys.coord.nReduce
    (h.accounting.rows.fits task (List.mem_of_getElem? ht))
  have hnr : s.sys.coord.nReduce = spec.nReduce := h.nReduce
  rw [hnr] at hfits ⊢
  exact hfits.2.later ⟨rfl, rfl, rfl, by simp [hidle]⟩

theorem Wired.step {act : JobAction} (h : Wired spec d s) (hs : s.step spec act = some t) :
    Wired spec d t := by
  have hsys := sys_step h hs
  cases step_cases hs with
  | registerWorker =>
      refine h.next hsys h.reported ?_
      intro w n pc hpc hn
      rcases getElem?_snoc_eq_some.mp hpc with hold | ⟨-, rfl⟩
      · exact h.busy w n pc hold hn
      · simp [WorkerPc.task] at hn
  | @getTask w now sys res hpc hget =>
      obtain ⟨-, hrep, hcases⟩ := CoordSys.getTask_cases h.accounting hget
      have hkeep : (∀ e ∈ s.sys.given, e ∈ sys.given) → ∀ (v n : Nat) (pc : WorkerPc),
          s.workers[v]? = some pc → pc.task = some n → (v, n) ∈ sys.given ∧ (v, n) ∉ sys.reported ∧
            ∃ task, sys.coord.tasks[n]? = some task ∧ pc.Fits spec.nReduce n task :=
        fun hgiven v n pc hv hn ↦ h.keep hsys hgiven hv hn (by rw [hrep]; exact id)
      obtain ⟨rfl, hgiven, -⟩ | ⟨k, task, ht, hidle, rfl, hgiven, htasks⟩ := hcases
      · -- no task is idle, so nobody is given one
        refine h.next hsys (by rw [hrep, hgiven]; exact h.reported) ?_
        intro v n pc hv hn
        obtain ⟨-, -, rfl⟩ | ⟨-, hold⟩ := getElem?_set_eq_some.mp hv
        · simp [WorkerPc.begin, WorkerPc.task] at hn
        · exact hkeep (by rw [hgiven]; exact fun _ he ↦ he) v n pc hold hn
      · have hsub : ∀ e ∈ s.sys.given, e ∈ sys.given := by
          rw [hgiven]
          exact fun e he ↦ List.mem_append_left _ he
        refine h.next hsys (by rw [hrep]; exact fun e he ↦ hsub e (h.reported e he)) ?_
        intro v n pc hv hn
        obtain ⟨rfl, -, rfl⟩ | ⟨-, hold⟩ := getElem?_set_eq_some.mp hv
        · -- the caller has a task now, which nobody has reported
          have hk := (begin_fits k s.sys.coord.nReduce
            (h.accounting.rows.fits task (List.mem_of_getElem? ht))).1
          rw [hk, Option.some.injEq] at hn
          subst hn
          refine ⟨by rw [hgiven]; simp, by rw [hrep]; exact h.not_reported_idle ht hidle, ?_⟩
          rw [htasks]
          exact ⟨_, getElem?_set_eq_some.mpr (.inl ⟨rfl, lt_length_of_getElem? ht, rfl⟩),
            h.begin_fits_given ht hidle now⟩
        · exact hkeep hsub v n pc hold hn
  | @advance w it pc pc' e unreported hpc hadv hun =>
      refine h.next hsys h.reported ?_
      intro v n pc'' hv hn
      obtain ⟨rfl, -, rfl⟩ | ⟨-, hold⟩ := getElem?_set_eq_some.mp hv
      · obtain ⟨n', task, -, hg, hr, ht, -, hfits', hsame⟩ := h.advancing hpc hadv
        rw [hsame n hn]
        exact ⟨hg, hr, task, ht, hfits'⟩
      · exact h.busy v n pc'' hold hn
  | @taskDone w n it files sys err pc snapshot hpc hdone hnext hsnap =>
      rcases CoordSys.taskDone_given hdone with ⟨hgiven, hrep, -⟩
      have hmine := (h.busy w n _ hpc rfl).1
      refine h.next hsys ?_ ?_
      · rw [hgiven, hrep]
        intro e he
        rcases List.mem_append.mp he with hold | hnew
        · exact h.reported e hold
        · rw [List.mem_singleton.mp hnew]
          exact hmine
      · intro v k pc' hv hk
        rcases getElem?_set_eq_some.mp hv with ⟨-, -, rfl⟩ | ⟨hne, hold⟩
        · -- the caller has given its task up, whatever `TaskDone` returned
          rw [hnext] at hk
          split at hk <;> simp [WorkerPc.task] at hk
        · refine h.keep hsys (by rw [hgiven]; exact fun _ he ↦ he) hold hk ?_
          intro hnot
          rw [hrep, List.mem_append, not_or, List.mem_singleton, Prod.mk.injEq]
          exact ⟨hnot, fun heq ↦ hne heq.1⟩
  | heartbeat hpc hthere hfree hbeat =>
      exact h.next hsys h.reported fun v n pc hv hn ↦ h.keep hsys (fun _ he ↦ he) hv hn id
  | stopRunning hb =>
      exact h.next hsys h.reported fun v n pc hv hn ↦ h.keep hsys (fun _ he ↦ he) hv hn id
  | done hdone =>
      exact h.next hsys h.reported fun v n pc hv hn ↦ h.keep hsys (fun _ he ↦ he) hv hn id
  | crash =>
      refine h.next hsys h.reported ?_
      intro v n pc hv hn
      rcases getElem?_set_eq_some.mp hv with ⟨-, -, rfl⟩ | ⟨-, hold⟩
      · simp [WorkerPc.task] at hn
      · exact h.busy v n pc hold hn

theorem wired_of_reaches (h : Reaches (step spec) (Job.init spec d) s) : Wired spec d s :=
  h.invariant Wired.init fun _ _ _ _ hs hu ↦ hu.step hs

end Job

end GoLabs.MapReduce
