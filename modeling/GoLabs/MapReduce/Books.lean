import GoLabs.MapReduce.Accounting

/-!
# What the books of the coordinator say

When a worker is told to shut down all reduce output has been committed, whatever the operating
system answered.  Where it never returns an error, the counters are the numbers of tasks left, the
map phase lasts exactly as long as there are map tasks left, and no task is handed out twice.
-/

open GoLabs.Reasoning

namespace GoLabs.MapReduce

namespace CoordSys

variable {φ : Type} {inputs : List GoString} {s t : CoordSys φ} {os : Os φ}

/-! ## Shutting down -/

/-- At least one task for every reducer id, of which exactly one has not timed out. -/
theorem Accounting.liveOf (h : Accounting inputs s) {o : Origin}
    (ho : Opened inputs s.coord.created o) :
    s.coord.tasks.countP (fun task ↦ task.origin = o ∧ task.status ≠ .timedOut) = 1 := by
  rcases List.mem_map.mp ((h.rows.opened o).mpr ho) with ⟨task, htask, rfl⟩
  have hone := h.live _ (List.mem_map_of_mem (f := Task.attempt) htask)
  rw [Attempt.liveOf, List.countP_map] at hone
  rw [← hone]
  apply List.countP_congr
  intro other _
  cases hs : other.status <;> simp [Task.attempt, TaskStatus.attempt, hs]

/-- Two attempts at one origin that have not timed out are the same attempt. -/
theorem Accounting.live_unique (h : Accounting inputs s) {n k : Nat} {a b : Task}
    (ha : s.coord.tasks[n]? = some a) (hb : s.coord.tasks[k]? = some b)
    (hab : a.origin = b.origin) (hsa : a.status ≠ .timedOut) (hsb : b.status ≠ .timedOut) :
    n = k := by
  have hstate : ∀ task : Task, task.status ≠ .timedOut → task.attempt.state ≠ .replaced := by
    intro task hs
    cases hst : task.status <;> simp_all [Task.attempt, TaskStatus.attempt]
  exact h.live.unique (by rw [List.getElem?_map, ha]; rfl) (by rw [List.getElem?_map, hb]; rfl)
    hab (hstate a hsa) (hstate b hsb)

/-- A count of pending tasks is zero when every task of the type has committed or timed out. -/
theorem committed_of_pending {tasks : List Task} {taskType : TaskType}
    (h : tasks.countP (Task.pending taskType) = 0) {task : Task} (ht : task ∈ tasks)
    (htype : task.taskType = taskType) (hs : task.status ≠ .timedOut) : task.committed = true := by
  have hnot := List.countP_eq_zero.mp h task ht
  cases hc : task.committed with
  | true => rfl
  | false => exact absurd (by simp [Task.pending, htype, hs, hc]) hnot

/-- No step leads out of `phaseShutdown`. -/
theorem Accounting.phase_step {act : CoordAction φ} (h : Accounting inputs s)
    (hs : s.step os act = some t) (hphase : s.coord.phase = .shutdown) :
    t.coord.phase = .shutdown := by
  cases step_cases hs with
  | registerWorker => exact hphase
  | getTask hw hget hgiven => cases hget <;> exact hphase
  | taskDone hgiven hfirst hdone =>
      cases hdone with
      | late | failed | mapped | lastFailed | other => exact hphase
      | lastMapped ht hst htype hrename hnum hglob hgroup =>
          -- the reduce tasks have been created
          have hcreated := h.phase (by rw [hphase]; decide)
          exact absurd (h.created_nil (by omega)) hcreated
      | reduced ht hst htype hrename hnext =>
          rw [hnext, hphase, ite_self]
  | heartbeat => exact hphase
  | stopRunning => exact hphase
  | done =>
      obtain ⟨tasks, heq⟩ := s.coord.timeoutTasks_eq ‹_›
      change (s.coord.timeoutTasks _).phase = _
      rw [heq]
      exact hphase
  | files => exact hphase

/-- A call of `Heartbeat` that is about to store is in `phaseShutdown`. -/
theorem beats_shutdown {nReduce : Nat} {fs : φ} (h : Reaches (step os) (init inputs nReduce fs) s) :
    ∀ b ∈ s.beats, s.coord.phase = .shutdown := by
  refine h.invariant (I := fun s ↦ ∀ b ∈ s.beats, s.coord.phase = .shutdown) (by simp [init]) ?_
  intro u act v hr hs hu b hb
  have hkeep : ∀ b ∈ u.beats, v.coord.phase = .shutdown := fun b hb ↦
    (accounting_of_reaches hr).phase_step hs (hu b hb)
  cases step_cases hs with
  | registerWorker | getTask | taskDone | done | files => exact hkeep b hb
  | stopRunning => exact hkeep b (List.mem_of_mem_erase hb)
  | heartbeat hbeat =>
      obtain hold | hnew := List.mem_append.mp hb
      · exact hkeep b hold
      · rw [Option.mem_toList] at hnew
        rw [Option.mem_def.mp hnew] at hbeat
        exact (Coordinator.heartbeat_eq_some.mp hbeat).1

end CoordSys

/-- Whatever the operating system answers: from the moment a heartbeat is going to tell a worker to
shut down until it has done so, every reducer id has one attempt that did all its renames, and no
reduce task is left to do. -/
theorem heartbeat_shutdown {φ : Type} {os : Os φ} {inputs : List GoString} {nReduce : Nat} {fs : φ}
    {s : CoordSys φ} (h : Reaches (CoordSys.step os) (CoordSys.init inputs nReduce fs) s)
    {w : Nat} {b : Beat} (hbeat : s.coord.heartbeat w = some (some b) ∨ b ∈ s.beats) :
    (∀ r ∈ s.coord.created.flatten,
      s.coord.tasks.countP (fun task ↦ task.origin = .partition r ∧ task.committed = true) = 1) ∧
    ∀ task ∈ s.coord.tasks, task.taskType = .reduce →
      task.status ≠ .idle ∧ task.status ≠ .inProgress := by
  have hacc := CoordSys.accounting_of_reaches h
  have hphase : s.coord.phase = .shutdown := by
    obtain hnow | hpending := hbeat
    · exact (Coordinator.heartbeat_eq_some.mp hnow).1
    · exact CoordSys.beats_shutdown h b hpending
  have hzero : s.coord.tasks.countP (Task.pending .reduce) = 0 := by
    have hnum := hacc.numReduce
    rw [hacc.shutdown hphase] at hnum
    omega
  have hcommitted : ∀ task ∈ s.coord.tasks, task.taskType = .reduce → task.status ≠ .timedOut →
      task.committed = true :=
    fun task ht htype hs ↦ CoordSys.committed_of_pending hzero ht htype hs
  constructor
  · intro r hr
    rw [← hacc.liveOf (o := .partition r) hr]
    apply List.countP_congr
    intro task ht
    simp only [decide_eq_true_eq]
    constructor
    · rintro ⟨ho, hc⟩
      exact ⟨ho, by rw [hacc.rows.committed task ht hc]; simp⟩
    · rintro ⟨ho, hs⟩
      exact ⟨ho, hcommitted task ht (by rw [hacc.rows.typed ht, ho]; rfl) hs⟩
  · intro task ht htype
    by_cases hs : task.status = .timedOut
    · rw [hs]
      simp
    · rw [hacc.rows.committed task ht (hcommitted task ht htype hs)]
      simp

/-! ## An operating system without errors -/

/-- Directories as lists of names whose calls never fail. -/
def namesOs : Os (List GoString) where
  rename fs old new := .ok (fs.map fun name => if name = old then new else name)
  remove fs name := .ok (fs.filter (· ≠ name))
  glob fs pattern := .ok (fs.filter (globMatch pattern))

theorem namesOs_faultless : namesOs.Faultless :=
  ⟨fun _ _ _ ↦ ⟨_, rfl⟩, fun _ _ ↦ ⟨_, rfl⟩, fun _ _ ↦ ⟨_, rfl⟩⟩

theorem renameTempFiles_faultless {φ : Type} {os : Os φ} (hos : os.Faultless) (fs : φ)
    (files : List GoString) : (renameTempFiles os fs files).2 = none := by
  induction files generalizing fs with
  | nil => rfl
  | cons file files ih =>
      rcases hos.rename fs file (replaceAll file (lit "temp") (lit "")) with ⟨fs', hfs'⟩
      rw [renameTempFiles]
      simp only [hfs']
      exact ih fs'

/-- Two inputs; the first attempt at the first one times out and reports late. -/
def lateReport : List (CoordAction (List GoString)) :=
  [.registerWorker true, .registerWorker true, .getTask 0 0, .getTask 1 0,
   .done fun i => if i = 0 then 11 else 0, .taskDone 1 1 [] (.stored _), .getTask 1 11,
   .taskDone 0 0 [] (.stored _), .files [lit "tempm-out-2-5"],
   .taskDone 1 2 [lit "tempm-out-2-5"] (.stored _), .getTask 0 12, .files [lit "tempmr-out-5"],
   .taskDone 0 3 [lit "tempmr-out-5"] (.stored _), .heartbeat 0, .registerWorker true]

theorem lateReport_runs : (run (CoordSys.step namesOs) (CoordSys.init [lit "a", lit "b"] 10 [])
    lateReport).isSome = true := by decide

theorem heartbeat_shutdown_lateReport :
    ∃ s, run (CoordSys.step namesOs) (CoordSys.init [lit "a", lit "b"] 10 []) lateReport = some s ∧
      s.beats = [⟨0, 2⟩] ∧
      s.coord.tasks.countP (fun task ↦ task.origin = .partition (lit "5") ∧
        task.committed = true) = 1 := by
  refine ⟨_, (Option.some_get lateReport_runs).symm, by decide, ?_⟩
  exact (heartbeat_shutdown (reaches_get lateReport_runs) (w := 0) (b := ⟨0, 2⟩)
    (.inr (by decide))).1 (lit "5") (by decide)

/-! ## Runs without errors -/

/-- A task that is left to do. -/
def Task.left (taskType : TaskType) (task : Task) : Bool :=
  task.taskType = taskType ∧ (task.status = .idle ∨ task.status = .inProgress)

/-- A completed task has committed, and no task has failed. -/
def Task.Clean (task : Task) : Prop :=
  (task.status = .completed → task.committed = true) ∧ task.status ≠ .failed

namespace CoordSys

variable {φ : Type} {inputs : List GoString} {s t : CoordSys φ} {os : Os φ}

/-- How often `GetTask` handed out a task for `o`. -/
def handedOut (s : CoordSys φ) (o : Origin) : Nat :=
  s.given.countP fun e => (s.coord.tasks[e.2]?).any (·.origin = o)

/-- Every task is clean, and `createReduceTasks` ends the map phase. -/
structure Clean (s : CoordSys φ) : Prop where
  tasks : ∀ task ∈ s.coord.tasks, task.Clean
  phase : s.coord.phase = .map → s.coord.created = []

theorem Clean.init (inputs : List GoString) (nReduce : Nat) (fs : φ) :
    Clean (CoordSys.init inputs nReduce fs) := by
  refine ⟨?_, fun _ ↦ rfl⟩
  intro task ht
  rcases mem_createMapTasks ht with ⟨i, f, -, rfl⟩
  simp [Task.Clean]

theorem clean_set {tasks : List Task} {n : Nat} {task : Task} (h : ∀ task ∈ tasks, task.Clean)
    (hnew : task.Clean) : ∀ task' ∈ tasks.set n task, task'.Clean := by
  intro task' hmem
  rcases List.mem_or_eq_of_mem_set hmem with hold | rfl
  · exact h task' hold
  · exact hnew

theorem clean_timeoutTasks {c : Coordinator} (h : ∀ task ∈ c.tasks, task.Clean)
    (now : Nat → Int) : ∀ task ∈ (c.timeoutTasks now).tasks, task.Clean := by
  refine Coordinator.timeoutTasks_induct (P := fun d => ∀ task ∈ d.tasks, task.Clean) now h ?_
  rintro d e ih ⟨ht, hs⟩ task hmem
  obtain hold | hnew := List.mem_append.mp hmem
  · exact clean_set ih (by simp [Task.Clean]) task hold
  · rw [List.mem_singleton.mp hnew]
    simp [Task.Clean, Coordinator.replacement]

theorem Clean.step {act : CoordAction φ} (h : Clean s) (hacc : Accounting inputs s)
    (hos : os.Faultless) (hs : s.step os act = some t) : Clean t := by
  cases step_cases hs with
  | registerWorker => exact ⟨h.tasks, h.phase⟩
  | getTask hw hget hgiven =>
      cases hget with
      | nothing => exact ⟨h.tasks, h.phase⟩
      | found ht hidle => exact ⟨clean_set h.tasks (by simp [Task.Clean]), h.phase⟩
  | @taskDone w n files it c fs err hgiven hfirst hdone =>
      cases hdone with
      | late ht hst hremove => exact ⟨h.tasks, h.phase⟩
      | failed ht hst htype hren =>
          have hnone := renameTempFiles_faultless hos s.fs files
          rw [hren] at hnone
          simp at hnone
      | mapped ht hst htype hren hnum =>
          exact ⟨clean_set h.tasks (by simp [Task.Clean]), h.phase⟩
      | lastMapped ht hst htype hren hnum hglob hgroup =>
          refine ⟨?_, by simp⟩
          intro task hmem
          rcases List.mem_append.mp hmem with hold | hnew
          · exact clean_set h.tasks (by simp [Task.Clean]) task hold
          · rcases List.mem_map.mp hnew with ⟨e, -, rfl⟩
            simp [reduceTask, Task.Clean]
      | lastFailed ht hst htype hren hnum hglob =>
          rcases hos.glob fs (lit "m-out-*-*") with ⟨names, hnames⟩
          rw [hglob] at hnames
          simp at hnames
      | @reduced task fs' phase ht hst htype hren hphase =>
          refine ⟨clean_set h.tasks (by simp [Task.Clean]), ?_⟩
          -- a reduce task exists, so the phase was not the map phase
          intro hp
          change phase = .map at hp
          rw [hp] at hphase
          split at hphase
          · simp at hphase
          · exact h.phase hphase.symm
      | @other task ht hst htype =>
          have htyped := hacc.rows.typed (List.mem_of_getElem? ht)
          cases ho : task.origin with
          | input i => exact absurd (by rw [htyped, ho]; rfl) htype.1
          | partition r => exact absurd (by rw [htyped, ho]; rfl) htype.2
  | heartbeat => exact ⟨h.tasks, h.phase⟩
  | stopRunning => exact ⟨h.tasks, h.phase⟩
  | @done now fs =>
      refine ⟨clean_timeoutTasks h.tasks now, ?_⟩
      rcases s.coord.timeoutTasks_eq now with ⟨tasks, heq⟩
      change (s.coord.timeoutTasks now).phase = .map → (s.coord.timeoutTasks now).created = []
      rw [heq]
      exact h.phase
  | files => exact ⟨h.tasks, h.phase⟩

theorem clean_of_reaches {nReduce : Nat} {fs : φ} (hos : os.Faultless)
    (h : Reaches (step os) (init inputs nReduce fs) s) : Clean s := by
  refine h.invariant (Clean.init inputs nReduce fs) ?_
  intro u act v hu hs hclean
  exact hclean.step (accounting_of_reaches hu) hos hs

/-- Where every task is clean, the pending tasks are those left to do. -/
theorem Clean.pending_eq_left (h : Clean s) (hacc : Accounting inputs s) (taskType : TaskType) :
    s.coord.tasks.countP (Task.pending taskType) = s.coord.tasks.countP (Task.left taskType) := by
  apply List.countP_congr
  intro task ht
  rcases h.tasks task ht with ⟨hcompleted, hfailed⟩
  have hcommitted := hacc.rows.committed task ht
  cases hs : task.status <;> cases hc : task.committed <;>
    simp_all [Task.pending, Task.left]

/-- Distinct task ids were handed out, each to a task that exists. -/
theorem Accounting.handedOut_le (hacc : Accounting inputs s) (o : Origin) :
    s.handedOut o ≤ s.coord.tasks.countP (·.origin = o) := by
  have hcount : s.handedOut o =
      ((s.given.map Prod.snd).filter fun n => (s.coord.tasks[n]?).any (·.origin = o)).length := by
    rw [handedOut, List.countP_eq_length_filter, List.filter_map, List.length_map]
    rfl
  rw [hcount]
  apply length_le_countP (hacc.rows.given_nodup.filter _)
  intro n hn
  rcases List.mem_filter.mp hn with ⟨-, hany⟩
  cases hrow : s.coord.tasks[n]? with
  | none => simp [hrow] at hany
  | some task => exact ⟨task, rfl, by simpa [hrow] using hany⟩

end CoordSys

/-- The accounting of the coordinator, in the terms of its fields. -/
structure Books {φ : Type} (inputs : List GoString) (s : CoordSys φ) : Prop where
  fits : ∀ task ∈ s.coord.tasks, task.Fits inputs
  input : ∀ i, i < inputs.length →
    s.coord.tasks.countP (fun task ↦ task.origin = .input i ∧ task.status ≠ .timedOut) = 1
  partition : ∀ r ∈ s.coord.created.flatten,
    s.coord.tasks.countP (fun task ↦ task.origin = .partition r ∧ task.status ≠ .timedOut) = 1
  numMapTasks : s.coord.numMapTasks = s.coord.tasks.countP (Task.left .map)
  numReduceTasks : s.coord.numReduceTasks = s.coord.tasks.countP (Task.left .reduce)
  phase : s.coord.phase = .map ↔ ∃ task ∈ s.coord.tasks, task.left .map = true
  created : s.coord.created.length ≤ 1
  given : (s.given.map Prod.snd).Nodup
  handedOut : ∀ o, s.handedOut o ≤
    1 + s.coord.tasks.countP (fun task ↦ task.origin = o ∧ task.status = .timedOut)

theorem coordinator_books {φ : Type} {os : Os φ} (hos : os.Faultless) {inputs : List GoString}
    (hne : inputs ≠ []) {nReduce : Nat} {fs : φ} {s : CoordSys φ}
    (h : Reaches (CoordSys.step os) (CoordSys.init inputs nReduce fs) s) : Books inputs s := by
  have hacc := CoordSys.accounting_of_reaches h
  have hclean := CoordSys.clean_of_reaches hos h
  have hmap := hclean.pending_eq_left hacc .map
  have hreduce := hclean.pending_eq_left hacc .reduce
  have hnum := hacc.numMap
  refine ⟨hacc.rows.fits, fun i hi ↦ hacc.liveOf (o := .input i) hi,
    fun r hr ↦ hacc.liveOf (o := .partition r) hr, by rw [hnum, hmap],
    by rw [hacc.numReduce, hreduce], ?_, hacc.once, hacc.rows.given_nodup, ?_⟩
  · constructor
    · intro hp
      have hpos := hacc.mapping (hclean.phase hp) hne
      rw [hnum, hmap] at hpos
      exact List.countP_pos_iff.mp (by omega)
    · intro hleft
      have hpos := List.countP_pos_iff.mpr hleft
      by_contra hp
      have hzero := hacc.mapped (hacc.phase hp)
      omega
  · intro o
    refine (hacc.handedOut_le o).trans ?_
    have hle := hacc.live.attemptsOf_le o
    rw [Attempt.attemptsOf, Attempt.replacedOf, List.countP_map, List.countP_map] at hle
    refine Nat.le_trans hle (Nat.le_of_eq (congrArg (1 + ·) (List.countP_congr ?_)))
    intro task _
    cases hs : task.status <;> simp [Task.attempt, TaskStatus.attempt, hs]

theorem coordinator_books_lateReport :
    ∃ s, run (CoordSys.step namesOs) (CoordSys.init [lit "a", lit "b"] 10 []) lateReport = some s ∧
      s.coord.tasks.map Task.status = [.timedOut, .completed, .completed, .completed] ∧
      Books [lit "a", lit "b"] s := by
  refine ⟨_, (Option.some_get lateReport_runs).symm, by decide, ?_⟩
  exact coordinator_books namesOs_faultless (by decide) (reaches_get lateReport_runs)

/-! ## Reports that fail -/

/-- The fields that a task has in the source. -/
def Task.fields (task : Task) : List GoString × TaskStatus × Int × TaskType :=
  (task.files, task.status, task.startTime, task.taskType)

/-- The fields of the coordinator that `TaskDone` can change. -/
structure Coordinator.Unchanged (c c' : Coordinator) : Prop where
  tasks : c'.tasks.map Task.fields = c.tasks.map Task.fields
  numMapTasks : c'.numMapTasks = c.numMapTasks
  numReduceTasks : c'.numReduceTasks = c.numReduceTasks
  phase : c'.phase = c.phase

theorem complete_unchanged_iff {c : Coordinator} {n : Nat} {task : Task} {committed : Bool}
    (ht : c.tasks[n]? = some task) :
    c.Unchanged (c.complete n task committed) ↔ task.status = .completed := by
  constructor
  · intro h
    have hrow : ((c.complete n task committed).tasks.map Task.fields)[n]? =
        (c.tasks.map Task.fields)[n]? := by rw [h.tasks]
    rw [List.getElem?_map, List.getElem?_map, ht, Coordinator.complete,
      List.getElem?_set_self (lt_length_of_getElem? ht)] at hrow
    exact (congrArg (fun fields ↦ fields.2.1) (Option.some.inj hrow)).symm
  · intro hs
    refine ⟨map_set_eq Task.fields ht ?_, rfl, rfl, rfl⟩
    rw [Task.fields, Task.fields, hs]

namespace CoordSys

variable {φ : Type} {inputs : List GoString} {s t : CoordSys φ} {os : Os φ}

/-- No handler sets the status `taskStatusFailed`. -/
theorem not_failed_step {act : CoordAction φ} (hs : s.step os act = some t)
    (h : ∀ task ∈ s.coord.tasks, task.status ≠ .failed) :
    ∀ task ∈ t.coord.tasks, task.status ≠ .failed := by
  cases step_cases hs with
  | registerWorker => exact h
  | getTask hw hget hgiven =>
      cases hget with
      | nothing => exact h
      | found ht hidle =>
          intro task hmem
          obtain hold | rfl := List.mem_or_eq_of_mem_set hmem
          · exact h task hold
          · simp
  | taskDone hgiven hfirst hdone =>
      intro task hmem
      obtain hold | hidle | ⟨old, b, -, -, rfl⟩ := hdone.mem_tasks hmem
      · exact h task hold
      · simp [hidle]
      · simp
  | heartbeat => exact h
  | stopRunning => exact h
  | done =>
      intro task hmem
      obtain hold | hlate | hidle := Coordinator.mem_timeoutTasks hmem
      · exact h task hold
      · simp [hlate]
      · simp [hidle]
  | files => exact h

theorem not_failed_of_reaches {nReduce : Nat} {fs : φ}
    (h : Reaches (step os) (init inputs nReduce fs) s) :
    ∀ task ∈ s.coord.tasks, task.status ≠ .failed := by
  apply h.invariant
  · intro task hmem
    obtain ⟨i, f, -, rfl⟩ := mem_createMapTasks hmem
    simp
  · intro u act v _ hs hu
    exact not_failed_step hs hu

end CoordSys

/-- `TaskDone` sets the status before it renames, so a report that fails leaves the coordinator as
it was exactly if the task was not in progress any more.  The pattern of `createReduceTasks` is well
formed, so that `filepath.Glob` returns no error. -/
theorem failed_report_unchanged_iff {φ : Type} {os : Os φ}
    (hglob : ∀ fs, ∃ names, os.glob fs (lit "m-out-*-*") = .ok names) {inputs : List GoString}
    {nReduce : Nat} {fs : φ} {s s' : CoordSys φ}
    (h : Reaches (CoordSys.step os) (CoordSys.init inputs nReduce fs) s) {w n : Nat}
    (hgiven : (w, n) ∈ s.given) {files : List GoString} {it : Iteration GoString} {err : GoString}
    (hfail : s.taskDone os it w n files = some (s', some err)) :
    ∃ task, s.coord.tasks[n]? = some task ∧
      (s.coord.Unchanged s'.coord ↔ task.status ≠ .inProgress) := by
  obtain ⟨task, ht, hbusy⟩ := ((CoordSys.accounting_of_reaches h).rows.given_iff n).mp
    (List.mem_map.mpr ⟨(w, n), hgiven, rfl⟩)
  have hnot := CoordSys.not_failed_of_reaches h task (List.mem_of_getElem? ht)
  refine ⟨task, ht, ?_⟩
  obtain ⟨⟨c, fs', err'⟩, hcall, heq⟩ := Option.map_eq_some_iff.mp hfail
  obtain ⟨rfl, rfl⟩ := Prod.mk.inj heq
  generalize herr : some err = result at hcall
  cases Coordinator.taskDone_cases hcall with
  | late ht' hs hremove =>
      rw [ht, Option.some.injEq] at ht'
      subst ht'
      exact iff_of_true ⟨rfl, rfl, rfl, rfl⟩ (by simp [hs])
  | failed ht' hs htype hrename =>
      rw [ht, Option.some.injEq] at ht'
      subst ht'
      refine (complete_unchanged_iff ht).trans ?_
      cases hst : task.status <;> simp_all
  | lastFailed ht' hs htype hrename hnum hnames =>
      obtain ⟨names, hok⟩ := hglob fs'
      rw [hnames] at hok
      simp at hok
  | mapped => simp at herr
  | lastMapped => simp at herr
  | reduced => simp at herr
  | other => simp at herr

/-- The only map task is handed out. -/
def handOut : List (CoordAction Disk) := [.registerWorker true, .getTask 0 0]

/-- It times out before it is reported. -/
def handOutLate : List (CoordAction Disk) := handOut ++ [.done fun _ => 11]

theorem handOut_runs : (run (CoordSys.step Disk.os) (CoordSys.init [lit "a"] 1 .empty)
    handOut).isSome = true := by decide

theorem handOutLate_runs : (run (CoordSys.step Disk.os) (CoordSys.init [lit "a"] 1 .empty)
    handOutLate).isSome = true := by decide

theorem failed_report_unchanged_iff_late :
    ∃ s s' err, run (CoordSys.step Disk.os) (CoordSys.init [lit "a"] 1 .empty) handOutLate =
        some s ∧
      s.taskDone Disk.os (.stored _) 0 0 [lit "tempm-out-0-0"] = some (s', some err) ∧
      s.coord.tasks.map Task.status = [.timedOut, .idle] ∧
      ∃ task, s.coord.tasks[0]? = some task ∧
        (s.coord.Unchanged s'.coord ↔ task.status ≠ .inProgress) := by
  have hfail : ((run (CoordSys.step Disk.os) (CoordSys.init [lit "a"] 1 .empty) handOutLate).get
      handOutLate_runs).taskDone Disk.os (.stored _) 0 0 [lit "tempm-out-0-0"] =
        some (_, some _) := rfl
  refine ⟨_, _, _, (Option.some_get handOutLate_runs).symm, hfail, by decide, ?_⟩
  exact failed_report_unchanged_iff (fun _ ↦ ⟨_, rfl⟩) (reaches_get handOutLate_runs) (by decide)
    hfail

/-- The rename fails and the task counts as completed: no task is idle, none can time out, and the
map phase does not end. -/
theorem failed_report_loses_task :
    ∃ s s' err, run (CoordSys.step Disk.os) (CoordSys.init [lit "a"] 1 .empty) handOut = some s ∧
      (0, 0) ∈ s.given ∧
      s.taskDone Disk.os (.stored _) 0 0 [lit "tempm-out-0-0"] = some (s', some err) ∧
      ¬ s.coord.Unchanged s'.coord ∧ s'.coord.phase = .map ∧ s'.coord.findIdleTask.2 = none ∧
      ∀ now, s'.coord.timeoutTasks now = s'.coord := by
  refine ⟨_, _, _, (Option.some_get handOut_runs).symm, by decide, rfl, ?_, by decide, by decide,
    ?_⟩
  · intro h
    have htasks := h.tasks
    revert htasks
    decide
  · intro now
    rfl

end GoLabs.MapReduce
