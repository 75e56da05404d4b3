import GoLabs.Reasoning.Attempts
import GoLabs.MapReduce.CoordSys

/-!
# The books of the coordinator

The tasks of the coordinator are a table of attempts: every step of a handler is a sequence of steps
of that table, so every input and every reducer id has exactly one task that has not timed out.  The
two counters are the numbers of tasks that still have to commit, whatever the operating system
answers; where it never returns an error these are the tasks that are idle or in progress.
-/

open GoLabs.Reasoning

namespace GoLabs.MapReduce

def TaskStatus.attempt : TaskStatus → AttemptState
  | .idle => .waiting
  | .inProgress => .running
  | .timedOut => .replaced
  | .completed | .failed => .ended

/-- A task as an attempt at its origin. -/
def Task.attempt (task : Task) : Attempt Origin := ⟨task.origin, task.status.attempt⟩

def Origin.taskType : Origin → TaskType
  | .input _ => .map
  | .partition _ => .reduce

/-- A task is of the type of its origin and has its files. -/
def Task.Fits (inputs : List GoString) (task : Task) : Prop :=
  match task.origin with
  | .input i => task.taskType = .map ∧ ∃ file, inputs[i]? = some file ∧ task.files = [file]
  | .partition r => task.taskType = .reduce ∧ task.files ≠ [] ∧
      ∀ file ∈ task.files, reduceIdOf file = some r

/-- A task of the given type that has yet to commit. -/
def Task.pending (taskType : TaskType) (task : Task) : Bool :=
  task.taskType = taskType ∧ task.status ≠ .timedOut ∧ task.committed = false

/-- The work there is: the input files, and the reducer ids found by `createReduceTasks`. -/
def Opened (inputs : List GoString) (created : List (List GoString)) : Origin → Prop
  | .input i => i < inputs.length
  | .partition r => r ∈ created.flatten

/-- The rows of the table of tasks, and which of them have been given to a worker. -/
structure Rows (inputs : List GoString) (tasks : List Task) (created : List (List GoString))
    (given reported : List (Nat × Nat)) : Prop where
  opened : ∀ o, o ∈ tasks.map Task.origin ↔ Opened inputs created o
  fits : ∀ task ∈ tasks, task.Fits inputs
  committed : ∀ task ∈ tasks, task.committed = true → task.status = .completed
  given_nodup : (given.map Prod.snd).Nodup
  given_iff : ∀ n, n ∈ given.map Prod.snd ↔ ∃ task, tasks[n]? = some task ∧ task.status ≠ .idle
  unreported : ∀ w n, (w, n) ∈ given → (w, n) ∉ reported →
    ∃ task, tasks[n]? = some task ∧ (task.status = .inProgress ∨ task.status = .timedOut)

namespace Rows

variable {inputs : List GoString} {tasks : List Task} {created : List (List GoString)}
  {given reported : List (Nat × Nat)}

theorem typed (h : Rows inputs tasks created given reported) {task : Task} (ht : task ∈ tasks) :
    task.taskType = task.origin.taskType := by
  have hfits := h.fits task ht
  unfold Task.Fits at hfits
  cases ho : task.origin <;> rw [ho] at hfits <;> exact hfits.1

theorem worker_unique (h : Rows inputs tasks created given reported) {w w' n : Nat}
    (hw : (w, n) ∈ given) (hw' : (w', n) ∈ given) : w = w' := by
  have hinj := List.inj_on_of_nodup_map h.given_nodup hw hw' rfl
  exact (Prod.mk.inj hinj).1

/-- `GetTask` hands out an idle task. -/
theorem start (h : Rows inputs tasks created given reported) {w n : Nat} {task : Task}
    (ht : tasks[n]? = some task) (hidle : task.status = .idle) (now : Int) :
    Rows inputs (tasks.set n { task with status := .inProgress, startTime := now }) created
      (given ++ [(w, n)]) reported := by
  -- an idle task has not been given before
  have hfresh : n ∉ given.map Prod.snd := by
    rw [h.given_iff]
    rintro ⟨task', ht', hne⟩
    rw [ht, Option.some.injEq] at ht'
    exact hne (ht' ▸ hidle)
  have hlt := lt_length_of_getElem? ht
  refine ⟨?_, ?_, ?_, ?_, ?_, ?_⟩
  · intro o
    rw [map_set_eq Task.origin ht (by rfl)]
    exact h.opened o
  · intro task' hmem
    rcases List.mem_or_eq_of_mem_set hmem with hold | rfl
    · exact h.fits task' hold
    · exact h.fits task (List.mem_of_getElem? ht)
  · intro task' hmem hc
    rcases List.mem_or_eq_of_mem_set hmem with hold | rfl
    · exact h.committed task' hold hc
    · have hcompleted := h.committed task (List.mem_of_getElem? ht) hc
      rw [hidle] at hcompleted
      simp at hcompleted
  · rw [List.map_append, List.map_singleton, List.nodup_append_comm, List.singleton_append,
      List.nodup_cons]
    exact ⟨hfresh, h.given_nodup⟩
  · intro k
    rw [List.map_append, List.mem_append, h.given_iff, List.map_singleton, List.mem_singleton]
    simp only [getElem?_set_eq_some]
    constructor
    · rintro (⟨task', ht', hne⟩ | rfl)
      · refine ⟨task', .inr ⟨?_, ht'⟩, hne⟩
        rintro rfl
        rw [ht, Option.some.injEq] at ht'
        exact hne (ht' ▸ hidle)
      · exact ⟨_, .inl ⟨rfl, hlt, rfl⟩, by simp⟩
    · rintro ⟨task', ⟨rfl, -, rfl⟩ | ⟨-, hold⟩, hne⟩
      · exact .inr rfl
      · exact .inl ⟨task', hold, hne⟩
  · intro v k hv hnot
    rcases List.mem_append.mp hv with hold | hnew
    · rcases h.unreported v k hold hnot with ⟨task', ht', hs⟩
      refine ⟨task', getElem?_set_eq_some.mpr (.inr ⟨?_, ht'⟩), hs⟩
      rintro rfl
      exact hfresh (List.mem_map.mpr ⟨_, hold, rfl⟩)
    · rw [List.mem_singleton, Prod.mk.injEq] at hnew
      refine ⟨_, getElem?_set_eq_some.mpr (.inl ⟨hnew.2, hlt, rfl⟩), .inl rfl⟩

/-- A row that has been given to a worker changes and stays given. -/
theorem set (h : Rows inputs tasks created given reported) {n : Nat} {task task' : Task}
    {reported' : List (Nat × Nat)} (ht : tasks[n]? = some task) (hs : task.status ≠ .idle)
    (hs' : task'.status ≠ .idle) (horigin : task'.origin = task.origin)
    (htype : task'.taskType = task.taskType) (hfiles : task'.files = task.files)
    (hcommit : task'.committed = true → task'.status = .completed)
    (hreport : ∀ w k, (w, k) ∈ given → (w, k) ∉ reported' → (w, k) ∉ reported ∧
      (k = n → task'.status = .inProgress ∨ task'.status = .timedOut)) :
    Rows inputs (tasks.set n task') created given reported' := by
  have hlt := lt_length_of_getElem? ht
  refine ⟨?_, ?_, ?_, h.given_nodup, ?_, ?_⟩
  · intro o
    rw [map_set_eq Task.origin ht horigin]
    exact h.opened o
  · intro other hmem
    rcases List.mem_or_eq_of_mem_set hmem with hold | rfl
    · exact h.fits other hold
    · have hfits := h.fits task (List.mem_of_getElem? ht)
      unfold Task.Fits at hfits ⊢
      rwa [horigin, htype, hfiles]
  · intro other hmem hc
    rcases List.mem_or_eq_of_mem_set hmem with hold | rfl
    · exact h.committed other hold hc
    · exact hcommit hc
  · intro k
    rw [h.given_iff]
    simp only [getElem?_set_eq_some]
    constructor
    · rintro ⟨other, ho, hne⟩
      by_cases hk : k = n
      · exact ⟨task', .inl ⟨hk, hlt, rfl⟩, hs'⟩
      · exact ⟨other, .inr ⟨hk, ho⟩, hne⟩
    · rintro ⟨other, ⟨rfl, -, rfl⟩ | ⟨-, hold⟩, hne⟩
      · exact ⟨task, ht, hs⟩
      · exact ⟨other, hold, hne⟩
  · intro w k hw hnot
    rcases hreport w k hw hnot with ⟨hold, hnew⟩
    by_cases hk : k = n
    · exact ⟨task', getElem?_set_eq_some.mpr (.inl ⟨hk, hlt, rfl⟩), hnew hk⟩
    · rcases h.unreported w k hw hold with ⟨other, ho, hst⟩
      exact ⟨other, getElem?_set_eq_some.mpr (.inr ⟨hk, ho⟩), hst⟩

/-- The worker of a task in progress reports it. -/
theorem complete (h : Rows inputs tasks created given reported) {w n : Nat} {task : Task}
    (hgiven : (w, n) ∈ given) (ht : tasks[n]? = some task) (hs : task.status = .inProgress)
    (b : Bool) :
    Rows inputs (tasks.set n { task with status := .completed, committed := b }) created given
      (reported ++ [(w, n)]) := by
  refine h.set ht (by rw [hs]; simp) (by simp) rfl rfl rfl (fun _ ↦ rfl) ?_
  intro v k hv hnot
  rw [List.mem_append, not_or, List.mem_singleton, Prod.mk.injEq] at hnot
  refine ⟨hnot.1, ?_⟩
  rintro rfl
  exact absurd ⟨h.worker_unique hv hgiven, rfl⟩ hnot.2

/-- A late report changes no row. -/
theorem report (h : Rows inputs tasks created given reported) (e : Nat × Nat) :
    Rows inputs tasks created given (reported ++ [e]) :=
  ⟨h.opened, h.fits, h.committed, h.given_nodup, h.given_iff, fun w n hw hnot ↦
    h.unreported w n hw fun hold ↦ hnot (List.mem_append_left _ hold)⟩

/-- New idle rows. -/
theorem append (h : Rows inputs tasks created given reported) {new : List Task}
    {created' : List (List GoString)}
    (hopen : ∀ o, Opened inputs created' o ↔ Opened inputs created o ∨ o ∈ new.map Task.origin)
    (hnew : ∀ task ∈ new, task.status = .idle ∧ task.committed = false ∧ task.Fits inputs) :
    Rows inputs (tasks ++ new) created' given reported := by
  refine ⟨?_, ?_, ?_, h.given_nodup, ?_, ?_⟩
  · intro o
    rw [List.map_append, List.mem_append, h.opened, hopen]
  · intro task hmem
    rcases List.mem_append.mp hmem with hold | hnew'
    · exact h.fits task hold
    · exact (hnew task hnew').2.2
  · intro task hmem hc
    rcases List.mem_append.mp hmem with hold | hnew'
    · exact h.committed task hold hc
    · rw [(hnew task hnew').2.1] at hc
      simp at hc
  · intro k
    rw [h.given_iff]
    constructor
    · rintro ⟨task, ht, hne⟩
      exact ⟨task, by rw [List.getElem?_append_left (lt_length_of_getElem? ht), ht], hne⟩
    · rintro ⟨task, ht, hne⟩
      by_cases hlt : k < tasks.length
      · rw [List.getElem?_append_left hlt] at ht
        exact ⟨task, ht, hne⟩
      · rw [List.getElem?_append_right (by omega)] at ht
        exact absurd (hnew task (List.mem_of_getElem? ht)).1 hne
  · intro w k hw hnot
    rcases h.unreported w k hw hnot with ⟨task, ht, hs⟩
    exact ⟨task, by rw [List.getElem?_append_left (lt_length_of_getElem? ht), ht], hs⟩

/-- A task in progress times out. -/
theorem expire (h : Rows inputs tasks created given reported) {n : Nat} {task : Task}
    (ht : tasks[n]? = some task) (hs : task.status = .inProgress) :
    Rows inputs (tasks.set n { task with status := .timedOut }) created given reported := by
  refine h.set ht (by rw [hs]; simp) (by simp) rfl rfl rfl ?_
    (fun w k hw hnot ↦ ⟨hnot, fun _ ↦ .inr rfl⟩)
  intro hc
  have hcompleted := h.committed task (List.mem_of_getElem? ht) hc
  rw [hs] at hcompleted
  simp at hcompleted

end Rows

namespace CoordSys

variable {φ : Type}

structure Accounting (inputs : List GoString) (s : CoordSys φ) : Prop where
  live : Attempt.OneLive (s.coord.tasks.map Task.attempt)
  rows : Rows inputs s.coord.tasks s.coord.created s.given s.reported
  numMap : s.coord.numMapTasks = s.coord.tasks.countP (Task.pending .map)
  numReduce : s.coord.numReduceTasks = s.coord.tasks.countP (Task.pending .reduce)
  once : s.coord.created.length ≤ 1
  mapped : s.coord.created ≠ [] → s.coord.numMapTasks = 0
  mapping : s.coord.created = [] → inputs ≠ [] → 0 < s.coord.numMapTasks
  phase : s.coord.phase ≠ .map → s.coord.created ≠ []
  shutdown : s.coord.phase = .shutdown → s.coord.numReduceTasks = 0

variable {inputs : List GoString} {s t : CoordSys φ} {os : Os φ}

theorem origins_createMapTasks (o : Origin) :
    o ∈ (createMapTasks inputs).map Task.origin ↔ Opened inputs [] o := by
  rw [List.mem_map]
  unfold createMapTasks
  cases o with
  | input i =>
      simp only [List.mem_mapIdx, Opened]
      constructor
      · rintro ⟨task, ⟨j, hj, rfl⟩, hij⟩
        simp only [Origin.input.injEq] at hij
        omega
      · intro hi
        exact ⟨_, ⟨i, hi, rfl⟩, rfl⟩
  | partition r =>
      simp only [List.mem_mapIdx, Opened, List.flatten_nil, List.not_mem_nil, iff_false]
      rintro ⟨task, ⟨j, hj, rfl⟩, hij⟩
      simp at hij

theorem mem_createMapTasks {task : Task} (h : task ∈ createMapTasks inputs) :
    ∃ i file, inputs[i]? = some file ∧ task =
      { files := [file], status := .idle, startTime := 0, taskType := .map, origin := .input i,
        committed := false } := by
  rcases List.mem_mapIdx.mp h with ⟨i, hi, rfl⟩
  exact ⟨i, inputs[i], List.getElem?_eq_getElem hi, rfl⟩

/-- Every input starts with one waiting attempt. -/
theorem live_createMapTasks (inputs : List GoString) :
    Attempt.OneLive ((createMapTasks inputs).map Task.attempt) := by
  have hsteps : Attempt.Steps [] ((createMapTasks inputs).map Task.attempt) := by
    induction inputs using List.reverseRecOn with
    | nil => exact .refl
    | append_singleton inputs file ih =>
        rw [createMapTasks, List.mapIdx_append, List.map_append]
        refine ih.tail (.add ?_)
        intro a ha
        rcases List.mem_map.mp ha with ⟨task, htask, rfl⟩
        rcases mem_createMapTasks htask with ⟨i, f, hi, rfl⟩
        have hlt := lt_length_of_getElem? hi
        simp only [Task.attempt, ne_eq, Origin.input.injEq]
        omega
  exact Attempt.OneLive.steps (by simp [Attempt.OneLive]) hsteps

theorem Accounting.init (nReduce : Nat) (fs : φ) :
    Accounting inputs (CoordSys.init inputs nReduce fs) := by
  have hall : ∀ task ∈ createMapTasks inputs, task.pending .map = true ∧
      task.pending .reduce = false ∧ task.status = .idle ∧ task.Fits inputs ∧
      task.committed = false := by
    intro task htask
    rcases mem_createMapTasks htask with ⟨i, f, hf, rfl⟩
    simp [Task.pending, Task.Fits, hf]
  have hlen : (createMapTasks inputs).length = inputs.length := by simp [createMapTasks]
  constructor <;> simp only [CoordSys.init, makeCoordinator]
  · exact live_createMapTasks inputs
  · refine ⟨origins_createMapTasks, fun task htask ↦ (hall task htask).2.2.2.1, ?_, by simp, ?_,
      by simp⟩
    · intro task htask hc
      rw [(hall task htask).2.2.2.2] at hc
      simp at hc
    · intro n
      simp only [List.map_nil, List.not_mem_nil, false_iff]
      rintro ⟨task, htask, hs⟩
      exact hs (hall task (List.mem_of_getElem? htask)).2.2.1
  · rw [List.countP_eq_length.mpr fun task htask ↦ (hall task htask).1, hlen]
  · rw [List.countP_eq_zero.mpr fun task htask ↦ by rw [(hall task htask).2.1]; simp]
    rfl
  · simp
  · simp
  · intro _ hne
    have hpos := List.length_pos_iff.mpr hne
    omega
  · simp
  · simp

/-! ## The table of attempts -/

/-- A worker that may report a task has it in progress, unless it timed out. -/
theorem Accounting.inProgress (h : Accounting inputs s) {w n : Nat} {task : Task}
    (hgiven : (w, n) ∈ s.given) (hfirst : (w, n) ∉ s.reported) (ht : s.coord.tasks[n]? = some task)
    (hs : task.status ≠ .timedOut) : task.status = .inProgress := by
  rcases h.rows.unreported w n hgiven hfirst with ⟨task', ht', hstatus⟩
  rw [ht, Option.some.injEq] at ht'
  subst ht'
  rcases hstatus with hp | hto
  · exact hp
  · exact absurd hto hs

theorem attempt_complete {c : Coordinator} {n : Nat} {task : Task} (ht : c.tasks[n]? = some task)
    (hp : task.status = .inProgress) (b : Bool) :
    Attempt.Step (c.tasks.map Task.attempt) ((c.complete n task b).tasks.map Task.attempt) := by
  have hrow : (c.tasks.map Task.attempt)[n]? = some ⟨task.origin, .running⟩ := by
    rw [List.getElem?_map, ht, Option.map_some, Task.attempt, hp]
    rfl
  rw [Coordinator.complete, List.map_set]
  exact .finish hrow

theorem attempt_expire {c d : Coordinator} (h : Coordinator.Expires c d) :
    Attempt.Step (c.tasks.map Task.attempt) (d.tasks.map Task.attempt) := by
  cases h with
  | @expire i task ht hs =>
      have hrow : (c.tasks.map Task.attempt)[i]? = some ⟨task.origin, .running⟩ := by
        rw [List.getElem?_map, ht, Option.map_some, Task.attempt, hs]
        rfl
      rw [List.map_append, List.map_set]
      exact .replace hrow

/-- New reduce tasks for distinct reducer ids that have no task yet. -/
theorem attempt_create {tasks : List Task} {entries : List (GoString × List GoString)}
    (hnodup : (entries.map Prod.fst).Nodup)
    (hnew : ∀ task ∈ tasks, ∀ r ∈ entries.map Prod.fst, task.origin ≠ .partition r) :
    Attempt.Steps (tasks.map Task.attempt)
      ((tasks ++ entries.map reduceTask).map Task.attempt) := by
  induction entries generalizing tasks with
  | nil =>
      rw [List.map_nil, List.append_nil]
      exact .refl
  | cons e entries ih =>
      rw [List.map_cons, List.nodup_cons] at hnodup
      have hadd : Attempt.Step (tasks.map Task.attempt)
          ((tasks ++ [reduceTask e]).map Task.attempt) := by
        rw [List.map_append]
        refine .add (o := Origin.partition e.1) ?_
        intro a ha
        rcases List.mem_map.mp ha with ⟨task, htask, rfl⟩
        exact hnew task htask e.1 (by simp)
      have hnew' : ∀ task ∈ tasks ++ [reduceTask e], ∀ r ∈ entries.map Prod.fst,
          task.origin ≠ .partition r := by
        intro task htask r hr
        rcases List.mem_append.mp htask with hold | hone
        · exact hnew task hold r (by rw [List.map_cons]; exact List.mem_cons_of_mem _ hr)
        · rw [List.mem_singleton.mp hone]
          rintro heq
          simp only [reduceTask, Origin.partition.injEq] at heq
          exact hnodup.1 (heq ▸ hr)
      have hrest := ih hnodup.2 hnew'
      rw [List.append_assoc] at hrest
      exact (Relation.ReflTransGen.single hadd).trans hrest

/-- No reducer id has a task before `createReduceTasks` has run. -/
theorem Accounting.no_partition (h : Accounting inputs s) (hnone : s.coord.created = [])
    {task : Task} (htask : task ∈ s.coord.tasks) (r : GoString) : task.origin ≠ .partition r := by
  intro heq
  have hopen := (h.rows.opened (.partition r)).mp (List.mem_map.mpr ⟨task, htask, heq⟩)
  simp [Opened, hnone] at hopen

theorem Accounting.created_nil (h : Accounting inputs s) (hpos : s.coord.numMapTasks ≠ 0) :
    s.coord.created = [] := by
  by_contra hne
  exact hpos (h.mapped hne)

/-- Every step of the coordinator is a sequence of steps of the table of attempts. -/
theorem attempts_of_step {act : CoordAction φ} (h : Accounting inputs s)
    (hs : s.step os act = some t) :
    Attempt.Steps (s.coord.tasks.map Task.attempt) (t.coord.tasks.map Task.attempt) := by
  cases step_cases hs with
  | registerWorker => exact .refl
  | getTask hw hget hgiven =>
      cases hget with
      | nothing => exact .refl
      | @found n task workers ht hidle =>
          have hrow : (s.coord.tasks.map Task.attempt)[n]? = some ⟨task.origin, .waiting⟩ := by
            rw [List.getElem?_map, ht, Option.map_some, Task.attempt, hidle]
            rfl
          change Attempt.Steps _ ((s.coord.tasks.set n _).map Task.attempt)
          rw [List.map_set]
          exact .single (.start hrow)
  | taskDone hgiven hfirst hdone =>
      cases hdone with
      | late ht hst hremove => exact .refl
      | failed ht hst htype hrename =>
          exact .single (attempt_complete ht (h.inProgress hgiven hfirst ht hst) _)
      | mapped ht hst htype hrename hnum =>
          exact .single (attempt_complete ht (h.inProgress hgiven hfirst ht hst) _)
      | @lastMapped task fs' names m ht hst htype hrename hnum hglob hgroup =>
          -- the last map task completes; no attempt has been at the reduce tasks opened then
          refine .trans (.single (attempt_complete ht (h.inProgress hgiven hfirst ht hst) true)) ?_
          apply attempt_create (GoMap.range_keys_nodup _ m)
          intro task' htask' r _
          have hnone := h.created_nil (by omega)
          rcases List.mem_or_eq_of_mem_set htask' with hold | rfl
          · exact h.no_partition hnone hold r
          · exact h.no_partition hnone (List.mem_of_getElem? ht) r
      | lastFailed ht hst htype hrename hnum hglob =>
          exact .single (attempt_complete ht (h.inProgress hgiven hfirst ht hst) _)
      | reduced ht hst htype hrename hphase =>
          exact .single (attempt_complete ht (h.inProgress hgiven hfirst ht hst) _)
      | other ht hst htype =>
          exact .single (attempt_complete ht (h.inProgress hgiven hfirst ht hst) _)
  | heartbeat => exact .refl
  | stopRunning => exact .refl
  | done =>
      change Attempt.Steps _ ((s.coord.timeoutTasks _).tasks.map Task.attempt)
      have hexp := s.coord.timeoutTasks_cases ‹_›
      exact hexp.lift (fun c ↦ c.tasks.map Task.attempt) fun _ _ ↦ attempt_expire
  | files => exact .refl

/-! ## The counters -/

/-- A task in progress has not committed. -/
theorem Accounting.uncommitted (h : Accounting inputs s) {n : Nat} {task : Task}
    (ht : s.coord.tasks[n]? = some task) (hp : task.status = .inProgress) :
    task.committed = false := by
  cases hc : task.committed with
  | false => rfl
  | true =>
      have hcompleted := h.rows.committed task (List.mem_of_getElem? ht) hc
      rw [hp] at hcompleted
      simp at hcompleted

/-- A pending task that completes leaves the count of its type if it commits. -/
theorem pending_complete {c : Coordinator} {n : Nat} {task : Task} (ht : c.tasks[n]? = some task)
    (hp : task.status = .inProgress) (hc : task.committed = false) (b : Bool)
    (taskType : TaskType) :
    (c.complete n task b).tasks.countP (Task.pending taskType) +
        (if b = true ∧ task.taskType = taskType then 1 else 0) =
      c.tasks.countP (Task.pending taskType) := by
  have hcount := countP_set_add (Task.pending taskType) ht
    { task with status := .completed, committed := b }
  simp only [Task.pending, hp, hc] at hcount
  change (c.tasks.set n _).countP _ + _ = _
  cases b <;> by_cases htype : task.taskType = taskType <;> simp_all

theorem pending_create (tasks : List Task) (entries : List (GoString × List GoString)) :
    (tasks ++ entries.map reduceTask).countP (Task.pending .map) =
        tasks.countP (Task.pending .map) ∧
      (tasks ++ entries.map reduceTask).countP (Task.pending .reduce) =
        tasks.countP (Task.pending .reduce) + entries.length := by
  have hmap : entries.countP (Task.pending .map ∘ reduceTask) = 0 :=
    List.countP_eq_zero.mpr (by simp [Task.pending, reduceTask])
  have hreduce : entries.countP (Task.pending .reduce ∘ reduceTask) = entries.length :=
    List.countP_eq_length.mpr (by simp [Task.pending, reduceTask])
  constructor <;> rw [List.countP_append, List.countP_map]
  · rw [hmap, Nat.add_zero]
  · rw [hreduce]

theorem Accounting.expires (h : Accounting inputs s) {d : Coordinator}
    (he : Coordinator.Expires s.coord d) : Accounting inputs { s with coord := d } := by
  have hlive := h.live.step (attempt_expire he)
  cases he with
  | @expire n task ht hs =>
      have hpend : ∀ taskType, (s.coord.tasks.set n { task with status := .timedOut } ++
          [Coordinator.replacement task]).countP (Task.pending taskType) =
          s.coord.tasks.countP (Task.pending taskType) := by
        intro taskType
        have hcount := countP_set_add (Task.pending taskType) ht
          { task with status := .timedOut }
        have hc := h.uncommitted ht hs
        rw [List.countP_append]
        by_cases htype : task.taskType = taskType <;>
          simp_all [Task.pending, Coordinator.replacement]
      refine ⟨hlive, ?_, ?_, ?_, h.once, h.mapped, h.mapping, h.phase, h.shutdown⟩
      · refine (h.rows.expire ht hs).append ?_ ?_
        · intro o
          have hmem := (h.rows.opened task.origin).mp
            (List.mem_map.mpr ⟨task, List.mem_of_getElem? ht, rfl⟩)
          simp only [Coordinator.replacement, List.map_cons, List.map_nil, List.mem_singleton]
          exact ⟨.inl, fun ho ↦ ho.elim id (fun heq ↦ heq ▸ hmem)⟩
        · intro task' htask'
          rw [List.mem_singleton.mp htask']
          exact ⟨rfl, rfl, h.rows.fits task (List.mem_of_getElem? ht)⟩
      · change s.coord.numMapTasks = _
        rw [hpend, h.numMap]
      · change s.coord.numReduceTasks = _
        rw [hpend, h.numReduce]

theorem Accounting.timeoutTasks (h : Accounting inputs s) (now : Nat → Int) :
    Accounting inputs { s with coord := s.coord.timeoutTasks now } :=
  Coordinator.timeoutTasks_induct (P := fun d => Accounting inputs { s with coord := d }) now h
    fun _ _ ih he ↦ ih.expires he

/-! ## Every run -/

/-- What is known of a task whose worker reports it in time. -/
theorem Accounting.reports (h : Accounting inputs s) {w n : Nat} {task : Task}
    (hgiven : (w, n) ∈ s.given) (hfirst : (w, n) ∉ s.reported)
    (ht : s.coord.tasks[n]? = some task) (hst : task.status ≠ .timedOut) (b : Bool) :
    Rows inputs (s.coord.complete n task b).tasks s.coord.created s.given
        (s.reported ++ [(w, n)]) ∧
      ∀ taskType, (s.coord.complete n task b).tasks.countP (Task.pending taskType) +
          (if b = true ∧ task.taskType = taskType then 1 else 0) =
        s.coord.tasks.countP (Task.pending taskType) := by
  have hp := h.inProgress hgiven hfirst ht hst
  exact ⟨h.rows.complete hgiven ht hp b,
    fun taskType ↦ pending_complete ht hp (h.uncommitted ht hp) b taskType⟩

theorem Accounting.created_ne_nil (h : Accounting inputs s) {task : Task}
    (ht : task ∈ s.coord.tasks) (htype : task.taskType = .reduce) : s.coord.created ≠ [] := by
  intro hnone
  have htyped := h.rows.typed ht
  cases ho : task.origin with
  | input i => simp [htype, ho, Origin.taskType] at htyped
  | partition r => exact h.no_partition hnone ht r ho

/-- A report that commits nothing leaves the counters as they are. -/
theorem Accounting.report_failed (h : Accounting inputs s) {w n : Nat} {task : Task}
    (hgiven : (w, n) ∈ s.given) (hfirst : (w, n) ∉ s.reported)
    (ht : s.coord.tasks[n]? = some task) (hst : task.status ≠ .timedOut) :
    Rows inputs (s.coord.complete n task false).tasks s.coord.created s.given
        (s.reported ++ [(w, n)]) ∧
      s.coord.numMapTasks = (s.coord.complete n task false).tasks.countP (Task.pending .map) ∧
      s.coord.numReduceTasks =
        (s.coord.complete n task false).tasks.countP (Task.pending .reduce) := by
  obtain ⟨hrows, hcount⟩ := h.reports hgiven hfirst ht hst false
  have hmap := hcount .map
  have hreduce := hcount .reduce
  simp only [Bool.false_eq_true, false_and, if_false, Nat.add_zero] at hmap hreduce
  exact ⟨hrows, by rw [h.numMap, hmap], by rw [h.numReduce, hreduce]⟩

/-- A report that commits a map task.  No reduce task has been created yet. -/
theorem Accounting.report_map (h : Accounting inputs s) {w n : Nat} {task : Task}
    (hgiven : (w, n) ∈ s.given) (hfirst : (w, n) ∉ s.reported)
    (ht : s.coord.tasks[n]? = some task) (hst : task.status ≠ .timedOut)
    (htype : task.taskType = .map) :
    Rows inputs (s.coord.complete n task true).tasks s.coord.created s.given
        (s.reported ++ [(w, n)]) ∧
      s.coord.numMapTasks - 1 = (s.coord.complete n task true).tasks.countP (Task.pending .map) ∧
      s.coord.numReduceTasks =
        (s.coord.complete n task true).tasks.countP (Task.pending .reduce) ∧
      s.coord.created = [] := by
  obtain ⟨hrows, hcount⟩ := h.reports hgiven hfirst ht hst true
  have hnumMap := h.numMap
  have hnumReduce := h.numReduce
  have hmap := hcount .map
  have hreduce := hcount .reduce
  simp only [htype, reduceCtorEq, and_true, and_false, if_true, if_false] at hmap hreduce
  exact ⟨hrows, by omega, by omega, h.created_nil (by omega)⟩

theorem Accounting.report_reduce (h : Accounting inputs s) {w n : Nat} {task : Task}
    (hgiven : (w, n) ∈ s.given) (hfirst : (w, n) ∉ s.reported)
    (ht : s.coord.tasks[n]? = some task) (hst : task.status ≠ .timedOut)
    (htype : task.taskType = .reduce) :
    Rows inputs (s.coord.complete n task true).tasks s.coord.created s.given
        (s.reported ++ [(w, n)]) ∧
      s.coord.numMapTasks = (s.coord.complete n task true).tasks.countP (Task.pending .map) ∧
      s.coord.numReduceTasks - 1 =
        (s.coord.complete n task true).tasks.countP (Task.pending .reduce) ∧
      s.coord.numReduceTasks ≠ 0 := by
  obtain ⟨hrows, hcount⟩ := h.reports hgiven hfirst ht hst true
  have hnumMap := h.numMap
  have hnumReduce := h.numReduce
  have hmap := hcount .map
  have hreduce := hcount .reduce
  simp only [htype, reduceCtorEq, and_true, and_false, if_true, if_false] at hmap hreduce
  exact ⟨hrows, by omega, by omega, by omega⟩

/-- `createReduceTasks` adds one task for each reducer id that it finds. -/
theorem rows_create {tasks : List Task} {given reported : List (Nat × Nat)}
    (h : Rows inputs tasks [] given reported) {names : List GoString}
    {m : GoMap GoString (List GoString)} (hgroup : groupFiles names = some m)
    (it : Iteration GoString) :
    Rows inputs (tasks ++ (m.range it).map reduceTask) [(m.range it).map Prod.fst] given
      reported := by
  refine h.append ?_ ?_
  · intro o
    cases o <;> simp [Opened, reduceTask]
  · intro task htask
    obtain ⟨e, he, rfl⟩ := List.mem_map.mp htask
    -- its files are those of its id
    obtain ⟨hfiles, hne⟩ := (lookup_groupFiles hgroup).mp (GoMap.mem_range.mp he)
    refine ⟨rfl, rfl, rfl, hne, ?_⟩
    intro file hfile
    change file ∈ e.2 at hfile
    rw [hfiles, List.mem_filter, decide_eq_true_eq] at hfile
    exact hfile.2

theorem Accounting.taskDone (h : Accounting inputs s) {w n : Nat} {files : List GoString}
    {it : Iteration GoString} {c : Coordinator} {fs : φ} {err : Option GoString}
    (hgiven : (w, n) ∈ s.given) (hfirst : (w, n) ∉ s.reported)
    (hdone : s.coord.TaskDone os it s.fs n files c fs err)
    (hlive : Attempt.OneLive (c.tasks.map Task.attempt)) :
    Accounting inputs
      { s with coord := c, fs := fs, reported := s.reported ++ [(w, n)] } := by
  cases hdone with
  | late ht hst hremove => exact { h with rows := h.rows.report _ }
  | failed ht hst htype hrename =>
      obtain ⟨hrows, hmap, hreduce⟩ := h.report_failed hgiven hfirst ht hst
      exact ⟨hlive, hrows, hmap, hreduce, h.once, h.mapped, h.mapping, h.phase, h.shutdown⟩
  | mapped ht hst htype hrename hnum =>
      obtain ⟨hrows, hmap, hreduce, hnone⟩ := h.report_map hgiven hfirst ht hst htype
      refine ⟨hlive, hrows, hmap, hreduce, h.once, fun hne ↦ absurd hnone hne, ?_, h.phase,
        h.shutdown⟩
      -- this was not the last map task
      intro _ hinputs
      have hpos := h.mapping hnone hinputs
      change 0 < s.coord.numMapTasks - 1
      omega
  | @lastMapped task fs' names m ht hst htype hrename hnum hglob hgroup =>
      obtain ⟨hrows, hmap, hreduce, hnone⟩ := h.report_map hgiven hfirst ht hst htype
      have hpend := pending_create (s.coord.complete n task true).tasks (m.range it)
      rw [hnone] at hrows
      refine ⟨hlive, ?_, ?_, ?_, ?_, fun _ ↦ hnum, ?_, ?_, ?_⟩
      · change Rows inputs _ (s.coord.created ++ _) _ _
        rw [hnone]
        exact rows_create hrows hgroup it
      · change s.coord.numMapTasks - 1 = _
        rw [hpend.1, hmap]
      · change s.coord.numReduceTasks + _ = _
        rw [hpend.2, hreduce]
        rfl
      · change (s.coord.created ++ [_]).length ≤ 1
        rw [hnone]
        simp
      · simp
      · simp
      · simp
  | lastFailed ht hst htype hrename hnum hglob =>
      obtain ⟨hrows, hmap, hreduce, hnone⟩ := h.report_map hgiven hfirst ht hst htype
      refine ⟨hlive, ?_, hmap, hreduce, ?_, fun _ ↦ hnum, ?_, ?_, h.shutdown⟩
      · -- an empty list of reduce tasks is created
        have hopen : ∀ o, Opened inputs (s.coord.created ++ [[]]) o ↔
            Opened inputs s.coord.created o ∨ o ∈ ([] : List Task).map Task.origin := by
          intro o
          cases o <;> simp [Opened]
        have happend := hrows.append hopen (by simp)
        rwa [List.append_nil] at happend
      · change (s.coord.created ++ [_]).length ≤ 1
        rw [hnone]
        simp
      · simp
      · simp
  | @reduced task fs' phase ht hst htype hrename hphase =>
      obtain ⟨hrows, hmap, hreduce, hpos⟩ := h.report_reduce hgiven hfirst ht hst htype
      refine ⟨hlive, hrows, hmap, hreduce, h.once, h.mapped, h.mapping,
        fun _ ↦ h.created_ne_nil (List.mem_of_getElem? ht) htype, ?_⟩
      -- the phase only changes with the last reduce task
      intro hsd
      change phase = .shutdown at hsd
      change s.coord.numReduceTasks - 1 = 0
      by_contra hne
      rw [if_neg hne] at hphase
      have hzero := h.shutdown (by rw [← hphase]; exact hsd)
      exact hpos hzero
  | @other task ht hst htype =>
      -- there are no tasks of another type
      have htyped := h.rows.typed (List.mem_of_getElem? ht)
      cases ho : task.origin with
      | input i => exact absurd (by rw [htyped, ho]; rfl) htype.1
      | partition r => exact absurd (by rw [htyped, ho]; rfl) htype.2

theorem Accounting.step {act : CoordAction φ} (h : Accounting inputs s)
    (hs : s.step os act = some t) : Accounting inputs t := by
  have hlive := h.live.steps (attempts_of_step h hs)
  cases step_cases hs with
  | registerWorker => exact { h with live := hlive }
  | getTask hw hget hgiven =>
      cases hget with
      | nothing =>
          rw [if_pos rfl] at hgiven
          subst hgiven
          exact { h with live := hlive }
      | @found n task workers ht hidle =>
          have htyped := h.rows.typed (List.mem_of_getElem? ht)
          rw [if_neg (by rw [htyped]; cases task.origin <;> simp [Origin.taskType])] at hgiven
          subst hgiven
          have hpend : ∀ now taskType, (s.coord.tasks.set n
              { task with status := .inProgress, startTime := now }).countP
              (Task.pending taskType) = s.coord.tasks.countP (Task.pending taskType) := by
            intro now taskType
            have hcount := countP_set_add (Task.pending taskType) ht
              { task with status := .inProgress, startTime := now }
            simp only [Task.pending, hidle, ne_eq, reduceCtorEq, not_false_eq_true,
              true_and] at hcount
            simpa [Task.pending] using hcount
          refine ⟨hlive, h.rows.start ht hidle _, ?_, ?_, h.once, h.mapped, h.mapping, h.phase,
            h.shutdown⟩
          · change s.coord.numMapTasks = _
            rw [hpend, h.numMap]
          · change s.coord.numReduceTasks = _
            rw [hpend, h.numReduce]
  | taskDone hgiven hfirst hdone => exact h.taskDone hgiven hfirst hdone hlive
  | heartbeat => exact { h with live := hlive }
  | stopRunning => exact { h with live := hlive }
  | done =>
      have hto := h.timeoutTasks ‹_›
      exact ⟨hto.live, hto.rows, hto.numMap, hto.numReduce, hto.once, hto.mapped, hto.mapping,
        hto.phase, hto.shutdown⟩
  | files => exact { h with live := hlive }

theorem accounting_of_reaches {nReduce : Nat} {fs : φ}
    (h : Reaches (step os) (init inputs nReduce fs) s) : Accounting inputs s :=
  h.invariant (Accounting.init nReduce fs) fun _ _ _ _ hs hu ↦ hu.step hs

end CoordSys

end GoLabs.MapReduce
