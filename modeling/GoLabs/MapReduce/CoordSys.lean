import Mathlib.Logic.Relation
import GoLabs.Reasoning.Runs
import GoLabs.Reasoning.Tables
import GoLabs.MapReduce.Coordinator

/-!
# Runs of the coordinator

The handlers of one coordinator, called by any number of workers in any order.  A worker reports a
task through `TaskDone` only if `GetTask` gave it that task, and at most once; which files it
reports, and what happens to the file system between two calls, is left open.  The inversion lemmas
say once what each handler can do.
-/

open GoLabs.Reasoning

namespace GoLabs.MapReduce

/-! ## What the handlers do -/

theorem groupFiles_eq {names : List GoString} {m : GoMap GoString (List GoString)}
    (h : groupFiles names = some m) : ∃ kvs : List (GoString × GoString), m = GoMap.collect ∅ kvs ∧
      ∀ r, valuesOf r kvs = names.filter (reduceIdOf · = some r) := by
  unfold groupFiles at h
  rcases Option.map_eq_some_iff.mp h with ⟨kvs, hkvs, rfl⟩
  refine ⟨kvs, rfl, fun r ↦ ?_⟩
  clear h
  induction names generalizing kvs with
  | nil =>
      simp only [List.mapM_nil, Option.pure_def, Option.some.injEq] at hkvs
      rw [← hkvs]
      rfl
  | cons name names ih =>
      simp only [List.mapM_cons, Option.bind_eq_bind, Option.bind_eq_some_iff, Option.pure_def,
        Option.some.injEq, Option.map_eq_some_iff] at hkvs
      rcases hkvs with ⟨kv, ⟨r', hr', rfl⟩, rest, hrest, rfl⟩
      have hih := ih rest hrest
      unfold valuesOf at hih ⊢
      by_cases hrr : r' = r
      · simp [hr', hrr, hih]
      · simp [hr', hrr, hih]

/-- A group has the files with its reducer id, in the order of the listing. -/
theorem lookup_groupFiles {names files : List GoString} {m : GoMap GoString (List GoString)}
    {r : GoString} (h : groupFiles names = some m) :
    m.lookup r = some files ↔ files = names.filter (reduceIdOf · = some r) ∧ files ≠ [] := by
  rcases groupFiles_eq h with ⟨kvs, rfl, hvalues⟩
  have hmem : r ∈ kvs.map Prod.fst ↔ valuesOf r kvs ≠ [] := by
    simp [valuesOf, List.filter_eq_nil_iff]
  rw [← hvalues]
  constructor
  · intro hlook
    have hr : r ∈ kvs.map Prod.fst := by
      rcases GoMap.mem_collect.mp (AList.lookup_isSome.mp (by rw [hlook]; rfl)) with hno | hr
      · exact absurd hno (AList.notMem_empty r)
      · exact hr
    rw [GoMap.lookup_collect_empty hr, Option.some.injEq] at hlook
    exact ⟨hlook.symm, hlook ▸ hmem.mp hr⟩
  · rintro ⟨rfl, hne⟩
    exact GoMap.lookup_collect_empty (hmem.mpr hne)

namespace Coordinator

variable {φ : Type} {os : Os φ} {it : Iteration GoString} {c c' : Coordinator} {fs fs' : φ}

inductive GetTask (c : Coordinator) (workerId : Nat) (now : Int) :
    Coordinator → GetTaskRes → Prop where
  | nothing {workers : List WorkerInfo} :
      GetTask c workerId now { c with workers := workers } ⟨[], 0, .noTask, 0⟩
  | found {taskId : Nat} {task : Task} {workers : List WorkerInfo}
      (ht : c.tasks[taskId]? = some task) (hidle : task.status = .idle) :
      GetTask c workerId now
        { c with
          tasks := c.tasks.set taskId { task with status := .inProgress, startTime := now }
          workers := workers }
        ⟨task.files, c.nReduce, task.taskType, taskId⟩

theorem getTask_cases {workerId : Nat} {now : Int} {res : GetTaskRes}
    (h : c.getTask workerId now = some (c', res)) :
    GetTask c workerId now c' res ∧ workerId < c.workers.length := by
  unfold getTask at h
  split at h
  · simp at h
  · rename_i w hw
    refine ⟨?_, lt_length_of_getElem? hw⟩
    split at h
    · simp only [Option.some.injEq, Prod.mk.injEq] at h
      rw [← h.1, ← h.2]
      exact .nothing
    · rename_i taskId task hfind
      simp only [Option.some.injEq, Prod.mk.injEq] at h
      rw [← h.1, ← h.2]
      unfold findIdleTask at hfind
      split at hfind
      · rename_i i hi
        rw [Prod.mk.injEq] at hfind
        rcases hfind with ⟨rfl, ht⟩
        rcases List.findIdx?_eq_some_iff_getElem.mp hi with ⟨hlt, hidle, -⟩
        rw [List.getElem?_eq_getElem hlt, Option.some.injEq] at ht
        rw [ht] at hidle
        exact .found (by rw [List.getElem?_eq_getElem hlt, ht]) (by simpa using hidle)
      · simp at hfind

inductive TaskDone (os : Os φ) (it : Iteration GoString) (c : Coordinator) (fs : φ) (taskId : Nat)
    (files : List GoString) : Coordinator → φ → Option GoString → Prop where
  | late {task : Task} {fs' : φ} {err : Option GoString} (ht : c.tasks[taskId]? = some task)
      (hs : task.status = .timedOut) (hremove : removeFiles os fs files = (fs', err)) :
      TaskDone os it c fs taskId files c fs' (err.map (lit "TaskDone os.Remove: " ++ ·))
  | failed {task : Task} {fs' : φ} {err : GoString} (ht : c.tasks[taskId]? = some task)
      (hs : task.status ≠ .timedOut) (htype : task.taskType = .map ∨ task.taskType = .reduce)
      (hrename : renameTempFiles os fs files = (fs', some err)) :
      TaskDone os it c fs taskId files (c.complete taskId task false) fs'
        (some (lit "TaskDone renameTempFiles: " ++ err))
  | mapped {task : Task} {fs' : φ} (ht : c.tasks[taskId]? = some task)
      (hs : task.status ≠ .timedOut) (htype : task.taskType = .map)
      (hrename : renameTempFiles os fs files = (fs', none)) (hnum : c.numMapTasks - 1 ≠ 0) :
      TaskDone os it c fs taskId files
        { c.complete taskId task true with numMapTasks := c.numMapTasks - 1 } fs' none
  | lastMapped {task : Task} {fs' : φ} {names : List GoString}
      {m : GoMap GoString (List GoString)} (ht : c.tasks[taskId]? = some task)
      (hs : task.status ≠ .timedOut) (htype : task.taskType = .map)
      (hrename : renameTempFiles os fs files = (fs', none)) (hnum : c.numMapTasks - 1 = 0)
      (hglob : os.glob fs' (lit "m-out-*-*") = .ok names) (hgroup : groupFiles names = some m) :
      TaskDone os it c fs taskId files
        { c.complete taskId task true with
          tasks := (c.complete taskId task true).tasks ++ (m.range it).map reduceTask
          numMapTasks := c.numMapTasks - 1
          numReduceTasks := c.numReduceTasks + (m.range it).length
          phase := .reduce
          created := c.created ++ [(m.range it).map Prod.fst] } fs' none
  | lastFailed {task : Task} {fs' : φ} {err : GoString} (ht : c.tasks[taskId]? = some task)
      (hs : task.status ≠ .timedOut) (htype : task.taskType = .map)
      (hrename : renameTempFiles os fs files = (fs', none)) (hnum : c.numMapTasks - 1 = 0)
      (hglob : os.glob fs' (lit "m-out-*-*") = .error err) :
      TaskDone os it c fs taskId files
        { c.complete taskId task true with
          numMapTasks := c.numMapTasks - 1
          created := c.created ++ [[]] } fs'
        (some (lit "TaskDone createReduceTasks: " ++ lit "createReduceTasks filepath.Glob"))
  | reduced {task : Task} {fs' : φ} {phase : Phase} (ht : c.tasks[taskId]? = some task)
      (hs : task.status ≠ .timedOut) (htype : task.taskType = .reduce)
      (hrename : renameTempFiles os fs files = (fs', none))
      (hphase : phase = if c.numReduceTasks - 1 = 0 then .shutdown else c.phase) :
      TaskDone os it c fs taskId files
        { c.complete taskId task true with
          numReduceTasks := c.numReduceTasks - 1
          phase := phase } fs' none
  | other {task : Task} (ht : c.tasks[taskId]? = some task) (hs : task.status ≠ .timedOut)
      (htype : task.taskType ≠ .map ∧ task.taskType ≠ .reduce) :
      TaskDone os it c fs taskId files (c.complete taskId task false) fs none

theorem taskDone_cases {taskId : Nat} {files : List GoString} {err : Option GoString}
    (h : taskDone os it c fs taskId files = some (c', fs', err)) :
    TaskDone os it c fs taskId files c' fs' err := by
  -- the branches of the source, in its order; a late report comes first
  unfold taskDone at h
  split at h
  · simp at h
  rename_i task ht
  split at h
  · rename_i hs
    split at h <;> rename_i hremove <;> simp only [Option.some.injEq, Prod.mk.injEq] at h <;>
      rcases h with ⟨rfl, rfl, rfl⟩ <;> exact .late ht hs hremove
  rename_i hs
  split at h
  · rename_i htype
    split at h
    · rename_i hrename
      simp only [Option.some.injEq, Prod.mk.injEq] at h
      rcases h with ⟨rfl, rfl, rfl⟩
      exact .failed ht hs (.inl htype) hrename
    · rename_i hrename
      dsimp only at h
      split at h
      · rename_i hnum
        -- the last map task makes the reduce tasks, unless `Glob` fails
        unfold createReduceTasks at h
        split at h
        · simp at h
        · rename_i hcreate
          split at hcreate
          · rename_i hglob
            simp only [Option.some.injEq, Prod.mk.injEq] at hcreate h
            rcases hcreate with ⟨rfl, rfl⟩
            rcases h with ⟨rfl, rfl, rfl⟩
            exact .lastFailed ht hs htype hrename hnum hglob
          · split at hcreate <;> simp at hcreate
        · rename_i hcreate
          split at hcreate
          · simp at hcreate
          · rename_i hglob
            split at hcreate
            · simp at hcreate
            · rename_i hgroup
              simp only [Option.some.injEq, Prod.mk.injEq, and_true] at hcreate h
              subst hcreate
              rcases h with ⟨rfl, rfl, rfl⟩
              exact .lastMapped ht hs htype hrename hnum hglob hgroup
      · rename_i hnum
        simp only [Option.some.injEq, Prod.mk.injEq] at h
        rcases h with ⟨rfl, rfl, rfl⟩
        exact .mapped ht hs htype hrename hnum
  · rename_i htype
    split at h
    · rename_i hrename
      simp only [Option.some.injEq, Prod.mk.injEq] at h
      rcases h with ⟨rfl, rfl, rfl⟩
      exact .failed ht hs (.inr htype) hrename
    · rename_i hrename
      dsimp only at h
      split at h <;> rename_i hnum <;> simp only [Option.some.injEq, Prod.mk.injEq] at h <;>
        rcases h with ⟨rfl, rfl, rfl⟩
      · exact .reduced ht hs htype hrename (by rw [if_pos hnum])
      · exact .reduced ht hs htype hrename (by rw [if_neg hnum]; rfl)
  · rename_i hmap hreduce
    simp only [Option.some.injEq, Prod.mk.injEq] at h
    rcases h with ⟨rfl, rfl, rfl⟩
    exact .other ht hs ⟨hmap, hreduce⟩

/-- The cases cover what the handler does, and each of them is a call. -/
theorem TaskDone.call {n : Nat} {files : List GoString} {err : Option GoString}
    (h : TaskDone os it c fs n files c' fs' err) :
    c.taskDone os it fs n files = some (c', fs', err) := by
  cases h with
  | @late task fs' err ht hs hremove => cases err <;> simp [taskDone, ht, hs, hremove]
  | failed ht hs htype hrename =>
      obtain htype | htype := htype <;> simp [taskDone, ht, hs, htype, hrename]
  | mapped ht hs htype hrename hnum => simp [taskDone, ht, hs, htype, hrename, hnum]
  | lastMapped ht hs htype hrename hnum hglob hgroup =>
      simp [taskDone, createReduceTasks, ht, hs, htype, hrename, hnum, hglob, hgroup, complete]
  | lastFailed ht hs htype hrename hnum hglob =>
      simp [taskDone, createReduceTasks, ht, hs, htype, hrename, hnum, hglob, complete]
  | reduced ht hs htype hrename hphase =>
      subst hphase
      by_cases hnum : c.numReduceTasks - 1 = 0 <;>
        simp [taskDone, ht, hs, htype, hrename, hnum, complete]
  | @other task ht hs htype => cases hty : task.taskType <;> simp_all [taskDone]

/-- `TaskDone` for a task that has timed out. -/
theorem TaskDone.of_timedOut {n : Nat} {task : Task} {files : List GoString}
    {err : Option GoString} (hdone : TaskDone os it c fs n files c' fs' err)
    (htask : c.tasks[n]? = some task) (hst : task.status = .timedOut) :
    c' = c ∧ ∃ err', removeFiles os fs files = (fs', err') := by
  cases hdone with
  | late ht hs hremove => exact ⟨rfl, _, hremove⟩
  | failed ht hs hty hrename => exact absurd (Option.some.inj (ht ▸ htask) ▸ hst) hs
  | mapped ht hs hty hrename hnum => exact absurd (Option.some.inj (ht ▸ htask) ▸ hst) hs
  | lastMapped ht hs hty hrename hnum hglob hgroup =>
      exact absurd (Option.some.inj (ht ▸ htask) ▸ hst) hs
  | lastFailed ht hs hty hrename hnum hglob =>
      exact absurd (Option.some.inj (ht ▸ htask) ▸ hst) hs
  | reduced ht hs hty hrename hphase => exact absurd (Option.some.inj (ht ▸ htask) ▸ hst) hs
  | other ht hs hty => exact absurd (Option.some.inj (ht ▸ htask) ▸ hst) hs

/-- `TaskDone` for a reduce task. -/
theorem TaskDone.of_reduce {n : Nat} {task : Task} {files : List GoString}
    {err : Option GoString} (hdone : TaskDone os it c fs n files c' fs' err)
    (htask : c.tasks[n]? = some task) (htype : task.taskType = .reduce) :
    c'.created = c.created ∧ (task.status = .timedOut ∧ c' = c ∧
        (∃ err', removeFiles os fs files = (fs', err')) ∨
      task.status ≠ .timedOut ∧ ∃ err', renameTempFiles os fs files = (fs', err') ∧
        c'.tasks = c.tasks.set n { task with status := .completed, committed := err'.isNone }) := by
  cases hdone with
  | late ht hs hremove =>
      rw [htask, Option.some.injEq] at ht
      subst ht
      exact ⟨rfl, .inl ⟨hs, rfl, _, hremove⟩⟩
  | failed ht hs hty hrename =>
      rw [htask, Option.some.injEq] at ht
      subst ht
      exact ⟨rfl, .inr ⟨hs, _, hrename, rfl⟩⟩
  | mapped ht hs hty hrename hnum => simp [Option.some.inj (ht ▸ htask), htype] at hty
  | lastMapped ht hs hty hrename hnum hglob hgroup =>
      simp [Option.some.inj (ht ▸ htask), htype] at hty
  | lastFailed ht hs hty hrename hnum hglob =>
      simp [Option.some.inj (ht ▸ htask), htype] at hty
  | reduced ht hs hty hrename hphase =>
      rw [htask, Option.some.injEq] at ht
      subst ht
      exact ⟨rfl, .inr ⟨hs, _, hrename, rfl⟩⟩
  | other ht hs hty => simp [Option.some.inj (ht ▸ htask), htype] at hty

/-- The rows after `TaskDone`: old ones, new idle ones, and the one reported. -/
theorem TaskDone.mem_tasks {n : Nat} {files : List GoString} {err : Option GoString}
    (hdone : TaskDone os it c fs n files c' fs' err) {task : Task} (h : task ∈ c'.tasks) :
    task ∈ c.tasks ∨ task.status = .idle ∨
      ∃ old b, c.tasks[n]? = some old ∧ old.status ≠ .timedOut ∧
        task = { old with status := .completed, committed := b } := by
  have hset : ∀ {old : Task} {b : Bool}, c.tasks[n]? = some old → old.status ≠ .timedOut →
      task ∈ (c.complete n old b).tasks → task ∈ c.tasks ∨ task.status = .idle ∨
        ∃ old b, c.tasks[n]? = some old ∧ old.status ≠ .timedOut ∧
          task = { old with status := .completed, committed := b } := by
    intro old b ht hs hmem
    rcases List.mem_or_eq_of_mem_set hmem with hold | rfl
    · exact .inl hold
    · exact .inr (.inr ⟨old, b, ht, hs, rfl⟩)
  cases hdone with
  | late ht hs hremove => exact .inl h
  | failed ht hs hty hrename => exact hset ht hs h
  | mapped ht hs hty hrename hnum => exact hset ht hs h
  | lastMapped ht hs hty hrename hnum hglob hgroup =>
      rcases List.mem_append.mp h with hmem | hnew
      · exact hset ht hs hmem
      · rcases List.mem_map.mp hnew with ⟨entry, -, rfl⟩
        exact .inr (.inl rfl)
  | lastFailed ht hs hty hrename hnum hglob => exact hset ht hs h
  | reduced ht hs hty hrename hphase => exact hset ht hs h
  | other ht hs hty => exact hset ht hs h

/-- The replacement of a task that timed out. -/
def replacement (task : Task) : Task :=
  { files := task.files, status := .idle, startTime := 0, taskType := task.taskType,
    origin := task.origin, committed := false }

/-- One task in progress times out. -/
inductive Expires : Coordinator → Coordinator → Prop where
  | expire {c : Coordinator} {i : Nat} {task : Task} (ht : c.tasks[i]? = some task)
      (hs : task.status = .inProgress) :
      Expires c { c with
        tasks := c.tasks.set i { task with status := .timedOut } ++ [replacement task] }

/-- `timeoutTasks` lets some tasks time out, one after the other. -/
theorem timeoutTasks_cases (c : Coordinator) (now : Nat → Int) :
    Relation.ReflTransGen Expires c (c.timeoutTasks now) := by
  -- the loop has reached task `k`; the tasks from there on are still those it started with
  have hloop : ∀ (rest : List Task) (k : Nat) (d : Coordinator),
      (∀ (j : Nat) (task : Task), rest[j]? = some task → d.tasks[k + j]? = some task) →
      Relation.ReflTransGen Expires d ((rest.zipIdx k).foldl (timeoutTask now) d) := by
    intro rest
    induction rest with
    | nil => intro k d _; exact .refl
    | cons task rest ih =>
        intro k d hrest
        have ht : d.tasks[k]? = some task := by simpa using hrest 0 task rfl
        rw [List.zipIdx_cons, List.foldl_cons]
        by_cases hexp : task.status = .inProgress ∧ now k > task.startTime + d.timeoutSecs
        · have hbody : timeoutTask now d (task, k) = { d with
              tasks := d.tasks.set k { task with status := .timedOut } ++ [replacement task] } := by
            rw [timeoutTask, if_pos hexp, List.modify_eq_set_getElem?, ht]
            rfl
          rw [hbody]
          refine Relation.ReflTransGen.head (.expire ht hexp.1) (ih (k + 1) _ ?_)
          intro j task' hj
          have hold := hrest (j + 1) task' (by simpa using hj)
          have hlt := lt_length_of_getElem? hold
          rw [List.getElem?_append_left (by rw [List.length_set]; omega),
            List.getElem?_set_ne (by omega)]
          rw [← hold]
          congr 1
          omega
        · rw [timeoutTask, if_neg hexp]
          apply ih
          intro j task' hj
          rw [← hrest (j + 1) task' (by simpa using hj)]
          congr 1
          omega
  exact hloop c.tasks 0 c (by simp)

/-- What holds before, and is kept when one task times out, holds after `timeoutTasks`. -/
theorem timeoutTasks_induct {P : Coordinator → Prop} (now : Nat → Int) (h : P c)
    (hexpires : ∀ d e, P d → Expires d e → P e) : P (c.timeoutTasks now) := by
  have hall := c.timeoutTasks_cases now
  generalize c.timeoutTasks now = d at hall
  induction hall with
  | refl => exact h
  | tail _ he ih => exact hexpires _ _ ih he

/-- `timeoutTasks` changes the tasks only. -/
theorem timeoutTasks_eq (c : Coordinator) (now : Nat → Int) :
    ∃ tasks, c.timeoutTasks now = { c with tasks := tasks } := by
  refine timeoutTasks_induct (P := fun d => ∃ tasks, d = { c with tasks := tasks }) now
    ⟨c.tasks, rfl⟩ ?_
  rintro d e ⟨tasks, rfl⟩ ⟨⟩
  exact ⟨_, rfl⟩

/-- The rows after `timeoutTasks`. -/
theorem mem_timeoutTasks {now : Nat → Int} {task : Task} (h : task ∈ (c.timeoutTasks now).tasks) :
    task ∈ c.tasks ∨ task.status = .timedOut ∨ task.status = .idle := by
  revert task
  refine timeoutTasks_induct (P := fun d => ∀ {task : Task}, task ∈ d.tasks →
    task ∈ c.tasks ∨ task.status = .timedOut ∨ task.status = .idle) now .inl ?_
  rintro d e ih ⟨hold, hs⟩ task ht
  obtain hset | hnew := List.mem_append.mp ht
  · obtain hmem | rfl := List.mem_or_eq_of_mem_set hset
    · exact ih hmem
    · exact .inr (.inl rfl)
  · rw [List.mem_singleton.mp hnew]
    exact .inr (.inr rfl)

theorem done_coord (os : Os φ) (c : Coordinator) (fs : φ) (now : Nat → Int) :
    (done os c fs now).1 = c.timeoutTasks now := by
  unfold done
  dsimp only
  split <;> rfl

/-- `Done` returns true only past the switch on the phase, and then deletes the `m-out` files. -/
theorem done_cases {now : Nat → Int} {result : Bool} (h : done os c fs now = (c', fs', result)) :
    c' = c.timeoutTasks now ∧
      (result = false ∧ fs' = fs ∨
        result = true ∧ c'.settled = true ∧ fs' = deleteFiles os fs (lit "m-out*")) := by
  unfold done at h
  dsimp only at h
  split at h <;> rename_i hsettled <;> simp only [Prod.mk.injEq] at h <;>
    rcases h with ⟨rfl, rfl, rfl⟩
  · exact ⟨rfl, .inr ⟨rfl, hsettled, rfl⟩⟩
  · exact ⟨rfl, .inl ⟨rfl, rfl⟩⟩

/-- A heartbeat changes the workers only. -/
theorem stopRunning_eq (c : Coordinator) (b : Beat) :
    ∃ workers, c.stopRunning b = { c with workers := workers } := by
  unfold stopRunning
  split
  · exact ⟨_, rfl⟩
  · exact ⟨c.workers, rfl⟩

/-- The order to shut down is given in `phaseShutdown` only. -/
theorem heartbeat_eq_some {workerId : Nat} {b : Beat} :
    c.heartbeat workerId = some (some b) ↔
      c.phase = .shutdown ∧ workerId < c.workers.length ∧ b = ⟨workerId, c.array⟩ := by
  unfold heartbeat
  split
  · rename_i hphase
    split <;> simp_all [eq_comm]
  · rename_i hphase
    simp [hphase]

end Coordinator

/-! ## The system -/

/-- `given` lists the tasks that `GetTask` handed out, with the worker, and `reported` the calls of
`TaskDone`; `beats` are the calls of `Heartbeat` that are about to store. -/
structure CoordSys (φ : Type) where
  coord : Coordinator
  fs : φ
  beats : List Beat
  given : List (Nat × Nat)
  reported : List (Nat × Nat)

inductive CoordAction (φ : Type) where
  | registerWorker (grows : Bool)
  | getTask (worker : Nat) (now : Int)
  | taskDone (worker taskId : Nat) (filesCreated : List GoString) (it : Iteration GoString)
  | heartbeat (worker : Nat)
  /-- A call of `Heartbeat` stores and returns. -/
  | stopRunning (b : Beat)
  | done (now : Nat → Int)
  /-- Somebody else changes the file system. -/
  | files (fs : φ)

namespace CoordSys

variable {φ : Type}

def init (inputs : List GoString) (nReduce : Nat) (fs : φ) : CoordSys φ :=
  { coord := makeCoordinator inputs nReduce, fs := fs, beats := [], given := [], reported := [] }

def getTask (s : CoordSys φ) (w : Nat) (now : Int) : Option (CoordSys φ × GetTaskRes) :=
  (s.coord.getTask w now).map fun r =>
    ({ s with
        coord := r.1
        given := if r.2.taskType = .noTask then s.given else s.given ++ [(w, r.2.taskId)] }, r.2)

def taskDone (os : Os φ) (it : Iteration GoString) (s : CoordSys φ) (w taskId : Nat)
    (files : List GoString) : Option (CoordSys φ × Option GoString) :=
  (s.coord.taskDone os it s.fs taskId files).map fun r =>
    ({ s with coord := r.1, fs := r.2.1, reported := s.reported ++ [(w, taskId)] }, r.2.2)

/-- `Heartbeat` has read what it needs; without an order to shut down it has returned. -/
def beat (s : CoordSys φ) (b : Option Beat) : CoordSys φ := { s with beats := s.beats ++ b.toList }

def stopRunning (s : CoordSys φ) (b : Beat) : CoordSys φ :=
  { s with coord := s.coord.stopRunning b, beats := s.beats.erase b }

theorem tasks_stopRunning (s : CoordSys φ) (b : Beat) :
    (s.stopRunning b).coord.tasks = s.coord.tasks := by
  obtain ⟨workers, hworkers⟩ := s.coord.stopRunning_eq b
  rw [stopRunning, hworkers]

theorem created_stopRunning (s : CoordSys φ) (b : Beat) :
    (s.stopRunning b).coord.created = s.coord.created := by
  obtain ⟨workers, hworkers⟩ := s.coord.stopRunning_eq b
  rw [stopRunning, hworkers]

theorem phase_stopRunning (s : CoordSys φ) (b : Beat) :
    (s.stopRunning b).coord.phase = s.coord.phase := by
  obtain ⟨workers, hworkers⟩ := s.coord.stopRunning_eq b
  rw [stopRunning, hworkers]

def step (os : Os φ) (s : CoordSys φ) : CoordAction φ → Option (CoordSys φ)
  | .registerWorker grows => some { s with coord := (s.coord.registerWorker grows).1 }
  | .getTask w now => (s.getTask w now).map Prod.fst
  | .taskDone w taskId files it =>
      if (w, taskId) ∈ s.given ∧ (w, taskId) ∉ s.reported then
        (s.taskDone os it w taskId files).map Prod.fst
      else none
  | .heartbeat w => (s.coord.heartbeat w).map s.beat
  | .stopRunning b => if b ∈ s.beats then some (s.stopRunning b) else none
  | .done now =>
      let r := s.coord.done os s.fs now
      some { s with coord := r.1, fs := r.2.1 }
  | .files fs => some { s with fs := fs }

theorem getTask_eq_some {s t : CoordSys φ} {w : Nat} {now : Int} {res : GetTaskRes} :
    s.getTask w now = some (t, res) ↔ ∃ c, s.coord.getTask w now = some (c, res) ∧
      t = { s with
        coord := c
        given := if res.taskType = .noTask then s.given else s.given ++ [(w, res.taskId)] } := by
  unfold getTask
  rw [Option.map_eq_some_iff]
  constructor
  · rintro ⟨⟨c, res'⟩, hc, heq⟩
    obtain ⟨rfl, rfl⟩ := Prod.mk.inj heq
    exact ⟨c, hc, rfl⟩
  · rintro ⟨c, hc, rfl⟩
    exact ⟨(c, res), hc, rfl⟩

theorem taskDone_eq_some {os : Os φ} {it : Iteration GoString} {s t : CoordSys φ} {w n : Nat}
    {files : List GoString} {err : Option GoString} :
    s.taskDone os it w n files = some (t, err) ↔
      ∃ c fs, s.coord.taskDone os it s.fs n files = some (c, fs, err) ∧
        t = { s with coord := c, fs := fs, reported := s.reported ++ [(w, n)] } := by
  unfold taskDone
  rw [Option.map_eq_some_iff]
  constructor
  · rintro ⟨⟨c, fs, err'⟩, hc, heq⟩
    obtain ⟨rfl, rfl⟩ := Prod.mk.inj heq
    exact ⟨c, fs, hc, rfl⟩
  · rintro ⟨c, fs, hc, rfl⟩
    exact ⟨(c, fs, err), hc, rfl⟩

/-- What each action needs and does. -/
inductive Step (os : Os φ) (s : CoordSys φ) : CoordAction φ → CoordSys φ → Prop where
  | registerWorker {grows : Bool} :
      Step os s (.registerWorker grows) { s with coord := (s.coord.registerWorker grows).1 }
  | getTask {w : Nat} {now : Int} {c : Coordinator} {res : GetTaskRes} {given : List (Nat × Nat)}
      (hw : w < s.coord.workers.length) (hget : s.coord.GetTask w now c res)
      (hgiven : given = if res.taskType = .noTask then s.given else s.given ++ [(w, res.taskId)]) :
      Step os s (.getTask w now) { s with coord := c, given := given }
  | taskDone {w taskId : Nat} {files : List GoString} {it : Iteration GoString} {c : Coordinator}
      {fs : φ} {err : Option GoString} (hgiven : (w, taskId) ∈ s.given)
      (hfirst : (w, taskId) ∉ s.reported)
      (hdone : s.coord.TaskDone os it s.fs taskId files c fs err) :
      Step os s (.taskDone w taskId files it)
        { s with coord := c, fs := fs, reported := s.reported ++ [(w, taskId)] }
  | heartbeat {w : Nat} {b : Option Beat} (hbeat : s.coord.heartbeat w = some b) :
      Step os s (.heartbeat w) (s.beat b)
  | stopRunning {b : Beat} {workers : List WorkerInfo} (hb : b ∈ s.beats) :
      Step os s (.stopRunning b)
        { s with coord := { s.coord with workers := workers }, beats := s.beats.erase b }
  | done {now : Nat → Int} {fs : φ} :
      Step os s (.done now) { s with coord := s.coord.timeoutTasks now, fs := fs }
  | files {fs : φ} : Step os s (.files fs) { s with fs := fs }

theorem step_cases {os : Os φ} {s t : CoordSys φ} {act : CoordAction φ}
    (h : s.step os act = some t) : Step os s act t := by
  cases act with
  | registerWorker grows =>
      simp only [step, Option.some.injEq] at h
      exact h ▸ .registerWorker
  | getTask w now =>
      simp only [step, getTask, Option.map_map, Option.map_eq_some_iff] at h
      rcases h with ⟨⟨c, res⟩, hget, rfl⟩
      have hcases := Coordinator.getTask_cases hget
      exact .getTask hcases.2 hcases.1 rfl
  | taskDone w taskId files it =>
      simp only [step, taskDone, Option.ite_none_right_eq_some, Option.map_map,
        Option.map_eq_some_iff] at h
      rcases h with ⟨⟨hgiven, hfirst⟩, ⟨c, fs, err⟩, hdone, rfl⟩
      exact .taskDone hgiven hfirst (Coordinator.taskDone_cases hdone)
  | heartbeat w =>
      simp only [step, Option.map_eq_some_iff] at h
      obtain ⟨b, hbeat, rfl⟩ := h
      exact .heartbeat hbeat
  | stopRunning b =>
      simp only [step, Option.ite_none_right_eq_some, Option.some.injEq] at h
      obtain ⟨hb, rfl⟩ := h
      obtain ⟨workers, hworkers⟩ := s.coord.stopRunning_eq b
      rw [stopRunning, hworkers]
      exact .stopRunning hb
  | done now =>
      simp only [step, Option.some.injEq] at h
      rw [← h]
      rw [Coordinator.done_coord]
      exact .done
  | files fs =>
      simp only [step, Option.some.injEq] at h
      exact h ▸ .files

end CoordSys

end GoLabs.MapReduce
