import GoLabs.MapReduce.Files

/-!
# The coordinator

`mr/coordinator.go`.  A handler that runs under the mutex of the coordinator is one function here;
it returns `none` where the source would panic on an index.  `Heartbeat` does not take the mutex and
is two functions: between what it reads and what it stores other handlers may run, and
`RegisterWorker` may move the workers to another array.  The operating system is an argument, and so
is the order of each `range` over a map, each reading of the clock and whether an `append` makes a
new array.
-/

open GoLabs.Reasoning

namespace GoLabs.MapReduce

inductive TaskStatus where
  | idle
  | inProgress
  | completed
  | timedOut
  | failed
  deriving DecidableEq, Repr

inductive TaskType where
  | map
  | reduce
  | noTask
  | shutdown
  deriving DecidableEq, Repr

inductive Phase where
  | map
  | reduce
  | shutdown
  deriving DecidableEq, Repr

/-- What a task and its replacements are for: an input file, by its position, or a reducer id. -/
inductive Origin where
  | input (index : Nat)
  | partition (reduceId : GoString)
  deriving DecidableEq, Repr

/-- `origin` and `committed` are not read by any handler: the second says that a `TaskDone` for the
task did all its renames without an error. -/
structure Task where
  files : List GoString
  status : TaskStatus
  startTime : Int
  taskType : TaskType
  origin : Origin
  committed : Bool
  deriving DecidableEq, Repr

structure WorkerInfo where
  taskId : Nat
  isRunning : Bool
  deriving DecidableEq, Repr

/-- `created` is not read by any handler: it has, for each run of `createReduceTasks`, the reducer
ids it made tasks for. -/
structure Coordinator where
  tasks : List Task
  workers : List WorkerInfo
  /-- The number of the array that `workers` is in. -/
  array : Nat
  numMapTasks : Int
  numReduceTasks : Int
  phase : Phase
  timeoutSecs : Int
  nReduce : Nat
  created : List (List GoString)
  deriving DecidableEq, Repr

/-- A call of `Heartbeat` that is about to store: the worker, and the array it has found. -/
structure Beat where
  workerId : Nat
  array : Nat
  deriving DecidableEq, Repr

structure GetTaskRes where
  files : List GoString
  nReduce : Nat
  taskType : TaskType
  taskId : Nat
  deriving DecidableEq, Repr

def createMapTasks (files : List GoString) : List Task :=
  files.mapIdx fun i file =>
    { files := [file], status := .idle, startTime := 0, taskType := .map, origin := .input i,
      committed := false }

def makeCoordinator (files : List GoString) (nReduce : Nat) : Coordinator :=
  { tasks := createMapTasks files
    workers := []
    array := 0
    numMapTasks := files.length
    numReduceTasks := 0
    phase := .map
    timeoutSecs := 10
    nReduce := nReduce
    created := [] }

/-- The loop of `renameTempFiles`, with the text of the error that ended it. -/
def renameTempFiles {φ : Type} (os : Os φ) : φ → List GoString → φ × Option GoString
  | fs, [] => (fs, none)
  | fs, filename :: rest =>
      let newFilename := replaceAll filename (lit "temp") (lit "")
      match os.rename fs filename newFilename with
      | .ok fs => renameTempFiles os fs rest
      | .error err => (fs, some (lit "failed to rename file " ++ filename ++ lit " to " ++
          newFilename ++ lit ": " ++ err))

/-- The loop over the files of a late attempt in `TaskDone`. -/
def removeFiles {φ : Type} (os : Os φ) : φ → List GoString → φ × Option GoString
  | fs, [] => (fs, none)
  | fs, file :: rest =>
      match os.remove fs file with
      | .ok fs => removeFiles os fs rest
      | .error err => (fs, some err)

/-- The third part of a name `m-out-<task-id>-<reducer-id>`. -/
def reduceIdOf (filename : GoString) : Option GoString := (split filename (lit "-"))[3]?

/-- The map from reducer ids to file names. -/
def groupFiles (filenames : List GoString) : Option (GoMap GoString (List GoString)) :=
  (filenames.mapM fun filename => (reduceIdOf filename).map (·, filename)).map (GoMap.collect ∅)

/-- A task of `createReduceTasks`. -/
def reduceTask (entry : GoString × List GoString) : Task :=
  { files := entry.2, status := .idle, startTime := 0, taskType := .reduce,
    origin := .partition entry.1, committed := false }

namespace Coordinator

variable {φ : Type}

/-- `grows` says that `append` makes a new array. -/
def registerWorker (c : Coordinator) (grows : Bool) : Coordinator × Nat :=
  ({ c with
      workers := c.workers ++ [⟨0, true⟩]
      array := if grows then c.array + 1 else c.array }, c.workers.length)

def findIdleTask (c : Coordinator) : Nat × Option Task :=
  match c.tasks.findIdx? (·.status = .idle) with
  | some i => (i, c.tasks[i]?)
  | none => (0, none)

def getTask (c : Coordinator) (workerId : Nat) (now : Int) : Option (Coordinator × GetTaskRes) :=
  match c.workers[workerId]? with
  | none => none
  | some w =>
      match c.findIdleTask with
      | (taskId, none) =>
          -- `findIdleTask` returned 0 with its nil, and the worker's entry is set to it anyway
          some ({ c with workers := c.workers.set workerId { w with taskId := taskId } },
            ⟨[], 0, .noTask, 0⟩)
      | (taskId, some task) =>
          some ({ c with
              tasks := c.tasks.set taskId { task with status := .inProgress, startTime := now }
              workers := c.workers.set workerId { w with taskId := taskId } },
            ⟨task.files, c.nReduce, task.taskType, taskId⟩)

def createReduceTasks (os : Os φ) (it : Iteration GoString) (c : Coordinator) (fs : φ) :
    Option (Coordinator × Option GoString) :=
  match os.glob fs (lit "m-out-*-*") with
  | .error _ =>
      some ({ c with created := c.created ++ [[]] }, some (lit "createReduceTasks filepath.Glob"))
  | .ok filenames =>
      match groupFiles filenames with
      -- `parts[3]` panics on a name with too few parts
      | none => none
      | some m =>
          some ({ c with
              tasks := c.tasks ++ (m.range it).map reduceTask
              numReduceTasks := c.numReduceTasks + (m.range it).length
              created := c.created ++ [(m.range it).map Prod.fst] }, none)

/-- A task that `TaskDone` has marked `taskStatusCompleted`, and its renames. -/
def complete (c : Coordinator) (taskId : Nat) (task : Task) (committed : Bool) : Coordinator :=
  { c with tasks := c.tasks.set taskId { task with status := .completed, committed := committed } }

def taskDone (os : Os φ) (it : Iteration GoString) (c : Coordinator) (fs : φ) (taskId : Nat)
    (filesCreated : List GoString) : Option (Coordinator × φ × Option GoString) :=
  match c.tasks[taskId]? with
  | none => none
  | some task =>
      if task.status = .timedOut then
        -- a late attempt: its files go away, the replacement keeps the task
        match removeFiles os fs filesCreated with
        | (fs, some err) => some (c, fs, some (lit "TaskDone os.Remove: " ++ err))
        | (fs, none) => some (c, fs, none)
      else
        match task.taskType with
        | .map =>
            match renameTempFiles os fs filesCreated with
            | (fs, some err) =>
                -- the status was set before the renames and stays
                some (c.complete taskId task false, fs,
                  some (lit "TaskDone renameTempFiles: " ++ err))
            | (fs, none) =>
                let c := { c.complete taskId task true with numMapTasks := c.numMapTasks - 1 }
                if c.numMapTasks = 0 then
                  match c.createReduceTasks os it fs with
                  | none => none
                  | some (c, some err) =>
                      some (c, fs, some (lit "TaskDone createReduceTasks: " ++ err))
                  | some (c, none) => some ({ c with phase := .reduce }, fs, none)
                else some (c, fs, none)
        | .reduce =>
            match renameTempFiles os fs filesCreated with
            | (fs, some err) =>
                some (c.complete taskId task false, fs,
                  some (lit "TaskDone renameTempFiles: " ++ err))
            | (fs, none) =>
                let c := { c.complete taskId task true with numReduceTasks := c.numReduceTasks - 1 }
                if c.numReduceTasks = 0 then some ({ c with phase := .shutdown }, fs, none)
                else some (c, fs, none)
        | _ => some (c.complete taskId task false, fs, none)

/-- The body of the loop of `timeoutTasks` for a task of the slice the loop started with. -/
def timeoutTask (now : Nat → Int) (c : Coordinator) (entry : Task × Nat) : Coordinator :=
  if entry.1.status = .inProgress ∧ now entry.2 > entry.1.startTime + c.timeoutSecs then
    -- the loop ranges over the old slice, so the appended task is not looked at
    { c with
      tasks := c.tasks.modify entry.2 ({ · with status := .timedOut }) ++
        [{ files := entry.1.files, status := .idle, startTime := 0, taskType := entry.1.taskType,
           origin := entry.1.origin, committed := false }] }
  else c

/-- `now i` is what `time.Now().Unix()` reads when the loop is at task `i`. -/
def timeoutTasks (c : Coordinator) (now : Nat → Int) : Coordinator :=
  c.tasks.zipIdx.foldl (timeoutTask now) c

/-- `deleteFiles`; `Done` ignores its error. -/
def deleteFiles (os : Os φ) (fs : φ) (pattern : GoString) : φ :=
  match os.glob fs pattern with
  | .error _ => fs
  | .ok matched => (removeFiles os fs matched).1

/-- Whether `Done` gets past the switch on the phase. -/
def settled (c : Coordinator) : Bool :=
  match c.phase with
  | .map => false
  | .reduce => c.tasks.all fun task => !(task.status = .idle || task.status = .inProgress)
  | .shutdown => c.workers.all fun worker => !worker.isRunning

def done (os : Os φ) (c : Coordinator) (fs : φ) (now : Nat → Int) : Coordinator × φ × Bool :=
  let c := c.timeoutTasks now
  if c.settled then (c, deleteFiles os fs (lit "m-out*"), true) else (c, fs, false)

/-- `Heartbeat` up to its store.  It replies with the order to shut down exactly if there is one. -/
def heartbeat (c : Coordinator) (workerId : Nat) : Option (Option Beat) :=
  if c.phase = .shutdown then
    if workerId < c.workers.length then some (some ⟨workerId, c.array⟩) else none
  else some none

/-- The store of `Heartbeat`, which nobody sees if the workers are in another array by now. -/
def stopRunning (c : Coordinator) (b : Beat) : Coordinator :=
  if b.array = c.array then
    { c with workers := c.workers.modify b.workerId ({ · with isRunning := false }) }
  else c

end Coordinator

end GoLabs.MapReduce
