import GoLabs.MapReduce.Coordinator

/-!
# The workers

`mr/worker.go`.  `runMapTask` and `runReduceTask` are given twice: as functions of the directory,
and as `WorkerPc.advance`, which does the same work one file operation at a time so that a worker
can stall or crash in between.  An error or a panic of either ends the process of the worker, so
both are `none` in the functions and `gone` in the steps.
-/

open GoLabs.Reasoning

namespace GoLabs.MapReduce

structure KeyValue where
  key : GoString
  value : GoString
  deriving DecidableEq, Repr

/-- `fnv.New32a`. -/
def fnv32a (bytes : GoString) : UInt32 :=
  bytes.foldl (fun h b => (h ^^^ b.toUInt32) * 16777619) 2166136261

def ihash (key : GoString) : Nat := (fnv32a key &&& 0x7fffffff).toNat

/-- `tempm-out-<task-id>-<reducer-id>`. -/
def mapOutName (taskId r : Nat) : GoString :=
  lit "tempm-out-" ++ dec taskId ++ lit "-" ++ dec r

/-- The line that `runMapTask` writes for a pair. -/
def mapRecord (kv : KeyValue) : GoString := kv.key ++ lit ":::" ++ kv.value ++ lit "\n"

/-- `tempmr-out-<reducer-id>`. -/
def reduceOutName (reduceId : GoString) : GoString := lit "tempmr-out-" ++ reduceId

/-- The line that `runReduceTask` writes for a key. -/
def reduceRecord (key result : GoString) : GoString := key ++ lit " " ++ result ++ lit "\n"

/-! ## runMapTask -/

/-- The files created so far, as `filesCreatedMap` and `filesMap` collect them. -/
abbrev Created := GoMap GoString Bool

/-- The loop over the pairs that `mapf` returned. -/
def writePairs (taskId nReduce : Nat) : List KeyValue → Disk × Created → Disk × Created
  | [], st => st
  | kv :: kvs, (d, created) =>
      let name := mapOutName taskId (ihash kv.key % nReduce)
      writePairs taskId nReduce kvs (d.append name (mapRecord kv), created.insert name true)

/-- The loop over the input files; with `nReduce = 0` the first pair panics. -/
def mapFiles (mapf : GoString → GoString → List KeyValue) (taskId nReduce : Nat) :
    List GoString → Disk × Created → Option (Disk × Created)
  | [], st => some st
  | file :: files, (d, created) =>
      match d.read file with
      | none => none
      | some content =>
          if nReduce = 0 ∧ mapf file content ≠ [] then none
          else mapFiles mapf taskId nReduce files
            (writePairs taskId nReduce (mapf file content) (d, created))

def runMapTask (mapf : GoString → GoString → List KeyValue) (it : Iteration GoString)
    (taskId : Nat) (files : List GoString) (nReduce : Nat) (d : Disk) :
    Option (Disk × List GoString) :=
  (mapFiles mapf taskId nReduce files (d, ∅)).map fun st => (st.1, it.order st.2.keys)

/-! ## runReduceTask -/

/-- One line of an intermediate file: nothing for a blank line, `none` where `parts[1]` panics. -/
def parseLine (line : GoString) : Option (List (GoString × GoString)) :=
  let line := trimSpace line
  if line = [] then some []
  else
    match split line (lit ":::") with
    | key :: value :: _ => some [(key, value)]
    | _ => none

/-- The pairs of an intermediate file. -/
def parseContent (content : GoString) : Option (List (GoString × GoString)) :=
  ((split content (lit "\n")).mapM parseLine).map List.flatten

/-- The loop over the intermediate files. -/
def readFiles (d : Disk) : List GoString → GoMap GoString (List GoString) →
    Option (GoMap GoString (List GoString))
  | [], m => some m
  | file :: files, m =>
      match (d.read file).bind parseContent with
      | none => none
      | some kvs => readFiles d files (GoMap.collect m kvs)

/-- The loop over the keys. -/
def writeResults (reducef : GoString → List GoString → GoString) (reduceId : GoString) :
    List (GoString × List GoString) → Disk × Created → Disk × Created
  | [], st => st
  | (key, values) :: entries, (d, created) =>
      writeResults reducef reduceId entries
        (d.append (reduceOutName reduceId) (reduceRecord key (reducef key values)),
          created.insert (reduceOutName reduceId) true)

/-- `it` orders the keys of the loop, and `it'` those of `mapKeysToSlice`. -/
def runReduceTask (reducef : GoString → List GoString → GoString) (it it' : Iteration GoString)
    (files : List GoString) (d : Disk) : Option (Disk × List GoString) :=
  match files with
  | [] => some (d, [])
  | first :: _ =>
      match reduceIdOf first with
      | none => none
      | some reduceId =>
          (readFiles d files ∅).map fun m =>
            let st := writeResults reducef reduceId (m.range it) (d, ∅)
            (st.1, it'.order st.2.keys)

/-! ## One operation at a time -/

/-- A job.  `mapf` and `reducef` also get the id of the task, so that a run may use functions that
answer differently in every attempt; a deterministic one ignores it. -/
structure JobSpec where
  inputs : List GoString
  nReduce : Nat
  mapf : Nat → GoString → GoString → List KeyValue
  reducef : Nat → GoString → List GoString → GoString

/-- Where a worker stands. -/
inductive WorkerPc where
  /-- About to call `GetTask`. -/
  | idle
  /-- In `runMapTask`, with the files left to read and the pairs left to write. -/
  | mapping (taskId nReduce : Nat) (files : List GoString) (kvs : List KeyValue) (created : Created)
  /-- In `runMapTask`, with the file for the pair `kv` open. -/
  | mapOpen (taskId nReduce : Nat) (files : List GoString) (kv : KeyValue) (kvs : List KeyValue)
      (created : Created) (fd : Nat)
  /-- In the first loop of `runReduceTask`. -/
  | reading (taskId : Nat) (reduceId : GoString) (files : List GoString)
      (m : GoMap GoString (List GoString))
  /-- In the second loop of `runReduceTask`. -/
  | writing (taskId : Nat) (reduceId : GoString) (entries : List (GoString × List GoString))
      (created : Created)
  /-- In the second loop of `runReduceTask`, with the output file open for the line of `key`. -/
  | reduceOpen (taskId : Nat) (reduceId key : GoString) (values : List GoString)
      (entries : List (GoString × List GoString)) (created : Created) (fd : Nat)
  /-- About to call `TaskDone`. -/
  | reporting (taskId : Nat) (filesCreated : List GoString)
  /-- Exited or crashed. -/
  | gone
  deriving DecidableEq

namespace WorkerPc

/-- The task a worker is busy with. -/
def task : WorkerPc → Option Nat
  | .mapping t _ _ _ _ | .mapOpen t _ _ _ _ _ _ | .reading t _ _ _ | .writing t _ _ _
  | .reduceOpen t _ _ _ _ _ _ | .reporting t _ => some t
  | .idle | .gone => none

/-- What a worker does with the reply to `GetTask`. -/
def begin (res : GetTaskRes) : WorkerPc :=
  match res.taskType with
  | .map => .mapping res.taskId res.nReduce res.files [] ∅
  | .reduce =>
      match res.files with
      | [] => .reporting res.taskId []
      -- the reducer id is the one in the name of the first file
      | first :: _ =>
          match reduceIdOf first with
          | none => .gone
          | some reduceId => .reading res.taskId reduceId res.files ∅
  | .noTask => .idle
  | .shutdown => .gone

/-- The next operation of a worker that is busy with a task. -/
def advance (spec : JobSpec) (it : Iteration GoString) (d : Disk) :
    WorkerPc → Option (WorkerPc × Disk)
  | .mapping t nReduce files (kv :: kvs) created =>
      -- `ihash(kv.Key) % nReduce` divides by zero
      if nReduce = 0 then some (.gone, d)
      else
        let name := mapOutName t (ihash kv.key % nReduce)
        let (fd, d) := d.openFile name
        some (.mapOpen t nReduce files kv kvs (created.insert name true) fd, d)
  | .mapOpen t nReduce files kv kvs created fd =>
      some (.mapping t nReduce files kvs created, d.write fd (mapRecord kv))
  | .mapping t nReduce (file :: files) [] created =>
      match d.read file with
      | none => some (.gone, d)
      | some content => some (.mapping t nReduce files (spec.mapf t file content) created, d)
  | .mapping t _ [] [] created => some (.reporting t (it.order created.keys), d)
  | .reading t reduceId (file :: files) m =>
      match (d.read file).bind parseContent with
      | none => some (.gone, d)
      | some kvs => some (.reading t reduceId files (GoMap.collect m kvs), d)
  | .reading t reduceId [] m => some (.writing t reduceId (m.range it) ∅, d)
  | .writing t reduceId ((key, values) :: entries) created =>
      let (fd, d) := d.openFile (reduceOutName reduceId)
      some (.reduceOpen t reduceId key values entries
        (created.insert (reduceOutName reduceId) true) fd, d)
  | .reduceOpen t reduceId key values entries created fd =>
      some (.writing t reduceId entries created,
        d.write fd (reduceRecord key (spec.reducef t key values)))
  | .writing t _ [] created => some (.reporting t (it.order created.keys), d)
  | .idle | .reporting _ _ | .gone => none

end WorkerPc

end GoLabs.MapReduce
