import GoLabs.MapReduce.Accounting
import GoLabs.MapReduce.Worker

/-!
# A job

The coordinator and any number of workers over one directory.  A worker does one file operation at
a time, may stall anywhere and may crash anywhere; `Done` may be called at any moment, with any
readings of the clock.
-/

open GoLabs.Reasoning

namespace GoLabs.MapReduce

/-- `snapshot`, `finished` and `unreported` are not read by any step: the directory at the moment
`createReduceTasks` ran, whether `Done` has returned true, and the reduce attempts that have opened
their output file and not called `TaskDone` since. -/
structure Job where
  sys : CoordSys Disk
  workers : List WorkerPc
  /-- The workers whose `Heartbeat` was answered with the order to shut down, and whether the array
  of the workers had changed before its store. -/
  told : List (Nat × Bool)
  snapshot : Option Disk
  finished : Bool
  unreported : List Nat

inductive JobAction where
  | registerWorker (grows : Bool)
  | getTask (worker : Nat) (now : Int)
  | advance (worker : Nat) (it : Iteration GoString)
  | taskDone (worker : Nat) (it : Iteration GoString)
  | heartbeat (worker : Nat)
  /-- A call of `Heartbeat` stores and returns; its worker may be gone. -/
  | stopRunning (b : Beat)
  | done (now : Nat → Int)
  | crash (worker : Nat)

/-- Whether the next operation of a worker opens the output file of a reduce task. -/
def WorkerPc.opens : WorkerPc → Option Nat
  | .writing t _ (_ :: _) _ => some t
  | _ => none

namespace Job

def coord (s : Job) : Coordinator := s.sys.coord

def disk (s : Job) : Disk := s.sys.fs

def init (spec : JobSpec) (d : Disk) : Job :=
  { sys := CoordSys.init spec.inputs spec.nReduce d
    workers := []
    told := []
    snapshot := none
    finished := false
    unreported := [] }

/-- The loop of `heartbeat` of a worker waits for an answer, or has got the order to shut down. -/
def beating (s : Job) (w : Nat) : Bool := w ∈ s.sys.beats.map Beat.workerId ++ s.told.map Prod.fst

def step (spec : JobSpec) (s : Job) : JobAction → Option Job
  | .registerWorker grows =>
      some { s with
        sys := { s.sys with coord := (s.coord.registerWorker grows).1 }
        workers := s.workers ++ [.idle] }
  | .getTask w now =>
      match s.workers[w]? with
      | some .idle =>
          (s.sys.getTask w now).map fun r =>
            { s with sys := r.1, workers := s.workers.set w (.begin r.2) }
      | _ => none
  | .advance w it =>
      match s.workers[w]? with
      | some pc =>
          (pc.advance spec it s.disk).map fun r =>
            { s with
              sys := { s.sys with fs := r.2 }
              workers := s.workers.set w r.1
              unreported :=
                match pc.opens with
                | some t => if t ∈ s.unreported then s.unreported else s.unreported ++ [t]
                | none => s.unreported }
      | none => none
  | .taskDone w it =>
      match s.workers[w]? with
      | some (.reporting t files) =>
          (s.sys.taskDone Disk.os it w t files).map fun r =>
            { s with
              sys := r.1
              -- an error is fatal to the worker
              workers := s.workers.set w (if r.2 = none then .idle else .gone)
              snapshot :=
                if r.1.coord.created = s.coord.created then s.snapshot else some r.1.fs
              unreported := s.unreported.filter (· ≠ t) }
      | _ => none
  | .heartbeat w =>
      match s.workers[w]? with
      | some .gone | none => none
      | some _ =>
          if s.beating w then none
          else (s.coord.heartbeat w).map fun b => { s with sys := s.sys.beat b }
  | .stopRunning b =>
      if b ∈ s.sys.beats then
        some { s with
          sys := s.sys.stopRunning b
          told := s.told ++ [(b.workerId, b.array != s.coord.array)] }
      else none
  | .done now =>
      let r := s.coord.done Disk.os s.disk now
      some { s with
        sys := { s.sys with coord := r.1, fs := r.2.1 }
        finished := s.finished || r.2.2 }
  | .crash w =>
      match s.workers[w]? with
      | some _ => some { s with workers := s.workers.set w .gone }
      | none => none

end Job

/-! ## What each action does -/

/-- The operations of a busy worker. -/
inductive WorkerPc.Advance (spec : JobSpec) (it : Iteration GoString) (d : Disk) :
    WorkerPc → WorkerPc → Disk → Prop where
  | mapPanic {t : Nat} {files : List GoString} {kv : KeyValue} {kvs : List KeyValue}
      {created : Created} : Advance spec it d (.mapping t 0 files (kv :: kvs) created) .gone d
  | mapOpen {t nReduce : Nat} {files : List GoString} {kv : KeyValue} {kvs : List KeyValue}
      {created : Created} (hn : nReduce ≠ 0) :
      Advance spec it d (.mapping t nReduce files (kv :: kvs) created)
        (.mapOpen t nReduce files kv kvs
          (created.insert (mapOutName t (ihash kv.key % nReduce)) true)
          (d.openFile (mapOutName t (ihash kv.key % nReduce))).1)
        (d.openFile (mapOutName t (ihash kv.key % nReduce))).2
  | mapWrite {t nReduce : Nat} {files : List GoString} {kv : KeyValue} {kvs : List KeyValue}
      {created : Created} {fd : Nat} :
      Advance spec it d (.mapOpen t nReduce files kv kvs created fd)
        (.mapping t nReduce files kvs created) (d.write fd (mapRecord kv))
  | mapMissing {t nReduce : Nat} {file : GoString} {files : List GoString} {created : Created}
      (hread : d.read file = none) :
      Advance spec it d (.mapping t nReduce (file :: files) [] created) .gone d
  | mapRead {t nReduce : Nat} {file content : GoString} {files : List GoString}
      {created : Created} (hread : d.read file = some content) :
      Advance spec it d (.mapping t nReduce (file :: files) [] created)
        (.mapping t nReduce files (spec.mapf t file content) created) d
  | mapEnd {t nReduce : Nat} {created : Created} :
      Advance spec it d (.mapping t nReduce [] [] created)
        (.reporting t (it.order created.keys)) d
  | readFail {t : Nat} {reduceId file : GoString} {files : List GoString}
      {m : GoMap GoString (List GoString)} (hread : (d.read file).bind parseContent = none) :
      Advance spec it d (.reading t reduceId (file :: files) m) .gone d
  | read {t : Nat} {reduceId file content : GoString} {files : List GoString}
      {m : GoMap GoString (List GoString)} {kvs : List (GoString × GoString)}
      (hread : d.read file = some content) (hparse : parseContent content = some kvs) :
      Advance spec it d (.reading t reduceId (file :: files) m)
        (.reading t reduceId files (GoMap.collect m kvs)) d
  | readEnd {t : Nat} {reduceId : GoString} {m : GoMap GoString (List GoString)} :
      Advance spec it d (.reading t reduceId [] m) (.writing t reduceId (m.range it) ∅) d
  | reduceOpen {t : Nat} {reduceId key : GoString} {values : List GoString}
      {entries : List (GoString × List GoString)} {created : Created} :
      Advance spec it d (.writing t reduceId ((key, values) :: entries) created)
        (.reduceOpen t reduceId key values entries (created.insert (reduceOutName reduceId) true)
          (d.openFile (reduceOutName reduceId)).1)
        (d.openFile (reduceOutName reduceId)).2
  | write {t : Nat} {reduceId key : GoString} {values : List GoString}
      {entries : List (GoString × List GoString)} {created : Created} {fd : Nat} :
      Advance spec it d (.reduceOpen t reduceId key values entries created fd)
        (.writing t reduceId entries created)
        (d.write fd (reduceRecord key (spec.reducef t key values)))
  | writeEnd {t : Nat} {reduceId : GoString} {created : Created} :
      Advance spec it d (.writing t reduceId [] created)
        (.reporting t (it.order created.keys)) d

theorem WorkerPc.advance_cases {spec : JobSpec} {it : Iteration GoString} {d d' : Disk}
    {pc pc' : WorkerPc} (h : pc.advance spec it d = some (pc', d')) :
    WorkerPc.Advance spec it d pc pc' d' := by
  unfold WorkerPc.advance at h
  split at h
  · split at h <;> rename_i hn <;> simp only [Option.some.injEq, Prod.mk.injEq] at h <;>
      rcases h with ⟨rfl, rfl⟩
    · subst hn
      exact .mapPanic
    · exact .mapOpen hn
  · simp only [Option.some.injEq, Prod.mk.injEq] at h
    rcases h with ⟨rfl, rfl⟩
    exact .mapWrite
  · split at h <;> rename_i hread <;> simp only [Option.some.injEq, Prod.mk.injEq] at h <;>
      rcases h with ⟨rfl, rfl⟩
    · exact .mapMissing hread
    · exact .mapRead hread
  · simp only [Option.some.injEq, Prod.mk.injEq] at h
    rcases h with ⟨rfl, rfl⟩
    exact .mapEnd
  · split at h <;> rename_i hread <;> simp only [Option.some.injEq, Prod.mk.injEq] at h <;>
      rcases h with ⟨rfl, rfl⟩
    · exact .readFail hread
    · rcases Option.bind_eq_some_iff.mp hread with ⟨content, hcontent, hparse⟩
      exact .read hcontent hparse
  · simp only [Option.some.injEq, Prod.mk.injEq] at h
    rcases h with ⟨rfl, rfl⟩
    exact .readEnd
  · simp only [Option.some.injEq, Prod.mk.injEq] at h
    rcases h with ⟨rfl, rfl⟩
    exact .reduceOpen
  · simp only [Option.some.injEq, Prod.mk.injEq] at h
    rcases h with ⟨rfl, rfl⟩
    exact .write
  · simp only [Option.some.injEq, Prod.mk.injEq] at h
    rcases h with ⟨rfl, rfl⟩
    exact .writeEnd
  all_goals simp at h

theorem WorkerPc.Advance.call {spec : JobSpec} {it : Iteration GoString} {d d' : Disk}
    {pc pc' : WorkerPc} (h : WorkerPc.Advance spec it d pc pc' d') :
    pc.advance spec it d = some (pc', d') := by
  cases h with
  | mapPanic => rfl
  | mapOpen hn => simp [WorkerPc.advance, hn]
  | mapWrite => rfl
  | mapMissing hread => simp [WorkerPc.advance, hread]
  | mapRead hread => simp [WorkerPc.advance, hread]
  | mapEnd => rfl
  | readFail hread => simp [WorkerPc.advance, hread]
  | read hread hparse => simp [WorkerPc.advance, hread, hparse]
  | readEnd => rfl
  | reduceOpen => rfl
  | write => rfl
  | writeEnd => rfl

namespace Job

inductive Step (spec : JobSpec) (s : Job) : JobAction → Job → Prop where
  | registerWorker {grows : Bool} : Step spec s (.registerWorker grows)
      { s with
        sys := { s.sys with coord := (s.coord.registerWorker grows).1 }
        workers := s.workers ++ [.idle] }
  | getTask {w : Nat} {now : Int} {sys : CoordSys Disk} {res : GetTaskRes}
      (hpc : s.workers[w]? = some .idle) (hget : s.sys.getTask w now = some (sys, res)) :
      Step spec s (.getTask w now)
        { s with sys := sys, workers := s.workers.set w (.begin res) }
  | advance {w : Nat} {it : Iteration GoString} {pc pc' : WorkerPc} {d : Disk}
      {unreported : List Nat} (hpc : s.workers[w]? = some pc)
      (hadv : WorkerPc.Advance spec it s.disk pc pc' d)
      (hun : unreported = match pc.opens with
        | some t => if t ∈ s.unreported then s.unreported else s.unreported ++ [t]
        | none => s.unreported) :
      Step spec s (.advance w it)
        { s with
          sys := { s.sys with fs := d }
          workers := s.workers.set w pc'
          unreported := unreported }
  | taskDone {w t : Nat} {it : Iteration GoString} {files : List GoString} {sys : CoordSys Disk}
      {err : Option GoString} {pc : WorkerPc} {snapshot : Option Disk}
      (hpc : s.workers[w]? = some (.reporting t files))
      (hdone : s.sys.taskDone Disk.os it w t files = some (sys, err))
      (hnext : pc = if err = none then .idle else .gone)
      (hsnap : snapshot = if sys.coord.created = s.coord.created then s.snapshot else some sys.fs) :
      Step spec s (.taskDone w it)
        { s with
          sys := sys
          workers := s.workers.set w pc
          snapshot := snapshot
          unreported := s.unreported.filter (· ≠ t) }
  | heartbeat {w : Nat} {pc : WorkerPc} {b : Option Beat} (hpc : s.workers[w]? = some pc)
      (hthere : pc ≠ .gone) (hfree : s.beating w = false) (hbeat : s.coord.heartbeat w = some b) :
      Step spec s (.heartbeat w) { s with sys := s.sys.beat b }
  | stopRunning {b : Beat} (hb : b ∈ s.sys.beats) :
      Step spec s (.stopRunning b)
        { s with
          sys := s.sys.stopRunning b
          told := s.told ++ [(b.workerId, b.array != s.coord.array)] }
  | done {now : Nat → Int} {c : Coordinator} {d : Disk} {result : Bool}
      (hdone : s.coord.done Disk.os s.disk now = (c, d, result)) :
      Step spec s (.done now)
        { s with
          sys := { s.sys with coord := c, fs := d }
          finished := s.finished || result }
  | crash {w : Nat} : Step spec s (.crash w) { s with workers := s.workers.set w .gone }

theorem step_cases {spec : JobSpec} {s t : Job} {act : JobAction}
    (h : s.step spec act = some t) : Step spec s act t := by
  cases act with
  | registerWorker grows =>
      simp only [step, Option.some.injEq] at h
      exact h ▸ .registerWorker
  | getTask w now =>
      simp only [step] at h
      split at h
      · rename_i hpc
        rcases Option.map_eq_some_iff.mp h with ⟨⟨sys, res⟩, hget, rfl⟩
        exact .getTask hpc hget
      · simp at h
  | advance w it =>
      simp only [step] at h
      split at h
      · rename_i pc hpc
        rcases Option.map_eq_some_iff.mp h with ⟨⟨pc', d⟩, hadv, rfl⟩
        exact .advance hpc (WorkerPc.advance_cases hadv) rfl
      · simp at h
  | taskDone w it =>
      simp only [step] at h
      split at h
      · rename_i hpc
        rcases Option.map_eq_some_iff.mp h with ⟨⟨sys, err⟩, hdone, rfl⟩
        exact .taskDone hpc hdone rfl rfl
      · simp at h
  | heartbeat w =>
      simp only [step] at h
      split at h
      · simp at h
      · simp at h
      · rename_i pc hthere hpc
        rw [Option.ite_none_left_eq_some] at h
        obtain ⟨b, hbeat, rfl⟩ := Option.map_eq_some_iff.mp h.2
        exact .heartbeat hpc hthere (by simpa using h.1) hbeat
  | stopRunning b =>
      simp only [step, Option.ite_none_right_eq_some, Option.some.injEq] at h
      obtain ⟨hb, rfl⟩ := h
      exact .stopRunning hb
  | done now =>
      simp only [step, Option.some.injEq] at h
      exact h ▸ .done rfl
  | crash w =>
      simp only [step] at h
      split at h
      · simp only [Option.some.injEq] at h
        exact h ▸ .crash
      · simp at h

/-! ## Enabled actions -/

section Enabled

variable {spec : JobSpec} {s : Job} {w : Nat} {pc : WorkerPc}

theorem step_getTask {now : Int} {sys : CoordSys Disk} {res : GetTaskRes}
    (hpc : s.workers[w]? = some .idle) (hget : s.sys.getTask w now = some (sys, res)) :
    s.step spec (.getTask w now) =
      some { s with sys := sys, workers := s.workers.set w (.begin res) } := by
  simp [step, hpc, hget]

theorem step_advance {it : Iteration GoString} {pc' : WorkerPc} {d : Disk}
    (hpc : s.workers[w]? = some pc) (hadv : pc.advance spec it s.disk = some (pc', d)) :
    s.step spec (.advance w it) =
      some { s with
        sys := { s.sys with fs := d }
        workers := s.workers.set w pc'
        unreported :=
          match pc.opens with
          | some t => if t ∈ s.unreported then s.unreported else s.unreported ++ [t]
          | none => s.unreported } := by
  simp [step, hpc, hadv]

theorem step_taskDone {it : Iteration GoString} {t : Nat} {files : List GoString}
    {sys : CoordSys Disk} {err : Option GoString}
    (hpc : s.workers[w]? = some (.reporting t files))
    (hdone : s.sys.taskDone Disk.os it w t files = some (sys, err)) :
    s.step spec (.taskDone w it) =
      some { s with
        sys := sys
        workers := s.workers.set w (if err = none then .idle else .gone)
        snapshot := if sys.coord.created = s.coord.created then s.snapshot else some sys.fs
        unreported := s.unreported.filter (· ≠ t) } := by
  simp [step, hpc, hdone]

theorem step_heartbeat {b : Option Beat} (hpc : s.workers[w]? = some pc) (hthere : pc ≠ .gone)
    (hfree : s.beating w = false) (hbeat : s.coord.heartbeat w = some b) :
    s.step spec (.heartbeat w) = some { s with sys := s.sys.beat b } := by
  cases pc <;> simp_all [step]

theorem step_stopRunning {b : Beat} (hb : b ∈ s.sys.beats) :
    s.step spec (.stopRunning b) = some { s with
      sys := s.sys.stopRunning b
      told := s.told ++ [(b.workerId, b.array != s.coord.array)] } := by
  simp [step, hb]

theorem step_done {now : Nat → Int} {c : Coordinator} {d : Disk} {result : Bool}
    (hdone : s.coord.done Disk.os s.disk now = (c, d, result)) :
    s.step spec (.done now) =
      some { s with
        sys := { s.sys with coord := c, fs := d }
        finished := s.finished || result } := by
  simp [step, hdone]

theorem step_crash (hpc : s.workers[w]? = some pc) :
    s.step spec (.crash w) = some { s with workers := s.workers.set w .gone } := by
  simp [step, hpc]

end Enabled

/-- What a worker must be to crash, which `Step` leaves out. -/
theorem crash_worker {spec : JobSpec} {s t : Job} {w : Nat}
    (h : s.step spec (.crash w) = some t) : ∃ pc, s.workers[w]? = some pc := by
  cases hpc : s.workers[w]? with
  | none => simp [step, hpc] at h
  | some pc => exact ⟨pc, rfl⟩

end Job

end GoLabs.MapReduce
