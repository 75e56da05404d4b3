import GoLabs.MapReduce.ReduceOutput

/-!
# The end of a job

In `phaseShutdown` the coordinator waits until every worker that ever registered has had a heartbeat
answered with the order to shut down.  A worker that crashed before that makes no more calls, and
`Done` never returns true.  Nor does it if the store of a heartbeat was lost because a worker
registered after the heartbeat had looked up the array: the worker exits and does not call again.
-/

open GoLabs.Reasoning

namespace GoLabs.MapReduce

namespace Coordinator

variable {φ : Type} {os : Os φ} {it : Iteration GoString} {c c' : Coordinator} {fs fs' : φ}

def running (c : Coordinator) : List Bool := c.workers.map WorkerInfo.isRunning

theorem running_registerWorker (c : Coordinator) (grows : Bool) :
    (c.registerWorker grows).1.running = c.running ++ [true] := by
  simp [running, registerWorker]

theorem running_getTask {w : Nat} {now : Int} {res : GetTaskRes}
    (h : c.getTask w now = some (c', res)) : c'.running = c.running := by
  unfold getTask at h
  split at h
  · simp at h
  · rename_i info hinfo
    split at h <;> simp only [Option.some.injEq, Prod.mk.injEq] at h <;> rw [← h.1] <;>
      exact map_set_eq WorkerInfo.isRunning hinfo rfl

theorem running_taskDone {taskId : Nat} {files : List GoString} {err : Option GoString}
    (h : c.taskDone os it fs taskId files = some (c', fs', err)) : c'.running = c.running := by
  cases taskDone_cases h <;> rfl

theorem running_timeoutTasks (c : Coordinator) (now : Nat → Int) :
    (c.timeoutTasks now).running = c.running := by
  rcases c.timeoutTasks_eq now with ⟨tasks, heq⟩
  rw [heq]
  rfl

/-- The store of a heartbeat, unless it is lost. -/
theorem running_stopRunning (c : Coordinator) (b : Beat) :
    (c.stopRunning b).running =
      if b.array = c.array then c.running.set b.workerId false else c.running := by
  unfold stopRunning running
  split
  · apply List.ext_getElem?
    intro i
    simp only [List.getElem?_map, List.getElem?_modify, List.getElem?_set, List.length_map]
    cases hi : c.workers[i]? with
    | none =>
        have hle := List.getElem?_eq_none_iff.mp hi
        by_cases hw : b.workerId = i <;> simp [hw, hle]
    | some info =>
        have hlt := lt_length_of_getElem? hi
        by_cases hw : b.workerId = i <;> simp [hw, hlt]
  · rfl

/-- What `Done` returns in `phaseShutdown`. -/
theorem done_shutdown (hphase : c.phase = .shutdown) (now : Nat → Int) :
    (c.done os fs now).2.2 = c.running.all (! ·) := by
  have hsettled : (c.timeoutTasks now).settled = c.running.all (! ·) := by
    rw [← c.running_timeoutTasks now]
    rcases c.timeoutTasks_eq now with ⟨tasks, heq⟩
    simp [settled, heq, hphase, running, Function.comp_def]
  unfold done
  dsimp only
  rw [hsettled]
  split <;> simp_all

end Coordinator

namespace Job

variable {spec : JobSpec} {d₀ : Disk}

/-- Each worker is answered the order to shut down once, and counts as stopped if the store of that
heartbeat was not lost. -/
structure Told (s : Job) : Prop where
  length : s.coord.running.length = s.workers.length
  stopped : ∀ w, s.coord.running[w]? = some false ↔ (w, false) ∈ s.told
  once : (s.sys.beats.map Beat.workerId ++ s.told.map Prod.fst).Nodup
  known : ∀ w, s.beating w = true → w < s.workers.length

variable {s t : Job}

theorem beating_eq_true {w : Nat} : s.beating w = true ↔
    w ∈ s.sys.beats.map Beat.workerId ++ s.told.map Prod.fst := decide_eq_true_iff

theorem Told.init : Told (Job.init spec d₀) := by
  refine ⟨rfl, ?_, List.nodup_nil, ?_⟩
  · simp [Job.init, coord, CoordSys.init, makeCoordinator, Coordinator.running]
  · simp [Job.init, beating, CoordSys.init]

/-- A step that registers nobody and is not part of a heartbeat. -/
theorem Told.same (h : Told s) (hrunning : t.coord.running = s.coord.running)
    (hworkers : t.workers.length = s.workers.length) (hbeats : t.sys.beats = s.sys.beats)
    (htold : t.told = s.told) : Told t := by
  refine ⟨?_, ?_, ?_, ?_⟩
  · rw [hrunning, hworkers, h.length]
  · rw [hrunning, htold]
    exact h.stopped
  · rw [hbeats, htold]
    exact h.once
  · unfold beating
    rw [hbeats, htold, hworkers]
    exact h.known

theorem Told.registerWorker (h : Told s) (grows : Bool) :
    Told { s with
      sys := { s.sys with coord := (s.coord.registerWorker grows).1 }
      workers := s.workers ++ [.idle] } := by
  have hrun := s.coord.running_registerWorker grows
  refine ⟨?_, ?_, h.once, ?_⟩
  · change (s.coord.registerWorker grows).1.running.length = _
    simp [hrun, h.length]
  · intro w
    change (s.coord.registerWorker grows).1.running[w]? = _ ↔ _
    rw [hrun, getElem?_snoc_eq_some, ← h.stopped]
    simp
  · intro w hw
    have hlt := h.known w hw
    simp only [List.length_append, List.length_singleton]
    omega

theorem Told.heartbeat (h : Told s) {w : Nat} {b : Option Beat} (hfree : s.beating w = false)
    (hw : w < s.workers.length) (hbeat : s.coord.heartbeat w = some b) :
    Told { s with sys := s.sys.beat b } := by
  cases b with
  | none => exact h.same rfl rfl (List.append_nil _) rfl
  | some b =>
      obtain ⟨-, -, rfl⟩ := Coordinator.heartbeat_eq_some.mp hbeat
      have hnew : w ∉ s.sys.beats.map Beat.workerId ++ s.told.map Prod.fst := by
        rw [← beating_eq_true, hfree]
        decide
      -- the new call comes between the two parts of the list
      have hperm : ((s.sys.beats ++ [(⟨w, s.coord.array⟩ : Beat)]).map Beat.workerId ++
          s.told.map Prod.fst).Perm
          (w :: (s.sys.beats.map Beat.workerId ++ s.told.map Prod.fst)) := by
        rw [List.map_append, List.append_assoc]
        exact List.perm_middle
      refine ⟨h.length, h.stopped, ?_, ?_⟩
      · exact hperm.nodup_iff.mpr (List.nodup_cons.mpr ⟨hnew, h.once⟩)
      · intro v hv
        obtain rfl | hold := List.mem_cons.mp (hperm.mem_iff.mp (beating_eq_true.mp hv))
        · exact hw
        · exact h.known v (beating_eq_true.mpr hold)

theorem Told.stopRunning (h : Told s) {b : Beat} (hb : b ∈ s.sys.beats) :
    Told { s with
      sys := s.sys.stopRunning b
      told := s.told ++ [(b.workerId, b.array != s.coord.array)] } := by
  have hperm : ((s.sys.beats.erase b).map Beat.workerId ++
      (s.told ++ [(b.workerId, b.array != s.coord.array)]).map Prod.fst).Perm
      (s.sys.beats.map Beat.workerId ++ s.told.map Prod.fst) := by
    have hbeats := (List.perm_cons_erase hb).map Beat.workerId
    rw [List.map_append, ← List.append_assoc]
    refine List.perm_append_comm.trans ?_
    exact (hbeats.symm.append_right (s.told.map Prod.fst))
  have hmine : b.workerId ∈ s.sys.beats.map Beat.workerId := List.mem_map_of_mem hb
  have hlt : b.workerId < s.coord.running.length := by
    rw [h.length]
    exact h.known _ (beating_eq_true.mpr (List.mem_append_left _ hmine))
  have hrun := s.coord.running_stopRunning b
  refine ⟨?_, ?_, hperm.nodup_iff.mpr h.once, ?_⟩
  · change (s.coord.stopRunning b).running.length = _
    rw [hrun, ← h.length]
    split <;> simp
  · intro w
    change (s.coord.stopRunning b).running[w]? = _ ↔ _
    rw [hrun, List.mem_append, ← h.stopped, List.mem_singleton]
    by_cases hkept : b.array = s.coord.array
    · rw [if_pos hkept, List.getElem?_set]
      by_cases hw : b.workerId = w
      · simp [hw, hkept, hw ▸ hlt]
      · simp [hw, Ne.symm hw]
    · simp [hkept]
  · intro v hv
    exact h.known v (beating_eq_true.mpr (hperm.mem_iff.mp (beating_eq_true.mp hv)))

theorem Told.step {act : JobAction} (h : Told s) (hs : s.step spec act = some t) : Told t := by
  cases step_cases hs with
  | registerWorker => exact h.registerWorker _
  | getTask hpc hget =>
      obtain ⟨c, hc, rfl⟩ := CoordSys.getTask_eq_some.mp hget
      exact h.same (Coordinator.running_getTask hc) (by simp) rfl rfl
  | advance => exact h.same rfl (by simp) rfl rfl
  | taskDone hpc hdone hnext hsnap =>
      obtain ⟨c, fs, hc, rfl⟩ := CoordSys.taskDone_eq_some.mp hdone
      exact h.same (Coordinator.running_taskDone hc) (by simp) rfl rfl
  | heartbeat hpc hthere hfree hbeat => exact h.heartbeat hfree (lt_length_of_getElem? hpc) hbeat
  | stopRunning hb => exact h.stopRunning hb
  | @done now c d result hdone =>
      have hrun := s.coord.running_timeoutTasks now
      rw [← (Coordinator.done_cases hdone).1] at hrun
      exact h.same hrun rfl rfl rfl
  | crash => exact h.same rfl (by simp) rfl rfl

theorem told_of_reaches (h : Reaches (step spec) (Job.init spec d₀) s) : Told s :=
  h.invariant Told.init fun _ _ _ _ hs hu ↦ hu.step hs

end Job

/-- Worker 0 does all the work of `twice`. -/
def twiceDone : List JobAction :=
  twiceMapped ++
  [.getTask 0 5] ++ goOn 0 5 ++ [.taskDone 0 (.stored _)]

/-- A third worker registers between what the heartbeat of worker 0 reads and its store. -/
def lostStore : List JobAction :=
  twiceDone ++
  [.heartbeat 0, .registerWorker true, .stopRunning ⟨0, 2⟩, .heartbeat 1, .stopRunning ⟨1, 3⟩,
   .heartbeat 2, .stopRunning ⟨2, 3⟩]

-- everybody was told, and `Done` returns false
example : (run (Job.step twice) (Job.init twice twiceDisk) lostStore).map
    (fun s => (s.coord.phase, s.told, (s.coord.done Disk.os s.disk fun _ => 5).2.2)) =
      some (.shutdown, [(0, true), (1, false), (2, false)], false) := by decide

end GoLabs.MapReduce
