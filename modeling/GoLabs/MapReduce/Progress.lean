import GoLabs.MapReduce.Newcomer

/-!
# A job can always be finished

Workers crash, stall and are timed out, and a report that fails leaves a task behind that nobody
looks at again.  No state that a job can get into is a dead end all the same: one more worker, and
a poll of `Done` that comes late enough, bring every task to its end.  Only the wait of `Done` for
workers that crashed cannot be helped.
-/

open GoLabs.Reasoning

namespace GoLabs.MapReduce

/-- A job over a clean directory whose input files are there and whose map output can be parsed, so
that no worker panics. -/
structure JobSpec.Runnable (spec : JobSpec) (d₀ : Disk) : Prop where
  clean : Job.CleanStart d₀
  nonempty : spec.inputs ≠ []
  reserved : ∀ f ∈ spec.inputs, ¬ Reserved f
  present : ∀ f ∈ spec.inputs, d₀.read f ≠ none
  nReduce : spec.nReduce ≠ 0
  plain : ∀ n, ∀ f ∈ spec.inputs, ∀ content, d₀.read f = some content →
    ∀ kv ∈ spec.mapf n f content, kv.Plain

namespace Job

variable {spec : JobSpec} {d₀ : Disk} {s t : Job} {w : Nat} {grows : Bool}

/-- Worker `w` waits for a task, and nobody else has one that has not timed out. -/
structure Ready (spec : JobSpec) (d₀ : Disk) (w : Nat) (s : Job) : Prop where
  reaches : Reaches (Job.step spec) (Job.init spec d₀) s
  idle : s.workers[w]? = some .idle
  running : s.finished = false
  quiet : ∀ task ∈ s.coord.tasks, task.status ≠ .inProgress

/-- With an idle task in its hands, a worker gets to its report, with all its files there. -/
theorem Ready.goes (h : Ready spec d₀ w s) (hrun : spec.Runnable d₀) {n : Nat} {task : Task}
    (htask : s.coord.tasks[n]? = some task) (hidle : task.status = .idle) :
    ∃ names d, Relation.ReflTransGen (WorkerPc.Goes spec)
        (.begin ⟨task.files, s.coord.nReduce, task.taskType, n⟩, s.disk) (.reporting n names, d) ∧
      ∀ f ∈ names, d.read f ≠ none := by
  have hw := wired_of_reaches h.reaches
  have hm := mapInv_of_reaches hrun.clean h.reaches
  have hmem := List.mem_of_getElem? htask
  have hfits := hw.accounting.rows.fits task hmem
  have hmade : ∀ {pc : WorkerPc} {names : List GoString} {d : Disk}, pc.createdNames = [] →
      Relation.ReflTransGen (WorkerPc.Goes spec) (pc, s.disk) (.reporting n names, d) →
      ∀ f ∈ names, d.read f ≠ none := by
    intro pc names d hnil hgoes
    refine WorkerPc.Made.all (a := (pc, s.disk)) ?_ hgoes
    intro f hf
    simp [hnil] at hf
  obtain ⟨i, ho, hbegin⟩ | ⟨r, ho, hbegin⟩ := begin_cases n s.coord.nReduce hfits
  · -- an input with a task left to do: the map phase is on, and the inputs are untouched
    have hcreated : s.coord.created = [] := by
      by_contra hne
      obtain hst | hc := hw.accounting.input_settled hne hmem ho
      · simp [hidle] at hst
      · have hcompleted := hw.accounting.rows.committed task hmem hc
        simp [hidle] at hcompleted
    rw [Task.Fits, ho] at hfits
    obtain ⟨-, file, hfile, hfiles⟩ := hfits
    have hin := List.mem_of_getElem? hfile
    have hread : ∀ f ∈ task.files, s.disk.read f ≠ none := by
      rw [hfiles, List.forall_mem_singleton, hm.inputs hcreated file (hrun.reserved file hin)]
      exact hrun.present file hin
    have hn : s.coord.nReduce ≠ 0 := by
      rw [hw.nReduce]
      exact hrun.nReduce
    rw [hbegin]
    obtain ⟨names, d, hgoes⟩ := WorkerPc.goes_mapping (n := n) spec hn [] ∅ hread
    exact ⟨names, d, hgoes, hmade rfl hgoes⟩
  · have hparses := (snapInv_of_reaches hrun.clean h.reaches).parses hw h.running hrun.reserved
      hrun.plain hmem ho
    rw [hbegin]
    obtain ⟨names, d, hgoes⟩ := WorkerPc.goes_reading (n := n) (r := r) spec ∅ hparses
    exact ⟨names, d, hgoes, hmade rfl hgoes⟩

/-- Worker `w` does one task. -/
theorem Ready.works (h : Ready spec d₀ w s) (hrun : spec.Runnable d₀)
    (hidle : ∃ task ∈ s.coord.tasks, task.status = .idle) :
    ∃ t, Reaches (restrict (Job.step spec) (newcomer w grows)) s t ∧ Ready spec d₀ w t ∧
      t.workers = s.workers ∧ (s.coord.created = [] ∧ t.coord.created ≠ [] ∨
        t.coord.created = s.coord.created ∧ t.coord.tasks.countP (·.status = .idle) <
          s.coord.tasks.countP (·.status = .idle)) := by
  have hlt := lt_length_of_getElem? h.idle
  -- it asks for a task,
  obtain ⟨n, task, workers, htask, hs, hlen, hget⟩ := Coordinator.getTask_found
    (by rw [told_length h.reaches]; exact hlt) hidle 0
  obtain ⟨names, d, hgoes, hmade⟩ := h.goes hrun htask hs
  obtain ⟨s₁, hask, htasks₁, hcreated₁, hdisk₁, hworkers₁, hfinished₁⟩ :
      ∃ s₁, s.step spec (.getTask w 0) = some s₁ ∧ s₁.coord.tasks = s.coord.tasks.set n
          { task with status := .inProgress, startTime := 0 } ∧
        s₁.coord.created = s.coord.created ∧ s₁.disk = s.disk ∧ s₁.workers = s.workers.set w
          (.begin ⟨task.files, s.coord.nReduce, task.taskType, n⟩) ∧ s₁.finished = s.finished :=
    ⟨_, step_getTask h.idle (CoordSys.getTask_eq_some.mpr ⟨_, hget, rfl⟩), rfl, rfl, rfl, rfl, rfl⟩
  have hask' : newcomer w grows s (.getTask w 0) = true := decide_eq_true rfl
  have hreach₁ := (Reaches.refl s).snoc (restrict_eq_some.mpr ⟨hask', hask⟩)
  -- works on it,
  have hpc₁ := List.getElem?_set_self
    (a := WorkerPc.begin ⟨task.files, s.coord.nReduce, task.taskType, n⟩) hlt
  rw [← hworkers₁] at hpc₁
  obtain ⟨s₂, hreach₂, hsys₂, hworkers₂, hfinished₂⟩ := advances hpc₁ (hdisk₁.symm ▸ hgoes)
  have hall₂ := h.reaches.trans (hreach₁.trans hreach₂).of_restrict
  rw [hworkers₁, List.set_set] at hworkers₂
  have hpc₂ : s₂.workers[w]? = some (.reporting n names) := by
    rw [hworkers₂]
    exact List.getElem?_set_self hlt
  have hcoord₂ : s₂.coord = s₁.coord := by rw [Job.coord, hsys₂, Job.coord]
  have htask₂ : s₂.coord.tasks[n]? = some { task with status := .inProgress, startTime := 0 } := by
    rw [hcoord₂, htasks₁]
    exact List.getElem?_set_self (lt_length_of_getElem? htask)
  have hdisk₂ : s₂.disk = d := by rw [Job.disk, hsys₂]
  -- and reports it
  obtain ⟨c, e, new, hdone, hcworkers, htasks, hnew, hcreated⟩ := commits
    (wired_of_reaches hall₂) (mapInv_of_reaches hrun.clean hall₂) hpc₂ htask₂ rfl
    (by rw [hdisk₂]; exact hmade)
  have hreport : s₂.step spec (.taskDone w (.stored _)) = some _ := step_taskDone hpc₂
    (CoordSys.taskDone_eq_some.mpr ⟨_, _, hdone.call, rfl⟩)
  have hreport' : newcomer w grows s₂ (.taskDone w (.stored _)) = true := decide_eq_true rfl
  have hreach₃ := (hreach₁.trans hreach₂).snoc (restrict_eq_some.mpr ⟨hreport', hreport⟩)
  have hrows : c.tasks = s.coord.tasks.set n
      { task with status := .completed, startTime := 0, committed := true } ++ new := by
    rw [htasks, Coordinator.complete, hcoord₂, htasks₁, List.set_set]
  rw [hcoord₂, hcreated₁] at hcreated
  refine ⟨_, hreach₃, ⟨h.reaches.trans hreach₃.of_restrict, ?_, ?_, ?_⟩, ?_, ?_⟩
  · simp only [hworkers₂, List.set_set, if_true]
    exact List.getElem?_set_self hlt
  · dsimp only
    rw [hfinished₂, hfinished₁]
    exact h.running
  · change ∀ task ∈ c.tasks, _
    rw [hrows]
    refine List.forall_mem_append.mpr ⟨forall_mem_set h.quiet (by simp), ?_⟩
    intro x hx
    simp [hnew x hx]
  · simp only [hworkers₂, List.set_set, if_true]
    simpa using map_set_eq id h.idle rfl
  · obtain ⟨hnil, hkeep⟩ | hfirst := hcreated
    · refine .inr ⟨hkeep, ?_⟩
      change c.tasks.countP _ < _
      have hcount := countP_set_add (fun task : Task => decide (task.status = .idle)) htask
        { task with status := .completed, startTime := 0, committed := true }
      simp only [hs, decide_true, if_true, reduceCtorEq, decide_false, Bool.false_eq_true,
        if_false] at hcount
      rw [hrows, hnil, List.append_nil]
      omega
    · exact .inl hfirst

/-- Worker `w` does one task after the other until none is left. -/
theorem Ready.works_off {s : Job} (h : Ready spec d₀ w s) (hrun : spec.Runnable d₀) :
    ∃ t, Reaches (restrict (Job.step spec) (newcomer w grows)) s t ∧ Ready spec d₀ w t ∧
      t.workers = s.workers ∧ ∀ task ∈ t.coord.tasks, task.status ≠ .idle := by
  by_cases hidle : ∃ task ∈ s.coord.tasks, task.status = .idle
  · obtain ⟨t, hreach, hready, hworkers, hless⟩ := h.works hrun hidle
    obtain ⟨u, hreach', hready', hworkers', hnone⟩ := hready.works_off hrun
    exact ⟨u, hreach.trans hreach', hready', hworkers'.trans hworkers, hnone⟩
  · exact ⟨s, Reaches.refl s, h, rfl, fun task htask hs ↦ hidle ⟨task, htask, hs⟩⟩
termination_by (if s.coord.created = [] then 1 else 0, s.coord.tasks.countP (·.status = .idle))
decreasing_by
  -- either the reduce tasks have been created, or there is one idle task less
  obtain ⟨hnil, hne⟩ | ⟨hsame, hlt⟩ := hless
  · rw [if_pos hnil, if_neg hne]
    exact Prod.Lex.left _ _ (by omega)
  · rw [hsame]
    exact Prod.Lex.right _ hlt

/-- With no task left the map phase is over. -/
theorem Over.phase (h : s.Over) (hrun : spec.Runnable d₀)
    (hreach : Reaches (Job.step spec) (Job.init spec d₀) s) : s.coord.phase ≠ .map := by
  have hacc := (wired_of_reaches hreach).accounting
  have hphased := phased_of_reaches hrun.clean hreach
  apply hphased.phase
  intro hnil
  -- before `createReduceTasks` some map task has yet to commit
  have hpos := hacc.mapping hnil hrun.nonempty
  rw [hacc.numMap] at hpos
  obtain ⟨task, htask, hpending⟩ := List.countP_pos_iff.mp (by exact_mod_cast hpos)
  simp only [Task.pending, decide_eq_true_eq] at hpending
  obtain ⟨htype, hst, hc⟩ := hpending
  obtain ⟨hidle, hp⟩ := h task htask
  rw [hacc.rows.typed htask] at htype
  cases ho : task.origin with
  | partition r => simp [ho, Origin.taskType] at htype
  | input i =>
      have hended := hphased.ended task htask i ho (by cases hs : task.status <;> simp_all)
      simp [hended] at hc

/-- A new worker brings every task to its end. -/
theorem comes_to_end (hrun : spec.Runnable d₀)
    (h : Reaches (Job.step spec) (Job.init spec d₀) s) (grows : Bool) :
    ∃ t, Reaches (restrict (Job.step spec) (newcomer s.workers.length grows)) s t ∧
      t.workers = s.workers ++ [.idle] ∧ t.Over := by
  obtain ⟨s₁, hregister, hworkers₁, hfinished₁, htasks₁⟩ :
      ∃ s₁, s.step spec (.registerWorker grows) = some s₁ ∧ s₁.workers = s.workers ++ [.idle] ∧
        s₁.finished = s.finished ∧ s₁.coord.tasks = s.coord.tasks := ⟨_, rfl, rfl, rfl, rfl⟩
  have hguard : newcomer s.workers.length grows s (.registerWorker grows) = true :=
    decide_eq_true ⟨rfl, rfl⟩
  have hreach₁ := (Reaches.refl s).snoc (restrict_eq_some.mpr ⟨hguard, hregister⟩)
  -- then a poll of `Done` that comes late
  let now : Nat → Int := fun i =>
    (s₁.coord.tasks[i]?.map Task.startTime).getD 0 + s₁.coord.timeoutSecs + 1
  obtain ⟨s₂, hpoll, hworkers₂, htasks₂⟩ :
      ∃ s₂, s₁.step spec (.done now) = some s₂ ∧ s₂.workers = s₁.workers ∧
        s₂.coord.tasks = (s₁.coord.timeoutTasks now).tasks := by
    refine ⟨_, rfl, rfl, ?_⟩
    change (s₁.coord.done Disk.os s₁.disk now).1.tasks = _
    rw [Coordinator.done_coord]
  have hguard' : newcomer s.workers.length grows s₁ (.done now) = true := rfl
  have hreach₂ := hreach₁.snoc (restrict_eq_some.mpr ⟨hguard', hpoll⟩)
  have hall₂ := h.trans hreach₂.of_restrict
  cases hfin : s₂.finished with
  | true =>
      exact ⟨s₂, hreach₂, hworkers₂.trans hworkers₁,
        (phased_of_reaches hrun.clean hall₂).settled hfin⟩
  | false =>
      have hready : Ready spec d₀ s.workers.length s₂ := by
        refine ⟨hall₂, ?_, hfin, ?_⟩
        · rw [hworkers₂, hworkers₁]
          simp
        · rw [htasks₂]
          refine Coordinator.timeoutTasks_late ?_
          intro i task hi
          simp only [now, hi, Option.map_some, Option.getD_some]
          omega
      obtain ⟨t, hreach, hready', hworkers, hnone⟩ := hready.works_off hrun
      refine ⟨t, hreach₂.trans hreach, ?_,
        fun task htask ↦ ⟨hnone task htask, hready'.quiet task htask⟩⟩
      rw [hworkers, hworkers₂, hworkers₁]

/-! ## The end -/

/-- A worker that counts as stopped stays so. -/
theorem running_of_step {act : JobAction} {v : Nat} (hs : s.step spec act = some t)
    (h : s.coord.running[v]? = some false) : t.coord.running[v]? = some false := by
  cases step_cases hs with
  | @registerWorker grows =>
      change (s.coord.registerWorker grows).1.running[v]? = _
      rw [Coordinator.running_registerWorker]
      exact getElem?_append_of_some h _
  | getTask hpc hget =>
      obtain ⟨c, hc, rfl⟩ := CoordSys.getTask_eq_some.mp hget
      exact (Coordinator.running_getTask hc).symm ▸ h
  | advance hpc hadv hun => exact h
  | taskDone hpc hdone hnext hsnap =>
      obtain ⟨c, fs, hc, rfl⟩ := CoordSys.taskDone_eq_some.mp hdone
      exact (Coordinator.running_taskDone hc).symm ▸ h
  | heartbeat => exact h
  | @stopRunning b hb =>
      change (s.coord.stopRunning b).running[v]? = _
      rw [Coordinator.running_stopRunning]
      split
      · rw [List.getElem?_set]
        split
        · simp_all [lt_length_of_getElem? h]
        · exact h
      · exact h
  | @done now c e result hdone =>
      change c.running[v]? = _
      rw [(Coordinator.done_cases hdone).1, Coordinator.running_timeoutTasks]
      exact h
  | crash => exact h

theorem running_of_reaches {v : Nat} (hreach : Reaches (Job.step spec) s t)
    (h : s.coord.running[v]? = some false) : t.coord.running[v]? = some false :=
  hreach.invariant h fun _ _ _ _ hs hu ↦ running_of_step hs hu

/-- The heartbeats are left alone while the newcomer works. -/
theorem beating_of_newcomer (hreach : Reaches (restrict (Job.step spec) (newcomer w grows)) s t) :
    t.beating = s.beating := by
  have hkeep : t.sys.beats = s.sys.beats ∧ t.told = s.told := by
    refine hreach.invariant (I := fun u => u.sys.beats = s.sys.beats ∧ u.told = s.told)
      ⟨rfl, rfl⟩ ?_
    intro u act v _ hs hu
    obtain ⟨hguard, hs⟩ := restrict_eq_some.mp hs
    cases step_cases hs with
    | registerWorker | advance | done => exact hu
    | getTask hpc hget =>
        obtain ⟨c, -, rfl⟩ := CoordSys.getTask_eq_some.mp hget
        exact hu
    | taskDone hpc hdone hnext hsnap =>
        obtain ⟨c, fs, -, rfl⟩ := CoordSys.taskDone_eq_some.mp hdone
        exact hu
    | heartbeat | stopRunning | crash => cases hguard
  funext v
  unfold beating
  rw [hkeep.1, hkeep.2]

/-- Whether the coordinator knows that the worker has stopped, or can still get to know it: its next
heartbeat is yet to come. -/
def Tellable (s : Job) (v : Nat) : Prop :=
  s.coord.running[v]? = some false ∨ s.workers[v]? ≠ some .gone ∧ s.beating v = false

/-- In `phaseShutdown` a heartbeat of a worker that is still there is answered with the order. -/
theorem tells (hreach : Reaches (Job.step spec) (Job.init spec d₀) s)
    (hphase : s.coord.phase = .shutdown) {v : Nat} (hlt : v < s.workers.length)
    (htell : s.Tellable v) :
    ∃ t, Reaches (Job.step spec) s t ∧ t.workers = s.workers ∧ t.coord.phase = .shutdown ∧
      t.coord.running[v]? = some false ∧ ∀ u ≠ v, s.Tellable u → t.Tellable u := by
  obtain hstopped | ⟨hthere, hfree⟩ := htell
  · exact ⟨s, Reaches.refl s, rfl, hphase, hstopped, fun _ _ hu ↦ hu⟩
  have hpc := List.getElem?_eq_getElem hlt
  have hnew : (⟨v, s.coord.array⟩ : Beat) ∉ s.sys.beats := by
    intro hmem
    have hbeating : s.beating v = true :=
      beating_eq_true.mpr (List.mem_append_left _ (List.mem_map_of_mem (f := Beat.workerId) hmem))
    rw [hfree] at hbeating
    cases hbeating
  have hbeat : s.coord.heartbeat v = some (some ⟨v, s.coord.array⟩) :=
    Coordinator.heartbeat_eq_some.mpr ⟨hphase, by rw [told_length hreach]; exact hlt, rfl⟩
  have hread : s.step spec (.heartbeat v) = some _ :=
    step_heartbeat hpc (fun hgone ↦ hthere (hgone ▸ hpc)) hfree hbeat
  have hstore : Job.step spec { s with sys := s.sys.beat (some ⟨v, s.coord.array⟩) }
      (.stopRunning ⟨v, s.coord.array⟩) = some _ :=
    step_stopRunning (List.mem_append_right _ (List.mem_singleton.mpr rfl))
  have hboth := ((Reaches.refl s).snoc hread).snoc hstore
  refine ⟨_, hboth, rfl, (CoordSys.phase_stopRunning _ _).trans hphase, ?_, ?_⟩
  · change (s.coord.stopRunning _).running[v]? = _
    rw [Coordinator.running_stopRunning, if_pos rfl]
    exact List.getElem?_set_self (by rw [(told_of_reaches hreach).length]; exact hlt)
  · rintro u hne (hstopped | ⟨hthere', hfree'⟩)
    · exact .inl (running_of_reaches hboth hstopped)
    · refine .inr ⟨hthere', ?_⟩
      -- the beat has come and gone
      rw [← Bool.not_eq_true, beating_eq_true] at hfree' ⊢
      change u ∉ ((s.sys.beats ++ [(⟨v, s.coord.array⟩ : Beat)]).erase ⟨v, s.coord.array⟩).map
          Beat.workerId ++
        (s.told ++ [(v, s.coord.array != s.coord.array)]).map Prod.fst
      rw [List.erase_append_right _ hnew, List.erase_cons_head, List.append_nil, List.map_append,
        ← List.append_assoc, List.mem_append, not_or]
      exact ⟨hfree', by simpa using hne⟩

/-- All workers can be told. -/
theorem tells_all (hreach : Reaches (Job.step spec) (Job.init spec d₀) s)
    (hphase : s.coord.phase = .shutdown) (htell : ∀ v < s.workers.length, s.Tellable v)
    (vs : List Nat) :
    ∃ t, Reaches (Job.step spec) s t ∧ t.workers = s.workers ∧ t.coord.phase = .shutdown ∧
      (∀ v < s.workers.length, t.Tellable v) ∧
      ∀ v ∈ vs, v < s.workers.length → t.coord.running[v]? = some false := by
  induction vs with
  | nil => exact ⟨s, Reaches.refl s, rfl, hphase, htell, List.forall_mem_nil _⟩
  | cons v vs ih =>
      obtain ⟨t, hst, hworkers, hphase', htell', htold⟩ := ih
      by_cases hlt : v < s.workers.length
      · obtain ⟨u, htu, hworkers', hphase'', hv, hothers⟩ :=
          tells (hreach.trans hst) hphase' (by rw [hworkers]; exact hlt) (htell' v hlt)
        refine ⟨u, hst.trans htu, hworkers'.trans hworkers, hphase'', ?_,
          List.forall_mem_cons.mpr ⟨fun _ ↦ hv, ?_⟩⟩
        · intro v' hlt'
          by_cases hne : v' = v
          · exact .inl (hne ▸ hv)
          · exact hothers v' hne (htell' v' hlt')
        · exact fun v' hv' hlt' ↦ running_of_reaches htu (htold v' hv' hlt')
      · exact ⟨t, hst, hworkers, hphase', htell',
          List.forall_mem_cons.mpr ⟨fun habs ↦ absurd habs hlt, htold⟩⟩

/-- When no task is left and no worker is missing, `Done` can return true. -/
theorem Over.finishes (h : s.Over) (hreach : Reaches (Job.step spec) (Job.init spec d₀) s)
    (hphase : s.coord.phase ≠ .map) (htell : ∀ v < s.workers.length, s.Tellable v) :
    ∃ t, Reaches (Job.step spec) s t ∧ t.finished = true := by
  have hdone : ∀ {u : Job}, Reaches (Job.step spec) s u →
      (u.coord.done Disk.os u.disk fun _ => 0).2.2 = true →
      ∃ t, Reaches (Job.step spec) s t ∧ t.finished = true := by
    intro u hu hresult
    refine ⟨_, hu.snoc (a := .done fun _ => 0) rfl, ?_⟩
    dsimp only
    rw [hresult, Bool.or_true]
  cases hp : s.coord.phase with
  | map => exact absurd hp hphase
  | reduce =>
      refine hdone (Reaches.refl s) ?_
      have hsettled : s.coord.settled = true := by
        rw [Coordinator.settled, hp, List.all_eq_true]
        intro task htask
        simp [h task htask]
      have hquiet := Coordinator.timeoutTasks_quiet (c := s.coord) fun task htask ↦ (h task htask).2
      unfold Coordinator.done
      dsimp only
      rw [hquiet, if_pos hsettled]
  | shutdown =>
      obtain ⟨t, hst, hworkers, hphase', -, htold⟩ :=
        tells_all hreach hp htell (List.range s.workers.length)
      refine hdone hst ?_
      rw [Coordinator.done_shutdown hphase', List.all_eq_true]
      intro b hb
      obtain ⟨v, hv⟩ := List.mem_iff_getElem?.mp hb
      have hlt : v < s.workers.length := by
        have hlen := told_length (hreach.trans hst)
        have hlt' := lt_length_of_getElem? hv
        rw [hworkers] at hlen
        simpa [Coordinator.running, hlen] using hlt'
      rw [htold v (List.mem_range.mpr hlt) hlt, Option.some.injEq] at hv
      simp [← hv]

end Job

/-- From every state that a job can get into, whoever has crashed or stalled and whatever has been
timed out or has failed to report, one more worker and the polls of `Done` bring every task to its
end.  If every worker counts as stopped, or is still there and has no heartbeat that waits to store
or was answered with the order to shut down, `Done` can return true. -/
theorem job_can_finish {spec : JobSpec} {d₀ : Disk} (hrun : spec.Runnable d₀) {s : Job}
    (h : Reaches (Job.step spec) (Job.init spec d₀) s) (grows : Bool) :
    ∃ t, Reaches (restrict (Job.step spec) (Job.newcomer s.workers.length grows)) s t ∧
      t.coord.phase ≠ .map ∧
      (∀ task ∈ t.coord.tasks, task.status ≠ .idle ∧ task.status ≠ .inProgress) ∧
      ((∀ v < s.workers.length, s.coord.running[v]? = some false ∨
          s.workers[v]? ≠ some .gone ∧ s.beating v = false) →
        ∃ u, Reaches (Job.step spec) t u ∧ u.finished = true) := by
  obtain ⟨t, hreach, hworkers, hover⟩ := Job.comes_to_end hrun h grows
  have hall := h.trans hreach.of_restrict
  have hphase := hover.phase hrun hall
  refine ⟨t, hreach, hphase, hover, fun htell ↦ hover.finishes hall hphase ?_⟩
  intro v hv
  have hbeating := congrFun (Job.beating_of_newcomer hreach) v
  by_cases hold : v < s.workers.length
  · obtain hstopped | ⟨hthere, hfree⟩ := htell v hold
    · exact .inl (Job.running_of_reaches hreach.of_restrict hstopped)
    · refine .inr ⟨?_, hbeating.trans hfree⟩
      rw [hworkers, List.getElem?_append_left hold]
      exact hthere
  · -- the newcomer, whose heartbeats are all to come
    have hlast : v = s.workers.length := by
      rw [hworkers, List.length_append, List.length_singleton] at hv
      omega
    subst hlast
    refine .inr ⟨by simp [hworkers], ?_⟩
    rw [hbeating, ← Bool.not_eq_true]
    exact fun hnew ↦ hold ((Job.told_of_reaches h).known _ hnew)

theorem twice_runnable : twice.Runnable twiceDisk := by
  refine ⟨twiceDisk_clean, by decide, ?_, by decide, by decide, ?_⟩
  · unfold Reserved
    decide
  · intro n f hf content hcontent kv hkv
    obtain rfl := List.mem_singleton.mp hf
    obtain rfl : lit "x" = content := Option.some.inj hcontent
    revert kv
    change ∀ kv ∈ [(⟨lit "x", lit "1"⟩ : KeyValue), ⟨lit "x", lit "2"⟩], kv.Plain
    decide

/-- The only worker stalls with its file open for the second of its two writes. -/
def stalledMapper : List JobAction :=
  [.registerWorker true, .getTask 0 0] ++ goOn 0 4

theorem stalledMapper_runs :
    (run (Job.step twice) (Job.init twice twiceDisk) stalledMapper).isSome = true := by decide

theorem job_can_finish_stalledMapper :
    ∃ s, run (Job.step twice) (Job.init twice twiceDisk) stalledMapper = some s ∧
      ∃ t u, Reaches (restrict (Job.step twice) (Job.newcomer 1 true)) s t ∧ t.coord.phase ≠ .map ∧
        Reaches (Job.step twice) t u ∧ u.finished = true := by
  obtain ⟨t, hreach, hphase, -, hend⟩ := job_can_finish twice_runnable
    (reaches_get stalledMapper_runs) true
  have hworkers : ((run (Job.step twice) (Job.init twice twiceDisk) stalledMapper).get
    stalledMapper_runs).workers.length = 1 := by decide
  rw [hworkers] at hreach hend
  obtain ⟨u, hu, hfinished⟩ := hend (by decide)
  exact ⟨_, (Option.some_get stalledMapper_runs).symm, t, u, hreach, hphase, hu, hfinished⟩

end GoLabs.MapReduce
