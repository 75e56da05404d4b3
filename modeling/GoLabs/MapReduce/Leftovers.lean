import GoLabs.MapReduce.ReduceOutput
import GoLabs.MapReduce.Schedule
import GoLabs.MapReduce.TwoRuns

/-!
# Files left behind by an earlier job

The task ids of a job start at 0, its workers open their files to append, and `createReduceTasks`
takes every `m-out-*-*` file it finds.  So a file that a crashed worker or coordinator left behind
can get into the output of the next job.  The output is the same as without the leftovers as long as
no worker opens one and none is still there when `createReduceTasks` lists the directory.
-/

open GoLabs.Reasoning

namespace GoLabs.MapReduce

/-! ## What a job makes of its directory -/

/-- A reduce task: its files, and the pairs that were in them when `createReduceTasks` ran. -/
structure ReduceInput where
  reduceId : GoString
  files : List GoString
  pairs : Option (List (GoString × GoString))
  deriving DecidableEq, Repr

namespace Job

variable {B : GoString → Prop} {s s' : Job}

def reduceInputs (s : Job) : List ReduceInput :=
  s.coord.tasks.filterMap fun task =>
    match task.origin with
    | .partition r => some ⟨r, task.files, s.snapshot.bind (parseFiles · task.files)⟩
    | .input _ => none

theorem Twin.reduceInputs (h : Twin B s s') (hk : Known B s) :
    s.reduceInputs = s'.reduceInputs := by
  have htasks : s'.coord.tasks = s.coord.tasks := by rw [h.same]; rfl
  unfold Job.reduceInputs
  rw [htasks]
  apply List.filterMap_congr
  intro task htask
  cases ho : task.origin with
  | input i => rfl
  | partition r =>
      have hpairs : s.snapshot.bind (parseFiles · task.files) =
          s'.snapshot.bind (parseFiles · task.files) := by
        have hsnaps := h.snapshots
        -- the snapshots agree on the listed files, and a reduce task has no others
        generalize s.snapshot = snap, s'.snapshot = snap' at hsnaps
        cases hsnaps with
        | none => rfl
        | some hlisted =>
            exact parseFiles_congr fun f hf ↦ hlisted f (hk.listed task htask r ho f hf)
      dsimp only
      rw [hpairs]

end Job

/-! ## Leftovers -/

/-- What a crashed worker or coordinator leaves behind. -/
def leftoverPatterns : List GoString := [lit "tempm-out-*", lit "tempmr-out-*", lit "m-out-*-*"]

def Leftover (name : GoString) : Prop :=
  ∃ pattern ∈ leftoverPatterns, globMatch pattern name = true

/-- The two directories have the same file under this name, or none. -/
def Common (d₁ d₂ : Disk) (name : GoString) : Prop := d₁.read name = d₂.read name

instance (d₁ d₂ : Disk) (name : GoString) : Decidable (Common d₁ d₂ name) :=
  inferInstanceAs (Decidable (d₁.read name = d₂.read name))

instance (d₁ d₂ d : Disk) (name : GoString) : Decidable (Shared (Common d₁ d₂) d name) :=
  inferInstanceAs (Decidable (_ ∨ _))

/-- Directories for one job that differ in leftovers only; the job has not opened or renamed a file
yet. -/
structure SameButLeftovers (spec : JobSpec) (d₁ d₂ : Disk) : Prop where
  inputs : ∀ file ∈ spec.inputs, Common d₁ d₂ file
  others : ∀ name, ¬ Leftover name → Common d₁ d₂ name
  start : d₁.renames = []
  opened : d₁.opened = [] ∧ d₂.opened = []

theorem reduceFileName_not_leftover (r : GoString) : ¬ Leftover (reduceFileName r) := by
  have hstart : ∀ {u : GoString}, 42 ∉ u → globMatch (u ++ [42]) (reduceFileName r) = true →
      u <+: reduceFileName r := by
    intro u hu hmatch
    obtain ⟨rest, heq, -⟩ := (globMatch_append hu _ _).mp hmatch
    exact ⟨rest, heq.symm⟩
  have htemp : ∀ {u : GoString}, lit "temp" <+: u → ¬ u <+: reduceFileName r :=
    fun hu hpre ↦ reduceFileName_not_temp r (hu.trans hpre)
  intro hleft
  obtain ⟨pattern, hpattern, hmatch⟩ := hleft
  simp only [leftoverPatterns, List.mem_cons, List.not_mem_nil, or_false] at hpattern
  obtain rfl | rfl | rfl := hpattern
  · exact htemp (by decide) (hstart (u := lit "tempm-out-") (by decide) hmatch)
  · exact htemp (by decide) (hstart (u := lit "tempmr-out-") (by decide) hmatch)
  · exact reduceFileName_not_map r (glob_starts hmatch)

/-- Every `m-out-*-*` file in which the directories differed has been replaced by a file of this
job. -/
def Replaced (d₁ d₂ d : Disk) : Prop :=
  ∀ name ∈ d₁.files.keys ++ d₂.files.keys, globMatch (lit "m-out-*-*") name = true →
    Shared (Common d₁ d₂) d name

instance (d₁ d₂ d : Disk) : Decidable (Replaced d₁ d₂ d) :=
  inferInstanceAs (Decidable (∀ name ∈ _, _))

theorem Replaced.shared {d₁ d₂ d : Disk} (h : Replaced d₁ d₂ d) {name : GoString}
    (hname : globMatch (lit "m-out-*-*") name = true) : Shared (Common d₁ d₂) d name := by
  by_cases hmem : name ∈ d₁.files.keys ++ d₂.files.keys
  · exact h name hmem hname
  · rw [List.mem_append, not_or] at hmem
    have h₁ : d₁.read name = none := AList.lookup_eq_none.mpr hmem.1
    have h₂ : d₂.read name = none := AList.lookup_eq_none.mpr hmem.2
    exact .inl (h₁.trans h₂.symm)

namespace Job

/-- Whether the action keeps the leftovers out of the job: a worker opens a file only if the
directories started with the same one, and `createReduceTasks` lists the directory only when all
`m-out-*-*` files in which they differed have been replaced. -/
def unmixed (spec : JobSpec) (d₁ d₂ : Disk) (s : Job) : JobAction → Bool
  | .advance w _ =>
      match (s.workers[w]?).bind WorkerPc.target with
      | some name => Common d₁ d₂ name
      | none => true
  | .taskDone w it =>
      match s.step spec (.taskDone w it) with
      | some t => t.coord.created = s.coord.created ∨ Replaced d₁ d₂ t.disk
      | none => true
  | _ => true

variable {spec : JobSpec} {d₁ d₂ : Disk} {s t : Job}

theorem clear_of_unmixed {act : JobAction} (hs : s.step spec act = some t)
    (h : s.unmixed spec d₁ d₂ act = true) : Clear (Common d₁ d₂) s act t := by
  refine ⟨?_, ?_⟩
  · rintro w it pc f rfl hpc htarget
    simp only [unmixed, hpc, Option.bind_some, htarget, decide_eq_true_eq] at h
    exact .inl h
  · -- only a report of `TaskDone` makes reduce tasks
    intro hcreated name hname
    have hstep := hs
    cases step_cases hs with
    | registerWorker => exact absurd rfl hcreated
    | getTask hpc hget => exact absurd (CoordSys.created_getTask hget) hcreated
    | advance hpc hadv hun => exact absurd rfl hcreated
    | taskDone hpc hdone hnext hsnap =>
        simp only [unmixed, hstep, decide_eq_true_eq] at h
        obtain hsame | hreplaced := h
        · exact absurd hsame hcreated
        · exact hreplaced.shared hname
    | heartbeat => exact absurd rfl hcreated
    | stopRunning => exact absurd (s.sys.created_stopRunning _) hcreated
    | @done now c d result hdone =>
        obtain ⟨tasks, heq⟩ := s.coord.timeoutTasks_eq now
        have hkeep : c.created = s.coord.created := by rw [(Coordinator.done_cases hdone).1, heq]
        exact absurd hkeep hcreated
    | crash => exact absurd rfl hcreated

theorem known_init (h : SameButLeftovers spec d₁ d₂) :
    Known (Common d₁ d₂) (Job.init spec d₁) := by
  refine ⟨?_, ?_, by simp [Job.init]⟩
  · intro task htask f hf
    obtain ⟨i, file, hfile, rfl⟩ := CoordSys.mem_createMapTasks htask
    rw [List.mem_singleton.mp hf]
    exact .inl (h.inputs file (List.mem_of_getElem? hfile))
  · intro task htask r ho
    obtain ⟨i, file, -, rfl⟩ := CoordSys.mem_createMapTasks htask
    simp at ho

theorem twin_init (h : SameButLeftovers spec d₁ d₂) :
    Twin (Common d₁ d₂) (Job.init spec d₁) (Job.init spec d₂) := by
  refine ⟨rfl, ⟨?_, h.opened.1.trans h.opened.2.symm, ?_⟩, .none⟩
  · intro name hname
    obtain hcommon | hrenamed := hname
    · exact hcommon
    · change name ∈ d₁.renames.map Prod.snd at hrenamed
      rw [h.start] at hrenamed
      simp at hrenamed
  · intro name hname
    change some name ∈ d₁.opened at hname
    rw [h.opened.1] at hname
    cases hname

/-- The two runs of one schedule stay together. -/
theorem twin_of_run {as : List JobAction} (hdirs : SameButLeftovers spec d₁ d₂)
    (hrun : run (restrict (step spec) (unmixed spec d₁ d₂)) (Job.init spec d₁) as = some t) :
    ∃ t', run (step spec) (Job.init spec d₂) as = some t' ∧ Known (Common d₁ d₂) t ∧
      Twin (Common d₁ d₂) t t' := by
  rw [← List.filterMap_some (l := as)]
  refine run_simulates (R := fun s s' => Known (Common d₁ d₂) s ∧ Twin (Common d₁ d₂) s s') ?_ ?_
    hrun ⟨known_init hdirs, twin_init hdirs⟩
  · intro s act b u s' hb hR hs
    cases hb
    obtain ⟨hguard, hs⟩ := restrict_eq_some.mp hs
    have hclear := clear_of_unmixed hs hguard
    obtain ⟨u', hu', htwin⟩ := hR.2.step hR.1 hs hclear
    exact ⟨u', hu', hR.1.step hs hclear, htwin⟩
  · intro s act u s' hb
    cases hb

theorem Replaced.of_renames {d e : Disk} (h : Replaced d₁ d₂ d) (heq : e.renames = d.renames) :
    Replaced d₁ d₂ e := by
  intro name hmem hmatch
  apply (h name hmem hmatch).mono
  rw [heq]
  exact fun _ hp ↦ hp

/-- The polls of `Done` have no part in it. -/
theorem unmixed_of_follows {u v : Job} {act b : JobAction} (hb : act.ofWorker = some b)
    (hfollows : Follows s u) (hs : s.step spec act = some t) (hu : u.step spec b = some v)
    (hfollows' : Follows t v) (h : s.unmixed spec d₁ d₂ act = true) :
    u.unmixed spec d₁ d₂ b = true := by
  cases act with
  | advance w it =>
      cases hb
      rw [hfollows.same]
      exact h
  | taskDone w it =>
      cases hb
      have hcreated : ∀ {s u : Job}, Follows s u → u.coord.created = s.coord.created := by
        intro s u hf
        rw [hf.same]
        rfl
      simp only [unmixed, hs, decide_eq_true_eq] at h
      simp only [unmixed, hu, decide_eq_true_eq]
      rw [hcreated hfollows, hcreated hfollows']
      exact h.imp id fun hr ↦ Replaced.of_renames hr hfollows'.renames
  | registerWorker grows => cases hb; rfl
  | getTask w now => cases hb; rfl
  | heartbeat w => cases hb; rfl
  | stopRunning b => cases hb; rfl
  | crash w => cases hb; rfl
  | done now => cases hb

theorem Follows.reduceInputs {u : Job} (h : Follows t u) : u.reduceInputs = t.reduceInputs := by
  rw [h.same]
  change (t.coord.tasks.map Task.untimed).filterMap _ = _
  rw [List.filterMap_map]
  rfl

theorem Follows.read_reduceFile {u : Job} (h : Follows t u) (r : GoString) :
    u.disk.read (reduceFileName r) = t.disk.read (reduceFileName r) := by
  obtain hsame | ⟨-, hread⟩ := h.disk
  · rw [hsame]
  · apply hread
    cases hmatch : globMatch (lit "m-out*") (reduceFileName r) with
    | false => rfl
    | true =>
        have hpre : ¬ lit "m-out" <+: reduceFileName r :=
          prefix_disjoint (u := lit "mr-out-") (by decide) ⟨r, rfl⟩
        exact absurd (delete_pattern hmatch) hpre

end Job

/-- For every input list, map and reduce function, and every two runs in which the workers take the
same steps and no task times out, in directories with the same input files that differ in leftovers
only: if no leftover gets into the first run, then the two have made reduce tasks for the same
pairs, and have the same output files. -/
theorem leftovers_independent {spec : JobSpec} {d₁ d₂ : Disk} {as bs : List JobAction} {t₁ t₂ : Job}
    (hdirs : SameButLeftovers spec d₁ d₂)
    (hsched : as.filterMap JobAction.ofWorker = bs.filterMap JobAction.ofWorker)
    (h₁ : run (restrict (Job.step spec) fun s act =>
      s.noTimeout act && s.unmixed spec d₁ d₂ act) (Job.init spec d₁) as = some t₁)
    (h₂ : run (restrict (Job.step spec) Job.noTimeout) (Job.init spec d₂) bs = some t₂) :
    t₁.reduceInputs = t₂.reduceInputs ∧
      ∀ r, t₁.disk.read (reduceFileName r) = t₂.disk.read (reduceFileName r) := by
  -- each run is reduced to the steps of its workers, and then the two are one schedule
  obtain ⟨u₁, hu₁, hfollows₁⟩ := Job.follows_of_run
    (fun hg ↦ (Bool.and_eq_true_iff.mp hg).1)
    (fun hb hf hs hu hf' hg ↦
      Job.unmixed_of_follows hb hf hs hu hf' (Bool.and_eq_true_iff.mp hg).2) h₁
  obtain ⟨u₂, hu₂, hfollows₂⟩ : ∃ u, run (restrict (Job.step spec) fun _ _ => true)
      (Job.init spec d₂) (bs.filterMap JobAction.ofWorker) = some u ∧ Job.Follows t₂ u :=
    Job.follows_of_run id (fun _ _ _ _ _ _ ↦ rfl) h₂
  obtain ⟨u', hu', hknown, htwin⟩ := Job.twin_of_run hdirs hu₁
  have hsame : u' = u₂ := by
    rw [hsched, run_of_restrict hu₂, Option.some.injEq] at hu'
    exact hu'.symm
  subst hsame
  constructor
  · rw [← hfollows₁.reduceInputs, ← hfollows₂.reduceInputs]
    exact htwin.reduceInputs hknown
  · intro r
    rw [← hfollows₁.read_reduceFile, ← hfollows₂.read_reduceFile]
    exact htwin.disks.read _ (.inl (hdirs.others _ (reduceFileName_not_leftover r)))

/-- The workers of `twice` do their tasks in time; `polls` are calls of `Done` between the two. -/
def onTime (polls : List JobAction) (start : Int) : List JobAction :=
  twiceMapped ++ polls ++
  [.getTask 0 start] ++ goOn 0 5 ++
  [.taskDone 0 (.stored _), .heartbeat 0, .heartbeat 1, .stopRunning ⟨1, 2⟩, .stopRunning ⟨0, 2⟩,
   .done fun _ => start]

/-- Leftovers that do no harm: one that the job replaces, and two with ids it does not use. -/
def harmless : Disk :=
  ((twiceDisk.put (lit "m-out-0-1") (lit "y:::7\n")).put (lit "tempm-out-7-0") (lit "z")).put
    (lit "tempmr-out-0") (lit "z 3\n")

theorem SameButLeftovers.refl {spec : JobSpec} {d : Disk} (h : d.renames = [])
    (h' : d.opened = []) : SameButLeftovers spec d d := ⟨fun _ _ ↦ rfl, fun _ _ ↦ rfl, h, h', h'⟩

theorem SameButLeftovers.put {spec : JobSpec} {d₁ d₂ : Disk} (h : SameButLeftovers spec d₁ d₂)
    {name : GoString} (hleft : Leftover name) (hinput : name ∉ spec.inputs) (text : GoString) :
    SameButLeftovers spec d₁ (d₂.put name text) := by
  have hkeep : ∀ {other : GoString}, other ≠ name → Common d₁ d₂ other →
      Common d₁ (d₂.put name text) other := by
    intro other hne hcommon
    unfold Common
    rw [Disk.read_put, if_neg hne]
    exact hcommon
  refine ⟨?_, ?_, h.start, h.opened⟩
  · intro file hfile
    exact hkeep (fun heq ↦ hinput (heq ▸ hfile)) (h.inputs file hfile)
  · intro other hother
    exact hkeep (fun heq ↦ hother (heq ▸ hleft)) (h.others other hother)

theorem harmless_same : SameButLeftovers twice twiceDisk harmless := by
  have hstart : SameButLeftovers twice twiceDisk twiceDisk := .refl rfl rfl
  refine ((hstart.put ?_ ?_ _).put ?_ ?_ _).put ?_ ?_ _
  · exact ⟨lit "m-out-*-*", by decide, by decide⟩
  · decide
  · exact ⟨lit "tempm-out-*", by decide, by decide⟩
  · decide
  · exact ⟨lit "tempmr-out-*", by decide, by decide⟩
  · decide

theorem onTime_runs : (run (restrict (Job.step twice) fun s act =>
    s.noTimeout act && s.unmixed twice twiceDisk harmless act) (Job.init twice twiceDisk)
    (onTime [] 3)).isSome = true := by decide

theorem onTime_runs_harmless : (run (restrict (Job.step twice) Job.noTimeout)
    (Job.init twice harmless) (onTime [.done fun _ => 5, .done fun _ => 6] 7)).isSome = true := by
  decide

theorem leftovers_independent_onTime :
    ∃ t₁ t₂, run (restrict (Job.step twice) fun s act =>
        s.noTimeout act && s.unmixed twice twiceDisk harmless act) (Job.init twice twiceDisk)
        (onTime [] 3) = some t₁ ∧
      run (restrict (Job.step twice) Job.noTimeout) (Job.init twice harmless)
        (onTime [.done fun _ => 5, .done fun _ => 6] 7) = some t₂ ∧
      t₁.disk.read (lit "mr-out-1") = some (lit "x 2\n") ∧ t₂.finished = true ∧
      t₁.reduceInputs = t₂.reduceInputs ∧
      ∀ r, t₁.disk.read (reduceFileName r) = t₂.disk.read (reduceFileName r) := by
  have hsame := leftovers_independent harmless_same (by rfl) (Option.some_get onTime_runs).symm
    (Option.some_get onTime_runs_harmless).symm
  exact ⟨_, _, (Option.some_get onTime_runs).symm, (Option.some_get onTime_runs_harmless).symm,
    by decide, by decide, hsame⟩

/-- A crashed worker has left an intermediate file of task 0. -/
def leftBehind : Disk := twiceDisk.put (lit "tempm-out-0-1") (lit "x:::9\n")

theorem onTime_runs_clean : (run (restrict (Job.step twice) Job.noTimeout)
    (Job.init twice twiceDisk) (onTime [] 3)).isSome = true := by decide

theorem onTime_runs_leftBehind : (run (restrict (Job.step twice) Job.noTimeout)
    (Job.init twice leftBehind) (onTime [] 3)).isSome = true := by decide

/-- Task 0 of the new job appends to the file, so its reducer counts three values instead of two. -/
theorem leftover_counted : SameButLeftovers twice twiceDisk leftBehind ∧ ∃ t₁ t₂,
    run (restrict (Job.step twice) Job.noTimeout) (Job.init twice twiceDisk) (onTime [] 3) =
      some t₁ ∧
    run (restrict (Job.step twice) Job.noTimeout) (Job.init twice leftBehind) (onTime [] 3) =
      some t₂ ∧
    t₁.finished = true ∧ t₂.finished = true ∧
    t₁.reduceInputs = [⟨lit "1", [lit "m-out-0-1"],
      some [(lit "x", lit "1"), (lit "x", lit "2")]⟩] ∧
    t₂.reduceInputs = [⟨lit "1", [lit "m-out-0-1"],
      some [(lit "x", lit "9"), (lit "x", lit "1"), (lit "x", lit "2")]⟩] ∧
    t₁.disk.read (lit "mr-out-1") = some (lit "x 2\n") ∧
    t₂.disk.read (lit "mr-out-1") = some (lit "x 3\n") := by
  have hstart : SameButLeftovers twice twiceDisk twiceDisk := .refl rfl rfl
  refine ⟨hstart.put ⟨lit "tempm-out-*", by decide, by decide⟩ (by decide) _, ?_⟩
  exact ⟨_, _, (Option.some_get onTime_runs_clean).symm,
    (Option.some_get onTime_runs_leftBehind).symm, by decide, by decide, by decide, by decide,
    by decide, by decide⟩

end GoLabs.MapReduce
