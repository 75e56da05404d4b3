import GoLabs.MapReduce.Books
import GoLabs.MapReduce.MapHandlers

/-!
# The directory when the reduce tasks were made

`createReduceTasks` runs once.  The directory it sees has the output of every map task that
committed and no other `m-out-` file; the tasks it makes, and their replacements, have the files it
listed; and these files stay as they are until `Done` has returned true.
-/

open GoLabs.Reasoning

namespace GoLabs.MapReduce

/-- The `m-out-` files of a directory with reducer id `r`, in the order of the listing. -/
def reduceFiles (d : Disk) (r : GoString) : List GoString :=
  match d.glob (lit "m-out-*-*") with
  | .ok names => names.filter (reduceIdOf · = some r)
  | .error _ => []

theorem mem_reduceFiles {d : Disk} {r name : GoString} : name ∈ reduceFiles d r ↔
    d.read name ≠ none ∧ globMatch (lit "m-out-*-*") name = true ∧ reduceIdOf name = some r := by
  unfold reduceFiles
  cases hg : d.glob (lit "m-out-*-*") with
  | error err => simp [Disk.glob] at hg
  | ok names =>
      dsimp only
      rw [List.mem_filter, decide_eq_true_eq, Disk.mem_glob hg, and_assoc]

theorem reduceFiles_nodup (d : Disk) (r : GoString) : (reduceFiles d r).Nodup := by
  unfold reduceFiles
  split
  · rename_i hg
    exact (Disk.glob_nodup hg).filter _
  · exact List.nodup_nil

/-- What `createReduceTasks` found in `d`, and what it made of it. -/
structure Snapshot (spec : JobSpec) (d₀ d : Disk) (c : Coordinator) : Prop where
  committed : ∀ (t : Nat) (task : Task) (i : Nat), c.tasks[t]? = some task →
    task.origin = .input i → task.committed = true →
    ∃ kvs, Emitted spec d₀ t task kvs ∧ ∀ r, d.read (mapFileName t r) = mapText spec.nReduce r kvs
  only : ∀ name, lit "m-out-" <+: name → d.read name ≠ none →
    ∃ (t r : Nat) (task : Task) (i : Nat), name = mapFileName t r ∧
      c.tasks[t]? = some task ∧ task.origin = .input i ∧ task.committed = true
  created : ∃ ids, c.created = [ids] ∧ ids.Nodup ∧ ∀ r, r ∈ ids ↔ reduceFiles d r ≠ []
  files : ∀ task ∈ c.tasks, ∀ r, task.origin = .partition r → task.files = reduceFiles d r

/-- Every row of the second table has the origin and the files of a row of the first. -/
def Tasks.From (l l' : List Task) : Prop :=
  ∀ task' ∈ l', ∃ task ∈ l, task'.origin = task.origin ∧ task'.files = task.files

theorem Tasks.From.refl (l : List Task) : Tasks.From l l := fun task ht ↦ ⟨task, ht, rfl, rfl⟩

theorem Tasks.From.set {l : List Task} {n : Nat} {a b : Task} (ha : l[n]? = some a)
    (horigin : b.origin = a.origin) (hfiles : b.files = a.files) : Tasks.From l (l.set n b) := by
  intro task ht
  rcases List.mem_or_eq_of_mem_set ht with hold | rfl
  · exact ⟨task, hold, rfl, rfl⟩
  · exact ⟨a, List.mem_of_getElem? ha, horigin, hfiles⟩

theorem Coordinator.from_timeoutTasks (c : Coordinator) (now : Nat → Int) :
    Tasks.From c.tasks (c.timeoutTasks now).tasks := by
  refine timeoutTasks_induct (P := fun d => Tasks.From c.tasks d.tasks) now (.refl _) ?_
  rintro d e ih ⟨hold, hs⟩ task ht
  have hfrom := ih _ (List.mem_of_getElem? hold)
  obtain hset | hnew := List.mem_append.mp ht
  · obtain hmem | rfl := List.mem_or_eq_of_mem_set hset
    · exact ih task hmem
    · exact hfrom
  · rw [List.mem_singleton.mp hnew]
    exact hfrom

namespace CoordSys

variable {φ : Type} {os : Os φ} {inputs : List GoString} {s t : CoordSys φ}

/-- After `createReduceTasks` every attempt at an input has committed or timed out. -/
theorem Accounting.input_settled (h : Accounting inputs s) (hne : s.coord.created ≠ [])
    {task : Task} {i : Nat} (ht : task ∈ s.coord.tasks) (ho : task.origin = .input i) :
    task.status = .timedOut ∨ task.committed = true := by
  by_cases hst : task.status = .timedOut
  · exact .inl hst
  · have htype : task.taskType = .map := by
      rw [h.rows.typed ht, ho]
      rfl
    refine .inr (committed_of_pending ?_ ht htype hst)
    have hnum := h.numMap
    rw [h.mapped hne] at hnum
    omega

/-- `Done` gets past the switch only when every task has ended. -/
theorem Accounting.ended (h : Accounting inputs s) (hsettled : s.coord.settled = true) {task : Task}
    (ht : task ∈ s.coord.tasks) : task.status ≠ .idle ∧ task.status ≠ .inProgress := by
  unfold Coordinator.settled at hsettled
  split at hsettled
  · simp at hsettled
  · have hst := List.all_eq_true.mp hsettled task ht
    simpa using hst
  · rename_i hphase
    -- the counts are zero, so what has not timed out has committed
    have hend : task.status = .timedOut ∨ task.committed = true := by
      cases ho : task.origin with
      | input i => exact h.input_settled (h.phase (by simp [hphase])) ht ho
      | partition r =>
          by_cases hst : task.status = .timedOut
          · exact .inl hst
          · have hnum := h.numReduce
            rw [h.shutdown hphase] at hnum
            have htype : task.taskType = .reduce := by
              rw [h.rows.typed ht, ho]
              rfl
            exact .inr (committed_of_pending (by omega) ht htype hst)
    obtain hst | hc := hend
    · simp [hst]
    · simp [h.rows.committed task ht hc]

/-- After `createReduceTasks` no step adds reducer ids, makes tasks of another kind or commits a
map task. -/
theorem Accounting.quiet {act : CoordAction φ} (h : Accounting inputs s)
    (hs : s.step os act = some t) (hne : s.coord.created ≠ []) :
    t.coord.created = s.coord.created ∧ Tasks.From s.coord.tasks t.coord.tasks ∧
      ∀ (n : Nat) (task : Task) (i : Nat), t.coord.tasks[n]? = some task →
        task.origin = .input i → task.committed = true → s.coord.tasks[n]? = some task := by
  cases step_cases hs with
  | registerWorker => exact ⟨rfl, .refl _, fun _ _ _ ht _ _ ↦ ht⟩
  | getTask hw hget hgiven =>
      cases hget with
      | nothing => exact ⟨rfl, .refl _, fun _ _ _ ht _ _ ↦ ht⟩
      | @found n task workers ht hidle =>
          refine ⟨rfl, .set ht rfl rfl, ?_⟩
          intro k other i hk _ hc
          rcases getElem?_set_eq_some.mp hk with ⟨-, -, rfl⟩ | ⟨-, hold⟩
          · have hcompleted := h.rows.committed task (List.mem_of_getElem? ht) hc
            rw [hidle] at hcompleted
            simp at hcompleted
          · exact hold
  | @taskDone w n files it c fs err hgiven hfirst hdone =>
      rcases h.rows.unreported w n hgiven hfirst with ⟨task, htask, -⟩
      cases ho : task.origin with
      | input i =>
          -- a map attempt that is still out when the reduce tasks exist has timed out
          have hst : task.status = .timedOut := by
            by_contra hst
            have hp := h.inProgress hgiven hfirst htask hst
            exact hne (h.created_of_input htask hp ho)
          have hcoord := (hdone.of_timedOut htask hst).1
          subst hcoord
          exact ⟨rfl, .refl _, fun _ _ _ ht _ _ ↦ ht⟩
      | partition r =>
          have htype : task.taskType = .reduce := by
            rw [h.rows.typed (List.mem_of_getElem? htask), ho]
            rfl
          rcases hdone.of_reduce htask htype with ⟨hcreated, ⟨-, rfl, -⟩ | ⟨-, err', -, htasks⟩⟩
          · exact ⟨rfl, .refl _, fun _ _ _ ht _ _ ↦ ht⟩
          · refine ⟨hcreated, by rw [htasks]; exact .set htask rfl rfl, ?_⟩
            intro k other i hk hi _
            rw [htasks] at hk
            rcases getElem?_set_eq_some.mp hk with ⟨-, -, rfl⟩ | ⟨-, hold⟩
            · -- the row that changed is no map task
              rw [ho] at hi
              simp at hi
            · exact hold
  | heartbeat => exact ⟨rfl, .refl _, fun _ _ _ ht _ _ ↦ ht⟩
  | stopRunning => exact ⟨rfl, .refl _, fun _ _ _ ht _ _ ↦ ht⟩
  | @done now fs =>
      rcases s.coord.timeoutTasks_eq now with ⟨tasks, heq⟩
      refine ⟨by change (s.coord.timeoutTasks now).created = _; rw [heq],
        s.coord.from_timeoutTasks now, ?_⟩
      exact fun n task _ ht _ hc ↦ Coordinator.committed_timeoutTasks h.rows.committed now ht hc
  | files => exact ⟨rfl, .refl _, fun _ _ _ ht _ _ ↦ ht⟩

end CoordSys

namespace Job

structure SnapInv (spec : JobSpec) (d₀ : Disk) (s : Job) : Prop where
  none_iff : s.snapshot = none ↔ s.coord.created = []
  found : ∀ d, s.snapshot = some d → Snapshot spec d₀ d s.coord
  kept : ∀ d, s.snapshot = some d → ∀ name, lit "m-out-" <+: name →
    s.disk.read name = d.read name ∨ s.finished = true ∧ s.disk.read name = none

variable {spec : JobSpec} {d₀ : Disk} {s t : Job}

theorem SnapInv.init : SnapInv spec d₀ (Job.init spec d₀) :=
  ⟨by simp [Job.init, Job.coord, CoordSys.init, makeCoordinator], by simp [Job.init],
    by simp [Job.init]⟩

/-- After `createReduceTasks` no step touches an `m-out-` file, except that `Done` takes it away. -/
theorem read_of_step {act : JobAction} (hw : Wired spec d₀ s) (hm : MapInv spec d₀ s)
    (hs : s.step spec act = some t) (hne : s.coord.created ≠ []) {name : GoString}
    (hname : lit "m-out-" <+: name) :
    t.disk.read name = s.disk.read name ∨ t.finished = true ∧ t.disk.read name = none := by
  have hmap : ∀ n r, name ≠ mapOutName n r :=
    fun n r heq ↦ temp_not_map (heq ▸ temp_mapOutName n r) hname
  have hreduce : ∀ r, name ≠ reduceOutName r :=
    fun r heq ↦ temp_not_map (heq ▸ temp_reduceOutName r) hname
  cases step_cases hs with
  | registerWorker => exact .inl rfl
  | getTask hpc hget =>
      rcases CoordSys.getTask_cases hw.accounting hget with ⟨hfs, -⟩
      exact .inl (congrArg (Disk.read · name) hfs)
  | @advance w it pc pc' d unreported hpc hadv hun =>
      obtain ⟨n, task, hn, -, -, -, hfits, -⟩ := hw.advancing hpc hadv
      refine .inl (read_advance hadv hn (hmap n) (fun r _ ↦ ⟨hreduce r, fun heq ↦ ?_⟩) hfits
        (hm.bound pc (List.mem_of_getElem? hpc)))
      exact reduceFileName_not_map r (heq ▸ hname)
  | @taskDone w n it files sys err pc snapshot hpc hdone hnext hsnap =>
      rcases CoordSys.taskDone_given hdone with ⟨-, -, hcases⟩
      rcases hw.busy w n _ hpc rfl with ⟨hmine, hfirst, task, htask, -, hnames⟩
      cases ho : task.origin with
      | input i =>
          rw [ho] at hnames
          -- the map phase is over, so this map attempt has timed out
          have hst : task.status = .timedOut := by
            by_contra hst
            have hp := hw.accounting.inProgress hmine hfirst htask hst
            exact hne (hw.accounting.created_of_input htask hp ho)
          rcases hcases.of_timedOut htask hst with ⟨-, err', hremove⟩
          refine .inl (read_removeFiles_of_notMem hremove (fun hmem ↦ ?_))
          rcases hnames name hmem with ⟨r, hr⟩
          exact hmap n r hr
      | partition r =>
          rw [ho] at hnames
          have hopen := (hw.accounting.rows.opened (.partition r)).mp
            (List.mem_map.mpr ⟨task, List.mem_of_getElem? htask, ho⟩)
          rcases hm.ids r hopen with ⟨k, rfl⟩
          refine .inl (read_taskDone hcases (fun hmem ↦ hreduce _ (hnames name hmem)) ?_)
          intro hmem
          rcases List.mem_map.mp hmem with ⟨f, hf, rfl⟩
          rw [hnames f hf] at hname
          have hnew : newName (reduceOutName (dec k)) = reduceFileName (dec k) :=
            rename_reduceOutName (not_mem_dec (by decide))
          exact reduceFileName_not_map (dec k) (hnew ▸ hname)
  | heartbeat => exact .inl rfl
  | stopRunning => exact .inl rfl
  | @done now c d result hdone =>
      rcases (Coordinator.done_cases hdone).2 with ⟨-, rfl⟩ | ⟨rfl, -, rfl⟩
      · exact .inl rfl
      · -- only `Done` deletes them, when it returns true
        rcases read_deleteFiles s.disk (lit "m-out*") name with hsame | ⟨-, hnone⟩
        · exact .inl hsame
        · exact .inr ⟨by simp, hnone⟩
  | crash => exact .inl rfl

theorem finished_of_step {act : JobAction} (hs : s.step spec act = some t)
    (hfin : s.finished = true) : t.finished = true := by
  cases step_cases hs with
  | done hdone => simp [hfin]
  | registerWorker => exact hfin
  | getTask hpc hget => exact hfin
  | advance hpc hadv hun => exact hfin
  | taskDone hpc hdone hnext hsnap => exact hfin
  | heartbeat => exact hfin
  | stopRunning => exact hfin
  | crash => exact hfin

/-- `createReduceTasks` runs in the `TaskDone` of the last map task, and there only. -/
theorem created_of_step {act : JobAction} (hs : s.step spec act = some t) :
    t.coord.created = s.coord.created ∧ t.snapshot = s.snapshot ∨
      t.snapshot = some t.disk ∧ t.finished = s.finished ∧ ∃ names m it n task,
        t.disk.glob (lit "m-out-*-*") = .ok names ∧ groupFiles names = some m ∧
        t.coord.created = s.coord.created ++ [(m.range it).map Prod.fst] ∧
        t.coord.tasks = s.coord.tasks.set n { task with status := .completed, committed := true } ++
          (m.range it).map reduceTask ∧ s.coord.tasks[n]? = some task ∧ task.taskType = .map := by
  cases step_cases hs with
  | registerWorker => exact .inl ⟨rfl, rfl⟩
  | getTask hpc hget => exact .inl ⟨CoordSys.created_getTask hget, rfl⟩
  | advance hpc hadv hun => exact .inl ⟨rfl, rfl⟩
  | @taskDone w n it files sys err pc snapshot hpc hdone hnext hsnap =>
      rcases CoordSys.taskDone_given hdone with ⟨-, -, hcases⟩
      have hkeep : sys.coord.created = s.coord.created → snapshot = s.snapshot :=
        fun heq ↦ by rw [hsnap, if_pos heq]
      rcases sys with ⟨c, fs, beats, given, reported⟩
      dsimp only at hcases hkeep hsnap
      cases hcases with
      | late ht hst hremove => exact .inl ⟨rfl, hkeep rfl⟩
      | failed ht hst hty hrename => exact .inl ⟨rfl, hkeep rfl⟩
      | mapped ht hst hty hrename hnum => exact .inl ⟨rfl, hkeep rfl⟩
      | lastMapped ht hst hty hrename hnum hglob hgroup =>
          refine .inr ⟨?_, rfl, _, _, it, n, _, hglob, hgroup, rfl, rfl, ht, hty⟩
          rw [if_neg] at hsnap
          · exact hsnap
          · simp [Job.coord]
      | lastFailed ht hst hty hrename hnum hglob => simp [Disk.os, Disk.glob] at hglob
      | reduced ht hst hty hrename hphase => exact .inl ⟨rfl, hkeep rfl⟩
      | other ht hst hty => exact .inl ⟨rfl, hkeep rfl⟩
  | heartbeat => exact .inl ⟨rfl, rfl⟩
  | stopRunning => exact .inl ⟨s.sys.created_stopRunning _, rfl⟩
  | @done now c d result hdone =>
      rcases s.coord.timeoutTasks_eq now with ⟨tasks, heq⟩
      refine .inl ⟨?_, rfl⟩
      change c.created = _
      rw [(Coordinator.done_cases hdone).1, heq]
  | crash => exact .inl ⟨rfl, rfl⟩

/-- The tasks `createReduceTasks` makes are those of the files it lists. -/
theorem snapshot_created {c : Coordinator} {d : Disk} {tasks : List Task} {names : List GoString}
    {m : GoMap GoString (List GoString)} {it : Iteration GoString}
    (hglob : d.glob (lit "m-out-*-*") = .ok names) (hgroup : groupFiles names = some m)
    (hold : ∀ task ∈ tasks, ∀ r, task.origin ≠ .partition r)
    (htasks : c.tasks = tasks ++ (m.range it).map reduceTask)
    (hcreated : c.created = [(m.range it).map Prod.fst]) :
    (∃ ids, c.created = [ids] ∧ ids.Nodup ∧ ∀ r, r ∈ ids ↔ reduceFiles d r ≠ []) ∧
      ∀ task ∈ c.tasks, ∀ r, task.origin = .partition r → task.files = reduceFiles d r := by
  have hfiles : ∀ r, reduceFiles d r = names.filter (reduceIdOf · = some r) := by
    intro r
    rw [reduceFiles, hglob]
  constructor
  · refine ⟨_, hcreated, GoMap.range_keys_nodup it m, fun r ↦ ?_⟩
    rw [List.mem_map, hfiles]
    constructor
    · rintro ⟨entry, hentry, rfl⟩
      rcases (lookup_groupFiles hgroup).mp (GoMap.mem_range.mp hentry) with ⟨heq, hne⟩
      rwa [heq] at hne
    · intro hne
      exact ⟨(r, _), GoMap.mem_range.mpr ((lookup_groupFiles hgroup).mpr ⟨rfl, hne⟩), rfl⟩
  · intro task ht r ho
    rw [htasks] at ht
    rcases List.mem_append.mp ht with hmem | hnew
    · exact absurd ho (hold task hmem r)
    · rcases List.mem_map.mp hnew with ⟨entry, hentry, rfl⟩
      rcases entry with ⟨r', files⟩
      simp only [reduceTask, Origin.partition.injEq] at ho
      subst ho
      rw [hfiles]
      exact ((lookup_groupFiles hgroup).mp (GoMap.mem_range.mp hentry)).1

theorem SnapInv.step {act : JobAction} (h : SnapInv spec d₀ s) (hw : Wired spec d₀ s)
    (hm : MapInv spec d₀ s) (hs : s.step spec act = some t) : SnapInv spec d₀ t := by
  have hacc := hw.accounting
  have hm' := hm.step hw hs
  by_cases hne : s.coord.created = []
  · have hno := h.none_iff.mpr hne
    rcases created_of_step hs with ⟨hcreated, hsnap⟩ | hnew
    · rw [hno] at hsnap
      exact ⟨by simp [hsnap, hcreated, hne], by simp [hsnap], by simp [hsnap]⟩
    · -- `createReduceTasks` ran in this step, so `Done` has not returned true
      rcases hnew with
        ⟨hsnap, hfinished, names, m, it, n, task, hglob, hgroup, hcreated, htasks, ht, hty⟩
      rw [hne, List.nil_append] at hcreated
      have hrun : t.finished = false := by
        rw [hfinished]
        exact hm.running hne
      have hold : ∀ other ∈ s.coord.tasks.set n
          { task with status := .completed, committed := true }, ∀ r,
          other.origin ≠ .partition r := by
        intro other hother r
        rcases List.mem_or_eq_of_mem_set hother with hmem | rfl
        · exact hacc.no_partition hne hmem r
        · exact hacc.no_partition hne (List.mem_of_getElem? ht) r
      rcases snapshot_created hglob hgroup hold htasks hcreated with ⟨hids, hfiles⟩
      refine ⟨by simp [hsnap, hcreated], ?_, ?_⟩
      · intro d hd
        rw [hsnap, Option.some.injEq] at hd
        subst hd
        exact ⟨hm'.committed hrun, hm'.only hrun, hids, hfiles⟩
      · intro d hd name _
        rw [hsnap, Option.some.injEq] at hd
        rw [hd]
        exact .inl rfl
  · rcases hacc.quiet (sys_step hw hs) hne with ⟨hcreated, hfrom, hcommitted⟩
    change t.coord.created = s.coord.created at hcreated
    have hlater := CoordSys.later_of_step hacc (sys_step hw hs)
    have hsnap : t.snapshot = s.snapshot := by
      rcases created_of_step hs with ⟨-, hsnap⟩ | ⟨-, -, names, m, it, n, task, -, -, hnew, -⟩
      · exact hsnap
      · rw [hcreated] at hnew
        simp at hnew
    refine ⟨by rw [hsnap]; exact h.none_iff.trans (by rw [hcreated]), ?_, ?_⟩
    · intro d hd
      rw [hsnap] at hd
      have hfound := h.found d hd
      refine ⟨?_, ?_, ?_, ?_⟩
      · exact fun k task i hk ho hc ↦ hfound.committed k task i (hcommitted k task i hk ho hc) ho hc
      · intro name hpre hread
        rcases hfound.only name hpre hread with ⟨k, r, task, i, hname, hk, ho, hc⟩
        rcases hlater k task hk with ⟨task', hk', hl⟩
        have heq := hl.settled (.inr (hacc.rows.committed task (List.mem_of_getElem? hk) hc))
        subst heq
        exact ⟨k, r, task', i, hname, hk', ho, hc⟩
      · rw [hcreated]
        exact hfound.created
      · intro task htask r ho
        rcases hfrom task htask with ⟨old, hold, horigin, hfiles⟩
        rw [hfiles]
        exact hfound.files old hold r (horigin ▸ ho)
    · intro d hd name hpre
      rw [hsnap] at hd
      rcases read_of_step hw hm hs hne hpre with hsame | hgone
      · rw [hsame]
        rcases h.kept d hd name hpre with hkept | ⟨hfin, hnone⟩
        · exact .inl hkept
        · exact .inr ⟨finished_of_step hs hfin, hnone⟩
      · exact .inr hgone

theorem SnapInv.stable (h : SnapInv spec d₀ s) (hrun : s.finished = false) {d : Disk}
    (hd : s.snapshot = some d) {name : GoString} (hpre : lit "m-out-" <+: name) :
    s.disk.read name = d.read name := by
  rcases h.kept d hd name hpre with hkept | ⟨hfin, -⟩
  · exact hkept
  · rw [hrun] at hfin
    simp at hfin

theorem snapInv_of_reaches (hclean : CleanStart d₀)
    (h : Reaches (step spec) (Job.init spec d₀) s) : SnapInv spec d₀ s :=
  h.invariant SnapInv.init fun _ _ _ hr hs hu ↦
    hu.step (wired_of_reaches hr) (mapInv_of_reaches hclean hr) hs

end Job

end GoLabs.MapReduce
