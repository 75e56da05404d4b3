import GoLabs.MapReduce.MapFiles

/-!
# The handlers and the files of the map phase

`TaskDone`, `GetTask`, `Done` and the other steps keep what holds of the files of the map phase, and
so it holds in every run.
-/

open GoLabs.Reasoning

namespace GoLabs.MapReduce

namespace Job

variable {spec : JobSpec} {d₀ : Disk} {s t : Job}

/-- A worker begins with a task whose temporary files do not exist. -/
theorem begin_mapPc {k n : Nat} {task task' : Task} {e : Disk} (hfits : task.Fits spec.inputs)
    (hfiles : task'.files = task.files)
    (hnone : ∀ r, e.read (mapOutName k r) = none) :
    MapPc spec d₀ e k task' (.begin ⟨task.files, n, task.taskType, k⟩) := by
  obtain ⟨_, _, hpc⟩ | ⟨_, _, hpc⟩ := begin_cases k n hfits <;> rw [hpc]
  · exact .inl ⟨hfiles.symm, rfl, hnone, by simp [mapText_nil]⟩
  · trivial

theorem begin_bound {k n : Nat} {task : Task} {e : Disk} (hfits : task.Fits spec.inputs) :
    (WorkerPc.begin ⟨task.files, n, task.taskType, k⟩).Bound e := by
  obtain ⟨_, _, hpc⟩ | ⟨_, _, hpc⟩ := begin_cases k n hfits <;> rw [hpc] <;> trivial

theorem MapInv.getTask (h : MapInv spec d₀ s) (hw : Wired spec d₀ s) {w : Nat} {now : Int}
    {sys : CoordSys Disk} {res : GetTaskRes} (hget : s.sys.getTask w now = some (sys, res))
    (hlater : Tasks.Later s.coord.tasks sys.coord.tasks)
    (hcreated : sys.coord.created = s.coord.created) :
    MapInv spec d₀ { s with sys := sys, workers := s.workers.set w (.begin res) } := by
  rcases CoordSys.getTask_cases hw.accounting hget with ⟨hfs, -, hcases⟩
  have hdisk : ∀ name, sys.fs.read name = s.disk.read name := by
    rw [hfs]
    exact fun _ ↦ rfl
  have hbound : ∀ pc ∈ s.workers, pc.Bound sys.fs := by
    rw [hfs]
    exact h.bound
  rcases hcases with ⟨rfl, hgiven, htasks⟩ | ⟨k, task, ht, hidle, rfl, hgiven, htasks⟩
  · refine h.frame hw.accounting hlater ?_ hcreated (by rw [hgiven]; exact fun _ hk ↦ hk)
      h.running id (fun _ name _ ↦ hdisk name) (fun n r hne ↦ .inl (hdisk _ ▸ hne))
      (fun _ name _ ↦ hdisk name) ?_ (forall_mem_set hbound trivial)
    · intro n task i htask _ _
      change sys.coord.tasks[n]? = _ at htask
      rwa [htasks] at htask
    · intro v n pc task hv hn htask hst
      rcases getElem?_set_eq_some.mp hv with ⟨-, -, rfl⟩ | ⟨-, hold⟩
      · simp [WorkerPc.begin, WorkerPc.task] at hn
      · exact h.keep hw hlater hold hn htask hst (fun r ↦ hdisk _)
  · -- a task that was idle has never been given, so nobody has opened its files
    have hfresh : k ∉ s.sys.given.map Prod.snd := by
      rw [hw.accounting.rows.given_iff]
      rintro ⟨task', ht', hne⟩
      rw [ht, Option.some.injEq] at ht'
      exact hne (ht' ▸ hidle)
    refine h.frame hw.accounting hlater ?_ hcreated
      (by rw [hgiven, List.map_append]; exact fun n hn ↦ List.mem_append_left _ hn)
      h.running id (fun _ name _ ↦ hdisk name) (fun n r hne ↦ .inl (hdisk _ ▸ hne))
      (fun _ name _ ↦ hdisk name) ?_ (forall_mem_set hbound (begin_bound
        (hw.accounting.rows.fits task (List.mem_of_getElem? ht))))
    · intro n task' i htask _ hc
      change sys.coord.tasks[n]? = _ at htask
      rw [htasks] at htask
      rcases getElem?_set_eq_some.mp htask with ⟨-, -, rfl⟩ | ⟨-, hold⟩
      · -- an idle task is not committed
        have hcompleted := hw.accounting.rows.committed task (List.mem_of_getElem? ht) hc
        rw [hidle] at hcompleted
        simp at hcompleted
      · exact hold
    · intro v n pc task' hv hn htask hst
      rcases getElem?_set_eq_some.mp hv with ⟨-, -, rfl⟩ | ⟨-, hold⟩
      · have hfits := hw.accounting.rows.fits task (List.mem_of_getElem? ht)
        rw [(begin_fits _ _ hfits).1, Option.some.injEq] at hn
        subst hn
        have htask' : sys.coord.tasks[k]? = some task' := htask
        rw [htasks] at htask'
        rcases getElem?_set_eq_some.mp htask' with ⟨-, -, rfl⟩ | ⟨hne, -⟩
        · refine begin_mapPc hfits rfl (fun r ↦ ?_)
          change sys.fs.read _ = none
          rw [hdisk]
          by_contra hne
          exact hfresh (h.fresh k r hne)
        · exact absurd rfl hne
      · exact h.keep hw hlater hold hn htask hst (fun r ↦ hdisk _)

/-- The workers other than the one that reports task `n` have other tasks. -/
theorem Wired.bound_report (hw : Wired spec d₀ s) {w n : Nat} {files : List GoString}
    {pc : WorkerPc} {e : Disk} (hpc : s.workers[w]? = some (.reporting n files))
    (hidle : pc.task = none)
    (hbound : ∀ (v k : Nat) (pcv : WorkerPc), s.workers[v]? = some pcv → pcv.task = some k →
      k ≠ n → pcv.Bound e) : ∀ pcv ∈ s.workers.set w pc, pcv.Bound e := by
  intro pcv hmem
  obtain ⟨v, hv⟩ := List.mem_iff_getElem?.mp hmem
  cases hk : pcv.task with
  | none => exact bound_of_task hk
  | some k =>
      obtain ⟨-, -, rfl⟩ | ⟨hvw, hold⟩ := getElem?_set_eq_some.mp hv
      · rw [hidle] at hk
        cases hk
      · exact hbound v k pcv hold hk (hw.task_ne hold hk hpc rfl hvw)

/-- The names that a map task reports. -/
theorem bound_report_map {n k : Nat} {it : Iteration GoString} {files : List GoString}
    {c c' : Coordinator} {e e' : Disk} {err : Option GoString} {pc : WorkerPc}
    (hdone : Coordinator.TaskDone Disk.os it c e n files c' e' err)
    (hnames : ∀ f ∈ files, ∃ r, f = mapOutName n r) (hk : pc.task = some k) (hne : k ≠ n)
    (h : pc.Bound e) : pc.Bound e' := by
  refine bound_taskDone hdone ?_ ?_ ?_ hk hne h
  · intro f hf
    obtain ⟨r, rfl⟩ := hnames f hf
    rw [newName, rename_mapOutName]
    exact ⟨temp_mapOutName n r, mapFileName_not_temp n r⟩
  · intro f hf m r heq
    obtain ⟨r', rfl⟩ := hnames f hf
    exact (mapOutName_inj heq).1.symm
  · intro f hf r heq
    obtain ⟨r', rfl⟩ := hnames f hf
    exact absurd heq (mapOutName_ne_reduceOutName n r' r)

/-- The names that a reduce task reports. -/
theorem bound_report_reduce {n k j : Nat} {it : Iteration GoString} {files : List GoString}
    {c c' : Coordinator} {e e' : Disk} {err : Option GoString} {pc : WorkerPc}
    (hdone : Coordinator.TaskDone Disk.os it c e n files c' e' err)
    (hnames : ∀ f ∈ files, f = reduceOutName (dec j)) (hk : pc.task = some k) (hne : k ≠ n)
    (h : pc.Bound e) : pc.Bound e' := by
  have hnew : newName (reduceOutName (dec j)) = reduceFileName (dec j) :=
    rename_reduceOutName (not_mem_dec (by decide))
  refine bound_taskDone hdone ?_ ?_ ?_ hk hne h
  · intro f hf
    rw [hnames f hf, hnew]
    exact ⟨temp_reduceOutName _, reduceFileName_not_temp _⟩
  · intro f hf m r heq
    exact absurd (heq.symm.trans (hnames f hf)) (mapOutName_ne_reduceOutName m r _)
  · intro f hf r heq
    rw [hnames f hf] at heq ⊢
    rw [hnew, reduceOutName_inj heq]

/-- A report that commits no map task: a late one, or one for a reduce task. -/
theorem MapInv.taskDone_frame (h : MapInv spec d₀ s) (hw : Wired spec d₀ s) {w n : Nat}
    {files : List GoString} {sys : CoordSys Disk} {pc : WorkerPc} {snapshot : Option Disk}
    {unreported : List Nat} (hpc : s.workers[w]? = some (.reporting n files))
    (hidle : pc.task = none) (hlater : Tasks.Later s.coord.tasks sys.coord.tasks)
    (hold : ∀ (k : Nat) (task : Task) (i : Nat), sys.coord.tasks[k]? = some task →
      task.origin = .input i → task.committed = true → s.coord.tasks[k]? = some task)
    (hcreated : sys.coord.created = s.coord.created) (hgiven : sys.given = s.sys.given)
    (hinputs : s.coord.created = [] → ∀ name, ¬ Reserved name →
      sys.fs.read name = s.disk.read name)
    (hread : ∀ name, (∀ r, name ≠ mapOutName n r) → (∀ r, name ≠ reduceOutName r) →
      (∀ r, name ≠ reduceFileName r) → sys.fs.read name = s.disk.read name)
    (hbound : ∀ (v k : Nat) (pcv : WorkerPc), s.workers[v]? = some pcv → pcv.task = some k →
      k ≠ n → pcv.Bound sys.fs) :
    MapInv spec d₀ { s with
      sys := sys, workers := s.workers.set w pc, snapshot := snapshot,
      unreported := unreported } := by
  have hmine := (hw.busy w n _ hpc rfl).1
  have hother : ∀ k r, k ≠ n → sys.fs.read (mapOutName k r) = s.disk.read (mapOutName k r) :=
    fun k r hk ↦ hread _ (fun r' heq ↦ hk (mapOutName_inj heq).1)
      (fun r' ↦ mapOutName_ne_reduceOutName k r r')
      (fun r' heq ↦ reduceFileName_not_temp r' (heq ▸ temp_mapOutName k r))
  refine h.frame hw.accounting hlater hold hcreated (by rw [hgiven]; exact fun _ hk ↦ hk)
    h.running id hinputs ?_ ?_ ?_ (hw.bound_report hpc hidle hbound)
  · intro k r hne
    by_cases hk : k = n
    · subst hk
      refine .inr ?_
      change k ∈ sys.given.map Prod.snd
      rw [hgiven]
      exact List.mem_map.mpr ⟨_, hmine, rfl⟩
    · exact .inl (by rw [← hother k r hk]; exact hne)
  · intro _ name hpre
    exact hread name (fun r heq ↦ temp_not_map (heq ▸ temp_mapOutName n r) hpre)
      (fun r heq ↦ temp_not_map (heq ▸ temp_reduceOutName r) hpre)
      (fun r heq ↦ reduceFileName_not_map r (heq ▸ hpre))
  · intro v k pcv task hv hk htask hst
    rcases getElem?_set_eq_some.mp hv with ⟨-, -, rfl⟩ | ⟨hvw, hold'⟩
    · rw [hidle] at hk
      simp at hk
    · have hkn := hw.task_ne hold' hk hpc rfl hvw
      exact h.keep hw hlater hold' hk htask hst (fun r ↦ hother k r hkn)

/-- An attempt that has not been committed has no `m-out-` file. -/
theorem MapInv.no_output (h : MapInv spec d₀ s) (hrun : s.finished = false) {n : Nat} {task : Task}
    (htask : s.coord.tasks[n]? = some task) (hc : task.committed ≠ true) (r : Nat) :
    s.disk.read (mapFileName n r) = none := by
  by_contra hne
  obtain ⟨k, r', other, j, hname, hk, -, hcommitted⟩ := h.only hrun _ (mapFileName_starts n r) hne
  rw [← (mapFileName_inj hname).1, htask, Option.some.injEq] at hk
  exact hc (hk ▸ hcommitted)

/-- After a commit the `m-out-` files are still files of committed map tasks. -/
theorem MapInv.only_commit (h : MapInv spec d₀ s) (hw : Wired spec d₀ s)
    (hrun : s.finished = false) (hlater : Tasks.Later s.coord.tasks t.coord.tasks) {n i : Nat}
    {task : Task} (htask : t.coord.tasks[n]? = some task) (ho : task.origin = .input i)
    (hc : task.committed = true)
    (hsame : ∀ name, (∀ r, name ≠ mapOutName n r) → (∀ r, name ≠ mapFileName n r) →
      t.disk.read name = s.disk.read name) (name : GoString) (hpre : lit "m-out-" <+: name)
    (hne : t.disk.read name ≠ none) :
    ∃ (k r : Nat) (other : Task) (j : Nat), name = mapFileName k r ∧
      t.coord.tasks[k]? = some other ∧ other.origin = .input j ∧ other.committed = true := by
  by_cases hname : ∃ r, name = mapFileName n r
  · obtain ⟨r, rfl⟩ := hname
    exact ⟨n, r, task, i, rfl, htask, ho, hc⟩
  · rw [hsame name (fun r heq ↦ temp_not_map (heq ▸ temp_mapOutName n r) hpre)
      (fun r heq ↦ hname ⟨r, heq⟩)] at hne
    obtain ⟨k, r, other, j, hk, hother, hj, hc'⟩ := h.only hrun name hpre hne
    -- a committed task is settled, so the report has not touched it
    obtain ⟨other', hother', hl⟩ := hlater k other hother
    have heq := hl.settled
      (.inr (hw.accounting.rows.committed other (List.mem_of_getElem? hother) hc'))
    subst heq
    exact ⟨k, r, other', j, hk, hother', hj, hc'⟩

/-- A map attempt that has not timed out commits.  `t` is the state after it; its new tasks are not
map tasks. -/
theorem MapInv.commit (h : MapInv spec d₀ s) (hw : Wired spec d₀ s) {w n i : Nat}
    {files : List GoString} {task : Task} {it : Iteration GoString} {err : Option GoString}
    (hpc : s.workers[w]? = some (.reporting n files)) (htask : s.coord.tasks[n]? = some task)
    (ho : task.origin = .input i) (hst : task.status ≠ .timedOut)
    (hdone : Coordinator.TaskDone Disk.os it s.coord s.disk n files t.coord t.disk err)
    (hlater : Tasks.Later s.coord.tasks t.coord.tasks) (hgiven : t.sys.given = s.sys.given)
    (hfinished : t.finished = s.finished) {pc : WorkerPc} (hidle : pc.task = none)
    (hworkers : t.workers = s.workers.set w pc) : MapInv spec d₀ t := by
  obtain ⟨hmine, hfirst, task', htask', hnodup, hnames⟩ := hw.busy w n _ hpc rfl
  rw [htask, Option.some.injEq] at htask'
  subst htask'
  rw [ho] at hnames
  have hacc := hw.accounting
  have hp := hacc.inProgress hmine hfirst htask hst
  have hnone := hacc.created_of_input htask hp ho
  have hrun := h.running hnone
  have htype : task.taskType = .map := by rw [hacc.rows.typed (List.mem_of_getElem? htask), ho]; rfl
  have huncommitted : task.committed ≠ true := by
    rw [hacc.uncommitted htask hp]
    decide
  obtain ⟨kvs, hemitted, hholds⟩ := h.workers w n _ task hpc rfl htask hst ⟨i, ho⟩
  -- all the renames succeed, so the task is committed with the files of this attempt
  obtain ⟨e, he, hout⟩ := hholds.rename hnodup hnames (h.no_output hrun htask huncommitted)
  obtain ⟨hdisk, ⟨new, htasks, hnew⟩, hcreated⟩ := taskDone_commit hdone htask hst htype he
  rw [← hdisk] at hout
  obtain ⟨hrow, hrest⟩ := rows_commit htask htasks hnew
  have hsame : ∀ name, (∀ r, name ≠ mapOutName n r) → (∀ r, name ≠ mapFileName n r) →
      t.disk.read name = s.disk.read name :=
    fun name htemp hfile ↦ read_taskDone_map hdone hnames htemp hfile
  have honly := h.only_commit hw hrun hlater hrow ho rfl hsame
  have hkeep : ∀ k r, k ≠ n → t.disk.read (mapOutName k r) = s.disk.read (mapOutName k r) :=
    fun k r hk ↦ hsame _ (fun r' heq ↦ hk (mapOutName_inj heq).1)
      (fun r' heq ↦ mapFileName_not_temp n r' (heq ▸ temp_mapOutName k r))
  refine ⟨fun _ ↦ by rw [hfinished, hrun], ?_, ?_, ?_, ?_, fun _ ↦ honly, ?_, ?_⟩
  · -- reduce tasks are only created by the last commit
    intro r hr
    obtain hsame' | ⟨names, m, hglob, hgroup, heq⟩ := hcreated
    · rw [hsame'] at hr
      exact h.ids r hr
    · change s.coord.created = [] at hnone
      rw [heq, hnone, List.nil_append, List.flatten_singleton] at hr
      refine ids_of_glob hglob hgroup ?_ hr
      intro name hpre hne
      obtain ⟨k, r', _, _, hname, _⟩ := honly name hpre hne
      exact ⟨k, r', hname⟩
  · intro _ name hres
    rw [hsame name (fun r heq ↦ hres (.inl (heq ▸ temp_mapOutName n r)))
      (fun r heq ↦ hres (.inr (heq ▸ mapFileName_starts n r)))]
    exact h.inputs hnone name hres
  · intro k r hne
    rw [hgiven]
    by_cases hk : k = n
    · subst hk
      exact List.mem_map.mpr ⟨_, hmine, rfl⟩
    · rw [hkeep k r hk] at hne
      exact h.fresh k r hne
  · -- the other map tasks keep their files
    intro _ k other j hk hj hc
    by_cases hkn : k = n
    · subst hkn
      rw [hrow, Option.some.injEq] at hk
      subst hk
      exact ⟨kvs, hemitted, hout⟩
    · obtain ⟨kvs', he', hread⟩ := h.committed hrun k other j (hrest k other j hk hj hkn) hj hc
      refine ⟨kvs', he', fun r ↦ ?_⟩
      rw [← hread r]
      exact hsame _ (fun r' heq ↦ mapFileName_not_temp k r (heq ▸ temp_mapOutName n r'))
        (fun r' heq ↦ hkn (mapFileName_inj heq).1)
  · intro v k pcv other hv hk hother hst'
    rw [hworkers] at hv
    obtain ⟨-, -, rfl⟩ | ⟨hvw, hold⟩ := getElem?_set_eq_some.mp hv
    · rw [hidle] at hk
      cases hk
    · exact h.keep hw hlater hold hk hother hst'
        (fun r ↦ hkeep k r (hw.task_ne hold hk hpc rfl hvw))
  · rw [hworkers]
    exact hw.bound_report hpc hidle fun v k pcv hv hk hne ↦
      bound_report_map hdone hnames hk hne (h.bound pcv (List.mem_of_getElem? hv))

theorem MapInv.taskDone (h : MapInv spec d₀ s) (hw : Wired spec d₀ s) {w n : Nat}
    {it : Iteration GoString} {files : List GoString} {sys : CoordSys Disk}
    {err : Option GoString} {pc : WorkerPc} {snapshot : Option Disk} {unreported : List Nat}
    (hpc : s.workers[w]? = some (.reporting n files))
    (hdone : s.sys.taskDone Disk.os it w n files = some (sys, err)) (hidle : pc.task = none)
    (hlater : Tasks.Later s.coord.tasks sys.coord.tasks) :
    MapInv spec d₀ { s with
      sys := sys, workers := s.workers.set w pc, snapshot := snapshot,
      unreported := unreported } := by
  rcases CoordSys.taskDone_given hdone with ⟨hgiven, -, hcases⟩
  rcases hw.busy w n _ hpc rfl with ⟨hmine, hfirst, task, htask, -, hnames⟩
  have htyped := hw.accounting.rows.typed (List.mem_of_getElem? htask)
  cases ho : task.origin with
  | input i =>
      rw [ho] at hnames
      by_cases hst : task.status = .timedOut
      · rcases hcases.of_timedOut htask hst with ⟨hcoord, err', hremove⟩
        have hread : ∀ name, (∀ r, name ≠ mapOutName n r) →
            sys.fs.read name = s.disk.read name := by
          intro name hne
          refine read_removeFiles_of_notMem hremove (fun hmem ↦ ?_)
          rcases hnames name hmem with ⟨r, rfl⟩
          exact hne r rfl
        refine h.taskDone_frame hw hpc hidle hlater ?_ (by rw [hcoord]; rfl) hgiven ?_
          (fun name hmap _ _ ↦ hread name hmap) fun v k pcv hv hk hne ↦
            bound_report_map hcases hnames hk hne (h.bound pcv (List.mem_of_getElem? hv))
        · rw [hcoord]
          exact fun _ _ _ ht _ _ ↦ ht
        · exact fun _ name hname ↦ hread name (fun r heq ↦ hname (.inl (heq ▸ temp_mapOutName n r)))
      · exact h.commit hw hpc htask ho hst hcases hlater hgiven rfl hidle rfl
  | partition r =>
      rw [ho] at hnames
      rw [ho] at htyped
      have hopen := (hw.accounting.rows.opened (.partition r)).mp
        (List.mem_map.mpr ⟨task, List.mem_of_getElem? htask, ho⟩)
      rcases h.ids r hopen with ⟨k, rfl⟩
      rcases hcases.of_reduce htask htyped with ⟨hcreated, hdone'⟩
      refine h.taskDone_frame hw hpc hidle hlater ?_ hcreated hgiven ?_ ?_ fun v k pcv hv hk hne ↦
        bound_report_reduce hcases hnames hk hne (h.bound pcv (List.mem_of_getElem? hv))
      · -- the only task that can commit here is a reduce task
        intro j other i hj hi hc
        rcases hdone' with ⟨-, hcoord, -⟩ | ⟨-, err', -, htasks⟩
        · rw [hcoord] at hj
          exact hj
        · rw [htasks] at hj
          rcases getElem?_set_eq_some.mp hj with ⟨-, -, rfl⟩ | ⟨-, hold⟩
          · rw [ho] at hi
            simp at hi
          · exact hold
      · intro hnil
        exact absurd hnil (hw.accounting.created_ne_nil (List.mem_of_getElem? htask) htyped)
      · intro name _ htemp hfile
        refine read_taskDone hcases (fun hmem ↦ htemp _ (hnames name hmem)) ?_
        intro hmem
        rcases List.mem_map.mp hmem with ⟨f, hf, rfl⟩
        apply hfile (dec k)
        rw [hnames f hf]
        exact rename_reduceOutName (not_mem_dec (by decide))

theorem MapInv.done (h : MapInv spec d₀ s) (hw : Wired spec d₀ s) {now : Nat → Int}
    {c : Coordinator} {e : Disk} {result : Bool}
    (hdone : s.coord.done Disk.os s.disk now = (c, e, result)) :
    MapInv spec d₀ { s with
      sys := { s.sys with coord := c, fs := e }, finished := s.finished || result } := by
  rcases Coordinator.done_cases hdone with ⟨rfl, hresult⟩
  rcases s.coord.timeoutTasks_eq now with ⟨tasks, heq⟩
  have hacc := hw.accounting
  have hlater := s.coord.later_timeoutTasks now
  have hfalse : result = false → e = s.disk := by
    rintro rfl
    rcases hresult with ⟨-, he⟩ | ⟨habs, -⟩
    · exact he
    · simp at habs
  have hmap : ∀ n r, e.read (mapOutName n r) = s.disk.read (mapOutName n r) :=
    fun n r ↦ read_done hdone (prefix_disjoint (by decide) (temp_mapOutName n r))
  -- `Done` does not get past the switch in the map phase
  have hmapping : s.coord.created = [] → result = false := by
    intro hnil
    rcases hresult with ⟨hr, -⟩ | ⟨-, hsettled, -⟩
    · exact hr
    · have hphase : s.coord.phase = .map := by
        by_contra hne
        exact hacc.phase hne hnil
      rw [heq] at hsettled
      simp [Coordinator.settled, hphase] at hsettled
  refine h.frame hacc hlater ?_ (by change (s.coord.timeoutTasks now).created = _; rw [heq])
    (fun _ hk ↦ hk) ?_ ?_ ?_ (fun n r hne ↦ .inl (hmap n r ▸ hne)) ?_ ?_
    (fun pc hmem ↦ bound_done hdone (h.bound pc hmem))
  · exact fun n task _ ht _ hc ↦ Coordinator.committed_timeoutTasks hacc.rows.committed now ht hc
  · intro hnil
    dsimp only
    rw [h.running hnil, hmapping hnil]
    rfl
  · exact fun hf ↦ (Bool.or_eq_false_iff.mp hf).1
  · intro hnil name _
    change e.read name = _
    rw [hfalse (hmapping hnil)]
  · intro hf name _
    change e.read name = _
    rw [hfalse (Bool.or_eq_false_iff.mp hf).2]
  · exact fun v n pc task hv hn ht hst ↦ h.keep hw hlater hv hn ht hst (fun r ↦ hmap n r)

theorem MapInv.step {act : JobAction} (h : MapInv spec d₀ s) (hw : Wired spec d₀ s)
    (hs : s.step spec act = some t) : MapInv spec d₀ t := by
  have hlater := CoordSys.later_of_step hw.accounting (sys_step hw hs)
  -- a step that touches neither the tasks nor the directory
  have hquiet : t.coord.tasks = s.coord.tasks → t.coord.created = s.coord.created →
      t.sys.given = s.sys.given → t.finished = s.finished → t.disk = s.disk →
      (∀ (v n : Nat) (pc : WorkerPc), t.workers[v]? = some pc → pc.task = some n →
        s.workers[v]? = some pc) → MapInv spec d₀ t := by
    intro htasks hcreated hgiven hfinished hdisk hworkers
    have hbound : ∀ pc ∈ t.workers, pc.Bound t.disk := by
      intro pc hmem
      obtain ⟨v, hv⟩ := List.mem_iff_getElem?.mp hmem
      cases hn : pc.task with
      | none => exact bound_of_task hn
      | some n =>
          rw [hdisk]
          exact h.bound pc (List.mem_of_getElem? (hworkers v n pc hv hn))
    refine h.frame hw.accounting hlater (by rw [htasks]; exact fun _ _ _ ht _ _ ↦ ht) hcreated
      (by rw [hgiven]; exact fun _ hk ↦ hk) (by rw [hfinished]; exact h.running)
      (by rw [hfinished]; exact id) (fun _ _ _ ↦ by rw [hdisk])
      (fun n r hne ↦ .inl (by rw [← hdisk]; exact hne)) (fun _ _ _ ↦ by rw [hdisk]) ?_ hbound
    exact fun v n pc task hv hn ht hst ↦
      h.keep hw hlater (hworkers v n pc hv hn) hn ht hst (fun r ↦ by rw [hdisk])
  cases step_cases hs with
  | registerWorker =>
      refine hquiet rfl rfl rfl rfl rfl ?_
      intro v n pc hv hn
      rcases getElem?_snoc_eq_some.mp hv with hold | ⟨-, rfl⟩
      · exact hold
      · simp [WorkerPc.task] at hn
  | @getTask w now sys res hpc hget =>
      exact h.getTask hw hget hlater (CoordSys.created_getTask hget)
  | advance hpc hadv hun => exact h.advance hw hpc hadv
  | taskDone hpc hdone hnext hsnap =>
      refine h.taskDone hw hpc hdone ?_ hlater
      rw [hnext]
      split <;> rfl
  | heartbeat => exact hquiet rfl rfl rfl rfl rfl (fun _ _ _ hv _ ↦ hv)
  | stopRunning =>
      exact hquiet (s.sys.tasks_stopRunning _) (s.sys.created_stopRunning _) rfl rfl rfl
        (fun _ _ _ hv _ ↦ hv)
  | done hdone => exact h.done hw hdone
  | crash =>
      refine hquiet rfl rfl rfl rfl rfl ?_
      intro v n pc hv hn
      rcases getElem?_set_eq_some.mp hv with ⟨-, -, rfl⟩ | ⟨-, hold⟩
      · simp [WorkerPc.task] at hn
      · exact hold

theorem mapInv_of_reaches (hclean : CleanStart d₀)
    (h : Reaches (step spec) (Job.init spec d₀) s) : MapInv spec d₀ s :=
  h.invariant (MapInv.init hclean) fun _ _ _ hr hs hu ↦ hu.step (wired_of_reaches hr) hs

end Job

end GoLabs.MapReduce
