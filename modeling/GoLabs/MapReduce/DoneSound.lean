import GoLabs.MapReduce.Records
import GoLabs.MapReduce.ReduceOutput

/-!
# What it means that the job is done

`TaskDone` marks a task completed before it renames its files, and `Done` asks for the marks only.
A late report of a reduce attempt removes the file that it shares with its replacement; if the
replacement has opened it for its last line by then, the line is lost, the rename fails and `Done`
still returns true.  As long as no late report comes in between, `Done` returns true only when every
output is in place.
-/

open GoLabs.Reasoning

namespace GoLabs.MapReduce

/-! ## Every reduce attempt writes a line -/

/-- The files of a reducer id have at least one pair. -/
theorem Snapshot.entries_ne_nil {spec : JobSpec} {d₀ d : Disk} {c : Coordinator} {r : GoString}
    {entries : List Entry} (h : Snapshot spec d₀ d c) (hne : reduceFiles d r ≠ [])
    (hentries : Entries d r entries) : entries ≠ [] := by
  rcases hentries.keys with ⟨kvs, hparse, -, hmem, -⟩
  rcases List.exists_mem_of_ne_nil _ hne with ⟨name, hname⟩
  rcases Option.map_eq_some_iff.mp hparse with ⟨parts, hparts, rfl⟩
  rcases mem_of_mapM hparts hname with ⟨part, hpart, hread⟩
  rcases Option.bind_eq_some_iff.mp hread with ⟨content, hcontent, hparse'⟩
  -- the file is the output of a map task, so it has a record
  have hcolon : 58 ∈ content := by
    rcases mem_reduceFiles.mp hname with ⟨hsome, hglob, -⟩
    rcases h.only name (glob_starts hglob) hsome with ⟨t, k, task, i, rfl, htask, ho, hc⟩
    rcases h.committed t task i htask ho hc with ⟨kvs', -, htext⟩
    rw [htext, mapText] at hcontent
    split at hcontent
    · simp at hcontent
    · rename_i hpart
      rcases List.exists_mem_of_ne_nil _ hpart with ⟨kv, hkv⟩
      rw [Option.some.injEq] at hcontent
      rw [← hcontent]
      exact List.mem_flatMap.mpr ⟨kv, hkv, colon_mem_mapRecord kv⟩
  rcases List.exists_mem_of_ne_nil _ (parseContent_ne_nil hparse' hcolon) with ⟨kv, hkv⟩
  have hkey := (hmem kv.1).mpr
    (List.mem_map_of_mem (List.mem_flatten.mpr ⟨part, hpart, hkv⟩))
  rintro rfl
  simp at hkey

/-! ## The invariant -/

/-- The attempt of a worker that does not open its output file again. -/
def WorkerPc.openedLast : WorkerPc → Option Nat
  | .reduceOpen n _ _ _ [] _ _ | .writing n _ [] _ | .reporting n _ => some n
  | _ => none

theorem WorkerPc.task_of_openedLast {pc : WorkerPc} {n : Nat} (h : pc.openedLast = some n) :
    pc.task = some n := by
  unfold WorkerPc.openedLast at h
  split at h <;> simp_all [WorkerPc.task]

namespace Job

def timedOut (s : Job) (n : Nat) : Bool := (s.coord.tasks[n]?).any (·.status = .timedOut)

/-- A reduce attempt that has timed out does not report while the attempt at the same reducer id
that has not is between the last time it opens the file and its own report. -/
def keepsOutput (s : Job) : JobAction → Bool
  | .taskDone w _ =>
      match s.workers[w]? with
      | some (.reporting n _) =>
          match s.originOf n with
          | some (.partition r) => !s.timedOut n || s.workers.all fun pc =>
              pc.openedLast.all fun k => s.timedOut k || s.originOf k ≠ some (.partition r)
          | _ => true
      | _ => true
  | _ => true

structure DoneInv (s : Job) : Prop where
  present : ∀ (w n : Nat) (pc : WorkerPc) (task : Task) (r : GoString),
    s.workers[w]? = some pc → pc.openedLast = some n → s.coord.tasks[n]? = some task →
    task.origin = .partition r → task.status ≠ .timedOut → s.disk.read (reduceOutName r) ≠ none
  ended : ∀ task ∈ s.coord.tasks, ∀ r, task.origin = .partition r →
    task.status = .completed ∨ task.status = .failed →
    (reduceOutName r, reduceFileName r) ∈ s.disk.renames

variable {spec : JobSpec} {d₀ : Disk} {s t : Job}

theorem DoneInv.init : DoneInv (Job.init spec d₀) := by
  refine ⟨by simp [Job.init], ?_⟩
  intro task ht r ho
  rcases CoordSys.mem_createMapTasks ht with ⟨j, f, -, rfl⟩
  simp at ho

/-- A task that has not timed out had not before. -/
theorem live_before (hlater : Tasks.Later s.coord.tasks t.coord.tasks) {n : Nat} {old task : Task}
    (hold : s.coord.tasks[n]? = some old) (htask : t.coord.tasks[n]? = some task)
    (hst : task.status ≠ .timedOut) : task.origin = old.origin ∧ old.status ≠ .timedOut := by
  rcases hlater n old hold with ⟨task', htask', hl⟩
  rw [htask, Option.some.injEq] at htask'
  subst htask'
  refine ⟨hl.origin, fun hto ↦ ?_⟩
  rw [hl.settled (.inl hto)] at hst
  exact hst hto

/-- A step that ends no reduce task and takes no output file away. -/
theorem DoneInv.frame {act : JobAction} (h : DoneInv s) (hw : Wired spec d₀ s)
    (hs : s.step spec act = some t)
    (hworkers : ∀ (v : Nat) (pc : WorkerPc), t.workers[v]? = some pc → pc.openedLast ≠ none →
      s.workers[v]? = some pc)
    (htemp : ∀ r, s.disk.read (reduceOutName r) ≠ none → t.disk.read (reduceOutName r) ≠ none)
    (hrenames : ∀ e ∈ s.disk.renames, e ∈ t.disk.renames)
    (hended : ∀ task ∈ t.coord.tasks, ∀ r, task.origin = .partition r →
      task.status = .completed ∨ task.status = .failed → task ∈ s.coord.tasks) : DoneInv t := by
  have hlater := CoordSys.later_of_step hw.accounting (sys_step hw hs)
  constructor
  · intro v n pc task r hv hn htask ho hst
    have hold := hworkers v pc hv (by rw [hn]; simp)
    rcases hw.busy v n pc hold (WorkerPc.task_of_openedLast hn) with ⟨-, -, old, holdtask, -⟩
    rcases live_before hlater holdtask htask hst with ⟨horigin, hst'⟩
    exact htemp r (h.present v n pc old r hold hn holdtask (horigin ▸ ho) hst')
  · intro task ht r ho hst
    exact hrenames _ (h.ended task (hended task ht r ho hst) r ho hst)

/-- An operation of a worker takes no file away. -/
theorem read_advance_ne_none {it : Iteration GoString} {e e' : Disk} {pc pc' : WorkerPc}
    (hadv : WorkerPc.Advance spec it e pc pc' e') {name : GoString} (h : e.read name ≠ none) :
    e'.read name ≠ none := by
  have hopen : ∀ file, (e.openFile file).2.read name ≠ none := by
    intro file
    rw [Disk.read_openFile]
    split
    · simp
    · exact h
  have hwrite : ∀ fd text, (e.write fd text).read name ≠ none := by
    intro fd text
    rw [Disk.read_write]
    split
    · simpa using h
    · exact h
  cases hadv with
  | mapOpen hn => exact hopen _
  | mapWrite => exact hwrite _ _
  | reduceOpen => exact hopen _
  | write => exact hwrite _ _
  | mapPanic => exact h
  | mapMissing hread => exact h
  | mapRead hread => exact h
  | mapEnd => exact h
  | readFail hread => exact h
  | read hread hparse => exact h
  | readEnd => exact h
  | writeEnd => exact h

/-- When a worker has opened its output file for the last time, the file is there. -/
theorem DoneInv.advance (h : DoneInv s) (hw : Wired spec d₀ s) (hsn : SnapInv spec d₀ s)
    (hwork : ReduceInv (fun _ _ _ _ => True) s) {w : Nat} {it : Iteration GoString}
    {pc pc' : WorkerPc} {e : Disk} (hpc : s.workers[w]? = some pc)
    (hadv : WorkerPc.Advance spec it s.disk pc pc' e) {n : Nat} {task : Task} {r : GoString}
    (hn : pc'.openedLast = some n) (htask : s.coord.tasks[n]? = some task)
    (ho : task.origin = .partition r) (hst : task.status ≠ .timedOut) :
    e.read (reduceOutName r) ≠ none := by
  have hfits : ∀ {k : Nat}, pc.task = some k → k = n → pc.Fits spec.nReduce n task := by
    rintro k hk rfl
    rcases hw.busy w k pc hpc hk with ⟨-, -, old, hold, hfits⟩
    rw [htask, Option.some.injEq] at hold
    exact hold ▸ hfits
  have hstays : ∀ name, s.disk.read name ≠ none → e.read name ≠ none :=
    fun _ ↦ read_advance_ne_none hadv
  cases hadv with
  | mapPanic => simp [WorkerPc.openedLast] at hn
  | mapOpen hnr => simp [WorkerPc.openedLast] at hn
  | mapWrite => simp [WorkerPc.openedLast] at hn
  | mapMissing hread => simp [WorkerPc.openedLast] at hn
  | mapRead hread => simp [WorkerPc.openedLast] at hn
  | mapEnd =>
      simp only [WorkerPc.openedLast, Option.some.injEq] at hn
      rcases hfits rfl hn with ⟨-, ⟨i, hi⟩, -⟩
      rw [ho] at hi
      simp at hi
  | readFail hread => simp [WorkerPc.openedLast] at hn
  | read hread hparse => simp [WorkerPc.openedLast] at hn
  | @readEnd k r' m =>
      -- there is a line to write
      cases hrange : m.range it with
      | cons e es => simp [hrange, WorkerPc.openedLast] at hn
      | nil =>
          simp only [hrange, WorkerPc.openedLast, Option.some.injEq] at hn
          subst hn
          cases hd : s.snapshot with
          | none =>
              have hnil := hsn.none_iff.mp hd
              exact absurd ho (hw.accounting.no_partition hnil (List.mem_of_getElem? htask) r)
          | some d =>
              rcases hwork d hd w k _ task r hpc rfl htask ho with
                ⟨⟨pre, kvs, hfiles, hparse, rfl⟩, -⟩
              rw [List.append_nil] at hfiles
              have hne : reduceFiles d r ≠ [] := by
                rw [← (hsn.found d hd).files task (List.mem_of_getElem? htask) r ho]
                have hrow := hw.accounting.rows.fits task (List.mem_of_getElem? htask)
                rw [Task.Fits, ho] at hrow
                exact hrow.2.1
              exact absurd hrange ((hsn.found d hd).entries_ne_nil hne
                ⟨kvs, it, by rw [hfiles]; exact hparse, rfl⟩)
  | @reduceOpen k r' key values entries created =>
      cases entries with
      | cons e es => simp [WorkerPc.openedLast] at hn
      | nil =>
          simp only [WorkerPc.openedLast, Option.some.injEq] at hn
          have hr := (hfits rfl hn).1
          rw [ho, Origin.partition.injEq] at hr
          rw [hr, Disk.read_openFile, if_pos rfl]
          simp
  | @write k r' key values entries created fd =>
      cases entries with
      | cons e es => simp [WorkerPc.openedLast] at hn
      | nil =>
          simp only [WorkerPc.openedLast, Option.some.injEq] at hn
          exact hstays _
            (h.present w n _ task r hpc (by simp [WorkerPc.openedLast, hn]) htask ho hst)
  | @writeEnd k r' created =>
      simp only [WorkerPc.openedLast, Option.some.injEq] at hn
      exact h.present w n _ task r hpc (by simp [WorkerPc.openedLast, hn]) htask ho hst

/-- A worker begins by reading. -/
theorem begin_openedLast {inputs : List GoString} {n nReduce : Nat} {task : Task}
    (hfits : task.Fits inputs) :
    (WorkerPc.begin ⟨task.files, nReduce, task.taskType, n⟩).openedLast = none := by
  obtain ⟨_, _, hpc⟩ | ⟨_, _, hpc⟩ := begin_cases n nReduce hfits <;> rw [hpc] <;> rfl

/-- The guard, for a late report of an attempt at `r`. -/
theorem keepsOutput_late {w n v k : Nat} {it : Iteration GoString} {files : List GoString}
    {task other : Task} {pc : WorkerPc} {r : GoString}
    (hkeeps : s.keepsOutput (.taskDone w it) = true)
    (hpc : s.workers[w]? = some (.reporting n files)) (htask : s.coord.tasks[n]? = some task)
    (ho : task.origin = .partition r) (hst : task.status = .timedOut)
    (hv : s.workers[v]? = some pc) (hk : pc.openedLast = some k)
    (hother : s.coord.tasks[k]? = some other) (ho' : other.origin = .partition r) :
    other.status = .timedOut := by
  have hlate : s.timedOut n = true := by simp [timedOut, htask, hst]
  simp only [keepsOutput, hpc, originOf_eq htask ho, hlate, Bool.not_true, Bool.false_or,
    List.all_eq_true] at hkeeps
  have hall := hkeeps pc (List.mem_of_getElem? hv)
  rw [hk, Option.all_some, originOf_eq hother ho'] at hall
  simpa [timedOut, hother] using hall

/-- The file that a reduce task reports. -/
theorem ReduceInv.reported_files (hwork : ReduceInv (fun _ _ _ _ => True) s) (hw : Wired spec d₀ s)
    (hsn : SnapInv spec d₀ s) {w n k : Nat} {files : List GoString} {task : Task}
    (hpc : s.workers[w]? = some (.reporting n files)) (htask : s.coord.tasks[n]? = some task)
    (ho : task.origin = .partition (dec k)) : files = [reduceOutName (dec k)] := by
  have hacc := hw.accounting
  have hmem := List.mem_of_getElem? htask
  cases hd : s.snapshot with
  | none => exact absurd ho (hacc.no_partition (hsn.none_iff.mp hd) hmem _)
  | some d =>
      obtain ⟨entries, hentries, hf, -⟩ := hwork d hd w n _ task (dec k) hpc rfl htask ho
      -- a reduce task has a file, its file has a pair, and so one record at least is written
      have hne : reduceFiles d (dec k) ≠ [] := by
        rw [← (hsn.found d hd).files task hmem _ ho]
        have hrow := hacc.rows.fits task hmem
        rw [Task.Fits, ho] at hrow
        exact hrow.2.1
      rw [hf, outNames, if_neg ((hsn.found d hd).entries_ne_nil hne hentries)]

/-- The file that the live attempt has opened for the last time stays, until that attempt renames
it. -/
theorem DoneInv.present_report (h : DoneInv s) (hw : Wired spec d₀ s) {w v n j k : Nat}
    {it : Iteration GoString} {pc : WorkerPc} {task other : Task} {r : GoString}
    {err : Option GoString} (hkeeps : s.keepsOutput (.taskDone w it) = true)
    (hpc : s.workers[w]? = some (.reporting n [reduceOutName (dec k)]))
    (htask : s.coord.tasks[n]? = some task) (ho : task.origin = .partition (dec k))
    (hdone : Coordinator.TaskDone Disk.os it s.coord s.disk n [reduceOutName (dec k)]
      t.coord t.disk err)
    (hvw : v ≠ w) (hv : s.workers[v]? = some pc) (hj : pc.openedLast = some j)
    (hother : s.coord.tasks[j]? = some other) (ho' : other.origin = .partition r)
    (hlive : other.status ≠ .timedOut) : t.disk.read (reduceOutName r) ≠ none := by
  have hread := h.present v j pc other r hv hj hother ho' hlive
  by_cases hr : r = dec k
  · -- the reporter is not live, or it would be this attempt; but then it may not report now
    subst hr
    exfalso
    by_cases hst : task.status = .timedOut
    · exact hlive (keepsOutput_late hkeeps hpc htask ho hst hv hj hother ho')
    · exact hw.task_ne hv (WorkerPc.task_of_openedLast hj) hpc rfl hvw
        (hw.accounting.live_unique hother htask (ho'.trans ho.symm) hlive hst)
  · rwa [read_taskDone hdone]
    · simpa using fun heq ↦ hr (reduceOutName_inj heq)
    · rw [List.map_singleton, newName_reduceOutName, List.mem_singleton]
      exact fun heq ↦ reduceFileName_not_temp _ (heq ▸ temp_reduceOutName r)

/-- The report of a live reduce task renames its file, which is there. -/
theorem DoneInv.renamed_report (h : DoneInv s) (hw : Wired spec d₀ s) {w n k : Nat}
    {it : Iteration GoString} {task : Task} {err : Option GoString}
    (hpc : s.workers[w]? = some (.reporting n [reduceOutName (dec k)]))
    (htask : s.coord.tasks[n]? = some task) (ho : task.origin = .partition (dec k))
    (hst : task.status ≠ .timedOut)
    (hdone : Coordinator.TaskDone Disk.os it s.coord s.disk n [reduceOutName (dec k)]
      t.coord t.disk err) :
    (reduceOutName (dec k), reduceFileName (dec k)) ∈ t.disk.renames := by
  have htype : task.taskType = .reduce := by
    rw [hw.accounting.rows.typed (List.mem_of_getElem? htask), ho]
    rfl
  have hthere := h.present w n _ task (dec k) hpc rfl htask ho hst
  obtain ⟨hto, -⟩ | ⟨-, err', hrename, -⟩ := (hdone.of_reduce htask htype).2
  · exact absurd hto hst
  · obtain ⟨text, htext⟩ := Option.ne_none_iff_exists'.mp hthere
    obtain ⟨e, he, -⟩ := renameTempFiles_reduceOutName htext
    have hren := (renames_renameTempFiles he).2 rfl _ (List.mem_singleton.mpr rfl)
    rw [he, Prod.mk.injEq] at hrename
    rwa [newName_reduceOutName, hrename.1] at hren

theorem DoneInv.report (h : DoneInv s) (hw : Wired spec d₀ s) (hm : MapInv spec d₀ s)
    (hsn : SnapInv spec d₀ s) (hwork : ReduceInv (fun _ _ _ _ => True) s) {w n : Nat}
    {it : Iteration GoString} {files : List GoString} {err : Option GoString} {pc : WorkerPc}
    (hkeeps : s.keepsOutput (.taskDone w it) = true) (hs : s.step spec (.taskDone w it) = some t)
    (hpc : s.workers[w]? = some (.reporting n files))
    (hdone : Coordinator.TaskDone Disk.os it s.coord s.disk n files t.coord t.disk err)
    (hworkers : t.workers = s.workers.set w pc) (hidle : pc.openedLast = none) : DoneInv t := by
  obtain ⟨-, -, task, htask, -, hnames⟩ := hw.busy w n _ hpc rfl
  have hold : ∀ (v : Nat) (pcv : WorkerPc), t.workers[v]? = some pcv → pcv.openedLast ≠ none →
      v ≠ w ∧ s.workers[v]? = some pcv := by
    intro v pcv hv hne
    rw [hworkers] at hv
    obtain ⟨-, -, rfl⟩ | ⟨hvw, hold⟩ := getElem?_set_eq_some.mp hv
    · exact absurd hidle hne
    · exact ⟨hvw, hold⟩
  cases ho : task.origin with
  | input i =>
      -- a map task touches no file of the reduce tasks
      rw [ho] at hnames
      refine h.frame hw hs (fun v pcv hv hne ↦ (hold v pcv hv hne).2) ?_ (renames_taskDone hdone) ?_
      · intro r hne
        rwa [(read_report_map hdone hnames r).1]
      · intro task' ht' r hr hend
        obtain hmem | hidle' | ⟨old, b, hn, -, rfl⟩ := hdone.mem_tasks ht'
        · exact hmem
        · rw [hidle'] at hend
          simp at hend
        · rw [htask, Option.some.injEq] at hn
          subst hn
          rw [ho] at hr
          cases hr
  | partition r =>
      have hmem := List.mem_of_getElem? htask
      have hopen := (hw.accounting.rows.opened (.partition r)).mp
        (List.mem_map.mpr ⟨task, hmem, ho⟩)
      obtain ⟨k, rfl⟩ := hm.ids r hopen
      have hfiles := hwork.reported_files hw hsn hpc htask ho
      subst hfiles
      constructor
      · intro v j pcv task' r' hv hj htask' ho' hst'
        obtain ⟨hvw, hv'⟩ := hold v pcv hv (by rw [hj]; simp)
        obtain ⟨-, -, other, hother, -⟩ := hw.busy v j pcv hv' (WorkerPc.task_of_openedLast hj)
        have hlater := CoordSys.later_of_step hw.accounting (sys_step hw hs)
        obtain ⟨horigin, hlive⟩ := live_before hlater hother htask' hst'
        rw [horigin] at ho'
        exact h.present_report hw hkeeps hpc htask ho hdone hvw hv' hj hother ho' hlive
      · intro task' ht' r' hr' hend
        obtain hmem' | hidle' | ⟨old, b, hn, hst, rfl⟩ := hdone.mem_tasks ht'
        · exact renames_taskDone hdone _ (h.ended task' hmem' r' hr' hend)
        · rw [hidle'] at hend
          simp at hend
        · rw [htask, Option.some.injEq] at hn
          subst hn
          rw [ho, Origin.partition.injEq] at hr'
          subst hr'
          exact h.renamed_report hw hpc htask ho hst hdone

theorem reduceInv_true_of_reaches (hclean : CleanStart d₀)
    (h : Reaches (step spec) (Job.init spec d₀) s) : ReduceInv (fun _ _ _ _ => True) s := by
  refine h.invariant ReduceInv.init ?_
  intro u act v hr hs hu
  exact hu.step (wired_of_reaches hr) (snapInv_of_reaches hclean hr) hs
    ⟨by simp, by simp, by simp, by simp, by simp⟩

theorem DoneInv.step {act : JobAction} (h : DoneInv s) (hw : Wired spec d₀ s)
    (hm : MapInv spec d₀ s) (hsn : SnapInv spec d₀ s)
    (hwork : ReduceInv (fun _ _ _ _ => True) s) (hkeeps : s.keepsOutput act = true)
    (hs : s.step spec act = some t) : DoneInv t := by
  cases step_cases hs with
  | registerWorker =>
      refine h.frame hw hs ?_ (fun _ hr ↦ hr) (fun _ he ↦ he) (fun _ ht _ _ _ ↦ ht)
      intro v pc hv hne
      rcases getElem?_snoc_eq_some.mp hv with hold | ⟨-, rfl⟩
      · exact hold
      · exact absurd rfl hne
  | @getTask w now sys res hpc hget =>
      rcases CoordSys.getTask_cases hw.accounting hget with ⟨hfs, -, hcases⟩
      have hdisk : ∀ name, sys.fs.read name = s.disk.read name :=
        fun name ↦ congrArg (Disk.read · name) hfs
      refine h.frame hw hs ?_ (fun r hr ↦ by change sys.fs.read _ ≠ none; rwa [hdisk])
        (by change ∀ e ∈ s.disk.renames, e ∈ sys.fs.renames; rw [hfs]; exact fun _ he ↦ he) ?_
      · intro v pc hv hne
        rcases getElem?_set_eq_some.mp hv with ⟨-, -, rfl⟩ | ⟨-, hold⟩
        · rcases hcases with ⟨rfl, -⟩ | ⟨k, task, hk, -, rfl, -⟩
          · exact absurd rfl hne
          · have hfits := hw.accounting.rows.fits task (List.mem_of_getElem? hk)
            exact absurd (begin_openedLast hfits) hne
        · exact hold
      · -- the task handed out is in progress, so it has not ended
        intro task ht r _ hend
        change task ∈ sys.coord.tasks at ht
        rcases hcases with ⟨-, -, htasks⟩ | ⟨k, old, hk, -, -, -, htasks⟩
        · rwa [htasks] at ht
        · rw [htasks] at ht
          rcases List.mem_or_eq_of_mem_set ht with hmem | rfl
          · exact hmem
          · simp at hend
  | @advance w it pc pc' e unreported hpc hadv hun =>
      constructor
      · intro v n pcv task r hv hn htask ho hst
        rcases getElem?_set_eq_some.mp hv with ⟨-, -, rfl⟩ | ⟨-, hold⟩
        · exact h.advance hw hsn hwork hpc hadv hn htask ho hst
        · exact read_advance_ne_none hadv (h.present v n pcv task r hold hn htask ho hst)
      · intro task ht r ho hend
        change _ ∈ e.renames
        rw [renames_advance hadv]
        exact h.ended task ht r ho hend
  | @taskDone w n it files sys err pc snapshot hpc hdone hnext hsnap =>
      rcases CoordSys.taskDone_given hdone with ⟨-, -, hcases⟩
      have hidle : pc.openedLast = none := by
        rw [hnext]
        split <;> rfl
      exact h.report hw hm hsn hwork hkeeps hs hpc hcases rfl hidle
  | heartbeat =>
      exact h.frame hw hs (fun _ _ hv _ ↦ hv) (fun _ hr ↦ hr) (fun _ he ↦ he) (fun _ ht _ _ _ ↦ ht)
  | stopRunning =>
      refine h.frame hw hs (fun _ _ hv _ ↦ hv) (fun _ hr ↦ hr) (fun _ he ↦ he) ?_
      intro task ht _ _ _
      exact s.sys.tasks_stopRunning _ ▸ ht
  | @done now c e result hdone =>
      rcases Coordinator.done_cases hdone with ⟨rfl, hresult⟩
      refine h.frame hw hs (fun _ _ hv _ ↦ hv) ?_ ?_ ?_
      · -- `Done` deletes map output only
        intro r hr
        change e.read _ ≠ none
        rwa [read_done hdone (prefix_disjoint (by decide) (temp_reduceOutName r))]
      · intro p hp
        change p ∈ e.renames
        rcases hresult with ⟨-, rfl⟩ | ⟨-, -, rfl⟩
        · exact hp
        · rwa [renames_deleteFiles]
      · intro task ht r _ hend
        rcases Coordinator.mem_timeoutTasks ht with hmem | hto | hidle
        · exact hmem
        · rw [hto] at hend
          simp at hend
        · rw [hidle] at hend
          simp at hend
  | crash =>
      refine h.frame hw hs ?_ (fun _ hr ↦ hr) (fun _ he ↦ he) (fun _ ht _ _ _ ↦ ht)
      intro v pc hv hne
      rcases getElem?_set_eq_some.mp hv with ⟨-, -, rfl⟩ | ⟨-, hold⟩
      · exact absurd rfl hne
      · exact hold

theorem doneInv_of_reaches (hclean : CleanStart d₀)
    (h : Reaches (restrict (step spec) keepsOutput) (Job.init spec d₀) s) : DoneInv s := by
  refine h.invariant DoneInv.init ?_
  intro u act v hr hstep hu
  rcases restrict_eq_some.mp hstep with ⟨hkeeps, hs⟩
  have hr' := hr.of_restrict
  exact hu.step (wired_of_reaches hr') (mapInv_of_reaches hclean hr')
    (snapInv_of_reaches hclean hr') (reduceInv_true_of_reaches hclean hr') hkeeps hs

/-- `Done` gets past the switch only when the live attempts at all reducer ids have ended. -/
theorem ended_of_settled {inputs : List GoString} {sys : CoordSys Disk}
    (hacc : CoordSys.Accounting inputs sys) (hsettled : sys.coord.settled = true) {r : GoString}
    (hr : r ∈ sys.coord.created.flatten) : ∃ task ∈ sys.coord.tasks,
      task.origin = .partition r ∧ (task.status = .completed ∨ task.status = .failed) := by
  have hone := hacc.liveOf (o := .partition r) hr
  rcases List.countP_pos_iff.mp (by rw [hone]; omega) with ⟨task, htask, hlive⟩
  simp only [decide_eq_true_eq] at hlive
  obtain ⟨hidle, hprogress⟩ := hacc.ended hsettled htask
  refine ⟨task, htask, hlive.1, ?_⟩
  cases hs : task.status <;> simp_all

end Job

/-- In every run in which no late report of a reduce attempt comes between the last opening of the
file by its live replacement and the report of that one: when `Done` returns true, `tempmr-out-r`
has been renamed to `mr-out-r` for every reducer id that has tasks. -/
theorem done_sound {spec : JobSpec} {d₀ : Disk} {s : Job} (hclean : Job.CleanStart d₀)
    (h : Reaches (restrict (Job.step spec) Job.keepsOutput) (Job.init spec d₀) s)
    {now : Nat → Int} (hdone : (s.coord.done Disk.os s.disk now).2.2 = true) :
    ∀ r ∈ s.coord.created.flatten, (reduceOutName r, reduceFileName r) ∈ s.disk.renames := by
  intro r hr
  -- the marks are read after `timeoutTasks`
  rcases hstep : s.coord.done Disk.os s.disk now with ⟨c, e, result⟩
  rw [hstep] at hdone
  dsimp only at hdone
  subst hdone
  have hs : s.step spec (.done now) = some { s with
      sys := { s.sys with coord := c, fs := e }, finished := s.finished || true } := by
    simp [Job.step, hstep]
  have ht := h.snoc (restrict_eq_some.mpr ⟨rfl, hs⟩)
  rcases Coordinator.done_cases hstep with ⟨hc, ⟨hfalse, -⟩ | ⟨-, hsettled, he⟩⟩
  · simp at hfalse
  · rcases s.coord.timeoutTasks_eq now with ⟨tasks, heq⟩
    have hcreated : c.created = s.coord.created := by rw [hc, heq]
    rcases Job.ended_of_settled (Job.wired_of_reaches ht.of_restrict).accounting hsettled
      (r := r) (by change r ∈ c.created.flatten; rwa [hcreated]) with ⟨task, htask, ho, hend⟩
    have hren := (Job.doneInv_of_reaches hclean ht).ended task htask r ho hend
    change _ ∈ e.renames at hren
    rwa [he, renames_deleteFiles] at hren

def slowReducerEnd : List JobAction := slowReducer ++
  [.heartbeat 0, .stopRunning ⟨0, 2⟩, .heartbeat 1, .stopRunning ⟨1, 2⟩]

theorem slowReducerEnd_runs : (run (restrict (Job.step twice) Job.keepsOutput)
    (Job.init twice twiceDisk) slowReducerEnd).isSome = true := by decide

theorem done_sound_slowReducer :
    ∃ s, run (restrict (Job.step twice) Job.keepsOutput) (Job.init twice twiceDisk)
        slowReducerEnd = some s ∧ (s.coord.done Disk.os s.disk fun _ => 30).2.2 = true ∧
      s.coord.created = [[lit "1"]] ∧
      (reduceOutName (lit "1"), reduceFileName (lit "1")) ∈ s.disk.renames := by
  have hdone : (Coordinator.done Disk.os (((run (restrict (Job.step twice) Job.keepsOutput)
      (Job.init twice twiceDisk) slowReducerEnd).get slowReducerEnd_runs).coord)
      (((run (restrict (Job.step twice) Job.keepsOutput)
      (Job.init twice twiceDisk) slowReducerEnd).get slowReducerEnd_runs).disk)
      fun _ => 30).2.2 = true := by decide
  refine ⟨_, (Option.some_get slowReducerEnd_runs).symm, hdone, by decide, ?_⟩
  exact done_sound twiceDisk_clean (reaches_get slowReducerEnd_runs) hdone (lit "1") (by decide)

/-- Both attempts at the reducer id have written their line when the first one, which has timed out,
reports and takes the file away; then the second one reports. -/
def lateReducer : List JobAction :=
  twiceMapped ++ [.getTask 0 5] ++ goOn 0 5 ++ [.done fun _ => 20, .getTask 1 20] ++ goOn 1 5 ++
  [.taskDone 0 (.stored _), .taskDone 1 (.stored _)]

theorem lateReducer_runs :
    (run (Job.step twice) (Job.init twice twiceDisk) lateReducer).isSome = true := by decide

/-- `Done` returns true and there is no `mr-out-1`. -/
theorem done_without_output :
    Job.CleanDir twiceDisk ∧ ∃ s, run (Job.step twice) (Job.init twice twiceDisk) lateReducer =
        some s ∧ (s.coord.done Disk.os s.disk fun _ => 21).2.2 = true ∧
      s.coord.created = [[lit "1"]] ∧ s.disk.read (lit "mr-out-1") = none ∧
      (reduceOutName (lit "1"), reduceFileName (lit "1")) ∉ s.disk.renames :=
  ⟨twiceDisk_cleanDir, _, (Option.some_get lateReducer_runs).symm, by decide, by decide,
    by decide, by decide⟩

end GoLabs.MapReduce
