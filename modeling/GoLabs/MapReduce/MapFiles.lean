import GoLabs.MapReduce.DiskOps
import GoLabs.MapReduce.JobRuns

/-!
# The files of the map phase

Only the worker that was given map task `t` opens `tempm-out-t-r`, and what it has written so far is
what is there.  Only `TaskDone` for task `t` makes `m-out-t-r`, once, from the complete output
of an attempt that has not timed out.  Until `Done` has returned true nothing else touches the
`m-out-` files.
-/

open GoLabs.Reasoning

namespace GoLabs.MapReduce

/-! ## The text of a partition -/

/-- The pairs that go to reducer `r`. -/
def partOf (nReduce r : Nat) (kvs : List KeyValue) : List KeyValue :=
  kvs.filter fun kv => ihash kv.key % nReduce = r

/-- What a file for reducer `r` holds when `kvs` have been written; there is no file for no pair. -/
def mapText (nReduce r : Nat) (kvs : List KeyValue) : Option GoString :=
  if partOf nReduce r kvs = [] then none else some ((partOf nReduce r kvs).flatMap mapRecord)

variable {nReduce r : Nat} {kvs : List KeyValue} {kv : KeyValue}

theorem mapText_nil : mapText nReduce r [] = none := rfl

theorem mapText_getD :
    (mapText nReduce r kvs).getD [] = (partOf nReduce r kvs).flatMap mapRecord := by
  unfold mapText
  split
  · rename_i hnil
    rw [hnil]
    rfl
  · rfl

theorem mapText_snoc : mapText nReduce r (kvs ++ [kv]) =
    if r = ihash kv.key % nReduce then some ((mapText nReduce r kvs).getD [] ++ mapRecord kv)
    else mapText nReduce r kvs := by
  rw [mapText_getD]
  unfold mapText partOf
  by_cases hr : ihash kv.key % nReduce = r
  · simp [hr]
  · simp [hr, Ne.symm hr]

theorem mapText_ne_none : mapText nReduce r kvs ≠ none ↔ partOf nReduce r kvs ≠ [] := by
  unfold mapText
  split <;> simp_all

/-! ## The invariant -/

/-- The pairs of an attempt are those of its input file as the job found it, as long as no input
file has a name that the job keeps for itself. -/
def Emitted (spec : JobSpec) (d : Disk) (t : Nat) (task : Task) (kvs : List KeyValue) : Prop :=
  (∀ f ∈ spec.inputs, ¬ Reserved f) →
    ∃ f content, task.files = [f] ∧ d.read f = some content ∧ kvs = spec.mapf t f content

/-- The temporary files of map task `t` hold `kvs`, and `names` are their names. -/
structure Holds (nReduce : Nat) (d : Disk) (t : Nat) (kvs : List KeyValue)
    (names : List GoString) : Prop where
  text : ∀ r, d.read (mapOutName t r) = mapText nReduce r kvs
  names : ∀ r, mapOutName t r ∈ names ↔ mapText nReduce r kvs ≠ none

/-- The temporary files of map task `t` hold `kvs`, and the one for `kv` has been opened since. -/
structure HoldsOpen (nReduce : Nat) (d : Disk) (t : Nat) (kvs : List KeyValue) (kv : KeyValue)
    (names : List GoString) : Prop where
  text : ∀ r, d.read (mapOutName t r) =
    if r = ihash kv.key % nReduce then some ((mapText nReduce r kvs).getD [])
    else mapText nReduce r kvs
  names : ∀ r, mapOutName t r ∈ names ↔ r = ihash kv.key % nReduce ∨ mapText nReduce r kvs ≠ none

/-- What the directory holds for a worker that is busy with map task `t`. -/
def MapPc (spec : JobSpec) (d₀ d : Disk) (t : Nat) (task : Task) : WorkerPc → Prop
  | .mapping _ _ files kvs created =>
      (files = task.files ∧ kvs = [] ∧ Holds spec.nReduce d t [] created.keys) ∨
      (files = [] ∧ ∃ written, Emitted spec d₀ t task (written ++ kvs) ∧
        Holds spec.nReduce d t written created.keys)
  | .mapOpen _ _ files kv kvs created _ =>
      files = [] ∧ ∃ written, Emitted spec d₀ t task (written ++ kv :: kvs) ∧
        HoldsOpen spec.nReduce d t written kv created.keys
  | .reporting _ files => (∃ i, task.origin = .input i) →
      ∃ kvs, Emitted spec d₀ t task kvs ∧ Holds spec.nReduce d t kvs files
  | _ => True

/-- The names that the output file of a reduce attempt can have while it is open: another attempt at
the reducer id may have put the file in its place, or taken it away. -/
def Placed (r : GoString) (x : Option GoString) : Prop :=
  ∀ name, x = some name → name = reduceOutName r ∨ name = reduceFileName r

/-- Which file a worker has open. -/
def WorkerPc.Bound (d : Disk) : WorkerPc → Prop
  | .mapOpen t nReduce _ kv _ _ fd =>
      d.opened[fd]? = some (some (mapOutName t (ihash kv.key % nReduce)))
  | .reduceOpen _ r _ _ _ _ fd => ∃ x, d.opened[fd]? = some x ∧ Placed r x
  | _ => True

section Congruence

variable {spec : JobSpec} {d₀ : Disk}

theorem Emitted.later {n : Nat} {a b : Task} {kvs : List KeyValue} (h : Emitted spec d₀ n a kvs)
    (hl : a.Later b) : Emitted spec d₀ n b kvs := by
  intro hin
  rcases h hin with ⟨f, content, hf, hrest⟩
  exact ⟨f, content, by rw [hl.files, hf], hrest⟩

theorem Holds.congr {n : Nat} {e e' : Disk} {kvs : List KeyValue} {names : List GoString}
    (h : Holds nReduce e n kvs names)
    (hread : ∀ r, e'.read (mapOutName n r) = e.read (mapOutName n r)) :
    Holds nReduce e' n kvs names :=
  ⟨fun r ↦ by rw [hread, h.text], h.names⟩

theorem HoldsOpen.congr {n : Nat} {e e' : Disk} {kvs : List KeyValue} {kv : KeyValue}
    {names : List GoString} (h : HoldsOpen nReduce e n kvs kv names)
    (hread : ∀ r, e'.read (mapOutName n r) = e.read (mapOutName n r)) :
    HoldsOpen nReduce e' n kvs kv names :=
  ⟨fun r ↦ by rw [hread, h.text], h.names⟩

theorem MapPc.later {n : Nat} {a b : Task} {e e' : Disk} {pc : WorkerPc}
    (h : MapPc spec d₀ e n a pc) (hl : a.Later b)
    (hread : ∀ r, e'.read (mapOutName n r) = e.read (mapOutName n r)) :
    MapPc spec d₀ e' n b pc := by
  cases pc with
  | mapping t n' files kvs created =>
      rcases h with ⟨hf, hk, hh⟩ | ⟨hf, written, he, hh⟩
      · exact .inl ⟨by rw [hl.files, hf], hk, hh.congr hread⟩
      · exact .inr ⟨hf, written, Emitted.later he hl, hh.congr hread⟩
  | mapOpen t n' files kv kvs created fd =>
      rcases h with ⟨hf, written, he, hh⟩
      exact ⟨hf, written, Emitted.later he hl, hh.congr hread⟩
  | reporting t files =>
      intro hin
      rw [hl.origin] at hin
      rcases h hin with ⟨kvs, he, hh⟩
      exact ⟨kvs, Emitted.later he hl, hh.congr hread⟩
  | idle => trivial
  | reading t r files m => trivial
  | writing t r entries created => trivial
  | reduceOpen t r key values entries created fd => trivial
  | gone => trivial

/-- The file for the next pair is opened. -/
theorem Holds.openFile {n : Nat} {e : Disk} {kvs : List KeyValue} {created : Created}
    {kv : KeyValue} (h : Holds nReduce e n kvs created.keys) :
    HoldsOpen nReduce (e.openFile (mapOutName n (ihash kv.key % nReduce))).2 n kvs kv
      (created.insert (mapOutName n (ihash kv.key % nReduce)) true).keys := by
  have hname : ∀ r, mapOutName n r = mapOutName n (ihash kv.key % nReduce) ↔
      r = ihash kv.key % nReduce :=
    fun r ↦ ⟨fun heq ↦ (mapOutName_inj heq).2, fun heq ↦ by rw [heq]⟩
  constructor
  · intro r
    rw [Disk.read_openFile, h.text, h.text]
    by_cases hr : r = ihash kv.key % nReduce
    · rw [if_pos ((hname r).mpr hr), if_pos hr, hr]
    · rw [if_neg (mt (hname r).mp hr), if_neg hr]
  · intro r
    rw [GoMap.mem_keys_insert, h.names, hname]

/-- The pair is written to the file that was opened for it. -/
theorem HoldsOpen.write {n fd : Nat} {e : Disk} {kvs : List KeyValue} {kv : KeyValue}
    {names : List GoString} (h : HoldsOpen nReduce e n kvs kv names)
    (hfd : e.opened[fd]? = some (some (mapOutName n (ihash kv.key % nReduce)))) :
    Holds nReduce (e.write fd (mapRecord kv)) n (kvs ++ [kv]) names := by
  constructor
  · intro r
    rw [Disk.read_write, hfd, h.text, mapText_snoc]
    by_cases hr : r = ihash kv.key % nReduce
    · simp [hr]
    · have hne : mapOutName n (ihash kv.key % nReduce) ≠ mapOutName n r :=
        fun heq ↦ hr (mapOutName_inj heq).2.symm
      simp [hr, hne]
  · intro r
    rw [h.names, mapText_snoc]
    by_cases hr : r = ihash kv.key % nReduce
    · simp [hr]
    · simp [hr]

theorem Holds.snoc {n : Nat} {e : Disk} {kvs : List KeyValue} {created : Created} {kv : KeyValue}
    (h : Holds nReduce e n kvs created.keys) :
    Holds nReduce (e.append (mapOutName n (ihash kv.key % nReduce)) (mapRecord kv)) n
      (kvs ++ [kv]) (created.insert (mapOutName n (ihash kv.key % nReduce)) true).keys :=
  h.openFile.write Disk.opened_openFile

/-- The names that `TaskDone` may touch for a worker that reports task `n`. -/
theorem read_taskDone {n : Nat} {it : Iteration GoString} {files : List GoString}
    {c c' : Coordinator} {e e' : Disk} {err : Option GoString}
    (hdone : Coordinator.TaskDone Disk.os it c e n files c' e' err) {name : GoString}
    (hname : name ∉ files) (hnew : name ∉ files.map newName) : e'.read name = e.read name := by
  cases hdone with
  | late ht hst hremove => exact read_removeFiles_of_notMem hremove hname
  | failed ht hst htype hrename => exact read_renameTempFiles_of_notMem hrename hname hnew
  | mapped ht hst htype hrename hnum => exact read_renameTempFiles_of_notMem hrename hname hnew
  | lastMapped ht hst htype hrename hnum hglob hgroup =>
      exact read_renameTempFiles_of_notMem hrename hname hnew
  | lastFailed ht hst htype hrename hnum hglob =>
      exact read_renameTempFiles_of_notMem hrename hname hnew
  | reduced ht hst htype hrename hphase =>
      exact read_renameTempFiles_of_notMem hrename hname hnew
  | other ht hst htype => rfl

/-- `Done` takes away files whose names begin with `m-out`, and nothing else. -/
theorem read_done {c c' : Coordinator} {e e' : Disk} {now : Nat → Int} {result : Bool}
    (hdone : c.done Disk.os e now = (c', e', result)) {name : GoString}
    (hname : ¬ lit "m-out" <+: name) : e'.read name = e.read name := by
  rcases (Coordinator.done_cases hdone).2 with ⟨-, rfl⟩ | ⟨-, -, rfl⟩
  · rfl
  · rcases read_deleteFiles e (lit "m-out*") name with hsame | ⟨hmatch, -⟩
    · exact hsame
    · exact absurd (delete_pattern hmatch) hname

/-- The open files that `TaskDone` may move or take away. -/
theorem through_taskDone {n : Nat} {it : Iteration GoString} {files : List GoString}
    {c c' : Coordinator} {e e' : Disk} {err : Option GoString}
    (hdone : Coordinator.TaskDone Disk.os it c e n files c' e' err) :
    Disk.Through (fun f => ∃ file ∈ files, f = unlinked file ∨ f = moved file (newName file))
      e e' := by
  have hrenamed : ∀ {e' : Disk} {err : Option GoString},
      renameTempFiles Disk.os e files = (e', err) →
      Disk.Through (fun f => ∃ file ∈ files, f = unlinked file ∨ f = moved file (newName file))
        e e' := by
    intro e' err hrename
    refine (through_renameTempFiles hrename).mono ?_
    rintro f ⟨file, hmem, hf⟩
    exact ⟨file, hmem, .inr hf⟩
  cases hdone with
  | late ht hst hremove =>
      refine (through_removeFiles hremove).mono ?_
      rintro f ⟨file, hmem, hf⟩
      exact ⟨file, hmem, .inl hf⟩
  | failed ht hst htype hrename => exact hrenamed hrename
  | mapped ht hst htype hrename hnum => exact hrenamed hrename
  | lastMapped ht hst htype hrename hnum hglob hgroup => exact hrenamed hrename
  | lastFailed ht hst htype hrename hnum hglob => exact hrenamed hrename
  | reduced ht hst htype hrename hphase => exact hrenamed hrename
  | other ht hst htype => exact .same rfl

/-- An open file under a name that the report is not about. -/
theorem opened_taskDone {n fd : Nat} {it : Iteration GoString} {files : List GoString}
    {c c' : Coordinator} {e e' : Disk} {err : Option GoString}
    (hdone : Coordinator.TaskDone Disk.os it c e n files c' e' err) {name : GoString}
    (hname : name ∉ files) (hnew : name ∉ files.map newName)
    (hopen : e.opened[fd]? = some (some name)) : e'.opened[fd]? = some (some name) := by
  refine (through_taskDone hdone).stays ?_ hopen
  rintro f ⟨file, hmem, rfl | rfl⟩
  · exact unlinked_of_ne (ne_of_mem_of_not_mem hmem hname).symm
  · exact moved_of_ne (ne_of_mem_of_not_mem hmem hname).symm
      (ne_of_mem_of_not_mem (List.mem_map_of_mem hmem) hnew).symm

/-- `Done` takes names away from files whose names begin with `m-out` only. -/
theorem through_done {c c' : Coordinator} {e e' : Disk} {now : Nat → Int} {result : Bool}
    (hdone : c.done Disk.os e now = (c', e', result)) :
    Disk.Through (fun f => ∃ file, lit "m-out" <+: file ∧ f = unlinked file) e e' := by
  obtain ⟨-, rfl⟩ | ⟨-, -, rfl⟩ := (Coordinator.done_cases hdone).2
  · exact .same rfl
  · refine (through_deleteFiles e (lit "m-out*")).mono ?_
    rintro f ⟨file, hmatch, hf⟩
    exact ⟨file, delete_pattern hmatch, hf⟩

theorem opened_done {fd : Nat} {c c' : Coordinator} {e e' : Disk} {now : Nat → Int}
    {result : Bool} (hdone : c.done Disk.os e now = (c', e', result)) {name : GoString}
    (hname : ¬ lit "m-out" <+: name) (hopen : e.opened[fd]? = some (some name)) :
    e'.opened[fd]? = some (some name) := by
  refine (through_done hdone).stays ?_ hopen
  rintro f ⟨file, hpre, rfl⟩
  exact unlinked_of_ne fun heq ↦ hname (heq ▸ hpre)

/-- The complete output of a map attempt is moved to its `m-out-` files. -/
theorem Holds.rename {n : Nat} {e : Disk} {kvs : List KeyValue} {files : List GoString}
    (h : Holds nReduce e n kvs files) (hnodup : files.Nodup)
    (hnames : ∀ f ∈ files, ∃ r, f = mapOutName n r)
    (hnone : ∀ r, e.read (mapFileName n r) = none) :
    ∃ e', renameTempFiles Disk.os e files = (e', none) ∧
      ∀ r, e'.read (mapFileName n r) = mapText nReduce r kvs := by
  have htemp : ∀ f ∈ files, newName f ∉ files := by
    intro f hf hmem
    rcases hnames f hf with ⟨r, rfl⟩
    rcases hnames _ hmem with ⟨r', hr'⟩
    rw [newName, rename_mapOutName] at hr'
    exact mapFileName_not_temp n r (hr' ▸ temp_mapOutName n r')
  rcases renameTempFiles_all hnodup
    (fun f hf ↦ by
      rcases hnames f hf with ⟨r, rfl⟩
      rw [h.text]
      exact (h.names r).mp hf) htemp
    (fun f hf g hg hfg ↦ by
      rcases hnames f hf with ⟨r, rfl⟩
      rcases hnames g hg with ⟨r', rfl⟩
      rw [newName, newName, rename_mapOutName, rename_mapOutName] at hfg
      rw [(mapFileName_inj hfg).2]) with ⟨e', he', hmoved⟩
  refine ⟨e', he', fun r ↦ ?_⟩
  by_cases hr : mapOutName n r ∈ files
  · have hmove := (hmoved _ hr).2
    rwa [newName, rename_mapOutName, h.text] at hmove
  · have hno : mapText nReduce r kvs = none := by
      by_contra hne
      exact hr ((h.names r).mpr hne)
    rw [hno, ← hnone r]
    refine read_renameTempFiles_of_notMem he' ?_ ?_
    · intro hmem
      rcases hnames _ hmem with ⟨r', hr'⟩
      exact mapFileName_not_temp n r (hr' ▸ temp_mapOutName n r')
    · intro hmem
      rcases List.mem_map.mp hmem with ⟨f, hf, hfr⟩
      rcases hnames f hf with ⟨r', rfl⟩
      rw [newName, rename_mapOutName] at hfr
      rw [(mapFileName_inj hfr).2] at hf
      exact hr hf

/-- `TaskDone` for a map task in progress whose renames succeed. -/
theorem taskDone_commit {n : Nat} {task : Task} {it : Iteration GoString} {files : List GoString}
    {c c' : Coordinator} {e e' e'' : Disk} {err : Option GoString}
    (hdone : Coordinator.TaskDone Disk.os it c e n files c' e' err)
    (htask : c.tasks[n]? = some task) (hst : task.status ≠ .timedOut)
    (htype : task.taskType = .map) (he : renameTempFiles Disk.os e files = (e'', none)) :
    e' = e'' ∧
      (∃ new,
        c'.tasks = c.tasks.set n { task with status := .completed, committed := true } ++ new ∧
        ∀ x ∈ new, ∃ r, x.origin = .partition r) ∧
      (c'.created = c.created ∨ ∃ names m, e'.glob (lit "m-out-*-*") = .ok names ∧
        groupFiles names = some m ∧ c'.created = c.created ++ [(m.range it).map Prod.fst]) := by
  -- a map task whose renames succeed: only `mapped` and `lastMapped` are left
  cases hdone with
  | late ht hs hremove =>
      rw [htask, Option.some.injEq] at ht
      exact absurd (ht ▸ hs) hst
  | failed ht hs hty hrename =>
      rw [he] at hrename
      simp at hrename
  | mapped ht hs hty hrename hnum =>
      rw [htask, Option.some.injEq] at ht
      subst ht
      rw [he, Prod.mk.injEq] at hrename
      exact ⟨hrename.1.symm, ⟨[], by simp [Coordinator.complete], by simp⟩, .inl rfl⟩
  | @lastMapped task' fs' names m ht hs hty hrename hnum hglob hgroup =>
      rw [htask, Option.some.injEq] at ht
      subst ht
      rw [he, Prod.mk.injEq] at hrename
      refine ⟨hrename.1.symm, ⟨(m.range it).map reduceTask, rfl, ?_⟩,
        .inr ⟨names, m, hglob, hgroup, rfl⟩⟩
      intro x hx
      rcases List.mem_map.mp hx with ⟨entry, -, rfl⟩
      exact ⟨entry.1, rfl⟩
  | lastFailed ht hs hty hrename hnum hglob => simp [Disk.os, Disk.glob] at hglob
  | reduced ht hs hty hrename hphase =>
      rw [htask, Option.some.injEq] at ht
      subst ht
      rw [htype] at hty
      simp at hty
  | other ht hs hty =>
      rw [htask, Option.some.injEq] at ht
      subst ht
      exact absurd htype hty.1

/-- The report of a map attempt touches only the files of that attempt. -/
theorem read_taskDone_map {n : Nat} {it : Iteration GoString} {files : List GoString}
    {c c' : Coordinator} {e e' : Disk} {err : Option GoString}
    (hdone : Coordinator.TaskDone Disk.os it c e n files c' e' err)
    (hnames : ∀ f ∈ files, ∃ r, f = mapOutName n r) {name : GoString}
    (htemp : ∀ r, name ≠ mapOutName n r) (hfile : ∀ r, name ≠ mapFileName n r) :
    e'.read name = e.read name := by
  refine read_taskDone hdone (fun hmem ↦ ?_) (fun hmem ↦ ?_)
  · obtain ⟨r, hr⟩ := hnames name hmem
    exact htemp r hr
  · obtain ⟨f, hf, rfl⟩ := List.mem_map.mp hmem
    obtain ⟨r, rfl⟩ := hnames f hf
    exact hfile r (by rw [newName, rename_mapOutName])

/-- The map tasks after one of them was committed and reduce tasks may have been added. -/
theorem rows_commit {n : Nat} {task row : Task} {tasks tasks' new : List Task}
    (htask : tasks[n]? = some task) (htasks : tasks' = tasks.set n row ++ new)
    (hnew : ∀ x ∈ new, ∃ r, x.origin = .partition r) :
    tasks'[n]? = some row ∧ ∀ (k : Nat) (other : Task) (j : Nat), tasks'[k]? = some other →
      other.origin = .input j → k ≠ n → tasks[k]? = some other := by
  have hlt := lt_length_of_getElem? htask
  constructor
  · rw [htasks, List.getElem?_append_left (by rw [List.length_set]; exact hlt)]
    exact getElem?_set_eq_some.mpr (.inl ⟨rfl, hlt, rfl⟩)
  · intro k other j hk hj hkn
    rw [htasks] at hk
    by_cases hlen : k < (tasks.set n row).length
    · rw [List.getElem?_append_left hlen, List.getElem?_set_ne (Ne.symm hkn)] at hk
      exact hk
    · rw [List.getElem?_append_right (by omega)] at hk
      obtain ⟨r, hr⟩ := hnew other (List.mem_of_getElem? hk)
      rw [hj] at hr
      cases hr

/-- `createReduceTasks` finds the id of a reducer in every map output file. -/
theorem ids_of_glob {e : Disk} {names : List GoString} {m : GoMap GoString (List GoString)}
    {it : Iteration GoString} (hglob : e.glob (lit "m-out-*-*") = .ok names)
    (hgroup : groupFiles names = some m)
    (honly : ∀ name, lit "m-out-" <+: name → e.read name ≠ none → ∃ k r, name = mapFileName k r)
    {id : GoString} (hid : id ∈ (m.range it).map Prod.fst) : ∃ k, id = dec k := by
  obtain ⟨entry, hentry, rfl⟩ := List.mem_map.mp hid
  obtain ⟨hfiles, hne⟩ := (lookup_groupFiles hgroup).mp (GoMap.mem_range.mp hentry)
  obtain ⟨name, hname⟩ := List.exists_mem_of_ne_nil _ hne
  rw [hfiles, List.mem_filter, decide_eq_true_eq] at hname
  have hmem := (Disk.mem_glob hglob).mp hname.1
  obtain ⟨k, r, rfl⟩ := honly name (glob_starts hmem.2) hmem.1
  rw [reduceIdOf_mapFileName, Option.some.injEq] at hname
  exact ⟨r, hname.2.symm⟩

end Congruence

namespace Job

structure MapInv (spec : JobSpec) (d₀ : Disk) (s : Job) : Prop where
  running : s.coord.created = [] → s.finished = false
  ids : ∀ r ∈ s.coord.created.flatten, ∃ k, r = dec k
  inputs : s.coord.created = [] → ∀ name, ¬ Reserved name → s.disk.read name = d₀.read name
  fresh : ∀ t r, s.disk.read (mapOutName t r) ≠ none → t ∈ s.sys.given.map Prod.snd
  committed : s.finished = false → ∀ (t : Nat) (task : Task) (i : Nat),
    s.coord.tasks[t]? = some task → task.origin = .input i → task.committed = true →
    ∃ kvs, Emitted spec d₀ t task kvs ∧
      ∀ r, s.disk.read (mapFileName t r) = mapText spec.nReduce r kvs
  only : s.finished = false → ∀ name, lit "m-out-" <+: name → s.disk.read name ≠ none →
    ∃ (t r : Nat) (task : Task) (i : Nat), name = mapFileName t r ∧
      s.coord.tasks[t]? = some task ∧ task.origin = .input i ∧ task.committed = true
  workers : ∀ (w t : Nat) (pc : WorkerPc) (task : Task), s.workers[w]? = some pc →
    pc.task = some t → s.coord.tasks[t]? = some task → task.status ≠ .timedOut →
    MapPc spec d₀ s.disk t task pc
  bound : ∀ pc ∈ s.workers, pc.Bound s.disk

variable {spec : JobSpec} {d₀ : Disk} {s t : Job}

/-- A directory without files that the job keeps for itself. -/
def CleanStart (d : Disk) : Prop := ∀ name, Reserved name → d.read name = none

theorem MapInv.init (hclean : CleanStart d₀) : MapInv spec d₀ (Job.init spec d₀) := by
  refine ⟨fun _ ↦ rfl, by simp [Job.init, Job.coord, CoordSys.init, makeCoordinator],
    fun _ _ _ ↦ rfl, ?_, ?_, ?_, by simp [Job.init], by simp [Job.init]⟩
  · intro t r hne
    exact absurd (hclean _ (.inl (temp_mapOutName t r))) hne
  · intro _ t task i ht _ hc
    rcases CoordSys.mem_createMapTasks (List.mem_of_getElem? ht) with ⟨j, f, -, rfl⟩
    simp at hc
  · intro _ name hpre hne
    exact absurd (hclean name (.inr hpre)) hne

/-- A step that commits no map task and leaves the committed files alone. -/
theorem MapInv.frame (h : MapInv spec d₀ s) (hacc : CoordSys.Accounting spec.inputs s.sys)
    (hlater : Tasks.Later s.coord.tasks t.coord.tasks)
    (hold : ∀ (n : Nat) (task : Task) (i : Nat), t.coord.tasks[n]? = some task →
      task.origin = .input i → task.committed = true → s.coord.tasks[n]? = some task)
    (hcreated : t.coord.created = s.coord.created)
    (hgiven : ∀ n ∈ s.sys.given.map Prod.snd, n ∈ t.sys.given.map Prod.snd)
    (hrunning : s.coord.created = [] → t.finished = false)
    (hfinished : t.finished = false → s.finished = false)
    (hinputs : s.coord.created = [] → ∀ name, ¬ Reserved name →
      t.disk.read name = s.disk.read name)
    (hfresh : ∀ n r, t.disk.read (mapOutName n r) ≠ none →
      s.disk.read (mapOutName n r) ≠ none ∨ n ∈ t.sys.given.map Prod.snd)
    (hout : t.finished = false → ∀ name, lit "m-out-" <+: name →
      t.disk.read name = s.disk.read name)
    (hworkers : ∀ (w n : Nat) (pc : WorkerPc) (task : Task), t.workers[w]? = some pc →
      pc.task = some n → t.coord.tasks[n]? = some task → task.status ≠ .timedOut →
      MapPc spec d₀ t.disk n task pc)
    (hbound : ∀ pc ∈ t.workers, pc.Bound t.disk) : MapInv spec d₀ t := by
  refine ⟨by rw [hcreated]; exact hrunning, by rw [hcreated]; exact h.ids, ?_, ?_, ?_, ?_, hworkers,
    hbound⟩
  · rw [hcreated]
    intro hc name hname
    rw [hinputs hc name hname]
    exact h.inputs hc name hname
  · intro n r hne
    rcases hfresh n r hne with hs | ht
    · exact hgiven n (h.fresh n r hs)
    · exact ht
  · intro hf n task i htask ho hc
    have htask' := hold n task i htask ho hc
    rcases h.committed (hfinished hf) n task i htask' ho hc with ⟨kvs, he, hread⟩
    refine ⟨kvs, he, fun r ↦ ?_⟩
    rw [hout hf _ (mapFileName_starts n r), hread]
  · intro hf name hpre hne
    rw [hout hf name hpre] at hne
    rcases h.only (hfinished hf) name hpre hne with ⟨n, r, task, i, hname, htask, ho, hc⟩
    rcases hlater n task htask with ⟨task', htask', hl⟩
    have hsame := hl.settled (.inr (hacc.rows.committed task (List.mem_of_getElem? htask) hc))
    subst hsame
    exact ⟨n, r, task', i, hname, htask', ho, hc⟩

/-- A worker that a step leaves alone, while its temporary files stay as they are. -/
theorem MapInv.keep (h : MapInv spec d₀ s) (hw : Wired spec d₀ s) {tasks : List Task}
    (hlater : Tasks.Later s.coord.tasks tasks) {e : Disk} {v n : Nat} {pc : WorkerPc}
    {task : Task} (hpc : s.workers[v]? = some pc) (hn : pc.task = some n)
    (htask : tasks[n]? = some task) (hst : task.status ≠ .timedOut)
    (hread : ∀ r, e.read (mapOutName n r) = s.disk.read (mapOutName n r)) :
    MapPc spec d₀ e n task pc := by
  rcases hw.busy v n pc hpc hn with ⟨-, -, task', htask', -⟩
  rcases hlater n task' htask' with ⟨task'', htask'', hl⟩
  rw [htask, Option.some.injEq] at htask''
  subst htask''
  have hst' : task'.status ≠ .timedOut := by
    intro hto
    rw [hl.settled (.inl hto)] at hst
    exact hst hto
  exact (h.workers v n pc task' hpc hn htask' hst').later hl hread

/-- Two workers are never busy with the same task. -/
theorem Wired.task_ne (hw : Wired spec d₀ s) {v w n k : Nat} {pc pc' : WorkerPc}
    (hv : s.workers[v]? = some pc) (hn : pc.task = some n) (hw' : s.workers[w]? = some pc')
    (hk : pc'.task = some k) (hvw : v ≠ w) : n ≠ k := by
  rintro rfl
  exact hvw (hw.accounting.rows.worker_unique (hw.busy v n pc hv hn).1 (hw.busy w n pc' hw' hk).1)

/-! ## The workers -/

/-- An operation of a worker that is busy with map task `n`, or with a reduce task. -/
theorem MapPc.advance {n : Nat} {task : Task} {it : Iteration GoString} {e e' : Disk}
    {pc pc' : WorkerPc} (hadv : WorkerPc.Advance spec it e pc pc' e') (hn : pc.task = some n)
    (hfits : pc.Fits spec.nReduce n task) (htask : task.Fits spec.inputs)
    (hinput : (∃ i, task.origin = .input i) → ∀ name, ¬ Reserved name →
      e.read name = d₀.read name)
    (hbound : pc.Bound e) (h : MapPc spec d₀ e n task pc) : MapPc spec d₀ e' n task pc' := by
  cases hadv with
  | mapPanic => trivial
  | @mapOpen n' nr files kv kvs created hnr =>
      simp only [WorkerPc.task, Option.some.injEq] at hn
      subst hn
      rcases hfits with ⟨rfl, -, -⟩
      rcases h with ⟨-, hk, -⟩ | ⟨hf, written, he, hh⟩
      · simp at hk
      · exact ⟨hf, written, he, hh.openFile⟩
  | @mapWrite n' nr files kv kvs created fd =>
      simp only [WorkerPc.task, Option.some.injEq] at hn
      subst hn
      rcases hfits with ⟨rfl, -, -⟩
      rcases h with ⟨hf, written, he, hh⟩
      exact .inr ⟨hf, written ++ [kv], by simpa using he, hh.write hbound⟩
  | mapMissing hread => trivial
  | @mapRead n' nr file content files created hread =>
      simp only [WorkerPc.task, Option.some.injEq] at hn
      subst hn
      rcases h with ⟨hf, -, hh⟩ | ⟨hf, -⟩
      · -- the one file of a map task has been read
        rcases hfits with ⟨-, ⟨i, ho⟩, -⟩
        rw [Task.Fits, ho] at htask
        rcases htask with ⟨-, f, hi, hfiles⟩
        rw [hfiles, List.cons.injEq] at hf
        rcases hf with ⟨rfl, rfl⟩
        refine .inr ⟨rfl, [], ?_, hh⟩
        intro hin
        rw [hinput ⟨i, ho⟩ _ (hin file (List.mem_of_getElem? hi))] at hread
        exact ⟨file, content, hfiles, hread, rfl⟩
      · simp at hf
  | @mapEnd n' nr created =>
      simp only [WorkerPc.task, Option.some.injEq] at hn
      subst hn
      intro hin
      rcases h with ⟨hf, -, -⟩ | ⟨-, written, he, hh⟩
      · rcases hin with ⟨i, ho⟩
        rw [Task.Fits, ho, ← hf] at htask
        simp at htask
      · rw [List.append_nil] at he
        exact ⟨written, he, hh.text, fun r ↦ by rw [(it.perm _).mem_iff, hh.names]⟩
  | readFail hread => trivial
  | read hread hparse => trivial
  | readEnd => trivial
  | reduceOpen => trivial
  | write => trivial
  | @writeEnd n' r created =>
      rintro ⟨i, ho⟩
      rw [hfits.1] at ho
      simp at ho

theorem renames_advance {it : Iteration GoString} {e e' : Disk} {pc pc' : WorkerPc}
    (hadv : WorkerPc.Advance spec it e pc pc' e') : e'.renames = e.renames := by
  cases hadv with
  | mapWrite => exact Disk.renames_write _ _ _
  | write => exact Disk.renames_write _ _ _
  | _ => rfl

/-- An operation of a worker may open one more file. -/
theorem opened_advance {it : Iteration GoString} {e e' : Disk} {pc pc' : WorkerPc}
    (hadv : WorkerPc.Advance spec it e pc pc' e') {fd : Nat} {x : Option GoString}
    (hx : e.opened[fd]? = some x) : e'.opened[fd]? = some x := by
  cases hadv with
  | mapOpen hn => exact getElem?_append_of_some hx _
  | reduceOpen => exact getElem?_append_of_some hx _
  | mapWrite => rwa [Disk.opened_write]
  | write => rwa [Disk.opened_write]
  | mapPanic => exact hx
  | mapMissing hread => exact hx
  | mapRead hread => exact hx
  | mapEnd => exact hx
  | readFail hread => exact hx
  | read hread hparse => exact hx
  | readEnd => exact hx
  | writeEnd => exact hx

/-- `TaskDone` forgets no rename. -/
theorem renames_taskDone {n : Nat} {it : Iteration GoString} {files : List GoString}
    {c c' : Coordinator} {e e' : Disk} {err : Option GoString}
    (hdone : Coordinator.TaskDone Disk.os it c e n files c' e' err) :
    ∀ p ∈ e.renames, p ∈ e'.renames := by
  cases hdone with
  | late ht hs hremove =>
      rw [renames_removeFiles hremove]
      exact fun _ hp ↦ hp
  | failed ht hs hty hrename => exact (renames_renameTempFiles hrename).1
  | mapped ht hs hty hrename hnum => exact (renames_renameTempFiles hrename).1
  | lastMapped ht hs hty hrename hnum hglob hgroup => exact (renames_renameTempFiles hrename).1
  | lastFailed ht hs hty hrename hnum hglob => exact (renames_renameTempFiles hrename).1
  | reduced ht hs hty hrename hphase => exact (renames_renameTempFiles hrename).1
  | other ht hs hty => exact fun _ hp ↦ hp

/-- The files a worker opens and writes to. -/
theorem read_advance {n : Nat} {task : Task} {it : Iteration GoString} {e e' : Disk}
    {pc pc' : WorkerPc} (hadv : WorkerPc.Advance spec it e pc pc' e') (hn : pc.task = some n)
    {name : GoString} (hmap : ∀ r, name ≠ mapOutName n r)
    (hreduce : ∀ r, task.origin = .partition r → name ≠ reduceOutName r ∧ name ≠ reduceFileName r)
    (hfits : pc.Fits spec.nReduce n task) (hbound : pc.Bound e) : e'.read name = e.read name := by
  cases hadv with
  | mapPanic => rfl
  | @mapOpen n' nr files kv kvs created hnr =>
      simp only [WorkerPc.task, Option.some.injEq] at hn
      subst hn
      rw [Disk.read_openFile, if_neg (hmap _)]
  | @mapWrite n' nr files kv kvs created fd =>
      simp only [WorkerPc.task, Option.some.injEq] at hn
      subst hn
      rw [Disk.read_write, if_neg]
      intro hfd
      rw [show e.opened[fd]? = _ from hbound, Option.some.injEq, Option.some.injEq] at hfd
      exact hmap _ hfd.symm
  | mapMissing hread => rfl
  | mapRead hread => rfl
  | mapEnd => rfl
  | readFail hread => rfl
  | read hread hparse => rfl
  | readEnd => rfl
  | reduceOpen => rw [Disk.read_openFile, if_neg (hreduce _ hfits.1).1]
  | write =>
      obtain ⟨x, hx, hplaced⟩ := hbound
      rw [Disk.read_write, if_neg]
      intro hfd
      rw [hx, Option.some.injEq] at hfd
      exact (hplaced name hfd).elim (hreduce _ hfits.1).1 (hreduce _ hfits.1).2
  | writeEnd => rfl

/-- A file that has just been opened has the name it was opened under. -/
theorem bound_advance {it : Iteration GoString} {e e' : Disk} {pc pc' : WorkerPc}
    (hadv : WorkerPc.Advance spec it e pc pc' e') : pc'.Bound e' := by
  cases hadv with
  | mapOpen hn => exact Disk.opened_openFile
  | reduceOpen =>
      exact ⟨_, Disk.opened_openFile, fun name heq ↦ .inl (Option.some.inj heq).symm⟩
  | _ => trivial

/-- Only a worker with a task has a file open. -/
theorem bound_of_task {e : Disk} {pc : WorkerPc} (h : pc.task = none) : pc.Bound e := by
  cases pc <;> trivial

/-- Files that stay open under their names. -/
theorem bound_of_opened {e e' : Disk} {pc : WorkerPc} (h : pc.Bound e)
    (hkeep : ∀ (fd : Nat) (x : Option GoString), e.opened[fd]? = some x → e'.opened[fd]? = some x) :
    pc.Bound e' := by
  cases pc with
  | mapOpen t n files kv kvs created fd => exact hkeep _ _ h
  | reduceOpen t r key values entries created fd =>
      obtain ⟨x, hx, hplaced⟩ := h
      exact ⟨x, hkeep _ _ hx, hplaced⟩
  | _ => trivial

theorem placed_unlinked {file r : GoString} {x : Option GoString} (h : Placed r x) :
    Placed r (unlinked file x) := fun name heq ↦ h name (some_eq_unlinked heq).2

theorem placed_moved {old new r : GoString} {x : Option GoString} (h : Placed r x)
    (hfile : old ≠ reduceFileName r) (hnew : old = reduceOutName r → new = reduceFileName r) :
    Placed r (moved old new x) := by
  intro name heq
  obtain ⟨hx, rfl⟩ | ⟨-, hx⟩ := some_eq_moved heq
  · exact .inr (hnew ((h old hx).resolve_right hfile))
  · exact h name hx

/-- The report of a task leaves the open files of the map tasks of other workers alone, and moves
the open files of reduce tasks to where `Placed` says. -/
theorem bound_taskDone {n k : Nat} {it : Iteration GoString} {files : List GoString}
    {c c' : Coordinator} {e e' : Disk} {err : Option GoString} {pc : WorkerPc}
    (hdone : Coordinator.TaskDone Disk.os it c e n files c' e' err)
    (htemp : ∀ f ∈ files, lit "temp" <+: f ∧ ¬ lit "temp" <+: newName f)
    (hmap : ∀ f ∈ files, ∀ m r, f = mapOutName m r → m = n)
    (hreduce : ∀ f ∈ files, ∀ r, f = reduceOutName r → newName f = reduceFileName r)
    (hk : pc.task = some k) (hne : k ≠ n) (h : pc.Bound e) : pc.Bound e' := by
  cases pc with
  | mapOpen t nr fs kv kvs created fd =>
      simp only [WorkerPc.task, Option.some.injEq] at hk
      subst hk
      refine opened_taskDone hdone (fun hmem ↦ hne (hmap _ hmem t _ rfl)) (fun hmem ↦ ?_) h
      obtain ⟨f, hf, heq⟩ := List.mem_map.mp hmem
      exact (htemp f hf).2 (heq ▸ temp_mapOutName t _)
  | reduceOpen t r key values entries created fd =>
      obtain ⟨x, hx, hplaced⟩ := h
      refine (through_taskDone hdone).keeps ?_ hx hplaced
      rintro f ⟨file, hmem, rfl | rfl⟩ y hy
      · exact placed_unlinked hy
      · refine placed_moved hy (fun heq ↦ ?_) (hreduce file hmem r)
        exact reduceFileName_not_temp r (heq ▸ (htemp file hmem).1)
  | _ => trivial

theorem bound_done {c c' : Coordinator} {e e' : Disk} {now : Nat → Int} {result : Bool}
    {pc : WorkerPc} (hdone : c.done Disk.os e now = (c', e', result)) (h : pc.Bound e) :
    pc.Bound e' := by
  cases pc with
  | mapOpen t nr fs kv kvs created fd =>
      exact opened_done hdone (prefix_disjoint (by decide) (temp_mapOutName t _)) h
  | reduceOpen t r key values entries created fd =>
      obtain ⟨x, hx, hplaced⟩ := h
      refine (through_done hdone).keeps ?_ hx hplaced
      rintro f ⟨file, -, rfl⟩ y hy
      exact placed_unlinked hy
  | _ => trivial

theorem MapInv.advance (h : MapInv spec d₀ s) (hw : Wired spec d₀ s) {w : Nat}
    {it : Iteration GoString} {pc pc' : WorkerPc} {e : Disk} {unreported : List Nat}
    (hpc : s.workers[w]? = some pc) (hadv : WorkerPc.Advance spec it s.disk pc pc' e) :
    MapInv spec d₀ { s with
      sys := { s.sys with fs := e }, workers := s.workers.set w pc'
      unreported := unreported } := by
  obtain ⟨n, task, hn, hgiven, hfirst, htask, hfits, -, hsame⟩ := hw.advancing hpc hadv
  have hbound := h.bound pc (List.mem_of_getElem? hpc)
  have htemp : ∀ {name : GoString}, ¬ lit "temp" <+: name →
      (∀ r, task.origin = .partition r → name ≠ reduceFileName r) →
      e.read name = s.disk.read name :=
    fun hname hfile ↦ read_advance hadv hn (fun r heq ↦ hname (heq ▸ temp_mapOutName n r))
      (fun r ho ↦ ⟨fun heq ↦ hname (heq ▸ temp_reduceOutName r), hfile r ho⟩) hfits hbound
  have hother : ∀ k r, k ≠ n → e.read (mapOutName k r) = s.disk.read (mapOutName k r) :=
    fun k r hk ↦ read_advance hadv hn (fun r' heq ↦ hk (mapOutName_inj heq).1)
      (fun r' _ ↦ ⟨mapOutName_ne_reduceOutName k r r',
        fun heq ↦ reduceFileName_not_temp r' (heq ▸ temp_mapOutName k r)⟩) hfits hbound
  refine h.frame hw.accounting (Tasks.Later.refl _) (fun _ _ _ ht _ _ ↦ ht) rfl (fun _ hk ↦ hk)
    h.running id ?_ ?_ ?_ ?_ ?_
  · -- before `createReduceTasks` there is no reduce task
    intro hnil name hname
    exact htemp (fun hpre ↦ hname (.inl hpre)) fun r ho ↦
      absurd ho (hw.accounting.no_partition hnil (List.mem_of_getElem? htask) r)
  · intro k r hne
    by_cases hk : k = n
    · subst hk
      exact .inr (List.mem_map.mpr ⟨_, hgiven, rfl⟩)
    · exact .inl (by rw [← hother k r hk]; exact hne)
  · exact fun _ name hpre ↦ htemp (fun hpre' ↦ temp_not_map hpre' hpre)
      fun r _ heq ↦ reduceFileName_not_map r (heq ▸ hpre)
  · intro v k pcv taskv hv hk htaskv hst
    obtain ⟨rfl, -, rfl⟩ | ⟨hvw, hold⟩ := getElem?_set_eq_some.mp hv
    · have hkn := hsame k hk
      subst hkn
      change s.coord.tasks[k]? = _ at htaskv
      rw [htask, Option.some.injEq] at htaskv
      subst htaskv
      refine MapPc.advance hadv hn hfits
        (hw.accounting.rows.fits task (List.mem_of_getElem? htask)) ?_ hbound
        (h.workers v k pc task hpc hn htask hst)
      -- as long as a live attempt of a map task runs, the inputs are as they were
      rintro ⟨i, ho⟩
      have hp := hw.accounting.inProgress hgiven hfirst htask hst
      exact h.inputs (hw.accounting.created_of_input htask hp ho)
    · have hkn := hw.task_ne hold hk hpc hn hvw
      exact h.keep hw (Tasks.Later.refl _) hold hk htaskv hst (fun r ↦ hother k r hkn)
  · refine forall_mem_set (fun pcv hmem ↦ ?_) (bound_advance hadv)
    exact bound_of_opened (h.bound pcv hmem) fun fd x hx ↦ opened_advance hadv hx

end Job

end GoLabs.MapReduce
