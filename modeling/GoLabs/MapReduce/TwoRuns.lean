import GoLabs.MapReduce.Snapshot

/-!
# Two directories under one schedule

The same operation in two directories does the same, as long as it only looks at names under which
both have the same file.  So two runs of a job with one schedule stay together if every file that a
task or a worker has to do with is such a name: it was one from the start, or the job has renamed a
file to it.
-/

open GoLabs.Reasoning

namespace GoLabs.MapReduce

/-! ## Two directories -/

section Alike

variable {B : GoString → Prop} {d d' e : Disk}

/-- The names in `B`, and those to which a file has been renamed. -/
def Shared (B : GoString → Prop) (d : Disk) (name : GoString) : Prop :=
  B name ∨ name ∈ d.renames.map Prod.snd

/-- The second directory has the same files as the first under the names that `d` shares, and the
open files are among them. -/
structure Alike (B : GoString → Prop) (d e : Disk) : Prop where
  read : ∀ name, Shared B d name → d.read name = e.read name
  opened : d.opened = e.opened
  shared : ∀ name, some name ∈ d.opened → Shared B d name

theorem Shared.mono {name : GoString} (h : Shared B d name)
    (hgrow : ∀ p ∈ d.renames, p ∈ d'.renames) : Shared B d' name := by
  obtain hbase | hrenamed := h
  · exact .inl hbase
  · obtain ⟨p, hp, hname⟩ := List.mem_map.mp hrenamed
    exact .inr (List.mem_map.mpr ⟨p, hgrow p hp, hname⟩)

theorem Alike.openFile {name : GoString} (h : Alike B d e) (hname : Shared B d name) :
    (d.openFile name).1 = (e.openFile name).1 ∧
      Alike B (d.openFile name).2 (e.openFile name).2 := by
  refine ⟨congrArg List.length h.opened, ?_, ?_, ?_⟩
  · intro other hother
    rw [Disk.read_openFile, Disk.read_openFile, h.read name hname, h.read other hother]
  · exact congrArg (· ++ [some name]) h.opened
  · intro other hother
    obtain hold | hnew := List.mem_append.mp hother
    · exact h.shared other hold
    · obtain rfl := Option.some.inj (List.mem_singleton.mp hnew)
      exact hname

theorem Alike.write (h : Alike B d e) (fd : Nat) (text : GoString) :
    Alike B (d.write fd text) (e.write fd text) := by
  have hshared : ∀ name, Shared B (d.write fd text) name ↔ Shared B d name := by
    intro name
    rw [Shared, Shared, Disk.renames_write]
  refine ⟨?_, ?_, ?_⟩
  · intro name hname
    rw [Disk.read_write, Disk.read_write, h.read name ((hshared name).mp hname), h.opened]
  · rw [Disk.opened_write, Disk.opened_write, h.opened]
  · rw [Disk.opened_write]
    exact fun name hname ↦ (hshared name).mpr (h.shared name hname)

/-- A call on a name that both directories share ends in the same way in both. -/
theorem Alike.rename {old : GoString} (h : Alike B d e) (hold : Shared B d old) (new : GoString) :
    (∃ d' e', d.rename old new = .ok d' ∧ e.rename old new = .ok e' ∧
      (∀ p ∈ d.renames, p ∈ d'.renames) ∧ Alike B d' e') ∨
    ∃ err, d.rename old new = .error err ∧ e.rename old new = .error err := by
  have hread := h.read old hold
  cases hd : d.read old with
  | none =>
      rw [hd] at hread
      unfold Disk.read at hd hread
      exact .inr ⟨_, by rw [Disk.rename, hd], by rw [Disk.rename, ← hread]⟩
  | some content =>
      obtain ⟨d', hd'⟩ : ∃ d', d.rename old new = .ok d' := Disk.rename_ok_iff.mpr (by simp [hd])
      obtain ⟨e', he'⟩ : ∃ e', e.rename old new = .ok e' :=
        Disk.rename_ok_iff.mpr (by simp [← hread, hd])
      obtain ⟨hopened, hlog, -⟩ := Disk.renamed hd'
      have hgrow : ∀ p ∈ d.renames, p ∈ d'.renames := by
        rw [hlog]
        exact fun p hp ↦ List.mem_append_left _ hp
      refine .inl ⟨d', e', hd', he', hgrow, ?_, ?_, ?_⟩
      · intro name hname
        rw [Disk.read_rename hd', Disk.read_rename he', hread]
        split
        · rfl
        · rename_i hne
          split
          · rfl
          · apply h.read
            unfold Shared at hname ⊢
            simpa [hlog, hne] using hname
      · rw [hopened, (Disk.renamed he').1, h.opened]
      · -- an open file has the new name, or the name it had
        intro name hname
        rw [hopened] at hname
        obtain ⟨x, hx, hmoved⟩ := List.mem_map.mp hname
        obtain ⟨-, rfl⟩ | ⟨-, rfl⟩ := some_eq_moved hmoved
        · exact .inr (by simp [hlog])
        · exact (h.shared name hx).mono hgrow

theorem Alike.remove {name : GoString} (h : Alike B d e) (hname : Shared B d name) :
    (∃ d' e', d.remove name = .ok d' ∧ e.remove name = .ok e' ∧
      d'.renames = d.renames ∧ Alike B d' e') ∨
    ∃ err, d.remove name = .error err ∧ e.remove name = .error err := by
  have hread := h.read name hname
  cases hd : d.read name with
  | none =>
      rw [hd] at hread
      unfold Disk.read at hd hread
      exact .inr ⟨_, by rw [Disk.remove, hd], by rw [Disk.remove, ← hread]⟩
  | some content =>
      obtain ⟨d', hd'⟩ : ∃ d', d.remove name = .ok d' := Disk.remove_ok_iff.mpr (by simp [hd])
      obtain ⟨e', he'⟩ : ∃ e', e.remove name = .ok e' :=
        Disk.remove_ok_iff.mpr (by simp [← hread, hd])
      obtain ⟨hopened, hlog, -⟩ := Disk.removed hd'
      have hshared : ∀ other, Shared B d' other ↔ Shared B d other := by
        intro other
        rw [Shared, Shared, hlog]
      refine .inl ⟨d', e', hd', he', hlog, ?_, ?_, ?_⟩
      · intro other hother
        rw [Disk.read_remove hd', Disk.read_remove he', h.read other ((hshared other).mp hother)]
      · rw [hopened, (Disk.removed he').1, h.opened]
      · intro other hother
        rw [hopened] at hother
        obtain ⟨x, hx, hunlinked⟩ := List.mem_map.mp hother
        obtain ⟨-, rfl⟩ := some_eq_unlinked hunlinked
        exact (hshared other).mpr (h.shared other hx)

theorem Alike.renameTempFiles {files : List GoString} (h : Alike B d e)
    (hfiles : ∀ f ∈ files, Shared B d f) :
    ∃ d' e' err, MapReduce.renameTempFiles Disk.os d files = (d', err) ∧
      MapReduce.renameTempFiles Disk.os e files = (e', err) ∧ Alike B d' e' := by
  induction files generalizing d e with
  | nil => exact ⟨d, e, none, rfl, rfl, h⟩
  | cons file files ih =>
      rw [renameTempFiles_cons, renameTempFiles_cons]
      obtain ⟨d₁, e₁, hd, he, hgrow, halike⟩ | ⟨err, hd, he⟩ :=
        h.rename (hfiles file List.mem_cons_self) (newName file)
      · rw [hd, he]
        apply ih halike
        intro f hf
        exact (hfiles f (List.mem_cons_of_mem _ hf)).mono hgrow
      · rw [hd, he]
        exact ⟨d, e, _, rfl, rfl, h⟩

theorem Alike.removeFiles {files : List GoString} (h : Alike B d e)
    (hfiles : ∀ f ∈ files, Shared B d f) :
    ∃ d' e' err, MapReduce.removeFiles Disk.os d files = (d', err) ∧
      MapReduce.removeFiles Disk.os e files = (e', err) ∧ Alike B d' e' := by
  induction files generalizing d e with
  | nil => exact ⟨d, e, none, rfl, rfl, h⟩
  | cons file files ih =>
      rw [removeFiles_cons, removeFiles_cons]
      obtain ⟨d₁, e₁, hd, he, hlog, halike⟩ | ⟨err, hd, he⟩ :=
        h.remove (hfiles file List.mem_cons_self)
      · rw [hd, he]
        apply ih halike
        intro f hf
        apply (hfiles f (List.mem_cons_of_mem _ hf)).mono
        rw [hlog]
        exact fun _ hp ↦ hp
      · rw [hd, he]
        exact ⟨d, e, _, rfl, rfl, h⟩

/-- What matches the pattern is gone afterwards, whatever was there. -/
theorem read_deleteFiles_eq (d : Disk) (pattern name : GoString) :
    (Coordinator.deleteFiles Disk.os d pattern).read name =
      if globMatch pattern name = true then none else d.read name := by
  obtain ⟨names, hg⟩ : ∃ names, d.glob pattern = .ok names := ⟨_, rfl⟩
  have hdelete : Coordinator.deleteFiles Disk.os d pattern =
      (removeFiles Disk.os d names).1 := by
    unfold Coordinator.deleteFiles
    rw [show Disk.os.glob d pattern = .ok names from hg]
  obtain ⟨d', hd', hnone⟩ := removeFiles_all (d := d) (Disk.glob_nodup hg)
    fun f hf ↦ ((Disk.mem_glob hg).mp hf).1
  rw [hdelete, hd']
  by_cases hmem : name ∈ names
  · rw [if_pos ((Disk.mem_glob hg).mp hmem).2, hnone name hmem]
  · rw [read_removeFiles_of_notMem hd' hmem]
    split
    · rename_i hmatch
      by_contra hread
      exact hmem ((Disk.mem_glob hg).mpr ⟨hread, hmatch⟩)
    · rfl

/-- The files that are open and match the pattern lose their names. -/
theorem opened_deleteFiles_eq (d : Disk) (pattern : GoString) :
    (Coordinator.deleteFiles Disk.os d pattern).opened =
      d.opened.map (·.filter fun name => !globMatch pattern name) := by
  obtain ⟨g, hg, hkeep⟩ := through_deleteFiles d pattern
  rw [hg]
  apply List.map_congr_left
  intro x hx
  cases x with
  | none =>
      refine hkeep (· = none) ?_ none rfl
      rintro f ⟨file, -, rfl⟩ x rfl
      rfl
  | some name =>
      -- nothing but a removal of the file itself takes its name
      have hname : g (some name) = some name ∨ g (some name) = none := by
        refine hkeep (fun y => y = some name ∨ y = none) ?_ _ (.inl rfl)
        rintro f ⟨file, -, rfl⟩ y (rfl | rfl) <;> unfold unlinked <;> split <;> simp
      by_cases hmatch : globMatch pattern name = true
      · rw [Option.filter_some, if_neg (by simp [hmatch])]
        refine hname.resolve_left fun hstays ↦ ?_
        have hmem := (Coordinator.deleteFiles Disk.os d pattern).named name
          (hg ▸ List.mem_map.mpr ⟨_, hx, hstays⟩)
        have hnone := read_deleteFiles_eq d pattern name
        rw [if_pos hmatch, Disk.read, AList.lookup_eq_none] at hnone
        exact hnone hmem
      · rw [Option.filter_some, if_pos (by simp [hmatch])]
        refine hkeep (· = some name) ?_ _ rfl
        rintro f ⟨file, hfile, rfl⟩ x rfl
        exact unlinked_of_ne fun heq ↦ hmatch (heq ▸ hfile)

theorem Alike.deleteFiles (h : Alike B d e) (pattern : GoString) :
    Alike B (Coordinator.deleteFiles Disk.os d pattern)
      (Coordinator.deleteFiles Disk.os e pattern) := by
  have hshared : ∀ name, Shared B (Coordinator.deleteFiles Disk.os d pattern) name ↔
      Shared B d name := by
    intro name
    rw [Shared, Shared, renames_deleteFiles]
  refine ⟨?_, ?_, ?_⟩
  · intro name hname
    rw [read_deleteFiles_eq, read_deleteFiles_eq, h.read name ((hshared name).mp hname)]
  · rw [opened_deleteFiles_eq, opened_deleteFiles_eq, h.opened]
  · intro name hname
    rw [opened_deleteFiles_eq] at hname
    obtain ⟨x, hx, hfilter⟩ := List.mem_map.mp hname
    exact (hshared name).mpr (h.shared name ((Option.filter_eq_some_iff.mp hfilter).1 ▸ hx))

/-- The listing depends on the matching names only. -/
theorem glob_congr {pattern : GoString}
    (h : ∀ name, globMatch pattern name = true → d.read name = e.read name) :
    d.glob pattern = e.glob pattern := by
  rw [Disk.glob, Disk.glob, Except.ok.injEq]
  apply insertionSort_of_perm
  rw [List.perm_ext_iff_of_nodup (d.files.keys_nodup.filter _) (e.files.keys_nodup.filter _)]
  intro name
  rw [List.mem_filter, List.mem_filter]
  apply and_congr_left
  intro hname
  have hread : d.files.lookup name = e.files.lookup name := h name hname
  change name ∈ d.files ↔ name ∈ e.files
  rw [← AList.lookup_isSome, ← AList.lookup_isSome, hread]

/-- The same report, in both directories. -/
theorem TaskDone.alike {n : Nat} {it : Iteration GoString} {files : List GoString}
    {c c' : Coordinator} {err : Option GoString} (h : Alike B d e)
    (hdone : Coordinator.TaskDone Disk.os it c d n files c' d' err)
    (hfiles : ∀ f ∈ files, Shared B d f)
    (hlist : c'.created ≠ c.created → ∀ name, globMatch (lit "m-out-*-*") name = true →
      Shared B d' name) :
    ∃ e', Coordinator.TaskDone Disk.os it c e n files c' e' err ∧ Alike B d' e' := by
  obtain ⟨dr, er, err', hdr, her, halike⟩ := h.renameTempFiles hfiles
  obtain ⟨dm, em, err'', hdm, hem, halike'⟩ := h.removeFiles hfiles
  -- the directory of the second run after the calls that the first run has made
  have hrenamed : ∀ {d' : Disk} {err : Option GoString},
      renameTempFiles Disk.os d files = (d', err) →
      ∃ e', renameTempFiles Disk.os e files = (e', err) ∧ Alike B d' e' := by
    intro d' err hrename
    rw [hdr, Prod.mk.injEq] at hrename
    obtain ⟨rfl, rfl⟩ := hrename
    exact ⟨er, her, halike⟩
  cases hdone with
  | late ht hs hremove =>
      rw [hdm, Prod.mk.injEq] at hremove
      obtain ⟨rfl, rfl⟩ := hremove
      exact ⟨em, .late ht hs hem, halike'⟩
  | failed ht hs htype hrename =>
      obtain ⟨e', he', hd'⟩ := hrenamed hrename
      exact ⟨e', .failed ht hs htype he', hd'⟩
  | mapped ht hs htype hrename hnum =>
      obtain ⟨e', he', hd'⟩ := hrenamed hrename
      exact ⟨e', .mapped ht hs htype he' hnum, hd'⟩
  | lastMapped ht hs htype hrename hnum hglob hgroup =>
      obtain ⟨e', he', hd'⟩ := hrenamed hrename
      have hsame := glob_congr fun name hname ↦ hd'.read name (hlist (by simp) name hname)
      exact ⟨e', .lastMapped ht hs htype he' hnum (hsame.symm.trans hglob) hgroup, hd'⟩
  | lastFailed ht hs htype hrename hnum hglob => simp [Disk.os, Disk.glob] at hglob
  | reduced ht hs htype hrename hphase =>
      obtain ⟨e', he', hd'⟩ := hrenamed hrename
      exact ⟨e', .reduced ht hs htype he' hphase, hd'⟩
  | other ht hs htype => exact ⟨e, .other ht hs htype, h⟩

theorem done_alike {now : Nat → Int} {c c' : Coordinator} {result : Bool} (h : Alike B d e)
    (hdone : c.done Disk.os d now = (c', d', result)) :
    ∃ e', c.done Disk.os e now = (c', e', result) ∧ Alike B d' e' := by
  unfold Coordinator.done at hdone ⊢
  dsimp only at hdone ⊢
  split at hdone
  · rename_i hsettled
    simp only [Prod.mk.injEq] at hdone
    obtain ⟨rfl, rfl, rfl⟩ := hdone
    exact ⟨_, if_pos hsettled, h.deleteFiles _⟩
  · rename_i hsettled
    simp only [Prod.mk.injEq] at hdone
    obtain ⟨rfl, rfl, rfl⟩ := hdone
    exact ⟨_, if_neg hsettled, h⟩

end Alike

/-! ## The names a worker touches -/

namespace WorkerPc

/-- The files that a worker still reads, or has created and not reported. -/
def names : WorkerPc → List GoString
  | .mapping _ _ files _ created | .mapOpen _ _ files _ _ created _ => files ++ created.keys
  | .reading _ _ files _ => files
  | .writing _ _ _ created | .reduceOpen _ _ _ _ _ created _ => created.keys
  | .reporting _ files => files
  | .idle | .gone => []

/-- The file that the next operation of a worker opens. -/
def target : WorkerPc → Option GoString
  | .mapping t nReduce _ (kv :: _) _ => some (mapOutName t (ihash kv.key % nReduce))
  | .writing _ reduceId (_ :: _) _ => some (reduceOutName reduceId)
  | _ => none

variable {spec : JobSpec} {it : Iteration GoString} {B : GoString → Prop} {d d' e : Disk}
  {pc pc' : WorkerPc}

theorem mem_names_begin {res : GetTaskRes} {f : GoString} (h : f ∈ (begin res).names) :
    f ∈ res.files := by
  unfold begin at h
  cases htype : res.taskType with
  | map => simpa [htype, names] using h
  | reduce =>
      simp only [htype] at h
      split at h
      · simp [names] at h
      · split at h
        · simp [names] at h
        · exact h
  | noTask => simp [htype, names] at h
  | shutdown => simp [htype, names] at h

theorem mem_names_advance (hadv : Advance spec it d pc pc' d') {f : GoString}
    (h : f ∈ pc'.names) : f ∈ pc.names ∨ pc.target = some f := by
  cases hadv with
  | mapPanic => simp [names] at h
  | mapOpen hn =>
      obtain hfile | hkey := List.mem_append.mp h
      · exact .inl (List.mem_append_left _ hfile)
      · obtain rfl | hold := GoMap.mem_keys_insert.mp hkey
        · exact .inr rfl
        · exact .inl (List.mem_append_right _ hold)
  | mapWrite => exact .inl h
  | mapMissing hread => simp [names] at h
  | mapRead hread => exact .inl (List.mem_cons_of_mem _ h)
  | mapEnd => exact .inl ((it.perm _).mem_iff.mp h)
  | readFail hread => simp [names] at h
  | read hread hparse => exact .inl (List.mem_cons_of_mem _ h)
  | readEnd => simp [names] at h
  | reduceOpen =>
      obtain rfl | hold := GoMap.mem_keys_insert.mp h
      · exact .inr rfl
      · exact .inl hold
  | write => exact .inl h
  | writeEnd => exact .inl ((it.perm _).mem_iff.mp h)

/-- The same operation, in both directories. -/
theorem Advance.alike (hadv : Advance spec it d pc pc' d') (h : Alike B d e)
    (hnames : ∀ f ∈ pc.names, Shared B d f) (htarget : ∀ f, pc.target = some f → Shared B d f) :
    ∃ e', Advance spec it e pc pc' e' ∧ Alike B d' e' := by
  cases hadv with
  | mapPanic => exact ⟨e, .mapPanic, h⟩
  | mapOpen hn =>
      obtain ⟨hfd, halike⟩ := h.openFile (htarget _ rfl)
      exact ⟨_, hfd ▸ .mapOpen hn, halike⟩
  | mapWrite => exact ⟨_, .mapWrite, h.write _ _⟩
  | @mapMissing t nReduce file files created hread =>
      have hfile := h.read file (hnames file List.mem_cons_self)
      exact ⟨e, .mapMissing (hfile ▸ hread), h⟩
  | @mapRead t nReduce file content files created hread =>
      have hfile := h.read file (hnames file List.mem_cons_self)
      exact ⟨e, .mapRead (hfile ▸ hread), h⟩
  | mapEnd => exact ⟨e, .mapEnd, h⟩
  | @readFail t reduceId file files m hread =>
      have hfile := h.read file (hnames file List.mem_cons_self)
      exact ⟨e, .readFail (hfile ▸ hread), h⟩
  | @read t reduceId file content files m kvs hread hparse =>
      have hfile := h.read file (hnames file List.mem_cons_self)
      exact ⟨e, .read (hfile ▸ hread) hparse, h⟩
  | readEnd => exact ⟨e, .readEnd, h⟩
  | reduceOpen =>
      obtain ⟨hfd, halike⟩ := h.openFile (htarget _ rfl)
      exact ⟨_, hfd ▸ .reduceOpen, halike⟩
  | write => exact ⟨_, .write, h.write _ _⟩
  | writeEnd => exact ⟨e, .writeEnd, h⟩

end WorkerPc

/-! ## Two runs of one schedule -/

/-- The rows after `TaskDone`: the files of an old one, or files that `createReduceTasks` has
listed. -/
theorem Coordinator.TaskDone.files {it : Iteration GoString} {c c' : Coordinator} {d d' : Disk}
    {n : Nat} {files : List GoString} {err : Option GoString}
    (hdone : TaskDone Disk.os it c d n files c' d' err) {task : Task} (h : task ∈ c'.tasks) :
    (∃ old ∈ c.tasks, task.origin = old.origin ∧ task.files = old.files) ∨
      c'.created ≠ c.created ∧ ∀ f ∈ task.files, globMatch (lit "m-out-*-*") f = true := by
  have hset : ∀ {old : Task} {b : Bool}, c.tasks[n]? = some old →
      task ∈ (c.complete n old b).tasks →
      ∃ old ∈ c.tasks, task.origin = old.origin ∧ task.files = old.files := by
    intro old b ht hmem
    exact Tasks.From.set ht (b := { old with status := .completed, committed := b }) rfl rfl
      task hmem
  cases hdone with
  | late ht hs hremove => exact .inl ⟨task, h, rfl, rfl⟩
  | failed ht hs hty hrename => exact .inl (hset ht h)
  | mapped ht hs hty hrename hnum => exact .inl (hset ht h)
  | lastMapped ht hs hty hrename hnum hglob hgroup =>
      obtain hmem | hnew := List.mem_append.mp h
      · exact .inl (hset ht hmem)
      · obtain ⟨entry, hentry, rfl⟩ := List.mem_map.mp hnew
        refine .inr ⟨by simp, ?_⟩
        intro f hf
        have hfiles := ((lookup_groupFiles hgroup).mp (GoMap.mem_range.mp hentry)).1
        change f ∈ entry.2 at hf
        rw [hfiles] at hf
        exact ((Disk.mem_glob hglob).mp (List.mem_filter.mp hf).1).2
  | lastFailed ht hs hty hrename hnum hglob => exact .inl (hset ht h)
  | reduced ht hs hty hrename hphase => exact .inl (hset ht h)
  | other ht hs hty => exact .inl (hset ht h)

namespace Job

variable {spec : JobSpec} {B : GoString → Prop} {s s' t : Job}

/-- The step opens no file, and lists none, that the directories do not share. -/
structure Clear (B : GoString → Prop) (s : Job) (act : JobAction) (t : Job) : Prop where
  opens : ∀ w it pc f, act = .advance w it → s.workers[w]? = some pc → pc.target = some f →
    Shared B s.disk f
  lists : t.coord.created ≠ s.coord.created → ∀ name, globMatch (lit "m-out-*-*") name = true →
    Shared B t.disk name

/-- Every file that a task or a worker has to do with is shared. -/
structure Known (B : GoString → Prop) (s : Job) : Prop where
  tasks : ∀ task ∈ s.coord.tasks, ∀ f ∈ task.files, Shared B s.disk f
  listed : ∀ task ∈ s.coord.tasks, ∀ r, task.origin = .partition r →
    ∀ f ∈ task.files, globMatch (lit "m-out-*-*") f = true
  workers : ∀ pc ∈ s.workers, ∀ f ∈ pc.names, Shared B s.disk f

theorem renames_of_step {act : JobAction} (hs : s.step spec act = some t) :
    ∀ p ∈ s.disk.renames, p ∈ t.disk.renames := by
  cases step_cases hs with
  | registerWorker => exact fun _ hp ↦ hp
  | getTask hpc hget =>
      obtain ⟨c, -, rfl⟩ := CoordSys.getTask_eq_some.mp hget
      exact fun _ hp ↦ hp
  | @advance w it pc pc' d unreported hpc hadv hun =>
      change ∀ p ∈ s.disk.renames, p ∈ d.renames
      rw [renames_advance hadv]
      exact fun _ hp ↦ hp
  | taskDone hpc hdone hnext hsnap => exact renames_taskDone (CoordSys.taskDone_given hdone).2.2
  | heartbeat => exact fun _ hp ↦ hp
  | stopRunning => exact fun _ hp ↦ hp
  | @done now c d result hdone =>
      change ∀ p ∈ s.disk.renames, p ∈ d.renames
      obtain ⟨-, rfl⟩ | ⟨-, -, rfl⟩ := (Coordinator.done_cases hdone).2
      · exact fun _ hp ↦ hp
      · rw [renames_deleteFiles]
        exact fun _ hp ↦ hp
  | crash => exact fun _ hp ↦ hp

/-- A step with old and listed files in its tasks, and shared files in the hands of its workers. -/
theorem Known.next (h : Known B s) (hgrow : ∀ p ∈ s.disk.renames, p ∈ t.disk.renames)
    (htasks : ∀ task ∈ t.coord.tasks,
      (∃ old ∈ s.coord.tasks, task.origin = old.origin ∧ task.files = old.files) ∨
        ∀ f ∈ task.files, Shared B t.disk f ∧ globMatch (lit "m-out-*-*") f = true)
    (hworkers : ∀ pc ∈ t.workers, pc ∈ s.workers ∨ ∀ f ∈ pc.names, Shared B t.disk f) :
    Known B t := by
  refine ⟨?_, ?_, ?_⟩
  · intro task htask f hf
    obtain ⟨old, hold, -, hfiles⟩ | hnew := htasks task htask
    · exact (h.tasks old hold f (hfiles ▸ hf)).mono hgrow
    · exact (hnew f hf).1
  · intro task htask r ho f hf
    obtain ⟨old, hold, horigin, hfiles⟩ | hnew := htasks task htask
    · exact h.listed old hold r (horigin ▸ ho) f (hfiles ▸ hf)
    · exact (hnew f hf).2
  · intro pc hpc f hf
    obtain hold | hnew := hworkers pc hpc
    · exact (h.workers pc hold f hf).mono hgrow
    · exact hnew f hf

theorem Known.step {act : JobAction} (h : Known B s) (hs : s.step spec act = some t)
    (hclear : Clear B s act t) : Known B t := by
  have hgrow := renames_of_step hs
  cases step_cases hs with
  | registerWorker =>
      refine h.next hgrow (fun task ht ↦ .inl ⟨task, ht, rfl, rfl⟩) ?_
      exact List.forall_mem_append.mpr
        ⟨fun _ hold ↦ .inl hold, List.forall_mem_singleton.mpr (.inr (by simp [WorkerPc.names]))⟩
  | @getTask w now sys res hpc hget =>
      obtain ⟨c, hc, rfl⟩ := CoordSys.getTask_eq_some.mp hget
      cases (Coordinator.getTask_cases hc).1 with
      | nothing =>
          refine h.next hgrow (fun task ht ↦ .inl ⟨task, ht, rfl, rfl⟩) ?_
          exact forall_mem_set (fun _ hold ↦ .inl hold)
            (.inr (by simp [WorkerPc.begin, WorkerPc.names]))
      | @found n task workers ht hidle =>
          have hfrom := Tasks.From.set ht
            (b := { task with status := .inProgress, startTime := now }) rfl rfl
          refine h.next hgrow (fun other hother ↦ .inl (hfrom other hother)) ?_
          -- the worker starts with the files of its task
          refine forall_mem_set (fun _ hold ↦ .inl hold) (.inr fun f hf ↦ ?_)
          exact h.tasks task (List.mem_of_getElem? ht) f (WorkerPc.mem_names_begin hf)
  | @advance w it pc pc' d unreported hpc hadv hun =>
      refine h.next hgrow (fun task ht ↦ .inl ⟨task, ht, rfl, rfl⟩) ?_
      refine forall_mem_set (fun _ hold ↦ .inl hold) (.inr fun f hf ↦ ?_)
      apply Shared.mono (d := s.disk) _ hgrow
      obtain hold | htarget := WorkerPc.mem_names_advance hadv hf
      · exact h.workers pc (List.mem_of_getElem? hpc) f hold
      · exact hclear.opens w it pc f rfl hpc htarget
  | @taskDone w n it files sys err pc snapshot hpc hdone hnext hsnap =>
      have hcases := (CoordSys.taskDone_given hdone).2.2
      refine h.next hgrow ?_ ?_
      · intro task htask
        obtain hold | ⟨hcreated, hlisted⟩ := hcases.files htask
        · exact .inl hold
        · exact .inr fun f hf ↦ ⟨hclear.lists hcreated f (hlisted f hf), hlisted f hf⟩
      · refine forall_mem_set (fun _ hold ↦ .inl hold) (.inr ?_)
        rw [hnext]
        split <;> simp [WorkerPc.names]
  | heartbeat =>
      exact h.next hgrow (fun task ht ↦ .inl ⟨task, ht, rfl, rfl⟩) fun pc hmem ↦ .inl hmem
  | stopRunning =>
      refine h.next hgrow (fun task ht ↦ .inl ⟨task, ?_, rfl, rfl⟩) fun pc hmem ↦ .inl hmem
      exact s.sys.tasks_stopRunning _ ▸ ht
  | @done now c d result hdone =>
      obtain rfl := (Coordinator.done_cases hdone).1
      refine h.next hgrow ?_ fun pc hmem ↦ .inl hmem
      exact fun task ht ↦ .inl (s.coord.from_timeoutTasks now task ht)
  | crash =>
      refine h.next hgrow (fun task ht ↦ .inl ⟨task, ht, rfl, rfl⟩) ?_
      exact forall_mem_set (fun _ hold ↦ .inl hold) (.inr (by simp [WorkerPc.names]))

/-- The same job over another directory. -/
def onDisk (s : Job) (e : Disk) (snapshot : Option Disk) : Job :=
  { s with sys := { s.sys with fs := e }, snapshot := snapshot }

/-- The `m-out-` files that `createReduceTasks` lists are the same. -/
def Listed (d e : Disk) : Prop :=
  ∀ name, globMatch (lit "m-out-*-*") name = true → d.read name = e.read name

/-- Two runs at the same point: only their directories differ, and only where nothing looks. -/
structure Twin (B : GoString → Prop) (s s' : Job) : Prop where
  same : s' = s.onDisk s'.disk s'.snapshot
  disks : Alike B s.disk s'.disk
  snapshots : Option.Rel Listed s.snapshot s'.snapshot

theorem Twin.step {act : JobAction} (h : Twin B s s') (hk : Known B s)
    (hs : s.step spec act = some t) (hclear : Clear B s act t) :
    ∃ t', s'.step spec act = some t' ∧ Twin B t t' := by
  obtain ⟨hsame, hdisks, hsnaps⟩ := h
  generalize s'.disk = e at hsame hdisks
  generalize s'.snapshot = snap at hsame hsnaps
  subst hsame
  cases step_cases hs with
  | registerWorker => exact ⟨_, rfl, rfl, hdisks, hsnaps⟩
  | getTask hpc hget =>
      obtain ⟨c, hc, rfl⟩ := CoordSys.getTask_eq_some.mp hget
      -- `GetTask` does not look at the directory
      have hcall := (CoordSys.getTask_eq_some (s := (s.onDisk e snap).sys)).mpr ⟨c, hc, rfl⟩
      exact ⟨_, step_getTask (s := s.onDisk e snap) hpc hcall, rfl, hdisks, hsnaps⟩
  | @advance w it pc pc' d unreported hpc hadv hun =>
      subst hun
      obtain ⟨e', hadv', halike⟩ := hadv.alike hdisks (hk.workers pc (List.mem_of_getElem? hpc))
        fun f hf ↦ hclear.opens w it pc f rfl hpc hf
      exact ⟨_, step_advance (s := s.onDisk e snap) hpc hadv'.call, rfl, halike, hsnaps⟩
  | @taskDone w n it files sys err pc snapshot hpc hdone hnext hsnap =>
      obtain ⟨c, fs, hc, rfl⟩ := CoordSys.taskDone_eq_some.mp hdone
      obtain ⟨e', hdone', halike⟩ := TaskDone.alike hdisks (Coordinator.taskDone_cases hc)
        (hk.workers _ (List.mem_of_getElem? hpc)) hclear.lists
      have hcall := (CoordSys.taskDone_eq_some (s := (s.onDisk e snap).sys) (w := w)).mpr
        ⟨_, _, hdone'.call, rfl⟩
      subst hnext hsnap
      refine ⟨_, step_taskDone (s := s.onDisk e snap) hpc hcall, rfl, halike, ?_⟩
      change Option.Rel Listed (if c.created = s.coord.created then s.snapshot else some fs)
        (if c.created = s.coord.created then snap else some e')
      split
      · exact hsnaps
      · rename_i hcreated
        exact .some fun name hname ↦ halike.read name (hclear.lists hcreated name hname)
  | heartbeat hpc hthere hfree hbeat =>
      exact ⟨_, step_heartbeat (s := s.onDisk e snap) hpc hthere hfree hbeat, rfl, hdisks, hsnaps⟩
  | stopRunning hb => exact ⟨_, step_stopRunning (s := s.onDisk e snap) hb, rfl, hdisks, hsnaps⟩
  | @done now c d result hdone =>
      obtain ⟨e', hdone', halike⟩ := done_alike hdisks hdone
      exact ⟨_, step_done (s := s.onDisk e snap) hdone', rfl, halike, hsnaps⟩
  | crash =>
      obtain ⟨pc, hpc⟩ := crash_worker hs
      exact ⟨_, step_crash (s := s.onDisk e snap) hpc, rfl, hdisks, hsnaps⟩

end Job

end GoLabs.MapReduce
