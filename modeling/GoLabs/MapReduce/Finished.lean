import GoLabs.MapReduce.DoneSound
import GoLabs.MapReduce.Pipeline

/-!
# The output of a finished job

When `Done` has returned true, `mrcoordinator` exits and the `mr-out-` files are what the user has.
In the runs in which the attempts at one reducer id keep out of each other's way, they are the
groups of all pairs that `mapf` emits for the input files, spread over the files by the hash of the
key.
-/

open GoLabs.Reasoning

namespace GoLabs.MapReduce

/-! ## Output files stay -/

/-- The output files that were renamed to their place are there. -/
def Disk.Kept (d : Disk) : Prop :=
  ∀ p ∈ d.renames, lit "mr-out-" <+: p.2 → d.read p.2 ≠ none

namespace Disk.Kept

variable {d d' : Disk} {files : List GoString} {err : Option GoString}

theorem of_read (h : d.Kept) (hrenames : d'.renames = d.renames)
    (hread : ∀ name, lit "mr-out-" <+: name → d.read name ≠ none → d'.read name ≠ none) :
    d'.Kept := by
  intro p hp hpre
  rw [hrenames] at hp
  exact hread p.2 hpre (h p hp hpre)

theorem ne_temp {name file : GoString} (hname : lit "mr-out-" <+: name)
    (hfile : lit "temp" <+: file) : name ≠ file := by
  rintro rfl
  exact prefix_disjoint (by decide) hfile hname

theorem renameTempFiles (h : d.Kept) (hfiles : ∀ f ∈ files, lit "temp" <+: f)
    (hrename : renameTempFiles Disk.os d files = (d', err)) : d'.Kept := by
  induction files generalizing d with
  | nil =>
      rw [MapReduce.renameTempFiles, Prod.mk.injEq] at hrename
      exact hrename.1 ▸ h
  | cons file files ih =>
      obtain ⟨hfile, hrest⟩ := List.forall_mem_cons.mp hfiles
      rw [renameTempFiles_cons] at hrename
      cases hr : d.rename file (newName file) with
      | error e =>
          simp only [hr, Prod.mk.injEq] at hrename
          exact hrename.1 ▸ h
      | ok e =>
          simp only [hr] at hrename
          refine ih ?_ hrest hrename
          obtain ⟨-, he, -⟩ := Disk.renamed hr
          intro p hp hpre
          rw [Disk.read_rename hr]
          by_cases hnew : p.2 = newName file
          · rw [if_pos hnew]
            exact Disk.rename_ok_iff.mp ⟨e, hr⟩
          · rw [if_neg hnew, if_neg (ne_temp hpre hfile)]
            rw [he] at hp
            obtain hold | hlast := List.mem_append.mp hp
            · exact h p hold hpre
            · rw [List.mem_singleton.mp hlast] at hnew
              exact absurd rfl hnew

/-- `TaskDone` moves temporary files or removes them. -/
theorem taskDone {n : Nat} {it : Iteration GoString} {c c' : Coordinator} (h : d.Kept)
    (hfiles : ∀ f ∈ files, lit "temp" <+: f)
    (hdone : Coordinator.TaskDone Disk.os it c d n files c' d' err) : d'.Kept := by
  cases hdone with
  | late ht hs hremove =>
      refine h.of_read (renames_removeFiles hremove) ?_
      intro name hpre hne
      rwa [read_removeFiles_of_notMem hremove fun hmem ↦ ne_temp hpre (hfiles name hmem) rfl]
  | failed ht hs hty hrename => exact h.renameTempFiles hfiles hrename
  | mapped ht hs hty hrename hnum => exact h.renameTempFiles hfiles hrename
  | lastMapped ht hs hty hrename hnum hglob hgroup => exact h.renameTempFiles hfiles hrename
  | lastFailed ht hs hty hrename hnum hglob => exact h.renameTempFiles hfiles hrename
  | reduced ht hs hty hrename hphase => exact h.renameTempFiles hfiles hrename
  | other ht hs hty => exact h

end Disk.Kept

namespace Job

variable {spec : JobSpec} {d₀ : Disk} {s t : Job}

theorem Wired.reported_temp (hw : Wired spec d₀ s) {w n : Nat} {files : List GoString}
    (hpc : s.workers[w]? = some (.reporting n files)) : ∀ f ∈ files, lit "temp" <+: f := by
  obtain ⟨-, -, task, -, -, hnames⟩ := hw.busy w n _ hpc rfl
  intro f hf
  cases ho : task.origin with
  | input i =>
      rw [ho] at hnames
      obtain ⟨r, rfl⟩ := hnames f hf
      exact temp_mapOutName n r
  | partition r =>
      rw [ho] at hnames
      rw [hnames f hf]
      exact temp_reduceOutName r

theorem kept_step {act : JobAction} (hw : Wired spec d₀ s) (h : s.disk.Kept)
    (hs : s.step spec act = some t) : t.disk.Kept := by
  cases step_cases hs with
  | registerWorker => exact h
  | getTask hpc hget =>
      obtain ⟨c, -, rfl⟩ := CoordSys.getTask_eq_some.mp hget
      exact h
  | advance hpc hadv hun =>
      exact h.of_read (renames_advance hadv) fun _ _ hne ↦ read_advance_ne_none hadv hne
  | taskDone hpc hdone hnext hsnap =>
      exact h.taskDone (hw.reported_temp hpc) (CoordSys.taskDone_given hdone).2.2
  | heartbeat => exact h
  | stopRunning => exact h
  | @done now c e result hdone =>
      have hrenames : e.renames = s.disk.renames := by
        obtain ⟨-, rfl⟩ | ⟨-, -, rfl⟩ := (Coordinator.done_cases hdone).2
        · rfl
        · exact renames_deleteFiles _ _
      refine h.of_read hrenames ?_
      intro name hpre hne
      change e.read name ≠ none
      rwa [read_done hdone (prefix_disjoint (by decide) hpre)]
  | crash => exact h

theorem kept_of_reaches (hfresh : d₀.renames = [])
    (h : Reaches (step spec) (Job.init spec d₀) s) : s.disk.Kept := by
  refine h.invariant ?_ fun u act v hr hs hu ↦ kept_step (wired_of_reaches hr) hu hs
  intro p hp
  change p ∈ d₀.renames at hp
  rw [hfresh] at hp
  cases hp

end Job

/-! ## The output -/

/-- The output files hold one line for every key, in the file of the reducer of the key, with the
result for all values of the key. -/
structure Outputs (reducef : GoString → List GoString → GoString) (nReduce : Nat)
    (kvs : List (GoString × GoString)) (d : Disk) : Prop where
  lines : ∀ r text, d.read (reduceFileName r) = some text → ∃ keys : List GoString, keys.Nodup ∧
    (∀ k, k ∈ keys ↔ k ∈ kvs.map Prod.fst ∧ r = dec (ihash k % nReduce)) ∧
    text = keys.flatMap fun k => reduceRecord k (reducef k (valuesOf k kvs))
  present : ∀ k ∈ kvs.map Prod.fst, d.read (reduceFileName (dec (ihash k % nReduce))) ≠ none

namespace MapOutput

variable {mapf : GoString → GoString → List KeyValue} {nReduce : Nat} {d₀ d : Disk}
  {work : List (Nat × GoString)} {r : GoString}

/-- Only reducer ids that are numbers have map output. -/
theorem reduceFiles_eq_nil (h : MapOutput mapf nReduce d₀ d work) (hr : ∀ k : Nat, r ≠ dec k) :
    reduceFiles d r = [] := by
  rw [List.eq_nil_iff_forall_not_mem]
  intro name hmem
  obtain ⟨hpre, hread, hid⟩ := h.mem_reduceFiles.mp hmem
  obtain ⟨e, -, k, rfl⟩ := h.only name hpre hread
  rw [reduceIdOf_mapFileName, Option.some.injEq] at hid
  exact hr k hid.symm

/-- What a reduce task reads of the output of all map tasks. -/
theorem parse_id (h : MapOutput mapf nReduce d₀ d work)
    (hplain : ∀ kv ∈ allPairs mapf d₀ (work.map Prod.snd), kv.Plain)
    {kvs : List (GoString × GoString)} (hparse : parseFiles d (reduceFiles d r) = some kvs) :
    kvs.Perm (((allPairs mapf d₀ (work.map Prod.snd)).map KeyValue.pair).filter
      fun kv => r = dec (ihash kv.1 % nReduce)) := by
  by_cases hr : ∃ k : Nat, r = dec k
  · obtain ⟨k, rfl⟩ := hr
    obtain ⟨kvs', hparse', hperm⟩ := h.parse hplain k
    rw [hparse', Option.some.injEq] at hparse
    subst hparse
    have hfilter : (fun kv : GoString × GoString => decide (ihash kv.1 % nReduce = k)) =
        fun kv => decide (dec k = dec (ihash kv.1 % nReduce)) := by
      funext kv
      rw [decide_eq_decide]
      exact ⟨fun heq ↦ by rw [heq], fun heq ↦ (dec_injective heq).symm⟩
    rwa [hfilter] at hperm
  · have hr := not_exists.mp hr
    rw [h.reduceFiles_eq_nil hr] at hparse
    have hnil : kvs = [] := by simpa [parseFiles] using hparse.symm
    have hempty : ((allPairs mapf d₀ (work.map Prod.snd)).map KeyValue.pair).filter
        (fun kv => decide (r = dec (ihash kv.1 % nReduce))) = [] :=
      List.filter_eq_nil_iff.mpr fun kv _ ↦ by simpa using hr _
    rw [hnil, hempty]

/-- The lines of a reducer, in terms of the pairs of all input files. -/
theorem lines {reducef : GoString → List GoString → GoString}
    (h : MapOutput mapf nReduce d₀ d work)
    (hplain : ∀ kv ∈ allPairs mapf d₀ (work.map Prod.snd), kv.Plain)
    (horder : ∀ key vs vs', vs.Perm vs' → reducef key vs = reducef key vs') {entries : List Entry}
    (hentries : Entries d r entries) : ∃ keys : List GoString, keys.Nodup ∧
      (∀ k, k ∈ keys ↔ k ∈ ((allPairs mapf d₀ (work.map Prod.snd)).map KeyValue.pair).map Prod.fst ∧
        r = dec (ihash k % nReduce)) ∧
      render reducef entries = keys.flatMap fun k => reduceRecord k (reducef k
        (valuesOf k ((allPairs mapf d₀ (work.map Prod.snd)).map KeyValue.pair))) := by
  obtain ⟨kvs, hparse, hnodup, hmem, hvalues⟩ := hentries.keys
  have hperm := h.parse_id hplain hparse
  refine ⟨entries.map Prod.fst, hnodup, ?_, ?_⟩
  · intro k
    rw [hmem, (hperm.map Prod.fst).mem_iff]
    simp only [List.mem_map, List.mem_filter, decide_eq_true_eq]
    constructor
    · rintro ⟨kv, ⟨hkv, hr⟩, rfl⟩
      exact ⟨⟨kv, hkv, rfl⟩, hr⟩
    · rintro ⟨⟨kv, hkv, rfl⟩, hr⟩
      exact ⟨kv, ⟨hkv, hr⟩, rfl⟩
  · rw [render, List.flatMap_map]
    apply List.flatMap_congr
    intro entry hentry
    -- all values of the key are with the reducer of the key
    have hkey := (hmem entry.1).mp (List.mem_map_of_mem hentry)
    obtain ⟨kv, hkv, heq⟩ := List.mem_map.mp ((hperm.map Prod.fst).mem_iff.mp hkey)
    have hid : decide (r = dec (ihash entry.1 % nReduce)) = true := by
      rw [← heq]
      exact (List.mem_filter.mp hkv).2
    have hall := valuesOf_perm hperm entry.1
    rw [valuesOf_filter (p := fun k => decide (r = dec (ihash k % nReduce))) hid] at hall
    rw [hvalues entry hentry, horder _ _ _ hall]

end MapOutput

namespace Job

variable {spec : JobSpec} {reducef : GoString → List GoString → GoString} {d₀ : Disk} {s : Job}

/-- The attempts at one reducer id keep out of each other's way: none opens the file while another
one has opened it and not reported, and none that has timed out reports while another one is about
to. -/
def undisturbed (s : Job) (act : JobAction) : Bool := s.soleWriter act && s.keepsOutput act

theorem soleWriter_of_undisturbed
    (h : Reaches (restrict (step spec) undisturbed) (Job.init spec d₀) s) :
    Reaches (restrict (step spec) soleWriter) (Job.init spec d₀) s :=
  h.restrict_mono fun _ _ hg ↦ ((Bool.and_eq_true _ _).mp hg).1

theorem keepsOutput_of_undisturbed
    (h : Reaches (restrict (step spec) undisturbed) (Job.init spec d₀) s) :
    Reaches (restrict (step spec) keepsOutput) (Job.init spec d₀) s :=
  h.restrict_mono fun _ _ hg ↦ ((Bool.and_eq_true _ _).mp hg).2

/-- `Done` returns true only after `createReduceTasks`. -/
theorem created_of_settled {inputs : List GoString} {sys : CoordSys Disk}
    (hacc : CoordSys.Accounting inputs sys) (hsettled : sys.coord.settled = true) :
    sys.coord.created ≠ [] := by
  apply hacc.phase
  intro hmap
  rw [Coordinator.settled, hmap] at hsettled
  cases hsettled

/-- A function that answers every attempt at a file as it answered the one that committed. -/
theorem snapshot_pure {d : Disk} (hacc : CoordSys.Accounting spec.inputs s.sys)
    (h : Snapshot spec d₀ d s.coord) (hne : s.coord.created ≠ [])
    (hmap : (∀ n m, spec.mapf n = spec.mapf m) ∨ spec.inputs.Nodup)
    (reducef : GoString → List GoString → GoString) :
    ∃ mapf : GoString → GoString → List KeyValue,
      (∀ f content, ∃ n, mapf f content = spec.mapf n f content) ∧
      Snapshot (.pure spec.inputs spec.nReduce mapf reducef) d₀ d s.coord := by
  obtain hsame | hnodup := hmap
  · refine ⟨spec.mapf 0, fun _ _ ↦ ⟨0, rfl⟩, ?_, h.only, h.created, h.files⟩
    intro t task i ht ho hc
    obtain ⟨kvs, hemitted, hread⟩ := h.committed t task i ht ho hc
    refine ⟨kvs, fun hinputs ↦ ?_, hread⟩
    obtain ⟨f, content, hfiles, hcontent, hkvs⟩ := hemitted hinputs
    exact ⟨f, content, hfiles, hcontent, by rw [hkvs, hsame t 0]; rfl⟩
  · choose! tid row hrow using exists_committed hacc hne
    refine ⟨fun f content => spec.mapf (tid (spec.inputs.idxOf f) f) f content,
      fun _ _ ↦ ⟨_, rfl⟩, ?_, h.only, h.created, h.files⟩
    intro t task i ht ho hc
    obtain ⟨kvs, hemitted, hread⟩ := h.committed t task i ht ho hc
    refine ⟨kvs, fun hinputs ↦ ?_, hread⟩
    obtain ⟨f, content, hfiles, hcontent, hkvs⟩ := hemitted hinputs
    -- the file has one place in the inputs, so one attempt that committed
    have hfits := hacc.rows.fits task (List.mem_of_getElem? ht)
    rw [Task.Fits, ho] at hfits
    obtain ⟨-, f', hf, hfiles'⟩ := hfits
    obtain rfl : f' = f := by
      rw [hfiles, List.singleton_inj] at hfiles'
      exact hfiles'.symm
    obtain ⟨hlt, hget⟩ := List.getElem?_eq_some_iff.mp hf
    have hidx : spec.inputs.idxOf f' = i := by
      rw [← hget]
      exact hnodup.idxOf_getElem i hlt
    obtain ⟨ht', ho', -, hc'⟩ := hrow i f' hf
    have htid := committed_unique hacc ht ht' (ho.trans ho'.symm) hc hc'
    refine ⟨f', content, hfiles, hcontent, ?_⟩
    rw [hkvs]
    change _ = spec.mapf (tid (spec.inputs.idxOf f') f') f' content
    rw [hidx, ← htid]

/-- In every run without disturbance: when `Done` has returned true, the output files are the groups
of the pairs of all input files, as the attempts that committed emitted them. -/
theorem outputs_of_done (hclean : CleanDir d₀) (hfresh : d₀.renames = [])
    (hinputs : ∀ f ∈ spec.inputs, ¬ Reserved f) (hred : spec.reducef = fun _ => reducef)
    (horder : ∀ key vs vs', vs.Perm vs' → reducef key vs = reducef key vs')
    (hmap : (∀ n m, spec.mapf n = spec.mapf m) ∨ spec.inputs.Nodup)
    (hplain : ∀ n, ∀ f ∈ spec.inputs, ∀ content, ∀ kv ∈ spec.mapf n f content, kv.Plain)
    (h : Reaches (restrict (step spec) undisturbed) (Job.init spec d₀) s)
    {now : Nat → Int} {c : Coordinator} {e : Disk}
    (hdone : s.coord.done Disk.os s.disk now = (c, e, true)) :
    ∃ mapf : GoString → GoString → List KeyValue,
      (∀ f content, ∃ n, mapf f content = spec.mapf n f content) ∧
      Outputs reducef spec.nReduce ((allPairs mapf d₀ spec.inputs).map KeyValue.pair) e := by
  -- the run goes on with this call of `Done`
  have hs : s.step spec (.done now) = some { s with
      sys := { s.sys with coord := c, fs := e }, finished := s.finished || true } := by
    simp [Job.step, hdone]
  have ht := h.snoc (restrict_eq_some.mpr ⟨rfl, hs⟩)
  have hacc := (wired_of_reaches ht.of_restrict).accounting
  have hsn := snapInv_of_reaches hclean.start ht.of_restrict
  obtain ⟨-, ⟨hfalse, -⟩ | ⟨-, hsettled, -⟩⟩ := Coordinator.done_cases hdone
  · cases hfalse
  have hcreated := created_of_settled hacc hsettled
  obtain ⟨d, hd⟩ := Option.ne_none_iff_exists'.mp (mt hsn.none_iff.mp hcreated)
  obtain ⟨mapf, hmapf, hpure⟩ := snapshot_pure hacc (hsn.found d hd) hcreated hmap reducef
  obtain ⟨work, hwork, hout, -⟩ := exists_work hacc hpure hinputs hcreated
  -- the pairs are those of the attempts that were committed
  have hplain' : ∀ kv ∈ allPairs mapf d₀ (work.map Prod.snd), kv.Plain := by
    intro kv hkv
    obtain ⟨f, hf, hkv⟩ := List.mem_flatMap.mp hkv
    obtain ⟨n, hn⟩ := hmapf f ((d₀.read f).getD [])
    rw [pairsOf, hn] at hkv
    exact hplain n f (hwork ▸ hf) _ kv hkv
  refine ⟨mapf, hmapf, ?_⟩
  rw [← hwork]
  constructor
  · intro r text htext
    obtain ⟨d', entries, hd', hentries, rfl⟩ :=
      (exactInv_of_reaches hclean hred (soleWriter_of_undisturbed ht)).outputs r text htext
    obtain rfl : d = d' := Option.some.inj (hd.symm.trans hd')
    exact hout.lines hplain' horder hentries
  · intro k hk
    obtain ⟨_, hpair, rfl⟩ := List.mem_map.mp hk
    obtain ⟨kv, hkv, rfl⟩ := List.mem_map.mp hpair
    -- a pair has a file, the file a reduce task, and that task has been renamed
    have hfiles := hout.reduceFiles_ne_nil.mpr ⟨kv, hkv, rfl⟩
    obtain ⟨ids, hids, -, hmem⟩ := (hsn.found d hd).created
    have hid : dec (ihash kv.key % spec.nReduce) ∈ c.created.flatten := by
      change c.created = [ids] at hids
      rw [hids, List.flatten_singleton]
      exact (hmem _).mpr hfiles
    obtain ⟨task, htask, ho, hend⟩ := ended_of_settled hacc hsettled hid
    have hrenamed := (doneInv_of_reaches hclean.start (keepsOutput_of_undisturbed ht)).ended
      task htask _ ho hend
    exact kept_of_reaches hfresh ht.of_restrict _ hrenamed ⟨_, rfl⟩

end Job

end GoLabs.MapReduce
