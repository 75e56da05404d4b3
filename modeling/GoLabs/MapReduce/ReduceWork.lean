import GoLabs.MapReduce.Snapshot

/-!
# The work of a reduce attempt

Every attempt at a reducer id reads the same files, as they were when the reduce tasks were made, so
it writes the same lines as every other attempt, up to their order.  What the output file holds
while it does so depends on the other attempts, and is a parameter here.
-/

open GoLabs.Reasoning

namespace GoLabs.MapReduce

/-- A key of a partition with its values. -/
abbrev Entry := GoString × List GoString

/-- The pairs in the files of a reduce task, in the order in which it reads them. -/
def parseFiles (d : Disk) (files : List GoString) : Option (List (GoString × GoString)) :=
  (files.mapM fun file => (d.read file).bind parseContent).map List.flatten

variable {d : Disk} {r : GoString}

theorem parseFiles_append {pre files : List GoString} {kvs kvs' : List (GoString × GoString)}
    (h : parseFiles d pre = some kvs) (h' : parseFiles d files = some kvs') :
    parseFiles d (pre ++ files) = some (kvs ++ kvs') := by
  unfold parseFiles at h h' ⊢
  rcases Option.map_eq_some_iff.mp h with ⟨l, hl, rfl⟩
  rcases Option.map_eq_some_iff.mp h' with ⟨l', hl', rfl⟩
  rw [List.mapM_append, hl, hl']
  simp

theorem parseFiles_congr {e : Disk} {files : List GoString}
    (h : ∀ file ∈ files, e.read file = d.read file) : parseFiles e files = parseFiles d files := by
  unfold parseFiles
  congr 1
  induction files with
  | nil => rfl
  | cons file files ih =>
      rw [List.mapM_cons, List.mapM_cons, h file List.mem_cons_self,
        ih fun f hf ↦ h f (List.mem_cons_of_mem _ hf)]

/-- `runReduceTask` collects the values of every key. -/
theorem readFiles_eq (files : List GoString) (m : GoMap GoString (List GoString)) :
    readFiles d files m = (parseFiles d files).map (GoMap.collect m) := by
  induction files generalizing m with
  | nil => rfl
  | cons file files ih =>
      unfold readFiles parseFiles
      cases hf : (d.read file).bind parseContent with
      | none => simp [hf]
      | some kvs =>
          dsimp only
          rw [ih, parseFiles]
          simp only [List.mapM_cons, hf, Option.bind_eq_bind, Option.bind_some]
          cases (files.mapM fun file => (d.read file).bind parseContent) with
          | none => rfl
          | some l => simp [GoMap.collect_append]

/-- The keys of reducer id `r` with their values, in an order in which an attempt may write them. -/
def Entries (d : Disk) (r : GoString) (entries : List Entry) : Prop :=
  ∃ kvs it, parseFiles d (reduceFiles d r) = some kvs ∧ entries = (GoMap.collect ∅ kvs).range it

/-- The files an attempt has created when it has written `written`. -/
def outNames (r : GoString) (written : List Entry) : List GoString :=
  if written = [] then [] else [reduceOutName r]

/-- Every key once, with all its values. -/
theorem Entries.keys {entries : List Entry} (h : Entries d r entries) :
    ∃ kvs, parseFiles d (reduceFiles d r) = some kvs ∧ (entries.map Prod.fst).Nodup ∧
      (∀ k, k ∈ entries.map Prod.fst ↔ k ∈ kvs.map Prod.fst) ∧
      ∀ e ∈ entries, e.2 = valuesOf e.1 kvs := by
  rcases h with ⟨kvs, it, hparse, rfl⟩
  have hmem : ∀ k, k ∈ ((GoMap.collect ∅ kvs).range it).map Prod.fst ↔ k ∈ kvs.map Prod.fst := by
    intro k
    rw [(GoMap.range_keys_perm it _).mem_iff]
    change k ∈ GoMap.collect ∅ kvs ↔ _
    rw [GoMap.mem_collect]
    simp [AList.notMem_empty]
  refine ⟨kvs, hparse, GoMap.range_keys_nodup it _, hmem, ?_⟩
  intro e he
  have hkey := (hmem e.1).mp (List.mem_map_of_mem he)
  have hlook := GoMap.mem_range.mp he
  rw [GoMap.lookup_collect_empty hkey, Option.some.injEq] at hlook
  exact hlook.symm

/-- What a worker has done of an attempt at reducer id `r`; `text` says what may be said of the
output file when the attempt has opened it or not, and has written the given entries. -/
def ReducePc (d : Disk) (r : GoString) (text : Bool → List Entry → Prop) : WorkerPc → Prop
  | .reading _ _ files m => (∃ pre kvs, reduceFiles d r = pre ++ files ∧
      parseFiles d pre = some kvs ∧ m = GoMap.collect ∅ kvs) ∧ text false []
  | .writing _ _ entries created => ∃ written, Entries d r (written ++ entries) ∧
      created.keys = outNames r written ∧ text (written ≠ []) written
  | .reduceOpen _ _ key values entries created _ => ∃ written,
      Entries d r (written ++ (key, values) :: entries) ∧ created.keys = [reduceOutName r] ∧
      text true written
  | .reporting _ files => ∃ entries, Entries d r entries ∧ files = outNames r entries ∧
      text (entries ≠ []) entries
  | _ => True

theorem ReducePc.imp {text text' : Bool → List Entry → Prop} {pc : WorkerPc}
    (h : ReducePc d r text pc)
    (himp : ∀ opened written, text opened written → text' opened written) :
    ReducePc d r text' pc := by
  cases pc with
  | reading t r' files m => exact ⟨h.1, himp _ _ h.2⟩
  | writing t r' entries created =>
      rcases h with ⟨written, he, hc, ht⟩
      exact ⟨written, he, hc, himp _ _ ht⟩
  | reduceOpen t r' key values entries created fd =>
      rcases h with ⟨written, he, hc, ht⟩
      exact ⟨written, he, hc, himp _ _ ht⟩
  | reporting t files =>
      rcases h with ⟨entries, he, hf, ht⟩
      exact ⟨entries, he, hf, himp _ _ ht⟩
  | idle => trivial
  | mapping t n files kvs created => trivial
  | mapOpen t n files kv kvs created fd => trivial
  | gone => trivial

theorem keys_insert_outNames {created : Created} {written : List Entry} {e : Entry}
    (h : created.keys = outNames r written) :
    (created.insert (reduceOutName r) true).keys = outNames r (written ++ [e]) := by
  have hne : written ++ [e] ≠ [] := by simp
  rw [AList.keys_insert, h]
  unfold outNames
  rw [if_neg hne]
  split <;> simp

theorem order_outNames (it : Iteration GoString) {keys : List GoString} {written : List Entry}
    (h : keys = outNames r written) : it.order keys = outNames r written := by
  have hperm := it.perm keys
  rw [h, outNames] at hperm ⊢
  split at hperm
  · rename_i hnil
    rw [if_pos hnil]
    exact hperm.eq_nil
  · rename_i hne
    rw [if_neg hne]
    exact List.perm_singleton.mp hperm

/-- The reducer id whose output file a worker has open, and the descriptor. -/
def WorkerPc.outputFile : WorkerPc → Option (GoString × Nat)
  | .reduceOpen _ r _ _ _ _ fd => some (r, fd)
  | _ => none

/-- One operation of an attempt; the files it reads are those of `d`. -/
theorem ReducePc.advance {spec : JobSpec} {it : Iteration GoString} {e e' : Disk}
    {pc pc' : WorkerPc} {n : Nat} {task : Task} {text text' : Bool → List Entry → Prop}
    (hadv : WorkerPc.Advance spec it e pc pc' e') (hfits : pc.Fits spec.nReduce n task)
    (ho : task.origin = .partition r)
    (hread : ∀ file ∈ reduceFiles d r, ∀ content, e.read file = some content →
      d.read file = some content)
    (hquiet : pc.opens = none → pc.outputFile = none →
      ∀ opened written, text opened written → text' opened written)
    (hopen : ∀ k key values entries created, pc = .writing k r ((key, values) :: entries) created →
      ∀ written, text (written ≠ []) written → text' true written)
    (hwrite : ∀ k key values entries created fd,
      pc = .reduceOpen k r key values entries created fd →
      ∀ written, text true written → text' true (written ++ [(key, values)]))
    (h : ReducePc d r text pc) : ReducePc d r text' pc' := by
  cases hadv with
  | mapPanic => trivial
  | mapOpen hn => trivial
  | mapWrite => trivial
  | mapMissing hmissing => trivial
  | mapRead hcontent => trivial
  | mapEnd =>
      -- only a map task gets here, and this one is a reduce task
      rcases hfits with ⟨-, ⟨i, hi⟩, -⟩
      rw [ho] at hi
      simp at hi
  | readFail hfail => trivial
  | @read k r' file content files m kvs hcontent hparse =>
      -- one more file of the reducer id is collected
      rcases h with ⟨⟨pre, kvs', hfiles, hpre, rfl⟩, htext⟩
      have hfile := hread file (by rw [hfiles]; simp) content hcontent
      refine ⟨⟨pre ++ [file], kvs' ++ kvs, by simpa using hfiles, ?_, ?_⟩,
        hquiet rfl rfl _ _ htext⟩
      · refine parseFiles_append hpre ?_
        simp [parseFiles, hfile, hparse]
      · exact (GoMap.collect_append _ _ _).symm
  | @readEnd k r' m =>
      rcases h with ⟨⟨pre, kvs, hfiles, hpre, rfl⟩, htext⟩
      rw [List.append_nil] at hfiles
      exact ⟨[], ⟨kvs, it, by rw [hfiles]; exact hpre, rfl⟩, rfl,
        hquiet rfl rfl _ _ htext⟩
  | @reduceOpen k r' key values entries created =>
      obtain rfl : r = r' := Origin.partition.inj (ho.symm.trans hfits.1)
      rcases h with ⟨written, hentries, hkeys, htext⟩
      refine ⟨written, hentries, ?_, hopen k key values entries created rfl written htext⟩
      rw [keys_insert_outNames (e := (key, values)) hkeys, outNames, if_neg (by simp)]
  | @write k r' key values entries created fd =>
      obtain rfl : r = r' := Origin.partition.inj (ho.symm.trans hfits.1)
      rcases h with ⟨written, hentries, hkeys, htext⟩
      have hne : written ++ [(key, values)] ≠ [] := by simp
      refine ⟨written ++ [(key, values)], by simpa using hentries, ?_, ?_⟩
      · rw [hkeys, outNames, if_neg hne]
      · rw [decide_eq_true hne]
        exact hwrite k key values entries created fd rfl written htext
  | @writeEnd k r' created =>
      rcases h with ⟨written, hentries, hkeys, htext⟩
      rw [List.append_nil] at hentries
      exact ⟨written, hentries, order_outNames _ hkeys, hquiet rfl rfl _ _ htext⟩

/-! ## Along a run -/

namespace Job

/-- What the attempts at reducer ids have done; `text n r` is about the output file of attempt `n`
at `r`. -/
def ReduceInv (text : Nat → GoString → Bool → List Entry → Prop) (s : Job) : Prop :=
  ∀ d, s.snapshot = some d → ∀ (w n : Nat) (pc : WorkerPc) (task : Task) (r : GoString),
    s.workers[w]? = some pc → pc.task = some n → s.coord.tasks[n]? = some task →
    task.origin = .partition r → ReducePc d r (text n r) pc

variable {spec : JobSpec} {d₀ : Disk} {s t : Job}
  {text text' : Nat → GoString → Bool → List Entry → Prop}

theorem ReduceInv.init : ReduceInv text (Job.init spec d₀) := by
  intro d hd
  simp [Job.init] at hd

/-- How the output files change has to be said of the workers that a step leaves alone, of the one
that moves on, and of the one that begins. -/
structure Carries (act : JobAction) (s t : Job)
    (text text' : Nat → GoString → Bool → List Entry → Prop) : Prop where
  kept : ∀ (v n : Nat) (pc : WorkerPc) (task : Task) (r : GoString), s.workers[v]? = some pc →
    t.workers[v]? = some pc → pc.task = some n → s.coord.tasks[n]? = some task →
    task.origin = .partition r →
    ∀ opened written, text n r opened written → text' n r opened written
  quiet : ∀ (w : Nat) (it : Iteration GoString) (n : Nat) (pc : WorkerPc) (task : Task)
    (r : GoString), act = .advance w it → s.workers[w]? = some pc → pc.task = some n →
    s.coord.tasks[n]? = some task → task.origin = .partition r → pc.opens = none →
    pc.outputFile = none → ∀ opened written, text n r opened written → text' n r opened written
  opened : ∀ (w : Nat) (it : Iteration GoString) (n : Nat) (task : Task) (r key : GoString)
    (values : List GoString) (entries : List Entry) (created : Created),
    act = .advance w it → s.workers[w]? = some (.writing n r ((key, values) :: entries) created) →
    s.coord.tasks[n]? = some task → task.origin = .partition r →
    ∀ written, text n r (written ≠ []) written → text' n r true written
  wrote : ∀ (w : Nat) (it : Iteration GoString) (n : Nat) (task : Task) (r key : GoString)
    (values : List GoString) (entries : List Entry) (created : Created) (fd : Nat),
    act = .advance w it →
    s.workers[w]? = some (.reduceOpen n r key values entries created fd) →
    s.coord.tasks[n]? = some task → task.origin = .partition r →
    ∀ written, text n r true written → text' n r true (written ++ [(key, values)])
  begun : ∀ (n : Nat) (r : GoString), n ∉ s.sys.given.map Prod.snd → text' n r false []

/-- A worker that the step leaves alone. -/
theorem ReduceInv.keep {act : JobAction} (h : ReduceInv text s) (hw : Wired spec d₀ s)
    (hcarry : Carries act s t text text')
    (hlater : Tasks.Later s.coord.tasks t.coord.tasks) {d : Disk} (hd : s.snapshot = some d)
    {v n : Nat} {pc : WorkerPc} {task : Task} {r : GoString} (hv : s.workers[v]? = some pc)
    (hv' : t.workers[v]? = some pc) (hn : pc.task = some n) (htask : t.coord.tasks[n]? = some task)
    (ho : task.origin = .partition r) : ReducePc d r (text' n r) pc := by
  rcases hw.busy v n pc hv hn with ⟨-, -, old, hold, -⟩
  rcases hlater n old hold with ⟨task', htask', hl⟩
  rw [htask, Option.some.injEq] at htask'
  subst htask'
  rw [hl.origin] at ho
  exact (h d hd v n pc old r hv hn hold ho).imp
    (hcarry.kept v n pc old r hv hv' hn hold ho)

/-- An attempt begins with the files of the snapshot. -/
theorem begin_reducePc {k nReduce : Nat} {task : Task} {inputs : List GoString} {d : Disk}
    {r : GoString} {text : Bool → List Entry → Prop} (hfits : task.Fits inputs)
    (ho : task.origin = .partition r) (hfiles : task.files = reduceFiles d r)
    (htext : text false []) :
    ReducePc d r text (.begin ⟨task.files, nReduce, task.taskType, k⟩) := by
  obtain ⟨i, ho', _⟩ | ⟨r', ho', hpc⟩ := begin_cases k nReduce hfits
  · rw [ho] at ho'
    cases ho'
  · rw [ho, Origin.partition.injEq] at ho'
    subst ho'
    rw [hpc]
    exact ⟨⟨[], [], by rw [← hfiles]; rfl, rfl, rfl⟩, htext⟩

/-- A worker that the step leaves alone, also when the step is the one that makes the snapshot. -/
theorem ReduceInv.kept {act : JobAction} (h : ReduceInv text s) (hw : Wired spec d₀ s)
    (hs : s.step spec act = some t) (hcarry : Carries act s t text text') {d : Disk} {w n : Nat}
    {pc : WorkerPc} {task : Task} {r : GoString} (hd : t.snapshot = some d)
    (hpc : t.workers[w]? = some pc) (hn : pc.task = some n) (htask : t.coord.tasks[n]? = some task)
    (ho : task.origin = .partition r) (hold : s.workers[w]? = some pc) :
    ReducePc d r (text' n r) pc := by
  have hacc := hw.accounting
  have hlater := CoordSys.later_of_step hacc (sys_step hw hs)
  rcases created_of_step hs with ⟨-, hsnap⟩ | ⟨-, -, names, m, it, k, last, -, -, hcreated, -⟩
  · exact h.keep hw hcarry hlater (hsnap ▸ hd) hold hpc hn htask ho
  · have honce := (hw.step hs).accounting.once
    have hnil : s.sys.coord.created = [] := by
      change t.coord.created.length ≤ 1 at honce
      rw [hcreated, List.length_append, List.length_singleton] at honce
      exact List.length_eq_zero_iff.mp (show s.coord.created.length = 0 by omega)
    rcases hw.busy w n pc hold hn with ⟨-, -, old, hmem, -⟩
    rcases hlater n old hmem with ⟨task', htask', hl⟩
    change t.sys.coord.tasks[n]? = some task at htask
    rw [htask, Option.some.injEq] at htask'
    subst htask'
    rw [hl.origin] at ho
    exact absurd ho (hacc.no_partition hnil (List.mem_of_getElem? hmem) r)

theorem ReduceInv.step {act : JobAction} (h : ReduceInv text s) (hw : Wired spec d₀ s)
    (hsn : SnapInv spec d₀ s) (hs : s.step spec act = some t)
    (hcarry : Carries act s t text text') : ReduceInv text' t := by
  intro d hd w n pc task r hpc hn htask ho
  have hacc := hw.accounting
  have hlater := CoordSys.later_of_step hacc (sys_step hw hs)
  have hkept : s.workers[w]? = some pc → ReducePc d r (text' n r) pc :=
    h.kept hw hs hcarry hd hpc hn htask ho
  cases step_cases hs with
  | registerWorker =>
      rcases getElem?_snoc_eq_some.mp hpc with hold | ⟨-, rfl⟩
      · exact hkept hold
      · simp [WorkerPc.task] at hn
  | @getTask w' now sys res hidle hget =>
      rcases getElem?_set_eq_some.mp hpc with ⟨-, -, rfl⟩ | ⟨-, hold⟩
      · rcases CoordSys.getTask_cases hacc hget with ⟨-, -, hcases⟩
        rcases hcases with ⟨rfl, -, -⟩ | ⟨k, old, hk, hst, rfl, -, htasks⟩
        · simp [WorkerPc.begin, WorkerPc.task] at hn
        · have hfits := hacc.rows.fits old (List.mem_of_getElem? hk)
          rw [(begin_fits _ _ hfits).1, Option.some.injEq] at hn
          subst hn
          have horigin : old.origin = .partition r := by
            rcases hlater k old hk with ⟨task', htask', hl⟩
            change sys.coord.tasks[k]? = some task at htask
            rw [htask, Option.some.injEq] at htask'
            rw [← hl.origin, ← htask', ho]
          refine begin_reducePc hfits horigin ?_ (hcarry.begun k r ?_)
          · exact (hsn.found d hd).files old (List.mem_of_getElem? hk) r horigin
          · rw [hacc.rows.given_iff]
            rintro ⟨other, hother, hne⟩
            rw [hk, Option.some.injEq] at hother
            exact hne (hother ▸ hst)
      · exact hkept hold
  | @advance w' it pc₀ pc' e unreported hpc₀ hadv hun =>
      rcases getElem?_set_eq_some.mp hpc with ⟨rfl, -, rfl⟩ | ⟨-, hold⟩
      · obtain ⟨k, old, hn₀, -, -, hk, hfits, -, hsame⟩ := hw.advancing hpc₀ hadv
        have hnk := hsame n hn
        subst hnk
        change s.coord.tasks[n]? = some task at htask
        rw [hk, Option.some.injEq] at htask
        subst htask
        refine ReducePc.advance hadv hfits ho ?_
          (hcarry.quiet w it n pc₀ old r rfl hpc₀ hn₀ hk ho) ?_ ?_
          (h d hd w n pc₀ old r hpc₀ hn₀ hk ho)
        · -- a file that is still there is as the snapshot has it
          intro file hfile content hcontent
          have hpre := glob_starts (mem_reduceFiles.mp hfile).2.1
          obtain hkeep | ⟨-, hgone⟩ := hsn.kept d hd file hpre
          · rw [← hkeep, hcontent]
          · rw [hcontent] at hgone
            cases hgone
        · intro k key values entries created hpc
          subst hpc
          simp only [WorkerPc.task, Option.some.injEq] at hn₀
          subst hn₀
          exact hcarry.opened w it k old r key values entries created rfl hpc₀ hk ho
        · intro k key values entries created fd hpc
          subst hpc
          simp only [WorkerPc.task, Option.some.injEq] at hn₀
          subst hn₀
          exact hcarry.wrote w it k old r key values entries created fd rfl hpc₀ hk ho
      · exact hkept hold
  | @taskDone w' k it files sys err pc₀ snapshot hpc₀ hdone hnext hsnap =>
      rcases getElem?_set_eq_some.mp hpc with ⟨-, -, rfl⟩ | ⟨-, hold⟩
      · rw [hnext] at hn
        split at hn <;> simp [WorkerPc.task] at hn
      · exact hkept hold
  | heartbeat => exact hkept hpc
  | stopRunning => exact hkept hpc
  | done hdone => exact hkept hpc
  | crash =>
      rcases getElem?_set_eq_some.mp hpc with ⟨-, -, rfl⟩ | ⟨-, hold⟩
      · simp [WorkerPc.task] at hn
      · exact hkept hold

end Job

end GoLabs.MapReduce
