import GoLabs.MapReduce.MapPhase
import GoLabs.MapReduce.ReduceWork

/-!
# The output of the reduce phase

All attempts at a reducer id append to one file, `tempmr-out-r`: unlike the name of a map file, its
name does not have the id of the task.  What one attempt has written before it crashed or was timed
out is still there when the next one begins, so `mr-out-r` may have lines twice; and what it writes
to a file that it opened before the next one reported goes to `mr-out-r` itself.  As long as no
attempt opens the file while another one at the same reducer id has it open or has lines there,
every `mr-out-r` is exact.
-/

open GoLabs.Reasoning

namespace GoLabs.MapReduce

def render (reducef : GoString → List GoString → GoString) (entries : List Entry) : GoString :=
  entries.flatMap fun e => reduceRecord e.1 (reducef e.1 e.2)

/-- One line for every key in the files with reducer id `r`, with the result for all its values. -/
def ReduceOutput (reducef : GoString → List GoString → GoString) (d : Disk) (r text : GoString) :
    Prop :=
  ∃ (kvs : List (GoString × GoString)) (keys : List GoString),
    parseFiles d (reduceFiles d r) = some kvs ∧ keys.Nodup ∧
    (∀ k, k ∈ keys ↔ k ∈ kvs.map Prod.fst) ∧
    text = keys.flatMap fun k => reduceRecord k (reducef k (valuesOf k kvs))

theorem Entries.output {reducef : GoString → List GoString → GoString} {d : Disk} {r : GoString}
    {entries : List Entry} (h : Entries d r entries) :
    ReduceOutput reducef d r (render reducef entries) := by
  rcases h.keys with ⟨kvs, hparse, hnodup, hmem, hvalues⟩
  refine ⟨kvs, entries.map Prod.fst, hparse, hnodup, hmem, ?_⟩
  rw [List.flatMap_map]
  exact List.flatMap_congr fun e he ↦ by rw [hvalues e he]

theorem newName_reduceOutName (k : Nat) :
    newName (reduceOutName (dec k)) = reduceFileName (dec k) :=
  rename_reduceOutName (not_mem_dec (by decide))

theorem reduceFileName_ne_reduceOutName (r r' : GoString) : reduceFileName r ≠ reduceOutName r' :=
  fun heq ↦ reduceFileName_not_temp r (heq ▸ temp_reduceOutName r')

/-- The output file of a reduce attempt is moved to its place. -/
theorem renameTempFiles_reduceOutName {k : Nat} {e : Disk} {text : GoString}
    (htext : e.read (reduceOutName (dec k)) = some text) :
    ∃ e', renameTempFiles Disk.os e [reduceOutName (dec k)] = (e', none) ∧
      e'.read (reduceOutName (dec k)) = none ∧ e'.read (reduceFileName (dec k)) = some text ∧
      ∀ name, name ≠ reduceOutName (dec k) → name ≠ reduceFileName (dec k) →
        e'.read name = e.read name := by
  have hnew := newName_reduceOutName k
  rcases renameTempFiles_all (d := e) (List.nodup_singleton (reduceOutName (dec k)))
    (by simp [htext]) (by simpa [hnew] using reduceFileName_ne_reduceOutName _ _) (by simp) with
    ⟨e', he', hmoved⟩
  rcases hmoved _ (List.mem_singleton.mpr rfl) with ⟨hgone, hthere⟩
  rw [hnew, htext] at hthere
  refine ⟨e', he', hgone, hthere, fun name hne hne' ↦ ?_⟩
  exact read_renameTempFiles_of_notMem he' (by simpa using hne) (by simpa [hnew] using hne')

namespace Job

/-- A directory without files of an earlier job. -/
structure CleanDir (d : Disk) : Prop where
  start : CleanStart d
  outputs : ∀ r, d.read (reduceFileName r) = none

def originOf (s : Job) (n : Nat) : Option Origin := (s.coord.tasks[n]?).map Task.origin

/-- A worker opens the output file of a reducer id only when no other attempt at it has opened it
and not reported since. -/
def soleWriter (s : Job) : JobAction → Bool
  | .advance w _ =>
      match (s.workers[w]?).bind WorkerPc.opens with
      | some n => s.unreported.all fun k => k = n ∨ s.originOf k ≠ s.originOf n
      | none => true
  | _ => true

/-- The output file holds what attempt `n` has written, if the attempt has opened it. -/
def Wrote (reducef : GoString → List GoString → GoString) (s : Job) (n : Nat) (r : GoString)
    (opened : Bool) (written : List Entry) : Prop :=
  (n ∈ s.unreported ↔ opened = true) ∧
    (opened = true → s.disk.read (reduceOutName r) = some (render reducef written))

structure ExactInv (reducef : GoString → List GoString → GoString) (s : Job) : Prop where
  given : ∀ n ∈ s.unreported, n ∈ s.sys.given.map Prod.snd ∧
    ∃ r, s.originOf n = some (.partition r)
  single : ∀ n ∈ s.unreported, ∀ k ∈ s.unreported, s.originOf n = s.originOf k → n = k
  temp : ∀ r, s.disk.read (reduceOutName r) ≠ none →
    ∃ n ∈ s.unreported, s.originOf n = some (.partition r)
  work : ReduceInv (Wrote reducef s) s
  bound : ∀ pc ∈ s.workers, ∀ r fd, pc.outputFile = some (r, fd) →
    s.disk.opened[fd]? = some (some (reduceOutName r))
  outputs : ∀ r text, s.disk.read (reduceFileName r) = some text →
    ∃ d entries, s.snapshot = some d ∧ Entries d r entries ∧ text = render reducef entries

variable {spec : JobSpec} {d₀ : Disk} {s t : Job}
  {reducef : GoString → List GoString → GoString}

theorem ExactInv.init (hclean : CleanDir d₀) : ExactInv reducef (Job.init spec d₀) := by
  refine ⟨by simp [Job.init], by simp [Job.init], ?_, ReduceInv.init, by simp [Job.init], ?_⟩
  · intro r hne
    exact absurd (hclean.start _ (.inl (temp_reduceOutName r))) hne
  · intro r text hread
    have hnone : (Job.init spec d₀).disk.read (reduceFileName r) = none := hclean.outputs r
    rw [hnone] at hread
    simp at hread

theorem originOf_later (hlater : Tasks.Later s.coord.tasks t.coord.tasks) {n : Nat} {o : Origin}
    (h : s.originOf n = some o) : t.originOf n = some o := by
  rcases Option.map_eq_some_iff.mp h with ⟨task, htask, rfl⟩
  rcases hlater n task htask with ⟨task', htask', hl⟩
  rw [originOf, htask', Option.map_some, hl.origin]

theorem originOf_eq {n : Nat} {task : Task} {o : Origin} (ht : s.coord.tasks[n]? = some task)
    (ho : task.origin = o) : s.originOf n = some o := by
  rw [originOf, ht, Option.map_some, ho]

/-- The snapshot is made once. -/
theorem snapshot_of_step {act : JobAction} (hw : Wired spec d₀ s) (hsn : SnapInv spec d₀ s)
    (hs : s.step spec act = some t) {d : Disk} (hd : s.snapshot = some d) :
    t.snapshot = some d := by
  rcases created_of_step hs with ⟨-, hsnap⟩ | ⟨-, -, names, m, it, n, task, -, -, hcreated, -⟩
  · rw [hsnap, hd]
  · have honce := (hw.step hs).accounting.once
    change t.coord.created.length ≤ 1 at honce
    rw [hcreated, List.length_append, List.length_singleton] at honce
    have hnil := List.length_eq_zero_iff.mp (show s.coord.created.length = 0 by omega)
    rw [hsn.none_iff.mpr hnil] at hd
    simp at hd

theorem wrote_nil {n : Nat} {r : GoString} (h : n ∉ s.unreported) :
    Wrote reducef s n r false [] :=
  ⟨⟨fun hn ↦ absurd hn h, Bool.noConfusion⟩, Bool.noConfusion⟩

/-- A step that neither touches the file of an attempt nor reports it. -/
theorem Wrote.kept {n : Nat} {r : GoString} {opened : Bool} {written : List Entry}
    (h : Wrote reducef s n r opened written) (hmem : n ∈ t.unreported ↔ n ∈ s.unreported)
    (hread : n ∈ s.unreported → t.disk.read (reduceOutName r) = s.disk.read (reduceOutName r)) :
    Wrote reducef t n r opened written := by
  refine ⟨hmem.trans h.1, fun hne ↦ ?_⟩
  rw [hread (h.1.mpr hne)]
  exact h.2 hne

theorem ExactInv.given_later (h : ExactInv reducef s)
    (hlater : Tasks.Later s.coord.tasks t.coord.tasks)
    (hgiven : ∀ e ∈ s.sys.given, e ∈ t.sys.given) {n : Nat} (hn : n ∈ s.unreported) :
    n ∈ t.sys.given.map Prod.snd ∧ ∃ r, t.originOf n = some (.partition r) := by
  obtain ⟨hmem, r, hr⟩ := h.given n hn
  obtain ⟨e, he, rfl⟩ := List.mem_map.mp hmem
  exact ⟨List.mem_map_of_mem (hgiven e he), r, originOf_later hlater hr⟩

theorem ExactInv.single_later (h : ExactInv reducef s)
    (hlater : Tasks.Later s.coord.tasks t.coord.tasks) {n k : Nat} (hn : n ∈ s.unreported)
    (hk : k ∈ s.unreported) (heq : t.originOf n = t.originOf k) : n = k := by
  obtain ⟨-, r, hr⟩ := h.given n hn
  obtain ⟨-, r', hr'⟩ := h.given k hk
  rw [originOf_later hlater hr, originOf_later hlater hr'] at heq
  exact h.single n hn k hk (by rw [hr, hr', heq])

/-- An output file that a step leaves alone. -/
theorem ExactInv.output_kept {act : JobAction} (h : ExactInv reducef s) (hw : Wired spec d₀ s)
    (hsn : SnapInv spec d₀ s) (hs : s.step spec act = some t) {r text : GoString}
    (hsame : t.disk.read (reduceFileName r) = s.disk.read (reduceFileName r))
    (htext : t.disk.read (reduceFileName r) = some text) :
    ∃ d entries, t.snapshot = some d ∧ Entries d r entries ∧ text = render reducef entries := by
  rw [hsame] at htext
  obtain ⟨d, entries, hd, hrest⟩ := h.outputs r text htext
  exact ⟨d, entries, snapshot_of_step hw hsn hs hd, hrest⟩

theorem outputFile_of_task {pc : WorkerPc} (h : pc.task = none) : pc.outputFile = none := by
  cases pc <;> first | rfl | cases h

/-- The attempt of a worker that has an output file open. -/
theorem ExactInv.unreported_of_outputFile (h : ExactInv reducef s) (hw : Wired spec d₀ s)
    (hsn : SnapInv spec d₀ s) {w fd : Nat} {pc : WorkerPc} {r : GoString}
    (hpc : s.workers[w]? = some pc) (hfd : pc.outputFile = some (r, fd)) :
    ∃ n, (pc.task = some n ∧ n ∈ s.unreported) ∧ s.originOf n = some (.partition r) := by
  unfold WorkerPc.outputFile at hfd
  split at hfd
  · rename_i n r' key values entries created fd'
    simp only [Option.some.injEq, Prod.mk.injEq] at hfd
    obtain ⟨rfl, rfl⟩ := hfd
    obtain ⟨-, -, task, htask, ho, -⟩ := hw.busy w n _ hpc rfl
    cases hd : s.snapshot with
    | none =>
        have hnil := hsn.none_iff.mp hd
        exact absurd ho (hw.accounting.no_partition hnil (List.mem_of_getElem? htask) _)
    | some d =>
        obtain ⟨written, -, -, hwrote⟩ := h.work d hd w n _ task r' hpc rfl htask ho
        exact ⟨n, ⟨rfl, hwrote.1.mpr rfl⟩, originOf_eq htask ho⟩
  · cases hfd

/-- A step that leaves the files of the reduce phase alone. -/
theorem ExactInv.frame {act : JobAction} (h : ExactInv reducef s) (hw : Wired spec d₀ s)
    (hsn : SnapInv spec d₀ s) (hs : s.step spec act = some t)
    (hun : t.unreported = s.unreported) (hgiven : ∀ e ∈ s.sys.given, e ∈ t.sys.given)
    (htemp : ∀ r, t.disk.read (reduceOutName r) = s.disk.read (reduceOutName r))
    (hout : ∀ r, t.disk.read (reduceFileName r) = s.disk.read (reduceFileName r))
    (hworkers : ∀ pc ∈ t.workers, pc ∈ s.workers ∨ pc.outputFile = none)
    (hopened : ∀ (fd : Nat) (r : GoString), s.disk.opened[fd]? = some (some (reduceOutName r)) →
      t.disk.opened[fd]? = some (some (reduceOutName r)))
    (hquiet : ∀ w it pc, act = .advance w it → s.workers[w]? = some pc →
      pc.opens = none ∧ pc.outputFile = none) :
    ExactInv reducef t := by
  have hlater := CoordSys.later_of_step hw.accounting (sys_step hw hs)
  -- what an attempt has written is there as long as its file is not touched
  have hwrote : ∀ n r opened written, Wrote reducef s n r opened written →
      Wrote reducef t n r opened written :=
    fun n r opened written hold ↦ hold.kept (by rw [hun]) (fun _ ↦ htemp r)
  refine ⟨?_, ?_, ?_, h.work.step hw hsn hs ⟨?_, ?_, ?_, ?_, ?_⟩, ?_, ?_⟩
  · rw [hun]
    exact fun n hn ↦ h.given_later hlater hgiven hn
  · rw [hun]
    exact fun n hn k hk heq ↦ h.single_later hlater hn hk heq
  · intro r hne
    rw [htemp] at hne
    obtain ⟨n, hn, ho⟩ := h.temp r hne
    exact ⟨n, by rw [hun]; exact hn, originOf_later hlater ho⟩
  · exact fun _ n _ _ r _ _ _ _ _ ↦ hwrote n r
  · exact fun _ _ n _ _ r _ _ _ _ _ _ _ ↦ hwrote n r
  · intro w it n task r key values entries created hact hpc
    have hnone := (hquiet w it _ hact hpc).1
    simp [WorkerPc.opens] at hnone
  · intro w it n task r key values entries created fd hact hpc
    have hnone := (hquiet w it _ hact hpc).2
    simp [WorkerPc.outputFile] at hnone
  · intro n r hfresh
    refine wrote_nil ?_
    rw [hun]
    exact fun hn ↦ hfresh (h.given n hn).1
  · intro pc hmem r fd hfd
    obtain hold | hnone := hworkers pc hmem
    · exact hopened fd r (h.bound pc hold r fd hfd)
    · rw [hnone] at hfd
      cases hfd
  · exact fun r text hread ↦ h.output_kept hw hsn hs (hout r) hread

/-- The file of the only writer holds what it has written so far. -/
theorem ExactInv.file_eq (h : ExactInv reducef s) {n : Nat} {r : GoString} {written : List Entry}
    (hon : s.originOf n = some (.partition r))
    (hsole : ∀ k ∈ s.unreported, k = n ∨ s.originOf k ≠ s.originOf n)
    (hold : Wrote reducef s n r (written ≠ []) written) :
    (s.disk.read (reduceOutName r)).getD [] = render reducef written := by
  by_cases hnil : written = []
  · -- the file does not exist before it is opened for the first line
    have hnone : s.disk.read (reduceOutName r) = none := by
      by_contra hne
      obtain ⟨k, hk, hok⟩ := h.temp r hne
      obtain rfl | hne' := hsole k hk
      · exact of_decide_eq_true (hold.1.mp hk) hnil
      · exact hne' (hok.trans hon.symm)
    rw [hnone, hnil]
    rfl
  · rw [hold.2 (decide_eq_true hnil)]
    rfl

/-- An attempt opens its output file while no other attempt at its reducer id has it open or has
lines in it. -/
theorem ExactInv.openOutput (h : ExactInv reducef s) (hw : Wired spec d₀ s)
    (hsn : SnapInv spec d₀ s) {w n : Nat} {it : Iteration GoString}
    {r key : GoString} {values : List GoString} {entries : List Entry} {created : Created}
    (hs : s.step spec (.advance w it) = some t)
    (hpc : s.workers[w]? = some (.writing n r ((key, values) :: entries) created))
    (hsole : ∀ k ∈ s.unreported, k = n ∨ s.originOf k ≠ s.originOf n)
    (hsys : t.sys = { s.sys with fs := (s.disk.openFile (reduceOutName r)).2 })
    (hworkers : t.workers = s.workers.set w (.reduceOpen n r key values entries
      (created.insert (reduceOutName r) true) (s.disk.openFile (reduceOutName r)).1))
    (hun : ∀ k, k ∈ t.unreported ↔ k = n ∨ k ∈ s.unreported) : ExactInv reducef t := by
  obtain ⟨hmine, -, task, htask, ho, -⟩ := hw.busy w n _ hpc rfl
  have hon := originOf_eq htask ho
  have horigin : ∀ k, t.originOf k = s.originOf k := by
    intro k
    unfold originOf coord
    rw [hsys]
  have hdisk : t.disk = (s.disk.openFile (reduceOutName r)).2 := by rw [disk, hsys]
  have hread : ∀ name, t.disk.read name = if name = reduceOutName r then
      some ((s.disk.read (reduceOutName r)).getD []) else s.disk.read name := by
    intro name
    rw [hdisk, Disk.read_openFile]
  refine ⟨?_, ?_, ?_, h.work.step hw hsn hs ⟨?_, ?_, ?_, ?_, ?_⟩, ?_, ?_⟩
  · intro k hk
    rw [horigin, hsys]
    obtain rfl | hold := (hun k).mp hk
    · exact ⟨List.mem_map.mpr ⟨_, hmine, rfl⟩, r, hon⟩
    · exact h.given k hold
  · -- the writer is the only attempt at its id
    intro k hk k' hk' heq
    rw [horigin, horigin] at heq
    obtain rfl | hold := (hun k).mp hk <;> obtain rfl | hold' := (hun k').mp hk'
    · rfl
    · exact ((hsole k' hold').resolve_right fun hne ↦ hne heq.symm).symm
    · exact (hsole k hold).resolve_right fun hne ↦ hne heq
    · exact h.single k hold k' hold' heq
  · -- the writer's file, or one that was there before
    intro r' hne
    rw [hread] at hne
    by_cases hr : reduceOutName r' = reduceOutName r
    · rw [reduceOutName_inj hr]
      exact ⟨n, (hun n).mpr (.inl rfl), by rw [horigin]; exact hon⟩
    · rw [if_neg hr] at hne
      obtain ⟨k, hk, hok⟩ := h.temp r' hne
      exact ⟨k, (hun k).mpr (.inr hk), by rw [horigin]; exact hok⟩
  · -- another attempt at the same id has not opened the file
    intro v k pc other r' hv hv' hk hother ho' opened written hold
    rw [hworkers] at hv'
    have hvw : v ≠ w := ne_of_getElem?_set hv hv' (by rw [hpc]; simp)
    have hkn := hw.task_ne hv hk hpc rfl hvw
    refine hold.kept (by rw [hun]; exact or_iff_right hkn) (fun hmem ↦ ?_)
    rw [hread, if_neg]
    intro heq
    rw [reduceOutName_inj heq] at ho'
    exact hkn ((hsole k hmem).resolve_right fun hne ↦ hne (by rw [originOf_eq hother ho', hon]))
  · intro w' it' k pc other r' hact hpc' hk _ _ hnone
    simp only [JobAction.advance.injEq] at hact
    rw [← hact.1, hpc, Option.some.injEq] at hpc'
    rw [← hpc'] at hnone
    simp [WorkerPc.opens] at hnone
  · -- the writer itself
    intro w' it' k other r' key' values' entries' created' hact hpc' _ _ written hold
    simp only [JobAction.advance.injEq] at hact
    rw [← hact.1, hpc, Option.some.injEq] at hpc'
    simp only [WorkerPc.writing.injEq] at hpc'
    obtain ⟨rfl, rfl, -, -⟩ := hpc'
    refine ⟨by simp [hun], fun _ ↦ ?_⟩
    rw [hread, if_pos rfl, h.file_eq hon hsole hold]
  · intro w' it' k other r' key' values' entries' created' fd hact hpc'
    simp only [JobAction.advance.injEq] at hact
    rw [← hact.1, hpc, Option.some.injEq] at hpc'
    cases hpc'
  · intro k r' hfresh
    refine wrote_nil fun hk ↦ ?_
    obtain rfl | hold := (hun k).mp hk
    · exact hfresh (List.mem_map.mpr ⟨_, hmine, rfl⟩)
    · exact hfresh (h.given k hold).1
  · rw [hworkers, hdisk]
    refine forall_mem_set (fun pc hmem r' fd hfd ↦ ?_) ?_
    · exact getElem?_append_of_some (h.bound pc hmem r' fd hfd) _
    · intro r' fd hfd
      simp only [WorkerPc.outputFile, Option.some.injEq, Prod.mk.injEq] at hfd
      obtain ⟨rfl, rfl⟩ := hfd
      exact Disk.opened_openFile
  · intro r' text htext
    refine h.output_kept hw hsn hs ?_ htext
    rw [hread, if_neg]
    exact reduceFileName_ne_reduceOutName r' r

/-- An attempt writes a line to the file that it has opened: nobody has moved it since. -/
theorem ExactInv.writeOutput (h : ExactInv reducef s) (hw : Wired spec d₀ s)
    (hsn : SnapInv spec d₀ s) {w n fd : Nat} {it : Iteration GoString}
    {r key : GoString} {values : List GoString} {entries : List Entry} {created : Created}
    (hs : s.step spec (.advance w it) = some t)
    (hpc : s.workers[w]? = some (.reduceOpen n r key values entries created fd))
    (hsys : t.sys = { s.sys with
      fs := s.disk.write fd (reduceRecord key (reducef key values)) })
    (hworkers : t.workers = s.workers.set w (.writing n r entries created))
    (hun : t.unreported = s.unreported) : ExactInv reducef t := by
  obtain ⟨j, ⟨hj, hmine⟩, hon⟩ := h.unreported_of_outputFile hw hsn hpc rfl
  obtain rfl : n = j := Option.some.inj hj
  have hfd := h.bound _ (List.mem_of_getElem? hpc) r fd rfl
  have horigin : ∀ k, t.originOf k = s.originOf k := by
    intro k
    unfold originOf coord
    rw [hsys]
  have hdisk : t.disk = s.disk.write fd (reduceRecord key (reducef key values)) := by
    rw [disk, hsys]
  have hread : ∀ name, t.disk.read name = if name = reduceOutName r then
      (s.disk.read name).map (· ++ reduceRecord key (reducef key values))
      else s.disk.read name := by
    intro name
    rw [hdisk, Disk.read_write, hfd]
    by_cases hname : name = reduceOutName r
    · simp [hname]
    · simp [hname, Ne.symm hname]
  refine ⟨?_, ?_, ?_, h.work.step hw hsn hs ⟨?_, ?_, ?_, ?_, ?_⟩, ?_, ?_⟩
  · intro k hk
    rw [horigin, hsys]
    exact h.given k (hun ▸ hk)
  · intro k hk k' hk' heq
    rw [horigin, horigin] at heq
    exact h.single k (hun ▸ hk) k' (hun ▸ hk') heq
  · intro r' hne
    have hold : s.disk.read (reduceOutName r') ≠ none := by
      rw [hread] at hne
      split at hne
      · simpa using hne
      · exact hne
    obtain ⟨k, hk, hok⟩ := h.temp r' hold
    exact ⟨k, hun ▸ hk, by rw [horigin]; exact hok⟩
  · -- another attempt that has the file of its id open has another id
    intro v k pc other r' hv hv' hk hother ho' opened written hold
    rw [hworkers] at hv'
    have hvw : v ≠ w := ne_of_getElem?_set hv hv' (by rw [hpc]; simp)
    have hkn := hw.task_ne hv hk hpc rfl hvw
    refine hold.kept (by rw [hun]) (fun hmem ↦ ?_)
    rw [hread, if_neg]
    intro heq
    rw [reduceOutName_inj heq] at ho'
    exact hkn (h.single k hmem n hmine (by rw [originOf_eq hother ho', hon]))
  · intro w' it' k pc other r' hact hpc' hk _ _ _ hnone
    simp only [JobAction.advance.injEq] at hact
    rw [← hact.1, hpc, Option.some.injEq] at hpc'
    rw [← hpc'] at hnone
    simp [WorkerPc.outputFile] at hnone
  · intro w' it' k other r' key' values' entries' created' hact hpc'
    simp only [JobAction.advance.injEq] at hact
    rw [← hact.1, hpc, Option.some.injEq] at hpc'
    cases hpc'
  · -- the writer itself
    intro w' it' k other r' key' values' entries' created' fd' hact hpc' _ _ written hold
    simp only [JobAction.advance.injEq] at hact
    rw [← hact.1, hpc, Option.some.injEq] at hpc'
    simp only [WorkerPc.reduceOpen.injEq] at hpc'
    obtain ⟨rfl, rfl, rfl, rfl, -⟩ := hpc'
    refine ⟨by rw [hun]; exact hold.1, fun _ ↦ ?_⟩
    rw [hread, if_pos rfl, hold.2 rfl, Option.map_some, render, render, List.flatMap_append,
      List.flatMap_singleton]
  · intro k r' hfresh
    exact wrote_nil fun hk ↦ hfresh (h.given k (hun ▸ hk)).1
  · rw [hworkers, hdisk, Disk.opened_write]
    exact forall_mem_set h.bound (by simp [WorkerPc.outputFile])
  · intro r' text htext
    refine h.output_kept hw hsn hs ?_ htext
    rw [hread, if_neg]
    exact reduceFileName_ne_reduceOutName r' r

/-- What a report of a reduce attempt that wrote something does to the directory. -/
theorem report_files {n k : Nat} {task : Task} {it : Iteration GoString} {c c' : Coordinator}
    {e e' : Disk} {err : Option GoString} {text : GoString}
    (hdone : Coordinator.TaskDone Disk.os it c e n [reduceOutName (dec k)] c' e' err)
    (htask : c.tasks[n]? = some task) (htype : task.taskType = .reduce)
    (htext : e.read (reduceOutName (dec k)) = some text) :
    e'.read (reduceOutName (dec k)) = none ∧
      (e'.read (reduceFileName (dec k)) = e.read (reduceFileName (dec k)) ∨
        e'.read (reduceFileName (dec k)) = some text) ∧
      ∀ name, name ≠ reduceOutName (dec k) → name ≠ reduceFileName (dec k) →
        e'.read name = e.read name := by
  rcases (hdone.of_reduce htask htype).2 with ⟨-, -, err', hremove⟩ | ⟨-, err', hrename, -⟩
  · rcases removeFiles_all (d := e) (List.nodup_singleton (reduceOutName (dec k)))
      (by simp [htext]) with ⟨e'', he'', hgone⟩
    rw [he'', Prod.mk.injEq] at hremove
    rcases hremove with ⟨rfl, -⟩
    have hrest : ∀ name, name ≠ reduceOutName (dec k) → e''.read name = e.read name :=
      fun name hne ↦ read_removeFiles_of_notMem he'' (by simpa using hne)
    exact ⟨hgone _ (by simp), .inl (hrest _ (reduceFileName_ne_reduceOutName _ _)),
      fun name hne _ ↦ hrest name hne⟩
  · rcases renameTempFiles_reduceOutName htext with ⟨e'', he'', hgone, hthere, hrest⟩
    rw [he'', Prod.mk.injEq] at hrename
    rcases hrename with ⟨rfl, -⟩
    exact ⟨hgone, .inr hthere, hrest⟩

/-- An attempt that has written something reports: its lines leave the temporary file. -/
theorem ExactInv.report (h : ExactInv reducef s) (hw : Wired spec d₀ s) (hsn : SnapInv spec d₀ s)
    {w n k : Nat} {it : Iteration GoString} {task : Task} {entries : List Entry} {d : Disk}
    {err : Option GoString} (hs : s.step spec (.taskDone w it) = some t)
    (hpc : s.workers[w]? = some (.reporting n [reduceOutName (dec k)]))
    (htask : s.coord.tasks[n]? = some task) (ho : task.origin = .partition (dec k))
    (hd : s.snapshot = some d) (hentries : Entries d (dec k) entries) (hne : entries ≠ [])
    (hwrote : Wrote reducef s n (dec k) (entries ≠ []) entries)
    (hdone : Coordinator.TaskDone Disk.os it s.coord s.disk n [reduceOutName (dec k)] t.coord
      t.disk err)
    (hgiven : t.sys.given = s.sys.given) {pc : WorkerPc} (hidle : pc.task = none)
    (hworkers : t.workers = s.workers.set w pc)
    (hun : t.unreported = s.unreported.filter (· ≠ n)) : ExactInv reducef t := by
  have hlater := CoordSys.later_of_step hw.accounting (sys_step hw hs)
  have htype : task.taskType = .reduce := by
    rw [hw.accounting.rows.typed (List.mem_of_getElem? htask), ho]
    rfl
  have hon := originOf_eq htask ho
  have hmine := hwrote.1.mpr (decide_eq_true hne)
  rcases report_files hdone htask htype (hwrote.2 (decide_eq_true hne)) with ⟨hgone, hfile, hrest⟩
  have hmem : ∀ j, j ∈ t.unreported ↔ j ∈ s.unreported ∧ j ≠ n := by
    intro j
    rw [hun, List.mem_filter, decide_eq_true_eq]
  have htemp : ∀ r', r' ≠ dec k →
      t.disk.read (reduceOutName r') = s.disk.read (reduceOutName r') :=
    fun r' hr ↦ hrest _ (fun heq ↦ hr (reduceOutName_inj heq))
      (fun heq ↦ reduceFileName_not_temp _ (heq ▸ temp_reduceOutName r'))
  refine ⟨?_, ?_, ?_, h.work.step hw hsn hs ⟨?_, ?_, ?_, ?_, ?_⟩, ?_, ?_⟩
  · intro j hj
    exact h.given_later hlater (by rw [hgiven]; exact fun _ he ↦ he) ((hmem j).mp hj).1
  · intro j hj j' hj' heq
    exact h.single_later hlater ((hmem j).mp hj).1 ((hmem j').mp hj').1 heq
  · intro r' hread
    by_cases hr : r' = dec k
    · rw [hr] at hread
      exact absurd hgone hread
    · rw [htemp r' hr] at hread
      obtain ⟨j, hj, hoj⟩ := h.temp r' hread
      refine ⟨j, (hmem j).mpr ⟨hj, ?_⟩, originOf_later hlater hoj⟩
      rintro rfl
      rw [hon, Option.some.injEq, Origin.partition.injEq] at hoj
      exact hr hoj.symm
  · -- the other attempts write to other files
    intro v j pcv other r' hv hv' hj hother hor opened written hold
    rw [hworkers] at hv'
    have hvw : v ≠ w := by
      rintro rfl
      obtain ⟨-, -, rfl⟩ | ⟨hne', -⟩ := getElem?_set_eq_some.mp hv'
      · rw [hidle] at hj
        cases hj
      · exact hne' rfl
    have hjn := hw.task_ne hv hj hpc rfl hvw
    refine hold.kept (by rw [hmem]; exact and_iff_left hjn) (fun hun' ↦ htemp r' ?_)
    rintro rfl
    exact hjn (h.single j hun' n hmine (by rw [originOf_eq hother hor, hon]))
  · exact fun _ _ _ _ _ _ hact ↦ by simp at hact
  · exact fun _ _ _ _ _ _ _ _ _ hact ↦ by simp at hact
  · exact fun _ _ _ _ _ _ _ _ _ _ hact ↦ by simp at hact
  · intro j r' hfresh
    exact wrote_nil fun hj ↦ hfresh (h.given j ((hmem j).mp hj).1).1
  · -- an attempt with its file open has another reducer id
    intro pcv hpcv r' fd hfd
    rw [hworkers] at hpcv
    obtain ⟨v, hv⟩ := List.mem_iff_getElem?.mp hpcv
    obtain ⟨-, -, rfl⟩ | ⟨hvw, hold⟩ := getElem?_set_eq_some.mp hv
    · rw [outputFile_of_task hidle] at hfd
      cases hfd
    · obtain ⟨j, hj, hoj⟩ := h.unreported_of_outputFile hw hsn hold hfd
      have hr : r' ≠ dec k := by
        rintro rfl
        have hjn := h.single j hj.2 n hmine (hoj.trans hon.symm)
        exact hw.task_ne hold hj.1 hpc rfl hvw hjn
      refine opened_taskDone hdone ?_ ?_ (h.bound pcv (List.mem_of_getElem? hold) r' fd hfd)
      · simpa using fun heq ↦ hr (reduceOutName_inj heq)
      · rw [List.map_singleton, newName_reduceOutName, List.mem_singleton]
        exact (reduceFileName_ne_reduceOutName _ _).symm
  · intro r' text htext
    by_cases hr : r' = dec k
    · subst hr
      obtain hsame | hnew := hfile
      · exact h.output_kept hw hsn hs hsame htext
      · rw [htext, Option.some.injEq] at hnew
        exact ⟨d, entries, snapshot_of_step hw hsn hs hd, hentries, hnew⟩
    · refine h.output_kept hw hsn hs (hrest _ ?_ (fun heq ↦ hr (reduceFileName_inj heq))) htext
      exact fun heq ↦ reduceFileName_not_temp r' (heq ▸ temp_reduceOutName _)

theorem filter_ne_of_notMem {l : List Nat} {n : Nat} (h : n ∉ l) : l.filter (· ≠ n) = l := by
  rw [List.filter_eq_self]
  intro k hk
  simp only [ne_eq, decide_not, Bool.not_eq_eq_eq_not, Bool.not_true, decide_eq_false_iff_not]
  rintro rfl
  exact h hk

/-- A report of a map attempt leaves the files of the reduce phase alone. -/
theorem read_report_map {n : Nat} {it : Iteration GoString} {files : List GoString}
    {c c' : Coordinator} {e e' : Disk} {err : Option GoString}
    (hdone : Coordinator.TaskDone Disk.os it c e n files c' e' err)
    (hnames : ∀ f ∈ files, ∃ r, f = mapOutName n r) (r : GoString) :
    e'.read (reduceOutName r) = e.read (reduceOutName r) ∧
      e'.read (reduceFileName r) = e.read (reduceFileName r) ∧
      ∀ fd : Nat, e.opened[fd]? = some (some (reduceOutName r)) →
        e'.opened[fd]? = some (some (reduceOutName r)) := by
  have hnew : ∀ name ∈ files.map newName, lit "m-out-" <+: name := by
    intro name hname
    rcases List.mem_map.mp hname with ⟨f, hf, rfl⟩
    rcases hnames f hf with ⟨k, rfl⟩
    rw [newName, rename_mapOutName]
    exact mapFileName_starts n k
  have htemp : reduceOutName r ∉ files := by
    intro hmem
    rcases hnames _ hmem with ⟨k, hk⟩
    exact mapOutName_ne_reduceOutName n k r hk.symm
  have htemp' : reduceOutName r ∉ files.map newName :=
    fun hmem ↦ temp_not_map (temp_reduceOutName r) (hnew _ hmem)
  refine ⟨read_taskDone hdone htemp htemp', ?_, fun fd ↦ opened_taskDone hdone htemp htemp'⟩
  refine read_taskDone hdone (fun hmem ↦ ?_) (fun hmem ↦ reduceFileName_not_map r (hnew _ hmem))
  rcases hnames _ hmem with ⟨k, hk⟩
  exact reduceFileName_not_temp r (hk ▸ temp_mapOutName n k)

/-- A worker takes a step of its own. -/
theorem ExactInv.advance (h : ExactInv reducef s) (hw : Wired spec d₀ s) (hm : MapInv spec d₀ s)
    (hsn : SnapInv spec d₀ s) (hred : spec.reducef = fun _ => reducef) {w : Nat}
    {it : Iteration GoString} {pc pc' : WorkerPc} {e : Disk} {unreported : List Nat}
    (hpc : s.workers[w]? = some pc) (hadv : WorkerPc.Advance spec it s.disk pc pc' e)
    (hun : unreported = match pc.opens with
      | some n => if n ∈ s.unreported then s.unreported else s.unreported ++ [n]
      | none => s.unreported)
    (hsole : s.soleWriter (.advance w it) = true)
    (hs : s.step spec (.advance w it) = some { s with
      sys := { s.sys with fs := e }, workers := s.workers.set w pc', unreported := unreported }) :
    ExactInv reducef { s with
      sys := { s.sys with fs := e }, workers := s.workers.set w pc',
      unreported := unreported } := by
  -- a step that does not open an output file or write to one
  have hframe : pc.opens = none → pc.outputFile = none → pc'.outputFile = none →
      (∀ r, e.read (reduceOutName r) = s.disk.read (reduceOutName r)) →
      (∀ r, e.read (reduceFileName r) = s.disk.read (reduceFileName r)) →
      ExactInv reducef { s with
        sys := { s.sys with fs := e }, workers := s.workers.set w pc',
        unreported := unreported } := by
    intro hopens hfile hfile' htemp hout
    rw [hopens] at hun
    refine h.frame hw hsn hs hun (fun _ he ↦ he) htemp hout
      (forall_mem_set (fun _ hold ↦ .inl hold) (.inr hfile'))
      (fun fd r hopen ↦ opened_advance hadv hopen) ?_
    intro w' it' pc'' hact hpc''
    simp only [JobAction.advance.injEq] at hact
    rw [← hact.1, hpc, Option.some.injEq] at hpc''
    rw [← hpc'']
    exact ⟨hopens, hfile⟩
  -- the files of the map phase have other names
  have hother : ∀ (n r : Nat) (r' : GoString),
      reduceOutName r' ≠ mapOutName n r ∧ reduceFileName r' ≠ mapOutName n r :=
    fun n r r' ↦ ⟨fun heq ↦ mapOutName_ne_reduceOutName n r r' heq.symm,
      fun heq ↦ reduceFileName_not_temp r' (heq ▸ temp_mapOutName n r)⟩
  have hbound := hm.bound pc (List.mem_of_getElem? hpc)
  cases hadv with
  | mapPanic => exact hframe rfl rfl rfl (fun _ ↦ rfl) (fun _ ↦ rfl)
  | mapOpen hnr =>
      refine hframe rfl rfl rfl (fun r ↦ ?_) (fun r ↦ ?_) <;> rw [Disk.read_openFile, if_neg]
      · exact (hother _ _ r).1
      · exact (hother _ _ r).2
  | @mapWrite n nr files kv kvs created fd =>
      have hwrite : ∀ name, name ≠ mapOutName n (ihash kv.key % nr) →
          (s.disk.write fd (mapRecord kv)).read name = s.disk.read name := by
        intro name hne
        rw [Disk.read_write, if_neg]
        rw [show s.disk.opened[fd]? = _ from hbound, Option.some.injEq, Option.some.injEq]
        exact hne.symm
      exact hframe rfl rfl rfl (fun r ↦ hwrite _ (hother _ _ r).1)
        (fun r ↦ hwrite _ (hother _ _ r).2)
  | mapMissing hread => exact hframe rfl rfl rfl (fun _ ↦ rfl) (fun _ ↦ rfl)
  | mapRead hread => exact hframe rfl rfl rfl (fun _ ↦ rfl) (fun _ ↦ rfl)
  | mapEnd => exact hframe rfl rfl rfl (fun _ ↦ rfl) (fun _ ↦ rfl)
  | readFail hread => exact hframe rfl rfl rfl (fun _ ↦ rfl) (fun _ ↦ rfl)
  | read hread hparse => exact hframe rfl rfl rfl (fun _ ↦ rfl) (fun _ ↦ rfl)
  | readEnd => exact hframe (by simp [WorkerPc.opens]) rfl rfl (fun _ ↦ rfl) (fun _ ↦ rfl)
  | @reduceOpen n r key values entries created =>
      simp only [soleWriter, hpc, Option.bind_some, WorkerPc.opens, List.all_eq_true,
        decide_eq_true_eq] at hsole
      refine h.openOutput hw hsn hs hpc hsole rfl rfl (fun k ↦ ?_)
      dsimp only
      rw [hun]
      simp only [WorkerPc.opens]
      split
      · rename_i hmem
        exact ⟨.inr, fun hk ↦ hk.elim (fun heq ↦ heq ▸ hmem) id⟩
      · simp [or_comm]
  | write => exact h.writeOutput hw hsn hs hpc (by rw [hred]) rfl hun
  | writeEnd => exact hframe rfl rfl rfl (fun _ ↦ rfl) (fun _ ↦ rfl)

/-- A worker reports.  What it does to the output files depends on what its attempt was at, and on
whether it has written anything. -/
theorem ExactInv.taskDone (h : ExactInv reducef s) (hw : Wired spec d₀ s) (hm : MapInv spec d₀ s)
    (hsn : SnapInv spec d₀ s) {w n : Nat} {it : Iteration GoString} {files : List GoString}
    {sys : CoordSys Disk} {err : Option GoString} {pc : WorkerPc} {snapshot : Option Disk}
    (hpc : s.workers[w]? = some (.reporting n files))
    (hdone : s.sys.taskDone Disk.os it w n files = some (sys, err)) (hidle : pc.task = none)
    (hs : s.step spec (.taskDone w it) = some { s with
      sys := sys, workers := s.workers.set w pc, snapshot := snapshot,
      unreported := s.unreported.filter (· ≠ n) }) :
    ExactInv reducef { s with
      sys := sys, workers := s.workers.set w pc, snapshot := snapshot,
      unreported := s.unreported.filter (· ≠ n) } := by
  obtain ⟨hgiven, -, hcases⟩ := CoordSys.taskDone_given hdone
  obtain ⟨-, -, task, htask, -, hnames⟩ := hw.busy w n _ hpc rfl
  have hkept : ∀ e ∈ s.sys.given, e ∈ sys.given := by
    rw [hgiven]
    exact fun _ he ↦ he
  have hworkers : ∀ pcv ∈ s.workers.set w pc, pcv ∈ s.workers ∨ pcv.outputFile = none :=
    forall_mem_set (fun _ hold ↦ .inl hold) (.inr (outputFile_of_task hidle))
  cases ho : task.origin with
  | input i =>
      rw [ho] at hnames
      refine h.frame hw hsn hs (filter_ne_of_notMem fun hmem ↦ ?_) hkept
        (fun r ↦ (read_report_map hcases hnames r).1)
        (fun r ↦ (read_report_map hcases hnames r).2.1) hworkers
        (fun fd r ↦ (read_report_map hcases hnames r).2.2 fd) (by simp)
      obtain ⟨r, hr⟩ := (h.given n hmem).2
      rw [originOf_eq htask ho] at hr
      cases hr
  | partition r =>
      have hopen := (hw.accounting.rows.opened (.partition r)).mp
        (List.mem_map.mpr ⟨task, List.mem_of_getElem? htask, ho⟩)
      obtain ⟨k, rfl⟩ := hm.ids r hopen
      cases hd : s.snapshot with
      | none =>
          have hnil := hsn.none_iff.mp hd
          exact absurd ho (hw.accounting.no_partition hnil (List.mem_of_getElem? htask) _)
      | some d =>
          obtain ⟨entries, hentries, hfiles, hwrote⟩ :=
            h.work d hd w n _ task (dec k) hpc rfl htask ho
          by_cases hne : entries = []
          · -- nothing was written, so nothing is renamed or removed
            rw [outNames, if_pos hne] at hfiles
            subst hfiles
            have hsame : ∀ name, sys.fs.read name = s.disk.read name :=
              fun name ↦ read_taskDone hcases (by simp) (by simp)
            refine h.frame hw hsn hs (filter_ne_of_notMem fun hmem ↦ ?_) hkept
              (fun r ↦ hsame _) (fun r ↦ hsame _) hworkers
              (fun fd r ↦ opened_taskDone hcases (by simp) (by simp)) (by simp)
            exact of_decide_eq_true (hwrote.1.mp hmem) hne
          · rw [outNames, if_neg hne] at hfiles
            subst hfiles
            exact h.report hw hsn hs hpc htask ho hd hentries hne hwrote hcases hgiven hidle rfl rfl

theorem ExactInv.step {act : JobAction} (h : ExactInv reducef s) (hw : Wired spec d₀ s)
    (hm : MapInv spec d₀ s) (hsn : SnapInv spec d₀ s) (hred : spec.reducef = fun _ => reducef)
    (hsole : s.soleWriter act = true) (hs : s.step spec act = some t) : ExactInv reducef t := by
  -- a step that leaves the directory alone, and opens no file
  have hquiet : t.unreported = s.unreported → (∀ e ∈ s.sys.given, e ∈ t.sys.given) →
      t.disk = s.disk → (∀ pc ∈ t.workers, pc ∈ s.workers ∨ pc.outputFile = none) →
      (∀ w it, act ≠ .advance w it) → ExactInv reducef t := by
    intro hun hgiven hdisk hworkers hact
    refine h.frame hw hsn hs hun hgiven (fun _ ↦ by rw [hdisk]) (fun _ ↦ by rw [hdisk]) hworkers ?_
      fun w it _ heq ↦ absurd heq (hact w it)
    intro fd r hopen
    rwa [hdisk]
  cases step_cases hs with
  | registerWorker =>
      refine hquiet rfl (fun _ he ↦ he) rfl ?_ (by simp)
      exact List.forall_mem_append.mpr
        ⟨fun _ hold ↦ .inl hold, List.forall_mem_singleton.mpr (.inr rfl)⟩
  | getTask hpc hget =>
      obtain ⟨hfs, -, hcases⟩ := CoordSys.getTask_cases hw.accounting hget
      obtain ⟨rfl, hgiven, -⟩ | ⟨k, task, ht, -, rfl, hgiven, -⟩ := hcases
      · refine hquiet rfl ?_ hfs (forall_mem_set (fun _ hold ↦ .inl hold) (.inr rfl)) (by simp)
        rw [hgiven]
        exact fun _ he ↦ he
      · refine hquiet rfl ?_ hfs (forall_mem_set (fun _ hold ↦ .inl hold) (.inr ?_)) (by simp)
        · rw [hgiven]
          exact fun _ he ↦ List.mem_append_left _ he
        · have hfits := hw.accounting.rows.fits task (List.mem_of_getElem? ht)
          obtain ⟨_, _, hbegin⟩ | ⟨_, _, hbegin⟩ := begin_cases k s.sys.coord.nReduce hfits <;>
            rw [hbegin] <;> rfl
  | advance hpc hadv hun => exact h.advance hw hm hsn hred hpc hadv hun hsole hs
  | taskDone hpc hdone hnext hsnap =>
      refine h.taskDone hw hm hsn hpc hdone ?_ hs
      rw [hnext]
      split <;> rfl
  | heartbeat => exact hquiet rfl (fun _ he ↦ he) rfl (fun _ hold ↦ .inl hold) (by simp)
  | stopRunning => exact hquiet rfl (fun _ he ↦ he) rfl (fun _ hold ↦ .inl hold) (by simp)
  | @done now c e result hdone =>
      have htemp : ∀ r, ¬ lit "m-out" <+: reduceOutName r := fun r ↦
        prefix_disjoint (by decide) (temp_reduceOutName r)
      refine h.frame hw hsn hs rfl (fun _ he ↦ he) (fun r ↦ read_done hdone (htemp r))
        (fun r ↦ read_done hdone ?_) (fun _ hold ↦ .inl hold)
        (fun fd r ↦ opened_done hdone (htemp r)) (by simp)
      exact prefix_disjoint (u := lit "mr-out-") (by decide) ⟨r, rfl⟩
  | crash =>
      refine hquiet rfl (fun _ he ↦ he) rfl ?_ (by simp)
      exact forall_mem_set (fun _ hold ↦ .inl hold) (.inr rfl)

theorem exactInv_of_reaches (hclean : CleanDir d₀) (hred : spec.reducef = fun _ => reducef)
    (h : Reaches (restrict (step spec) soleWriter) (Job.init spec d₀) s) : ExactInv reducef s := by
  refine h.invariant (ExactInv.init hclean) ?_
  intro u act v hr hstep hu
  rcases restrict_eq_some.mp hstep with ⟨hsole, hs⟩
  have hr' := hr.of_restrict
  exact hu.step (wired_of_reaches hr') (mapInv_of_reaches hclean.start hr')
    (snapInv_of_reaches hclean.start hr') hred hsole hs

end Job

/-- In every run in which a worker opens the output file of a reducer id only when no other attempt
at it has opened it and not reported since: whenever `mr-out-r` exists, it has one line for each key
of the files of its tasks, with the result for all values of the key, and nothing else. -/
theorem reduce_output_exact {inputs : List GoString} {nReduce : Nat}
    {mapf : GoString → GoString → List KeyValue} {reducef : GoString → List GoString → GoString}
    {d₀ : Disk} {s : Job} (hclean : Job.CleanDir d₀)
    (h : Reaches (restrict (Job.step (.pure inputs nReduce mapf reducef)) Job.soleWriter)
      (Job.init (.pure inputs nReduce mapf reducef) d₀) s)
    {r text : GoString} (hfile : s.disk.read (reduceFileName r) = some text) :
    ∃ d, s.snapshot = some d ∧ ReduceOutput reducef d r text ∧
      ∀ task ∈ s.coord.tasks, task.origin = .partition r → task.files = reduceFiles d r := by
  rcases (Job.exactInv_of_reaches hclean rfl h).outputs r text hfile with
    ⟨d, entries, hd, hentries, rfl⟩
  have hfound := (Job.snapInv_of_reaches hclean.start h.of_restrict).found d hd
  exact ⟨d, hd, hentries.output, fun task htask ho ↦ hfound.files task htask r ho⟩

theorem twiceDisk_cleanDir : Job.CleanDir twiceDisk := by
  refine ⟨twiceDisk_clean, fun r ↦ ?_⟩
  rw [twiceDisk, Disk.read_put, if_neg]
  · rfl
  · intro heq
    exact absurd (show lit "mr-out-" <+: lit "a" from ⟨r, heq⟩) (by decide)

/-- The map phase of `twice`, after which task 1 is the reduce task. -/
def twiceMapped : List JobAction :=
  [.registerWorker true, .registerWorker true, .getTask 0 0] ++ goOn 0 6 ++
    [.taskDone 0 (.stored _)]

/-- The first reduce attempt is timed out before it opens its file, and goes on when the second one
has committed. -/
def slowReducer : List JobAction :=
  twiceMapped ++ [.getTask 0 5] ++ goOn 0 1 ++ [.done fun _ => 20, .getTask 1 20] ++ goOn 1 5 ++
  [.taskDone 1 (.stored _)] ++ goOn 0 4 ++ [.taskDone 0 (.stored _)]

theorem slowReducer_runs : (run (restrict (Job.step twice) Job.soleWriter)
    (Job.init twice twiceDisk) slowReducer).isSome = true := by decide

theorem reduce_output_exact_slowReducer :
    ∃ s d, run (restrict (Job.step twice) Job.soleWriter) (Job.init twice twiceDisk) slowReducer =
        some s ∧ s.disk.read (lit "mr-out-1") = some (lit "x 2\n") ∧ s.snapshot = some d ∧
      ReduceOutput (fun _ values => dec values.length) d (lit "1") (lit "x 2\n") := by
  have hfile : ((run (restrict (Job.step twice) Job.soleWriter) (Job.init twice twiceDisk)
      slowReducer).get slowReducer_runs).disk.read (reduceFileName (lit "1")) =
        some (lit "x 2\n") := by decide
  rcases reduce_output_exact twiceDisk_cleanDir (reaches_get slowReducer_runs) hfile with
    ⟨d, hd, hout, -⟩
  exact ⟨_, d, (Option.some_get slowReducer_runs).symm, by decide, hd, hout⟩

/-- The first reduce attempt writes its line and is timed out before it reports; its worker
crashes. -/
def deadReducer : List JobAction :=
  twiceMapped ++ [.getTask 0 5] ++ goOn 0 4 ++ [.done fun _ => 20, .crash 0, .getTask 1 20] ++
  goOn 1 5 ++ [.taskDone 1 (.stored _)]

theorem deadReducer_runs :
    (run (Job.step twice) (Job.init twice twiceDisk) deadReducer).isSome = true := by decide

theorem deadReducer_maps : ((run (Job.step twice) (Job.init twice twiceDisk) deadReducer).get
    deadReducer_runs).snapshot.isSome = true := by decide

/-- The second attempt commits the line of the first one along with its own. -/
theorem reduce_output_doubled :
    Job.CleanDir twiceDisk ∧ ∃ s d, run (Job.step twice) (Job.init twice twiceDisk) deadReducer =
        some s ∧ s.snapshot = some d ∧ s.disk.read (lit "mr-out-1") = some (lit "x 2\nx 2\n") ∧
      ¬ ReduceOutput (fun _ values => dec values.length) d (lit "1") (lit "x 2\nx 2\n") := by
  refine ⟨twiceDisk_cleanDir, _, _, (Option.some_get deadReducer_runs).symm,
    (Option.some_get deadReducer_maps).symm, by decide, ?_⟩
  rintro ⟨kvs, keys, hparse, hnodup, hmem, htext⟩
  have hkvs : (fun d => parseFiles d (reduceFiles d (lit "1"))) (((run (Job.step twice)
      (Job.init twice twiceDisk) deadReducer).get deadReducer_runs).snapshot.get deadReducer_maps) =
      some [(lit "x", lit "1"), (lit "x", lit "2")] := by decide
  dsimp only at hkvs
  rw [hparse, Option.some.injEq] at hkvs
  subst hkvs
  have hkeys : keys = [lit "x"] := by
    apply List.perm_singleton.mp
    rw [List.perm_ext_iff_of_nodup hnodup (by simp)]
    simpa using hmem
  subst hkeys
  revert htext
  decide

/-- The first reduce attempt stalls with the file open and is timed out; it writes its line when the
second one has committed. -/
def stalledReducer : List JobAction :=
  twiceMapped ++ [.getTask 0 5] ++ goOn 0 3 ++ [.done fun _ => 20, .getTask 1 20] ++ goOn 1 5 ++
  [.taskDone 1 (.stored _)] ++ goOn 0 1

-- its line goes to the file in its place
example : (run (Job.step twice) (Job.init twice twiceDisk) stalledReducer).map
    (·.disk.read (lit "mr-out-1")) = some (some (lit "x 2\nx 2\n")) := by decide

end GoLabs.MapReduce
