import GoLabs.MapReduce.Snapshot

/-!
# The output of the map phase

Whatever workers crash, stall, are timed out or report late, `createReduceTasks` finds the pairs of
every input file exactly once, each in the file of its reducer, and nothing else; it makes one task
for every reducer id it finds, and the files stay as they are until `Done` has returned true.
-/

open GoLabs.Reasoning

namespace GoLabs.MapReduce

/-- The pairs that `mapf` emits for an input file of the directory the job started in. -/
def pairsOf (mapf : GoString → GoString → List KeyValue) (d₀ : Disk) (file : GoString) :
    List KeyValue := mapf file ((d₀.read file).getD [])

/-- The `m-out-` files of `d` are the output of the map tasks in `work`, which has the id and the
input file of each. -/
structure MapOutput (mapf : GoString → GoString → List KeyValue) (nReduce : Nat) (d₀ d : Disk)
    (work : List (Nat × GoString)) : Prop where
  nodup : (work.map Prod.fst).Nodup
  exist : ∀ e ∈ work, d₀.read e.2 ≠ none
  files : ∀ e ∈ work, ∀ r, d.read (mapFileName e.1 r) = mapText nReduce r (pairsOf mapf d₀ e.2)
  only : ∀ name, lit "m-out-" <+: name → d.read name ≠ none →
    ∃ e ∈ work, ∃ r, name = mapFileName e.1 r

namespace MapOutput

variable {mapf : GoString → GoString → List KeyValue} {nReduce : Nat} {d₀ d : Disk}
  {work : List (Nat × GoString)}

/-- The listing of `createReduceTasks` has all `m-out-` files. -/
theorem mem_reduceFiles (h : MapOutput mapf nReduce d₀ d work) {r name : GoString} :
    name ∈ reduceFiles d r ↔
      lit "m-out-" <+: name ∧ d.read name ≠ none ∧ reduceIdOf name = some r := by
  rw [MapReduce.mem_reduceFiles]
  constructor
  · rintro ⟨hread, hglob, hid⟩
    exact ⟨glob_starts hglob, hread, hid⟩
  · rintro ⟨hpre, hread, hid⟩
    rcases h.only name hpre hread with ⟨e, -, k, rfl⟩
    exact ⟨hread, glob_mapFileName _ _, hid⟩

theorem names_nodup (h : MapOutput mapf nReduce d₀ d work) (r : Nat) :
    (work.map fun e => mapFileName e.1 r).Nodup := by
  have hmap := h.nodup.map_on (f := (mapFileName · r)) fun t _ t' _ heq ↦ (mapFileName_inj heq).1
  rwa [List.map_map] at hmap

/-- The files with reducer id `r` are those of the tasks with a pair for `r`. -/
theorem reduceFiles_perm (h : MapOutput mapf nReduce d₀ d work) (r : Nat) :
    (reduceFiles d (dec r)).Perm
      ((work.filter fun e => (d.read (mapFileName e.1 r)).isSome).map fun e =>
        mapFileName e.1 r) := by
  have hnodup := (h.names_nodup r).sublist (List.Sublist.map _ (List.filter_sublist (l := work)
    (p := fun e => (d.read (mapFileName e.1 r)).isSome)))
  rw [List.perm_ext_iff_of_nodup (reduceFiles_nodup d _) hnodup]
  intro name
  rw [h.mem_reduceFiles, List.mem_map]
  constructor
  · rintro ⟨hpre, hread, hid⟩
    rcases h.only name hpre hread with ⟨e, he, k, rfl⟩
    rw [reduceIdOf_mapFileName, Option.some.injEq] at hid
    rw [dec_injective hid] at hread ⊢
    exact ⟨e, List.mem_filter.mpr ⟨he, Option.isSome_iff_ne_none.mpr hread⟩, rfl⟩
  · rintro ⟨e, he, rfl⟩
    rw [List.mem_filter] at he
    exact ⟨mapFileName_starts _ _, Option.isSome_iff_ne_none.mp he.2, reduceIdOf_mapFileName _ _⟩

/-- Together the files with reducer id `r` hold the pairs for `r` of every input file, once. -/
theorem together (h : MapOutput mapf nReduce d₀ d work) (r : Nat) :
    ∃ pairs : GoString → List KeyValue,
      (∀ name ∈ reduceFiles d (dec r), d.read name = some ((pairs name).flatMap mapRecord)) ∧
      ((reduceFiles d (dec r)).flatMap pairs).Perm
        ((work.map Prod.snd).flatMap fun file => partOf nReduce r (pairsOf mapf d₀ file)) := by
  -- the pairs of a name are those of the one task that has a file of this name
  let part := fun e : Nat × GoString => partOf nReduce r (pairsOf mapf d₀ e.2)
  let pairs := fun name => (work.filter fun e => mapFileName e.1 r = name).flatMap part
  have hpairs : ∀ e ∈ work, pairs (mapFileName e.1 r) = part e := by
    intro e he
    dsimp only [pairs]
    rw [filter_eq_singleton (h.names_nodup r) he, List.flatMap_singleton]
  have hperm := h.reduceFiles_perm r
  refine ⟨pairs, ?_, ?_⟩
  · intro name hname
    rcases List.mem_map.mp (hperm.mem_iff.mp hname) with ⟨e, he, rfl⟩
    rw [List.mem_filter] at he
    rw [hpairs e he.1]
    have hsome := he.2
    rw [h.files e he.1, mapText] at hsome ⊢
    split at hsome
    · simp at hsome
    · rename_i hne
      rw [if_neg hne]
  · refine (hperm.flatMap_right pairs).trans (List.Perm.of_eq ?_)
    rw [List.flatMap_map, List.flatMap_map, List.flatMap_congr fun e he ↦
      hpairs e (List.mem_of_mem_filter he)]
    apply flatMap_filter
    intro e he hnone
    rw [h.files e he, mapText] at hnone
    dsimp only [part]
    split at hnone
    · rename_i hnil
      exact hnil
    · simp at hnone

end MapOutput

/-! ## Runs -/

/-- A job with deterministic functions. -/
def JobSpec.pure (inputs : List GoString) (nReduce : Nat)
    (mapf : GoString → GoString → List KeyValue)
    (reducef : GoString → List GoString → GoString) : JobSpec :=
  ⟨inputs, nReduce, fun _ => mapf, fun _ => reducef⟩

/-- What holds in `s` of the directory `d` that `createReduceTasks` found.  `work` has the attempt
that committed for each input file. -/
structure MapPhase (mapf : GoString → GoString → List KeyValue) (nReduce : Nat) (d₀ d : Disk)
    (work : List (Nat × GoString)) (s : Job) : Prop where
  output : MapOutput mapf nReduce d₀ d work
  committed : ∀ e ∈ work, ∃ task, s.coord.tasks[e.1]? = some task ∧ task.files = [e.2] ∧
    task.status = .completed ∧ task.committed = true
  together : ∀ r, ∃ pairs : GoString → List KeyValue,
    (∀ name ∈ reduceFiles d (dec r), d.read name = some ((pairs name).flatMap mapRecord)) ∧
    ((reduceFiles d (dec r)).flatMap pairs).Perm
      ((work.map Prod.snd).flatMap fun file => partOf nReduce r (pairsOf mapf d₀ file))
  listed : ∀ r name, name ∈ reduceFiles d r ↔
    lit "m-out-" <+: name ∧ d.read name ≠ none ∧ reduceIdOf name = some r
  created : ∃ ids, s.coord.created = [ids] ∧ ids.Nodup ∧ ∀ r, r ∈ ids ↔ reduceFiles d r ≠ []
  tasks : ∀ r, reduceFiles d r ≠ [] → s.coord.tasks.countP
    (fun task => task.origin = .partition r ∧ task.status ≠ .timedOut) = 1
  files : ∀ task ∈ s.coord.tasks, ∀ r, task.origin = .partition r → task.files = reduceFiles d r
  stable : s.finished = false → ∀ name, lit "m-out-" <+: name → s.disk.read name = d.read name

/-- What an attempt that committed has left. -/
theorem Snapshot.of_committed {inputs : List GoString} {nReduce : Nat}
    {mapf : GoString → GoString → List KeyValue} {reducef : GoString → List GoString → GoString}
    {d₀ d : Disk} {c : Coordinator}
    (h : Snapshot (.pure inputs nReduce mapf reducef) d₀ d c)
    (hinputs : ∀ f ∈ inputs, ¬ Reserved f) {n i : Nat} {task : Task} {f : GoString}
    (hn : c.tasks[n]? = some task) (ho : task.origin = .input i) (hfiles : task.files = [f])
    (hc : task.committed = true) :
    d₀.read f ≠ none ∧ ∀ r, d.read (mapFileName n r) = mapText nReduce r (pairsOf mapf d₀ f) := by
  obtain ⟨kvs, hemitted, hread'⟩ := h.committed _ _ _ hn ho hc
  obtain ⟨f', content, hf, hread, hkvs⟩ := hemitted hinputs
  rw [hfiles, List.singleton_inj] at hf
  subst hf
  refine ⟨by simp [hread], ?_⟩
  intro r
  rw [hread', pairsOf, hread, hkvs]
  rfl

namespace Job

/-- Once there are reduce tasks, every input file has an attempt that committed. -/
theorem exists_committed {inputs : List GoString} {s : Job}
    (hacc : CoordSys.Accounting inputs s.sys) (hne : s.coord.created ≠ []) (i : Nat) (f : GoString)
    (hf : inputs[i]? = some f) :
    ∃ (n : Nat) (task : Task), s.coord.tasks[n]? = some task ∧ task.origin = .input i ∧
      task.files = [f] ∧ task.committed = true := by
  have hone := hacc.liveOf (o := .input i) (lt_length_of_getElem? hf)
  obtain ⟨task, htask, hlive⟩ := List.countP_pos_iff.mp (by rw [hone]; omega)
  simp only [decide_eq_true_eq] at hlive
  obtain ⟨n, hn⟩ := List.mem_iff_getElem?.mp htask
  refine ⟨n, task, hn, hlive.1, ?_, ?_⟩
  · have hfits := hacc.rows.fits task htask
    rw [Task.Fits, hlive.1] at hfits
    obtain ⟨-, f', hf', hfiles⟩ := hfits
    rw [hf, Option.some.injEq] at hf'
    rw [hfiles, hf']
  · obtain hst | hc := hacc.input_settled hne htask hlive.1
    · exact absurd hst hlive.2
    · exact hc

/-- Two attempts that committed for one input are the same. -/
theorem committed_unique {inputs : List GoString} {s : Job} {n m : Nat} {task other : Task}
    (hacc : CoordSys.Accounting inputs s.sys) (hn : s.coord.tasks[n]? = some task)
    (hm : s.coord.tasks[m]? = some other) (ho : task.origin = other.origin)
    (hc : task.committed = true) (hc' : other.committed = true) : n = m := by
  have hlive : ∀ {k : Nat} {row : Task}, s.coord.tasks[k]? = some row →
      row.committed = true → row.status ≠ .timedOut := by
    intro k row hk hrow
    rw [hacc.rows.committed row (List.mem_of_getElem? hk) hrow]
    simp
  exact hacc.live_unique hn hm ho (hlive hn hc) (hlive hm hc')

/-- Every input file has exactly one attempt that committed. -/
theorem exists_work {inputs : List GoString} {nReduce : Nat}
    {mapf : GoString → GoString → List KeyValue} {reducef : GoString → List GoString → GoString}
    {d₀ d : Disk} {s : Job} (hacc : CoordSys.Accounting inputs s.sys)
    (h : Snapshot (.pure inputs nReduce mapf reducef) d₀ d s.coord)
    (hinputs : ∀ f ∈ inputs, ¬ Reserved f) (hne : s.coord.created ≠ []) :
    ∃ work, work.map Prod.snd = inputs ∧ MapOutput mapf nReduce d₀ d work ∧
      ∀ e ∈ work, ∃ task, s.coord.tasks[e.1]? = some task ∧ task.files = [e.2] ∧
        task.status = .completed ∧ task.committed = true := by
  choose! tid row hrow using exists_committed hacc hne
  have hmem : ∀ e ∈ inputs.zipIdx, inputs[e.2]? = some e.1 :=
    fun e he ↦ List.mk_mem_zipIdx_iff_getElem?.mp he
  refine ⟨inputs.zipIdx.map fun e => (tid e.2 e.1, e.1), ?_, ⟨?_, ?_, ?_, ?_⟩, ?_⟩
  · rw [List.map_map]
    exact List.zipIdx_map_fst 0 inputs
  · -- two inputs never share a task, since the origin of the task tells them apart
    rw [List.map_map]
    refine List.Nodup.map_on ?_ (List.Nodup.of_map Prod.snd ?_)
    · intro e he e' he' heq
      have hrow' := hrow e'.2 e'.1 (hmem e' he')
      simp only [Function.comp_apply] at heq
      rw [← heq, (hrow e.2 e.1 (hmem e he)).1, Option.some.injEq] at hrow'
      have ho := (hrow e.2 e.1 (hmem e he)).2.1
      rw [hrow'.1, hrow'.2.1, Origin.input.injEq] at ho
      refine Prod.ext ?_ ho.symm
      have hf := hmem e he
      rw [← ho, hmem e' he', Option.some.injEq] at hf
      exact hf.symm
    · rw [List.zipIdx_map_snd]
      exact List.nodup_range'
  · intro e he
    obtain ⟨e', he', rfl⟩ := List.mem_map.mp he
    obtain ⟨hn, ho, hfiles, hc⟩ := hrow e'.2 e'.1 (hmem e' he')
    exact (h.of_committed hinputs hn ho hfiles hc).1
  · intro e he r
    obtain ⟨e', he', rfl⟩ := List.mem_map.mp he
    obtain ⟨hn, ho, hfiles, hc⟩ := hrow e'.2 e'.1 (hmem e' he')
    exact (h.of_committed hinputs hn ho hfiles hc).2 r
  · -- whose file it is has committed, so it is the attempt of its input
    intro name hpre hread
    obtain ⟨n, r, task, i, rfl, hn, ho, hc⟩ := h.only name hpre hread
    have hfits := hacc.rows.fits task (List.mem_of_getElem? hn)
    rw [Task.Fits, ho] at hfits
    obtain ⟨-, f, hf, -⟩ := hfits
    obtain ⟨hn', ho', -, hc'⟩ := hrow i f hf
    have heq := committed_unique hacc hn hn' (ho.trans ho'.symm) hc hc'
    refine ⟨(tid i f, f), ?_, r, by rw [heq]⟩
    exact List.mem_map.mpr ⟨(f, i), List.mk_mem_zipIdx_iff_getElem?.mpr hf, rfl⟩
  · intro e he
    obtain ⟨e', he', rfl⟩ := List.mem_map.mp he
    obtain ⟨hn, ho, hfiles, hc⟩ := hrow e'.2 e'.1 (hmem e' he')
    exact ⟨_, hn, hfiles, hacc.rows.committed _ (List.mem_of_getElem? hn) hc, hc⟩

end Job

/-- Every map function, list of inputs and number of reducers, every number of workers, and every
order of their operations, crashes, time-outs and reports: what `createReduceTasks` finds when it
runs is the output of exactly one attempt at each input file.  The files the job keeps for itself do
not exist at the start, so none of them is an input file. -/
theorem map_phase_exactly_once {inputs : List GoString} {nReduce : Nat}
    {mapf : GoString → GoString → List KeyValue} {reducef : GoString → List GoString → GoString}
    {d₀ d : Disk} {s : Job} (hclean : Job.CleanStart d₀) (hinputs : ∀ f ∈ inputs, ¬ Reserved f)
    (h : Reaches (Job.step (.pure inputs nReduce mapf reducef))
      (Job.init (.pure inputs nReduce mapf reducef) d₀) s)
    (hsnap : s.snapshot = some d) :
    ∃ work, work.map Prod.snd = inputs ∧ MapPhase mapf nReduce d₀ d work s := by
  have hsn := Job.snapInv_of_reaches hclean h
  have hacc := (Job.wired_of_reaches h).accounting
  have hfound := hsn.found d hsnap
  have hne : s.coord.created ≠ [] := by
    intro hnil
    rw [hsn.none_iff.mpr hnil] at hsnap
    simp at hsnap
  rcases Job.exists_work hacc hfound hinputs hne with ⟨work, hwork, hout, hcommitted⟩
  refine ⟨work, hwork, hout, hcommitted, hout.together, fun r name ↦ hout.mem_reduceFiles,
    hfound.created, ?_, hfound.files, fun hrun _ ↦ hsn.stable hrun hsnap⟩
  intro r hr
  rcases hfound.created with ⟨ids, hids, -, hmem⟩
  refine hacc.liveOf (o := .partition r) ?_
  change r ∈ s.coord.created.flatten
  rw [hids, List.flatten_singleton]
  exact (hmem r).mpr hr

/-- One input file with the key `x`, emitted twice. -/
def twice : JobSpec :=
  .pure [lit "a"] 2 (fun _ content => [⟨content, lit "1"⟩, ⟨content, lit "2"⟩])
    (fun _ values => dec values.length)

def twiceDisk : Disk := Disk.empty.put (lit "a") (lit "x")

theorem twiceDisk_clean : Job.CleanStart twiceDisk := by
  intro name hres
  rw [twiceDisk, Disk.read_put, if_neg]
  · rfl
  · rintro rfl
    revert hres
    unfold Reserved
    decide

/-- Some operations of a worker, one after the other. -/
def goOn (w : Nat) (operations : Nat) : List JobAction :=
  List.replicate operations (.advance w (.stored _))

/-- The first attempt is timed out when it has opened its file for the second of its two writes, and
goes on when the second attempt has committed. -/
def slowMapper : List JobAction :=
  [.registerWorker true, .registerWorker true, .getTask 0 0] ++ goOn 0 4 ++
  [.done fun _ => 11, .getTask 1 11] ++ goOn 1 6 ++ [.taskDone 1 (.stored _)] ++ goOn 0 2 ++
  [.taskDone 0 (.stored _)]

theorem slowMapper_runs :
    (run (Job.step twice) (Job.init twice twiceDisk) slowMapper).isSome = true := by decide

theorem slowMapper_maps : ((run (Job.step twice) (Job.init twice twiceDisk) slowMapper).get
    slowMapper_runs).snapshot.isSome = true := by decide

theorem map_phase_exactly_once_slowMapper :
    ∃ s d work, run (Job.step twice) (Job.init twice twiceDisk) slowMapper = some s ∧
      s.snapshot = some d ∧ reduceFiles d (lit "1") = [lit "m-out-1-1"] ∧
      d.read (lit "m-out-1-1") = some (lit "x:::1\nx:::2\n") ∧ work.map Prod.snd = [lit "a"] ∧
      MapPhase (fun _ content => [⟨content, lit "1"⟩, ⟨content, lit "2"⟩]) 2 twiceDisk d work
        s := by
  rcases map_phase_exactly_once twiceDisk_clean (by unfold Reserved; decide)
    (reaches_get slowMapper_runs) (Option.some_get slowMapper_maps).symm with ⟨work, hwork, hphase⟩
  exact ⟨_, _, work, (Option.some_get slowMapper_runs).symm, (Option.some_get slowMapper_maps).symm,
    by decide, by decide, hwork, hphase⟩

end GoLabs.MapReduce
