import Mathlib.Data.Set.List
import GoLabs.MapReduce.MapPhase
import GoLabs.MapReduce.Records
import GoLabs.MapReduce.ReduceOutput
import GoLabs.MapReduce.Sequential

/-!
# The distributed program and the sequential one

Every map task runs once and has its files renamed, `createReduceTasks` groups the files, and every
reduce task runs once and has its file renamed, with any task ids and in any order.  The records in
the output files are those of the sequential program.
-/

open GoLabs.Reasoning

namespace GoLabs.MapReduce

/-- A map task to run, with the order in which it lists the files it created. -/
structure MapRun where
  taskId : Nat
  file : GoString
  it : Iteration GoString

def runMaps (mapf : GoString → GoString → List KeyValue) (nReduce : Nat) :
    List MapRun → Disk → Option Disk
  | [], d => some d
  | todo :: rest, d =>
      match runMapTask mapf todo.it todo.taskId [todo.file] nReduce d with
      | none => none
      | some (d, files) =>
          match renameTempFiles Disk.os d files with
          | (_, some _) => none
          | (d, none) => runMaps mapf nReduce rest d

/-- A reduce task to run, with the orders in which it goes through its keys and lists the files it
created. -/
structure ReduceRun where
  task : Task
  keys : Iteration GoString
  names : Iteration GoString

def runReduces (reducef : GoString → List GoString → GoString) :
    List ReduceRun → Disk → Option Disk
  | [], d => some d
  | todo :: rest, d =>
      match runReduceTask reducef todo.keys todo.names todo.task.files d with
      | none => none
      | some (d, files) =>
          match renameTempFiles Disk.os d files with
          | (_, some _) => none
          | (d, none) => runReduces reducef rest d

/-! ## The map tasks -/

variable {mapf : GoString → GoString → List KeyValue} {nReduce : Nat} {d d₀ : Disk}

theorem writePairs_spec {t : Nat} (kvs : List KeyValue) {written : List KeyValue}
    (st : Disk × Created) (h : Holds nReduce st.1 t written st.2.keys)
    (hnames : ∀ f ∈ st.2.keys, ∃ r, f = mapOutName t r) :
    Holds nReduce (writePairs t nReduce kvs st).1 t (written ++ kvs)
        (writePairs t nReduce kvs st).2.keys ∧
      (∀ f ∈ (writePairs t nReduce kvs st).2.keys, ∃ r, f = mapOutName t r) ∧
      ∀ name, (∀ r, name ≠ mapOutName t r) →
        (writePairs t nReduce kvs st).1.read name = st.1.read name := by
  induction kvs generalizing written st with
  | nil => exact ⟨by simpa [writePairs] using h, hnames, fun _ _ ↦ rfl⟩
  | cons kv kvs ih =>
      rcases st with ⟨e, created⟩
      rw [writePairs]
      have hnames' : ∀ f ∈ (created.insert (mapOutName t (ihash kv.key % nReduce)) true).keys,
          ∃ r, f = mapOutName t r := by
        intro f hf
        rcases GoMap.mem_keys_insert.mp hf with rfl | hold
        · exact ⟨_, rfl⟩
        · exact hnames f hold
      have hnext : Holds nReduce (e.append (mapOutName t (ihash kv.key % nReduce)) (mapRecord kv)) t
          (written ++ [kv]) (created.insert (mapOutName t (ihash kv.key % nReduce)) true).keys :=
        h.snoc
      rcases ih (e.append (mapOutName t (ihash kv.key % nReduce)) (mapRecord kv),
          created.insert (mapOutName t (ihash kv.key % nReduce)) true) hnext hnames' with
          ⟨hholds, hall, hread⟩
      rw [List.append_assoc, List.singleton_append] at hholds
      refine ⟨hholds, hall, fun name hne ↦ ?_⟩
      rw [hread name hne]
      exact (Disk.read_append).trans (if_neg (hne _))

/-- A map task that finds no files of its own leaves exactly its output. -/
theorem runMapTask_spec (mapf : GoString → GoString → List KeyValue) (it : Iteration GoString)
    {t : Nat} {file content : GoString} (hn : 0 < nReduce)
    (hread : d.read file = some content) (hfresh : ∀ r, d.read (mapOutName t r) = none) :
    ∃ e files, runMapTask mapf it t [file] nReduce d = some (e, files) ∧
      Holds nReduce e t (mapf file content) files ∧ files.Nodup ∧
      (∀ f ∈ files, ∃ r, f = mapOutName t r) ∧
      ∀ name, (∀ r, name ≠ mapOutName t r) → e.read name = d.read name := by
  have hstart : Holds nReduce d t [] (∅ : Created).keys := by
    refine ⟨fun r ↦ by rw [hfresh]; rfl, fun r ↦ ?_⟩
    simp [mapText_nil]
  rcases writePairs_spec (mapf file content) (d, ∅) hstart (by simp) with
    ⟨hholds, hnames, hrest⟩
  rw [List.nil_append] at hholds
  refine ⟨_, it.order (writePairs t nReduce (mapf file content) (d, ∅)).2.keys, ?_,
    ⟨hholds.text, fun r ↦ ?_⟩, ?_, ?_, hrest⟩
  · rw [runMapTask, mapFiles, hread]
    dsimp only
    rw [if_neg (by omega), mapFiles, Option.map_some]
  · rw [(it.perm _).mem_iff, hholds.names]
  · exact (it.perm _).nodup_iff.mpr (AList.keys_nodup _)
  · exact fun f hf ↦ hnames f ((it.perm _).mem_iff.mp hf)

/-- A map task and its renames. -/
theorem mapRun_spec (mapf : GoString → GoString → List KeyValue) {todo : MapRun}
    {content : GoString} (hn : 0 < nReduce) (hread : d.read todo.file = some content)
    (hfresh : ∀ r, d.read (mapOutName todo.taskId r) = none)
    (hfile : ∀ r, d.read (mapFileName todo.taskId r) = none) :
    ∃ e, (∀ rest, runMaps mapf nReduce (todo :: rest) d = runMaps mapf nReduce rest e) ∧
      (∀ r, e.read (mapFileName todo.taskId r) = mapText nReduce r (mapf todo.file content)) ∧
      ∀ name, (∀ r, name ≠ mapOutName todo.taskId r) → (∀ r, name ≠ mapFileName todo.taskId r) →
        e.read name = d.read name := by
  rcases runMapTask_spec mapf todo.it hn hread hfresh with
    ⟨e, files, hrun, hholds, hnodup, hnames, hrest⟩
  have hnone : ∀ r, e.read (mapFileName todo.taskId r) = none := by
    intro r
    rw [hrest _ fun r' heq ↦ mapFileName_not_temp _ _ (heq ▸ temp_mapOutName todo.taskId r'), hfile]
  rcases hholds.rename hnodup hnames hnone with ⟨e', hrename, htext⟩
  refine ⟨e', fun rest ↦ ?_, htext, fun name hout hfile' ↦ ?_⟩
  · rw [runMaps, hrun]
    dsimp only
    rw [hrename]
  · rw [read_renameTempFiles_of_notMem hrename, hrest name hout]
    · intro hmem
      rcases hnames name hmem with ⟨r, heq⟩
      exact hout r heq
    · intro hmem
      rcases List.mem_map.mp hmem with ⟨f, hf, rfl⟩
      rcases hnames f hf with ⟨r, rfl⟩
      exact hfile' r (rename_mapOutName _ r)

/-- One more map task has its output in place, and nothing else has changed. -/
theorem MapOutput.snoc {mapf : GoString → GoString → List KeyValue} {e : Disk} {t : Nat}
    {file : GoString} {work : List (Nat × GoString)} (hout : MapOutput mapf nReduce d₀ d work)
    (hnew : t ∉ work.map Prod.fst) (hexist : d₀.read file ≠ none)
    (htext : ∀ r, e.read (mapFileName t r) = mapText nReduce r (pairsOf mapf d₀ file))
    (hsame : ∀ name, (∀ r, name ≠ mapOutName t r) → (∀ r, name ≠ mapFileName t r) →
      e.read name = d.read name) : MapOutput mapf nReduce d₀ e (work ++ [(t, file)]) := by
  refine ⟨?_, ?_, ?_, ?_⟩
  · rw [List.map_append, List.map_singleton]
    exact nodup_snoc hout.nodup hnew
  · exact List.forall_mem_append.mpr ⟨hout.exist, List.forall_mem_singleton.mpr hexist⟩
  · intro w hw r
    obtain hold | hw := List.mem_append.mp hw
    · have hne : w.1 ≠ t := fun heq ↦ hnew (heq ▸ List.mem_map_of_mem hold)
      rw [hsame, hout.files w hold]
      · exact fun r' heq ↦ mapFileName_not_temp _ _ (heq ▸ temp_mapOutName t r')
      · exact fun r' heq ↦ hne (mapFileName_inj heq).1
    · rw [List.mem_singleton.mp hw]
      exact htext r
  · intro name hpre hne
    by_cases hmine : ∃ r, name = mapFileName t r
    · obtain ⟨r, rfl⟩ := hmine
      exact ⟨(t, file), by simp, r, rfl⟩
    · -- an old file, of one of the tasks before
      rw [hsame name (fun r heq ↦ temp_not_map (heq ▸ temp_mapOutName _ r) hpre)
        (fun r heq ↦ hmine ⟨r, heq⟩)] at hne
      obtain ⟨w, hw, r, rfl⟩ := hout.only name hpre hne
      exact ⟨w, List.mem_append_left _ hw, r, rfl⟩

/-- The map tasks one after the other, when those of `work` have run. -/
theorem runMaps_spec (hclean : Job.CleanStart d₀) (hn : 0 < nReduce) {todo : List MapRun}
    {work : List (Nat × GoString)} (hout : MapOutput mapf nReduce d₀ d work)
    (hids : (work.map Prod.fst ++ todo.map MapRun.taskId).Nodup)
    (hexist : ∀ run ∈ todo, d₀.read run.file ≠ none)
    (hfresh : ∀ run ∈ todo, ∀ r, d.read (mapOutName run.taskId r) = none)
    (hrest : ∀ name, (∀ t r, name ≠ mapOutName t r) → (∀ t r, name ≠ mapFileName t r) →
      d.read name = d₀.read name) :
    ∃ e, runMaps mapf nReduce todo d = some e ∧
      MapOutput mapf nReduce d₀ e (work ++ todo.map fun run => (run.taskId, run.file)) ∧
      ∀ name, (∀ t r, name ≠ mapOutName t r) → (∀ t r, name ≠ mapFileName t r) →
        e.read name = d₀.read name := by
  -- `work` is what has been run; the tasks to come find their names unused
  induction todo generalizing d work with
  | nil => exact ⟨d, rfl, by simpa using hout, hrest⟩
  | cons run todo ih =>
      have hnew : run.taskId ∉ work.map Prod.fst := fun hmem ↦
        (List.nodup_append.mp hids).2.2 _ hmem _ (List.mem_map_of_mem List.mem_cons_self) rfl
      have hother : ∀ run' ∈ todo, run'.taskId ≠ run.taskId := by
        have hnodup := (List.nodup_append.mp hids).2.1
        rw [List.map_cons, List.nodup_cons] at hnodup
        exact fun run' hrun' heq ↦ hnodup.1 (heq ▸ List.mem_map_of_mem hrun')
      rcases Option.ne_none_iff_exists'.mp (hexist run List.mem_cons_self) with ⟨content, hcontent⟩
      -- no earlier task has changed the input file
      have hinput : d.read run.file = some content := by
        rw [hrest, hcontent]
        · rintro t r heq
          rw [heq, hclean _ (.inl (temp_mapOutName t r))] at hcontent
          simp at hcontent
        · rintro t r heq
          rw [heq, hclean _ (.inr (mapFileName_starts t r))] at hcontent
          simp at hcontent
      have hfile : ∀ r, d.read (mapFileName run.taskId r) = none := by
        intro r
        by_contra hne
        rcases hout.only _ (mapFileName_starts _ r) hne with ⟨e, he, r', heq⟩
        exact hnew ((mapFileName_inj heq).1 ▸ List.mem_map_of_mem he)
      rcases mapRun_spec mapf hn hinput
        (hfresh run List.mem_cons_self) hfile with ⟨e, hstep, htext, hsame⟩
      have hpairs : mapf run.file content = pairsOf mapf d₀ run.file := by
        rw [pairsOf, hcontent, Option.getD_some]
      have hwork : MapOutput mapf nReduce d₀ e (work ++ [(run.taskId, run.file)]) :=
        hout.snoc hnew (by simp [hcontent]) (fun r ↦ by rw [htext, hpairs]) hsame
      have hfresh' : ∀ run' ∈ todo, ∀ r, e.read (mapOutName run'.taskId r) = none := by
        intro run' hrun' r
        rw [hsame _ (fun r' heq ↦ hother run' hrun' (mapOutName_inj heq).1)
          (fun r' heq ↦ mapFileName_not_temp _ _ (heq ▸ temp_mapOutName run'.taskId r))]
        exact hfresh run' (List.mem_cons_of_mem _ hrun') r
      rcases ih hwork (by simpa using hids) (fun r hr ↦ hexist r (List.mem_cons_of_mem _ hr))
        hfresh' (fun name h h' ↦ (hsame name (h _) (h' _)).trans (hrest name h h')) with
        ⟨e', hrun, hout', hrest'⟩
      exact ⟨e', by rw [hstep, hrun], by simpa using hout', hrest'⟩

/-! ## The reduce tasks -/

section Reducing

variable {reducef : GoString → List GoString → GoString} {work : List (Nat × GoString)}

/-- The pairs of all input files. -/
def allPairs (mapf : GoString → GoString → List KeyValue) (d₀ : Disk) (files : List GoString) :
    List KeyValue := files.flatMap (pairsOf mapf d₀)

/-- A reduce task reads the pairs of its reducer, if all pairs survive the text of the files. -/
theorem MapOutput.parse (h : MapOutput mapf nReduce d₀ d work)
    (hplain : ∀ kv ∈ allPairs mapf d₀ (work.map Prod.snd), kv.Plain) (k : Nat) :
    ∃ kvs, parseFiles d (reduceFiles d (dec k)) = some kvs ∧
      kvs.Perm (((allPairs mapf d₀ (work.map Prod.snd)).map KeyValue.pair).filter
        fun kv => ihash kv.1 % nReduce = k) := by
  rcases h.together k with ⟨pairs, htext, hperm⟩
  have hpart : ((work.map Prod.snd).flatMap fun file => partOf nReduce k (pairsOf mapf d₀ file)) =
      partOf nReduce k (allPairs mapf d₀ (work.map Prod.snd)) :=
    (List.filter_flatMap).symm
  rw [hpart] at hperm
  have hread : ∀ name ∈ reduceFiles d (dec k),
      (d.read name).bind parseContent = some ((pairs name).map KeyValue.pair) := by
    intro name hname
    rw [htext name hname, Option.bind_some]
    apply parseContent_records
    intro kv hkv
    have hmem := hperm.mem_iff.mp (List.mem_flatMap.mpr ⟨name, hname, hkv⟩)
    exact hplain kv (List.mem_of_mem_filter hmem)
  refine ⟨((reduceFiles d (dec k)).flatMap pairs).map KeyValue.pair, ?_, ?_⟩
  · rw [parseFiles, mapM_eq_map hread, Option.map_some, List.map_flatMap, List.flatMap_def]
  · rw [List.filter_map]
    exact hperm.map _

theorem MapOutput.reduceFiles_ne_nil (h : MapOutput mapf nReduce d₀ d work) {k : Nat} :
    reduceFiles d (dec k) ≠ [] ↔
      ∃ kv ∈ allPairs mapf d₀ (work.map Prod.snd), ihash kv.key % nReduce = k := by
  have hnil := (h.reduceFiles_perm k).length_eq
  rw [← List.length_pos_iff_ne_nil, hnil, List.length_map, List.length_pos_iff_exists_mem]
  have hfile : ∀ e ∈ work, (d.read (mapFileName e.1 k)).isSome = true ↔
      ∃ kv ∈ pairsOf mapf d₀ e.2, ihash kv.key % nReduce = k := by
    intro e he
    rw [h.files e he, Option.isSome_iff_ne_none, mapText_ne_none, partOf, Ne,
      List.filter_eq_nil_iff]
    simp
  simp only [List.mem_filter, allPairs, List.mem_flatMap, List.mem_map]
  constructor
  · rintro ⟨e, he, hsome⟩
    rcases (hfile e he).mp hsome with ⟨kv, hkv, hk⟩
    exact ⟨kv, ⟨e.2, ⟨e, he, rfl⟩, hkv⟩, hk⟩
  · rintro ⟨kv, ⟨_, ⟨e, he, rfl⟩, hkv⟩, hk⟩
    exact ⟨e, he, (hfile e he).mpr ⟨kv, hkv, hk⟩⟩

/-- `createReduceTasks` makes one task for every reducer that has a file. -/
theorem MapOutput.createReduceTasks (h : MapOutput mapf nReduce d₀ d work)
    (it : Iteration GoString) (c : Coordinator) :
    ∃ (c' : Coordinator) (ids : List Nat), c.createReduceTasks Disk.os it d = some (c', none) ∧
      c'.tasks = c.tasks ++ ids.map (fun k => reduceTask (dec k, reduceFiles d (dec k))) ∧
      ids.Nodup ∧ ∀ k, k ∈ ids ↔ reduceFiles d (dec k) ≠ [] := by
  cases hg : d.glob (lit "m-out-*-*") with
  | error err => simp [Disk.glob] at hg
  | ok names =>
      -- all files it finds are the map phase's, so every name parses
      have hid : ∀ name ∈ names, (reduceIdOf name).map (·, name) =
          some ((reduceIdOf name).getD [], name) := by
        intro name hname
        rcases (Disk.mem_glob hg).mp hname with ⟨hread, hglob⟩
        rcases h.only name (glob_starts hglob) hread with ⟨e, -, r, rfl⟩
        rw [reduceIdOf_mapFileName]
        rfl
      have hgroups : ∃ m, groupFiles names = some m :=
        ⟨_, by rw [groupFiles, mapM_eq_map hid, Option.map_some]⟩
      rcases hgroups with ⟨m, hgroup⟩
      have hfiles : ∀ r, reduceFiles d r = names.filter (reduceIdOf · = some r) := by
        intro r
        rw [reduceFiles, hg]
      -- the groups are those of `reduceFiles`, one for each reducer id
      have hentry : ∀ entry ∈ m.range it, ∃ k, (dec k, reduceFiles d (dec k)) = entry := by
        rintro ⟨r, files⟩ hentry
        rcases (lookup_groupFiles hgroup).mp (GoMap.mem_range.mp hentry) with ⟨heq, hne⟩
        rw [← hfiles] at heq
        rcases List.exists_mem_of_ne_nil _ hne with ⟨name, hname⟩
        rcases h.mem_reduceFiles.mp (heq ▸ hname) with ⟨hpre, hread, hr⟩
        rcases h.only name hpre hread with ⟨e, -, k, rfl⟩
        rw [reduceIdOf_mapFileName, Option.some.injEq] at hr
        exact ⟨k, by rw [hr, ← heq]⟩
      rcases (Set.range_list_map _).ge hentry with ⟨ids, hids⟩
      have hcreate : c.createReduceTasks Disk.os it d = some ({ c with
          tasks := c.tasks ++ (m.range it).map reduceTask
          numReduceTasks := c.numReduceTasks + (m.range it).length
          created := c.created ++ [(m.range it).map Prod.fst] }, none) := by
        unfold Coordinator.createReduceTasks
        rw [show Disk.os.glob d (lit "m-out-*-*") = .ok names from hg]
        dsimp only
        rw [hgroup]
      refine ⟨_, ids, hcreate, ?_, ?_, fun k ↦ ?_⟩
      · rw [← hids, List.map_map]
        rfl
      · have hnodup := GoMap.range_keys_nodup it m
        rw [← hids, List.map_map] at hnodup
        exact hnodup.of_map _
      · rw [hfiles]
        constructor
        · intro hk
          have hmem := hids ▸ List.mem_map_of_mem (f := fun k => (dec k, reduceFiles d (dec k))) hk
          rcases (lookup_groupFiles hgroup).mp (GoMap.mem_range.mp hmem) with ⟨heq, hne⟩
          rwa [heq] at hne
        · intro hne
          have hmem : (dec k, names.filter (reduceIdOf · = some (dec k))) ∈ m.range it :=
            GoMap.mem_range.mpr ((lookup_groupFiles hgroup).mpr ⟨rfl, hne⟩)
          rw [← hids] at hmem
          rcases List.mem_map.mp hmem with ⟨k', hk', heq⟩
          rw [← dec_injective (Prod.ext_iff.mp heq).1]
          exact hk'

theorem writeResults_spec (reducef : GoString → List GoString → GoString) {r : GoString}
    (entries : List Entry) {written : List Entry} (st : Disk × Created)
    (hkeys : st.2.keys = outNames r written) :
    (writeResults reducef r entries st).2.keys = outNames r (written ++ entries) ∧
      (entries ≠ [] → (writeResults reducef r entries st).1.read (reduceOutName r) =
        some ((st.1.read (reduceOutName r)).getD [] ++ render reducef entries)) ∧
      ∀ name, name ≠ reduceOutName r →
        (writeResults reducef r entries st).1.read name = st.1.read name := by
  induction entries generalizing written st with
  | nil => exact ⟨by simpa [writeResults] using hkeys, by simp, fun _ _ ↦ rfl⟩
  | cons entry entries ih =>
      rcases st with ⟨e, created⟩
      rcases entry with ⟨key, values⟩
      rw [writeResults]
      rcases ih (e.append (reduceOutName r) (reduceRecord key (reducef key values)),
          created.insert (reduceOutName r) true)
        (keys_insert_outNames (e := (key, values)) hkeys) with ⟨hnames, htext, hrest⟩
      rw [List.append_assoc, List.singleton_append] at hnames
      refine ⟨hnames, fun _ ↦ ?_, fun name hne ↦ ?_⟩
      · by_cases hnil : entries = []
        · subst hnil
          rw [writeResults, Disk.read_append, if_pos rfl]
          simp [render]
        · rw [htext hnil, Disk.read_append, if_pos rfl, Option.getD_some, List.append_assoc]
          rfl
      · rw [hrest name hne, Disk.read_append, if_neg hne]

/-- A reduce task that finds no file of its own, and its rename. -/
theorem reduceRun_spec (reducef : GoString → List GoString → GoString) {d₁ : Disk}
    {todo : ReduceRun} {k : Nat} {kvs : List (GoString × GoString)}
    (hfiles : todo.task.files = reduceFiles d₁ (dec k)) (hne : reduceFiles d₁ (dec k) ≠ [])
    (hparse : parseFiles d₁ (reduceFiles d₁ (dec k)) = some kvs) (hkvs : kvs ≠ [])
    (hsame : ∀ name, lit "m-out-" <+: name → d.read name = d₁.read name)
    (htemp : d.read (reduceOutName (dec k)) = none) :
    ∃ e entries, (∀ rest, runReduces reducef (todo :: rest) d = runReduces reducef rest e) ∧
      Entries d₁ (dec k) entries ∧
      e.read (reduceFileName (dec k)) = some (render reducef entries) ∧
      ∀ name, name ≠ reduceOutName (dec k) → name ≠ reduceFileName (dec k) →
        e.read name = d.read name := by
  have hentries : Entries d₁ (dec k) ((GoMap.collect ∅ kvs).range todo.keys) :=
    ⟨kvs, todo.keys, hparse, rfl⟩
  have hparse' : parseFiles d (reduceFiles d₁ (dec k)) = some kvs := by
    rw [← hparse]
    exact parseFiles_congr fun file hfile ↦ hsame file (glob_starts (mem_reduceFiles.mp hfile).2.1)
  -- there is a line to write, so the temporary file exists and can be renamed
  have hrange : (GoMap.collect ∅ kvs).range todo.keys ≠ [] := by
    rcases List.exists_mem_of_ne_nil _ hkvs with ⟨kv, hkv⟩
    have hkey := ((GoMap.grouping_range todo.keys kvs).keys kv.1).mpr (List.mem_map_of_mem hkv)
    intro hnil
    simp [hnil] at hkey
  have hempty : (∅ : Created).keys = outNames (dec k) [] := rfl
  rcases writeResults_spec reducef ((GoMap.collect ∅ kvs).range todo.keys) (d, ∅) hempty with
    ⟨hnames, htext, hrest⟩
  have hwritten := htext hrange
  rw [htemp, Option.getD_none, List.nil_append] at hwritten
  rw [List.nil_append] at hnames
  have horder := order_outNames todo.names hnames
  rw [outNames, if_neg hrange] at horder
  rcases renameTempFiles_reduceOutName hwritten with ⟨e, hrename, -, hthere, hsame'⟩
  refine ⟨e, _, fun rest ↦ ?_, hentries, hthere, fun name hne hne' ↦ ?_⟩
  · have hrun : runReduceTask reducef todo.keys todo.names todo.task.files d = some
        ((writeResults reducef (dec k) ((GoMap.collect ∅ kvs).range todo.keys) (d, ∅)).1,
          [reduceOutName (dec k)]) := by
      cases hf : todo.task.files with
      | nil => exact absurd (hfiles.symm.trans hf) hne
      | cons first files =>
          have hmem : first ∈ reduceFiles d₁ (dec k) := by
            rw [← hfiles, hf]
            exact List.mem_cons_self
          rw [runReduceTask, (mem_reduceFiles.mp hmem).2.2]
          dsimp only
          rw [← hf, hfiles, readFiles_eq, hparse', Option.map_some, Option.map_some, horder]
    rw [runReduces, hrun]
    dsimp only
    rw [hrename]
  · rw [hsame' name hne hne', hrest name hne]

/-- One more reducer has its output in place, and no other output has changed. -/
theorem outputs_snoc {reducef : GoString → List GoString → GoString} {e : Disk}
    {done : List (Nat × List Entry)} {k : Nat} {entries : List Entry} (hk : k ∉ done.map Prod.fst)
    (hthere : e.read (reduceFileName (dec k)) = some (render reducef entries))
    (hrest : ∀ name, name ≠ reduceOutName (dec k) → name ≠ reduceFileName (dec k) →
      e.read name = d.read name)
    (hout : ∀ r text, d.read (reduceFileName r) = some text ↔
      ∃ p ∈ done, r = dec p.1 ∧ text = render reducef p.2) (r text : GoString) :
    e.read (reduceFileName r) = some text ↔
      ∃ p ∈ done ++ [(k, entries)], r = dec p.1 ∧ text = render reducef p.2 := by
  simp only [List.mem_append, List.mem_singleton, or_and_right, exists_or, exists_eq_left]
  by_cases hr : r = dec k
  · subst hr
    rw [hthere, Option.some.injEq]
    refine ⟨fun heq ↦ .inr ⟨rfl, heq.symm⟩, ?_⟩
    -- the number is new, so no earlier reducer has written this file
    rintro (⟨p, hp, heq, -⟩ | ⟨-, rfl⟩)
    · exact absurd (List.mem_map.mpr ⟨p, hp, dec_injective heq.symm⟩) hk
    · rfl
  · rw [hrest _ (reduceFileName_ne_reduceOutName _ _) (fun heq ↦ hr (reduceFileName_inj heq)), hout]
    exact ⟨.inl, fun h ↦ h.elim id fun h' ↦ absurd h'.1 hr⟩

/-- The reduce tasks one after the other, when those in `done` have run; it has the number of the
reducer and what was written for it. -/
theorem runReduces_spec (reducef : GoString → List GoString → GoString) {d₁ : Disk}
    {todo : List ReduceRun} (done : List (Nat × List Entry)) {ids : List Nat}
    (hids : todo.map (fun run => run.task.files) = ids.map (reduceFiles d₁ <| dec ·))
    (hnodup : (done.map Prod.fst ++ ids).Nodup)
    (hne : ∀ k ∈ ids, reduceFiles d₁ (dec k) ≠ [])
    (hparse : ∀ k ∈ ids, ∃ kvs, parseFiles d₁ (reduceFiles d₁ (dec k)) = some kvs ∧ kvs ≠ [])
    (hdone : ∀ e ∈ done, Entries d₁ (dec e.1) e.2)
    (hsame : ∀ name, lit "m-out-" <+: name → d.read name = d₁.read name)
    (htemp : ∀ k ∈ ids, d.read (reduceOutName (dec k)) = none)
    (hout : ∀ r text, d.read (reduceFileName r) = some text ↔
      ∃ e ∈ done, r = dec e.1 ∧ text = render reducef e.2) :
    ∃ (d₂ : Disk) (outs : List (Nat × List Entry)), runReduces reducef todo d = some d₂ ∧
      outs.map Prod.fst = done.map Prod.fst ++ ids ∧ (∀ e ∈ outs, Entries d₁ (dec e.1) e.2) ∧
      ∀ r text, d₂.read (reduceFileName r) = some text ↔
        ∃ e ∈ outs, r = dec e.1 ∧ text = render reducef e.2 := by
  -- `done` are the reducer ids whose output is there; the run moves one id over at a time
  induction todo generalizing d done ids with
  | nil =>
      have hnil : ids = [] := by simpa using hids.symm
      subst hnil
      exact ⟨d, done, rfl, by simp, hdone, hout⟩
  | cons run todo ih =>
      cases ids with
      | nil => simp at hids
      | cons k ids =>
          rw [List.map_cons, List.map_cons, List.cons.injEq] at hids
          have hk : k ∉ done.map Prod.fst ∧ k ∉ ids := by
            rw [List.nodup_append, List.nodup_cons] at hnodup
            exact ⟨fun hmem ↦ hnodup.2.2 k hmem k List.mem_cons_self rfl, hnodup.2.1.1⟩
          rcases hparse k List.mem_cons_self with ⟨kvs, hkvs, hkvs'⟩
          rcases reduceRun_spec reducef hids.1 (hne k List.mem_cons_self) hkvs hkvs'
            hsame (htemp k List.mem_cons_self) with ⟨e, entries, hstep, hentries, hthere, hrest⟩
          -- a reduce task writes neither the map output nor another id's files
          have hsame' : ∀ name, lit "m-out-" <+: name → e.read name = d₁.read name := by
            intro name hpre
            rw [hrest name, hsame name hpre]
            · exact fun heq ↦ temp_not_map (heq ▸ temp_reduceOutName (dec k)) hpre
            · exact fun heq ↦ reduceFileName_not_map (dec k) (heq ▸ hpre)
          have htemp' : ∀ k' ∈ ids, e.read (reduceOutName (dec k')) = none := by
            intro k' hk'
            rw [hrest, htemp k' (List.mem_cons_of_mem _ hk')]
            · exact fun heq ↦ hk.2 (dec_injective (reduceOutName_inj heq) ▸ hk')
            · exact fun heq ↦ reduceFileName_ne_reduceOutName _ _ heq.symm
          have hout' := outputs_snoc hk.1 hthere hrest hout
          rcases ih (done ++ [(k, entries)]) hids.2 (by simpa using hnodup)
            (fun k' hk' ↦ hne k' (List.mem_cons_of_mem _ hk'))
            (fun k' hk' ↦ hparse k' (List.mem_cons_of_mem _ hk'))
            (fun p hp ↦ (List.mem_append.mp hp).elim (hdone p)
              (fun hp ↦ List.mem_singleton.mp hp ▸ hentries))
            hsame' htemp' hout' with ⟨d₂, outs, hrun, hfst, houts, hread⟩
          exact ⟨d₂, outs, by rw [hstep, hrun], by simpa using hfst, houts, hread⟩

/-! ## The two programs -/

/-- What is written for the reducers is the groups of all pairs, if all of them survive the text of
the files. -/
theorem MapOutput.grouping (h : MapOutput mapf nReduce d₀ d work)
    (hplain : ∀ kv ∈ allPairs mapf d₀ (work.map Prod.snd), kv.Plain)
    {outs : List (Nat × List Entry)} (hnodup : (outs.map Prod.fst).Nodup)
    (hall : ∀ k, reduceFiles d (dec k) ≠ [] → k ∈ outs.map Prod.fst)
    (hentries : ∀ e ∈ outs, Entries d (dec e.1) e.2) :
    Grouping ((allPairs mapf d₀ (work.map Prod.snd)).map KeyValue.pair)
      (outs.flatMap Prod.snd) := by
  refine Grouping.flatMap (p := fun key => ihash key % nReduce) hnodup ?_ ?_
  · intro kv hkv
    rcases List.mem_map.mp hkv with ⟨kv', hkv', rfl⟩
    exact hall _ (h.reduceFiles_ne_nil.mpr ⟨kv', hkv', rfl⟩)
  · intro e he
    rcases hentries e he with ⟨kvs, it, hkvs, heq⟩
    rcases h.parse hplain e.1 with ⟨kvs', hkvs', hperm⟩
    rw [hkvs, Option.some.injEq] at hkvs'
    rw [heq]
    exact (GoMap.grouping_range it kvs).of_perm (hkvs' ▸ hperm)

/-- The `mr-out-` files of `d` are made of these records. -/
def OutputRecords (d : Disk) (records : List GoString) : Prop :=
  ∃ outs : List (GoString × List GoString), (outs.map Prod.fst).Nodup ∧
    (∀ name, lit "mr-out-" <+: name → ∀ text,
      d.read name = some text ↔ ∃ out ∈ outs, out.1 = name ∧ text = out.2.flatten) ∧
    (outs.flatMap Prod.snd).Perm records

/-- Before the first map task. -/
theorem mapOutput_nil (hclean : Job.CleanDir d₀) : MapOutput mapf nReduce d₀ d₀ [] := by
  refine ⟨by simp, by simp, by simp, ?_⟩
  intro name hpre hread
  exact absurd (hclean.start name (.inr hpre)) hread

/-- The reduce tasks in the table are those `createReduceTasks` added to the map tasks. -/
theorem filter_reduce_tasks {inputs : List GoString} {c : Coordinator}
    {rows : List (GoString × List GoString)}
    (htasks : c.tasks = (makeCoordinator inputs nReduce).tasks ++ rows.map reduceTask) :
    c.tasks.filter (·.taskType = .reduce) = rows.map reduceTask := by
  rw [htasks, List.filter_append, List.filter_eq_nil_iff.mpr, List.filter_eq_self.mpr,
    List.nil_append]
  · intro task htask
    obtain ⟨row, -, rfl⟩ := List.mem_map.mp htask
    rfl
  · intro task htask
    obtain ⟨i, f, -, rfl⟩ := CoordSys.mem_createMapTasks htask
    simp

/-- A reducer with a file has a pair to read from its files. -/
theorem MapOutput.parse_ne_nil (h : MapOutput mapf nReduce d₀ d work)
    (hplain : ∀ kv ∈ allPairs mapf d₀ (work.map Prod.snd), kv.Plain) {k : Nat}
    (hne : reduceFiles d (dec k) ≠ []) :
    ∃ kvs, parseFiles d (reduceFiles d (dec k)) = some kvs ∧ kvs ≠ [] := by
  obtain ⟨kvs, hkvs, hperm⟩ := h.parse hplain k
  obtain ⟨kv, hkv, hpart⟩ := h.reduceFiles_ne_nil.mp hne
  have hmem : kv.pair ∈ kvs := by
    rw [hperm.mem_iff, List.mem_filter, decide_eq_true_eq]
    exact ⟨List.mem_map_of_mem hkv, hpart⟩
  exact ⟨kvs, hkvs, List.ne_nil_of_mem hmem⟩

/-- Output files that hold the groups of some pairs are made of the records that the sequential
program writes for them. -/
theorem outputRecords_of_grouping {kvs : List KeyValue} {outs : List (Nat × List Entry)}
    (byKey : SortByKey) (hred : ∀ key vs vs', vs.Perm vs' → reducef key vs = reducef key vs')
    (hnodup : (outs.map Prod.fst).Nodup)
    (hread : ∀ r text, d.read (reduceFileName r) = some text ↔
      ∃ e ∈ outs, r = dec e.1 ∧ text = render reducef e.2)
    (hgroups : Grouping (kvs.map KeyValue.pair) (outs.flatMap Prod.snd)) :
    OutputRecords d ((scan (byKey.sort kvs)).map fun g => reduceRecord g.1 (reducef g.1 g.2)) := by
  refine ⟨outs.map fun e => (reduceFileName (dec e.1),
    e.2.map fun g => reduceRecord g.1 (reducef g.1 g.2)), ?_, ?_, ?_⟩
  · have hnames := hnodup.map_on (f := fun k => reduceFileName (dec k))
      fun _ _ _ _ heq ↦ dec_injective (reduceFileName_inj heq)
    rw [List.map_map] at hnames ⊢
    exact hnames
  · intro name hpre text
    obtain ⟨r, rfl⟩ := hpre
    refine (hread r text).trans ⟨?_, ?_⟩
    · rintro ⟨e, he, hr, htext⟩
      exact ⟨_, List.mem_map_of_mem he, by rw [hr]; rfl, htext.trans List.flatMap_def⟩
    · rintro ⟨out, hout, heq, htext⟩
      obtain ⟨e, he, rfl⟩ := List.mem_map.mp hout
      exact ⟨e, he, reduceFileName_inj heq.symm, htext.trans List.flatMap_def.symm⟩
  · -- both sides are the groups of the same pairs, so they agree up to their order
    rw [List.flatMap_map]
    have hsame := hgroups.map_perm (scan_grouping byKey kvs)
      (f := fun key vs => reduceRecord key (reducef key vs))
      (fun key vs vs' hvs ↦ by rw [hred key vs vs' hvs])
    rwa [List.map_flatMap] at hsame

/-- Every list of input files, map function, task ids, order of the tasks and order of the `range`
loops: the reduce tasks write the records of the sequential program.  `reducef` does not look at the
order of its values, and the pairs survive the text of the intermediate files. -/
theorem distributed_eq_sequential {inputs : List GoString} {maps : List MapRun}
    {it : Iteration GoString} {byKey : SortByKey} (hclean : Job.CleanDir d₀) (hn : 0 < nReduce)
    (hexist : ∀ f ∈ inputs, d₀.read f ≠ none)
    (hplain : ∀ kv ∈ allPairs mapf d₀ inputs, kv.Plain)
    (hred : ∀ key vs vs', vs.Perm vs' → reducef key vs = reducef key vs')
    (hmaps : (maps.map MapRun.file).Perm inputs) (hids : (maps.map MapRun.taskId).Nodup) :
    ∃ d₁ c records, runMaps mapf nReduce maps d₀ = some d₁ ∧
      (makeCoordinator inputs nReduce).createReduceTasks Disk.os it d₁ = some (c, none) ∧
      sequential mapf reducef byKey inputs d₀ = some records ∧
      ∀ reduces : List ReduceRun,
        (reduces.map ReduceRun.task).Perm (c.tasks.filter (·.taskType = .reduce)) →
        ∃ d₂, runReduces reducef reduces d₁ = some d₂ ∧ OutputRecords d₂ records := by
  have hmapExist : ∀ run ∈ maps, d₀.read run.file ≠ none := fun run hrun ↦
    hexist run.file (hmaps.mem_iff.mp (List.mem_map_of_mem hrun))
  have htemps : ∀ t r, d₀.read (mapOutName t r) = none := fun t r ↦
    hclean.start _ (.inl (temp_mapOutName t r))
  have hids' : (([] : List (Nat × GoString)).map Prod.fst ++ maps.map MapRun.taskId).Nodup := hids
  -- the map tasks leave the pairs of the inputs, in the order of the tasks
  obtain ⟨d₁, hrun, hout, hrest⟩ := runMaps_spec hclean.start hn (mapOutput_nil hclean) hids'
    hmapExist (fun run _ r ↦ htemps run.taskId r) (fun _ _ _ ↦ rfl)
  rw [List.nil_append] at hout
  have hpairs : (allPairs mapf d₀ ((maps.map fun run => (run.taskId, run.file)).map Prod.snd)).Perm
      (allPairs mapf d₀ inputs) := by
    rw [List.map_map]
    exact hmaps.flatMap_right _
  have hplain' :
      ∀ kv ∈ allPairs mapf d₀ ((maps.map fun run => (run.taskId, run.file)).map Prod.snd),
        kv.Plain := fun kv hkv ↦ hplain kv (hpairs.mem_iff.mp hkv)
  -- one reduce task for each reducer that has a file
  obtain ⟨c, ids, hcreate, htasks, hnodup, hmem⟩ :=
    hout.createReduceTasks it (makeCoordinator inputs nReduce)
  refine ⟨d₁, c, _, hrun, hcreate, by rw [sequential, readInputs_eq hexist, Option.map_some], ?_⟩
  intro reduces hreduces
  have hfilter : c.tasks.filter (·.taskType = .reduce) =
      ids.map fun k => reduceTask (dec k, reduceFiles d₁ (dec k)) := by
    rw [filter_reduce_tasks (htasks.trans (by rw [List.map_map]; rfl)), List.map_map]
    rfl
  obtain ⟨order, horder, htodo⟩ := exists_perm_of_perm_map (hfilter ▸ hreduces)
  have hfiles : reduces.map (fun run => run.task.files) =
      order.map (reduceFiles d₁ <| dec ·) := by
    have hmap := congrArg (List.map Task.files) htodo
    rwa [List.map_map, List.map_map] at hmap
  have hne : ∀ k ∈ order, reduceFiles d₁ (dec k) ≠ [] := fun k hk ↦
    (hmem k).mp (horder.mem_iff.mp hk)
  -- the map tasks have left no file with a name that a reduce task uses
  have htemp : ∀ k ∈ order, d₁.read (reduceOutName (dec k)) = none := by
    intro k _
    rw [hrest, hclean.start _ (.inl (temp_reduceOutName _))]
    · exact fun t r heq ↦ mapOutName_ne_reduceOutName t r _ heq.symm
    · exact fun t r heq ↦ mapFileName_not_temp t r (heq ▸ temp_reduceOutName (dec k))
  have hnone : ∀ r, d₁.read (reduceFileName r) = none := by
    intro r
    rw [hrest, hclean.outputs r]
    · exact fun t k heq ↦ reduceFileName_not_temp r (heq ▸ temp_mapOutName t k)
    · exact fun t k heq ↦ reduceFileName_not_map r (heq ▸ mapFileName_starts t k)
  obtain ⟨d₂, outs, hrun₂, hfst, hentries, hread⟩ := runReduces_spec reducef [] hfiles
    (by simpa using horder.nodup_iff.mpr hnodup) hne
    (fun k hk ↦ hout.parse_ne_nil hplain' (hne k hk)) (by simp) (fun _ _ ↦ rfl) htemp
    (by simp [hnone])
  rw [List.map_nil, List.nil_append] at hfst
  have houts : (outs.map Prod.fst).Nodup := hfst ▸ horder.nodup_iff.mpr hnodup
  have hgroups := (hout.grouping hplain' houts
    (fun k hk ↦ hfst ▸ horder.mem_iff.mpr ((hmem k).mpr hk)) hentries).of_perm (hpairs.map _)
  exact ⟨d₂, hrun₂, outputRecords_of_grouping byKey hred houts hread hgroups⟩

/-- The input of `twice`, mapped as task 7: the one reduce task there is writes the record of the
sequential program. -/
theorem distributed_eq_sequential_twice :
    sequential (fun _ content => [⟨content, lit "1"⟩, ⟨content, lit "2"⟩])
        (fun _ values => dec values.length) .stable [lit "a"] twiceDisk = some [lit "x 2\n"] ∧
      ∃ d₁ c d₂, runMaps (fun _ content => [⟨content, lit "1"⟩, ⟨content, lit "2"⟩]) 2
          [⟨7, lit "a", .stored _⟩] twiceDisk = some d₁ ∧
        (makeCoordinator [lit "a"] 2).createReduceTasks Disk.os (.stored _) d₁ = some (c, none) ∧
        runReduces (fun _ values => dec values.length)
          ((c.tasks.filter (·.taskType = .reduce)).map (⟨·, .stored _, .stored _⟩)) d₁ = some d₂ ∧
        OutputRecords d₂ [lit "x 2\n"] := by
  have hseq : sequential (fun _ content => [⟨content, lit "1"⟩, ⟨content, lit "2"⟩])
      (fun _ values => dec values.length) .stable [lit "a"] twiceDisk = some [lit "x 2\n"] := by
    decide
  have hplain : ∀ kv ∈ allPairs (fun _ content => [⟨content, lit "1"⟩, ⟨content, lit "2"⟩])
      twiceDisk [lit "a"], kv.Plain := by decide
  have hred : ∀ (key : GoString) (vs vs' : List GoString), vs.Perm vs' →
      (fun (_ : GoString) (values : List GoString) => dec values.length) key vs =
        (fun (_ : GoString) (values : List GoString) => dec values.length) key vs' :=
    fun _ _ _ hvs ↦ congrArg dec hvs.length_eq
  have hfiles : (([⟨7, lit "a", .stored _⟩] : List MapRun).map MapRun.file).Perm [lit "a"] :=
    .refl _
  rcases @distributed_eq_sequential _ 2 twiceDisk _ _ _ (.stored _) .stable twiceDisk_cleanDir
    (by decide) (by decide) hplain hred hfiles (by decide) with
    ⟨d₁, c, records, hmaps, hcreate, hseq', hall⟩
  rw [hseq, Option.some.injEq] at hseq'
  rcases hall ((c.tasks.filter (·.taskType = .reduce)).map (⟨·, .stored _, .stored _⟩))
    (by simp [Function.comp_def]) with ⟨d₂, hrun, hout⟩
  exact ⟨hseq, d₁, c, d₂, hmaps, hcreate, hrun, hseq' ▸ hout⟩

end Reducing

end GoLabs.MapReduce
