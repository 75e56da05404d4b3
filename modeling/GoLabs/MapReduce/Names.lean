import GoLabs.MapReduce.Worker

/-!
# The names of the intermediate and output files

A worker writes `tempm-out-<task-id>-<reducer-id>` and `tempmr-out-<reducer-id>`; `renameTempFiles`
takes the `temp` off, and `createReduceTasks` finds the reducer id in what is left.
-/

open GoLabs.Reasoning

namespace GoLabs.MapReduce

/-- `m-out-<task-id>-<reducer-id>`. -/
def mapFileName (taskId r : Nat) : GoString := lit "m-out-" ++ dec taskId ++ lit "-" ++ dec r

/-- `mr-out-<reducer-id>`. -/
def reduceFileName (reduceId : GoString) : GoString := lit "mr-out-" ++ reduceId

theorem mapOutName_eq (t r : Nat) : mapOutName t r = lit "temp" ++ mapFileName t r := by
  have htemp : lit "tempm-out-" = lit "temp" ++ lit "m-out-" := by decide
  simp [mapOutName, mapFileName, htemp]

theorem reduceOutName_eq (r : GoString) : reduceOutName r = lit "temp" ++ reduceFileName r := by
  have htemp : lit "tempmr-out-" = lit "temp" ++ lit "mr-out-" := by decide
  simp [reduceOutName, reduceFileName, htemp]

/-- The letter `e` is in `temp` only. -/
theorem temp_not_inside {s : GoString} (h : 101 ∉ s) : ¬ lit "temp" <:+: s :=
  fun hin ↦ h (hin.subset (by decide))

theorem not_mem_dec {n : Nat} {b : UInt8} (hb : b < 48 ∨ 57 < b) : b ∉ dec n := by
  intro hmem
  rcases mem_dec hmem with ⟨hlo, hhi⟩
  rcases hb with hlt | hgt
  · exact absurd (UInt8.lt_of_lt_of_le hlt hlo) (UInt8.lt_irrefl b)
  · exact absurd (UInt8.lt_of_lt_of_le hgt hhi) (UInt8.lt_irrefl 57)

theorem not_mem_mapFileName (t r : Nat) : 101 ∉ mapFileName t r := by
  have hdec : ∀ n, (101 : UInt8) ∉ dec n := fun n ↦ not_mem_dec (.inr (by decide))
  simp only [mapFileName, List.mem_append, not_or]
  exact ⟨⟨⟨by decide, hdec t⟩, by decide⟩, hdec r⟩

theorem rename_mapOutName (t r : Nat) :
    replaceAll (mapOutName t r) (lit "temp") (lit "") = mapFileName t r := by
  rw [mapOutName_eq]
  exact replaceAll_starts (by decide) (temp_not_inside (not_mem_mapFileName t r))

theorem rename_reduceOutName {r : GoString} (hr : 101 ∉ r) :
    replaceAll (reduceOutName r) (lit "temp") (lit "") = reduceFileName r := by
  rw [reduceOutName_eq]
  refine replaceAll_starts (by decide) (temp_not_inside ?_)
  rw [reduceFileName, List.mem_append, not_or]
  exact ⟨by decide, hr⟩

/-! ## The parts of a name -/

theorem splitOn_mapFileName (t r : Nat) :
    (mapFileName t r).splitOn 45 = [lit "m", lit "out", dec t, dec r] := by
  have hdec : ∀ n, (45 : UInt8) ∉ dec n := fun n ↦ not_mem_dec (.inl (by decide))
  have hjoin : mapFileName t r = [45].intercalate [lit "m", lit "out", dec t, dec r] := by
    have hlit : lit "m-out-" = lit "m" ++ [45] ++ lit "out" ++ [45] := by decide
    have hdash : lit "-" = [45] := by decide
    simp [mapFileName, List.intercalate, hlit, hdash]
  rw [hjoin, List.splitOn_intercalate]
  · intro l hl
    simp only [List.mem_cons, List.not_mem_nil, or_false] at hl
    rcases hl with rfl | rfl | rfl | rfl
    · decide
    · decide
    · exact hdec t
    · exact hdec r
  · simp

theorem reduceIdOf_mapFileName (t r : Nat) : reduceIdOf (mapFileName t r) = some (dec r) := by
  have hdash : lit "-" = [45] := by decide
  rw [reduceIdOf, hdash, split_singleton, splitOn_mapFileName]
  rfl

theorem mapFileName_inj {t t' r r' : Nat} (h : mapFileName t r = mapFileName t' r') :
    t = t' ∧ r = r' := by
  have hsplit := congrArg (List.splitOn 45) h
  rw [splitOn_mapFileName, splitOn_mapFileName] at hsplit
  simp only [List.cons.injEq, and_true, true_and] at hsplit
  exact ⟨dec_injective hsplit.1, dec_injective hsplit.2⟩

theorem mapOutName_inj {t t' r r' : Nat} (h : mapOutName t r = mapOutName t' r') :
    t = t' ∧ r = r' := by
  rw [mapOutName_eq, mapOutName_eq] at h
  exact mapFileName_inj (List.append_cancel_left h)

theorem glob_mapFileName (t r : Nat) : globMatch (lit "m-out-*-*") (mapFileName t r) = true := by
  have hslash : ∀ n, (47 : UInt8) ∉ dec n := fun n ↦ not_mem_dec (.inl (by decide))
  have hpattern : lit "m-out-*-*" = lit "m-out-" ++ (42 :: ([45] ++ [42])) := by decide
  rw [hpattern, globMatch_append (by decide)]
  refine ⟨dec t ++ lit "-" ++ dec r, by simp [mapFileName], ?_⟩
  rw [globMatch_star]
  refine ⟨dec t, lit "-" ++ dec r, by simp, hslash t, ?_⟩
  rw [globMatch_append (by decide)]
  refine ⟨dec r, rfl, ?_⟩
  rw [globMatch_star]
  exact ⟨dec r, [], by simp, hslash r, rfl⟩

theorem glob_starts {name : GoString} (h : globMatch (lit "m-out-*-*") name = true) :
    lit "m-out-" <+: name := by
  have hpattern : lit "m-out-*-*" = lit "m-out-" ++ (42 :: ([45] ++ [42])) := by decide
  rw [hpattern, globMatch_append (by decide)] at h
  rcases h with ⟨t, rfl, -⟩
  exact List.prefix_append _ _

/-! ## Names apart from each other -/

/-- The names the job keeps for itself during the map phase. -/
def Reserved (name : GoString) : Prop := lit "temp" <+: name ∨ lit "m-out-" <+: name

theorem temp_mapOutName (t r : Nat) : lit "temp" <+: mapOutName t r :=
  ⟨mapFileName t r, (mapOutName_eq t r).symm⟩

theorem temp_reduceOutName (r : GoString) : lit "temp" <+: reduceOutName r :=
  ⟨reduceFileName r, (reduceOutName_eq r).symm⟩

theorem mapFileName_starts (t r : Nat) : lit "m-out-" <+: mapFileName t r :=
  ⟨dec t ++ lit "-" ++ dec r, by simp [mapFileName]⟩

/-- Two literals of which neither continues the other have no common continuation. -/
theorem prefix_disjoint {u v name : GoString} (h : ¬ u <+: v ∧ ¬ v <+: u) (hu : u <+: name) :
    ¬ v <+: name := by
  intro hv
  rcases List.prefix_or_prefix_of_prefix hu hv with huv | hvu
  · exact h.1 huv
  · exact h.2 hvu

theorem mapFileName_not_temp (t r : Nat) : ¬ lit "temp" <+: mapFileName t r :=
  prefix_disjoint (by decide) (mapFileName_starts t r)

theorem reduceFileName_not_temp (r : GoString) : ¬ lit "temp" <+: reduceFileName r :=
  prefix_disjoint (u := lit "mr-out-") (by decide) ⟨r, rfl⟩

theorem reduceFileName_not_map (r : GoString) : ¬ lit "m-out-" <+: reduceFileName r :=
  prefix_disjoint (u := lit "mr-out-") (by decide) ⟨r, rfl⟩

theorem temp_not_map {name : GoString} (h : lit "temp" <+: name) : ¬ lit "m-out-" <+: name :=
  prefix_disjoint (by decide) h

theorem mapOutName_ne_reduceOutName (t r : Nat) (reduceId : GoString) :
    mapOutName t r ≠ reduceOutName reduceId := by
  intro heq
  have hpre : lit "tempm-" <+: mapOutName t r := by
    have hlit : lit "tempm-out-" = lit "tempm-" ++ lit "out-" := by decide
    exact ⟨lit "out-" ++ dec t ++ lit "-" ++ dec r, by simp [mapOutName, hlit]⟩
  have hpre' : lit "tempmr-" <+: reduceOutName reduceId := by
    have hlit : lit "tempmr-out-" = lit "tempmr-" ++ lit "out-" := by decide
    exact ⟨lit "out-" ++ reduceId, by simp [reduceOutName, hlit]⟩
  rw [heq] at hpre
  exact prefix_disjoint (by decide) hpre hpre'

theorem reduceOutName_inj {r r' : GoString} (h : reduceOutName r = reduceOutName r') : r = r' :=
  List.append_cancel_left h

theorem reduceFileName_inj {r r' : GoString} (h : reduceFileName r = reduceFileName r') : r = r' :=
  List.append_cancel_left h

/-- What `Done` deletes. -/
theorem delete_pattern {name : GoString} (h : globMatch (lit "m-out*") name = true) :
    lit "m-out" <+: name := by
  have hpattern : lit "m-out*" = lit "m-out" ++ [42] := by decide
  rw [hpattern, globMatch_append (by decide)] at h
  rcases h with ⟨t, rfl, -⟩
  exact List.prefix_append _ _

/-! ## The five places that use the names -/

/-- `createReduceTasks` and `deleteFiles` look for names that start with `m-out`. -/
theorem not_globbed {name pattern : GoString} (hname : ¬ lit "m-out" <+: name)
    (hpattern : pattern ∈ [lit "m-out-*-*", lit "m-out*"]) : globMatch pattern name = false := by
  rw [Bool.eq_false_iff]
  intro hmatch
  simp only [List.mem_cons, List.not_mem_nil, or_false] at hpattern
  obtain rfl | rfl := hpattern
  · have hdash : lit "m-out" <+: lit "m-out-" := by decide
    exact hname (hdash.trans (glob_starts hmatch))
  · exact hname (delete_pattern hmatch)

/-- The name that `runMapTask` writes to is renamed to one that `createReduceTasks` finds, and both
it and `runReduceTask` read the reducer id off it.  Neither name is used for two partitions.  Files
that have not been renamed, and the output files, are never taken for map output or deleted. -/
theorem file_names_agree (t r t' r' : Nat) :
    (globMatch (lit "m-out-*-*") (replaceAll (mapOutName t r) (lit "temp") (lit "")) = true ∧
      reduceIdOf (replaceAll (mapOutName t r) (lit "temp") (lit "")) = some (dec r)) ∧
    (mapOutName t r = mapOutName t' r' ↔ t = t' ∧ r = r') ∧
    (replaceAll (mapOutName t r) (lit "temp") (lit "") =
      replaceAll (mapOutName t' r') (lit "temp") (lit "") ↔ t = t' ∧ r = r') ∧
    ∀ name ∈ [mapOutName t r, reduceOutName (dec r), reduceFileName (dec r)],
      ∀ pattern ∈ [lit "m-out-*-*", lit "m-out*"], globMatch pattern name = false := by
  rw [rename_mapOutName, rename_mapOutName]
  refine ⟨⟨glob_mapFileName t r, reduceIdOf_mapFileName t r⟩, ⟨mapOutName_inj, ?_⟩,
    ⟨mapFileName_inj, ?_⟩, ?_⟩
  · rintro ⟨rfl, rfl⟩
    rfl
  · rintro ⟨rfl, rfl⟩
    rfl
  · intro name hname pattern hpattern
    refine not_globbed ?_ hpattern
    simp only [List.mem_cons, List.not_mem_nil, or_false] at hname
    obtain rfl | rfl | rfl := hname
    · exact prefix_disjoint (by decide) (temp_mapOutName t r)
    · exact prefix_disjoint (by decide) (temp_reduceOutName (dec r))
    · exact prefix_disjoint (u := lit "mr-out-") (by decide) ⟨dec r, rfl⟩

end GoLabs.MapReduce
