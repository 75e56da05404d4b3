import GoLabs.MapReduce.Coordinator

/-!
# The file loops of the coordinator on a directory

What `renameTempFiles`, the removal of the files of a late attempt, and `deleteFiles` leave in the
directory, whether they end with an error or not, and what becomes of the files that are open
meanwhile.
-/

open GoLabs.Reasoning

namespace GoLabs.MapReduce

/-- The name under which `renameTempFiles` puts a file. -/
def newName (filename : GoString) : GoString := replaceAll filename (lit "temp") (lit "")

variable {d d' : Disk} {files : List GoString} {name : GoString} {err : Option GoString}

/-! ## Removing -/

theorem removeFiles_cons {file : GoString} {files : List GoString} :
    removeFiles Disk.os d (file :: files) =
      match d.remove file with
      | .ok d => removeFiles Disk.os d files
      | .error err => (d, some err) := by
  rw [removeFiles]
  cases h : d.remove file <;> simp [Disk.os, h]

theorem read_removeFiles (h : removeFiles Disk.os d files = (d', err)) (name : GoString) :
    d'.read name = d.read name ∨ name ∈ files ∧ d'.read name = none := by
  induction files generalizing d with
  | nil =>
      simp only [removeFiles, Prod.mk.injEq] at h
      exact .inl (by rw [h.1])
  | cons file files ih =>
      rw [removeFiles_cons] at h
      cases hr : d.remove file with
      | error e =>
          simp only [hr, Prod.mk.injEq] at h
          exact .inl (by rw [h.1])
      | ok e =>
          simp only [hr] at h
          rcases ih h with hsame | ⟨hmem, hnone⟩
          · rw [Disk.read_remove hr] at hsame
            split at hsame
            · rename_i heq
              exact .inr ⟨by simp [heq], hsame⟩
            · exact .inl hsame
          · exact .inr ⟨List.mem_cons_of_mem _ hmem, hnone⟩

theorem read_removeFiles_of_notMem (h : removeFiles Disk.os d files = (d', err))
    (hn : name ∉ files) : d'.read name = d.read name := by
  rcases read_removeFiles h name with hsame | ⟨hmem, -⟩
  · exact hsame
  · exact absurd hmem hn

theorem renames_removeFiles (h : removeFiles Disk.os d files = (d', err)) :
    d'.renames = d.renames := by
  induction files generalizing d with
  | nil =>
      simp only [removeFiles, Prod.mk.injEq] at h
      rw [h.1]
  | cons file files ih =>
      rw [removeFiles_cons] at h
      cases hr : d.remove file with
      | error e =>
          simp only [hr, Prod.mk.injEq] at h
          rw [h.1]
      | ok e =>
          simp only [hr] at h
          rw [ih h, (Disk.removed hr).2.1]

/-- Removing files that all exist leaves none of them. -/
theorem removeFiles_all (hnodup : files.Nodup) (hall : ∀ f ∈ files, d.read f ≠ none) :
    ∃ d', removeFiles Disk.os d files = (d', none) ∧ ∀ f ∈ files, d'.read f = none := by
  induction files generalizing d with
  | nil => exact ⟨d, rfl, by simp⟩
  | cons file files ih =>
      rw [List.nodup_cons] at hnodup
      obtain ⟨d₁, hok⟩ : ∃ d₁, d.remove file = .ok d₁ :=
        Disk.remove_ok_iff.mpr (hall file List.mem_cons_self)
      rw [removeFiles_cons]
      simp only [hok]
      rcases ih hnodup.2 (fun f hf ↦ by
        have hne : f ≠ file := fun heq ↦ hnodup.1 (heq ▸ hf)
        rw [Disk.read_remove hok, if_neg hne]
        exact hall f (List.mem_cons_of_mem _ hf)) with ⟨e, he, hnone⟩
      refine ⟨e, he, ?_⟩
      intro f hf
      rcases List.mem_cons.mp hf with rfl | hf
      · rw [read_removeFiles_of_notMem he hnodup.1, Disk.read_remove hok, if_pos rfl]
      · exact hnone f hf

/-- `Done` may take away files that match its pattern, and nothing else. -/
theorem read_deleteFiles (d : Disk) (pattern name : GoString) :
    (Coordinator.deleteFiles Disk.os d pattern).read name = d.read name ∨
      globMatch pattern name = true ∧
        (Coordinator.deleteFiles Disk.os d pattern).read name = none := by
  unfold Coordinator.deleteFiles
  cases hg : Disk.os.glob d pattern with
  | error e => exact .inl rfl
  | ok names =>
      rcases read_removeFiles (show removeFiles Disk.os d names = _ from rfl) name with
        hsame | ⟨hmem, hnone⟩
      · exact .inl hsame
      · exact .inr ⟨((Disk.mem_glob hg).mp hmem).2, hnone⟩

/-! ## Renaming -/

theorem renameTempFiles_cons {file : GoString} {files : List GoString} :
    renameTempFiles Disk.os d (file :: files) =
      match d.rename file (newName file) with
      | .ok d => renameTempFiles Disk.os d files
      | .error err => (d, some (lit "failed to rename file " ++ file ++ lit " to " ++
          newName file ++ lit ": " ++ err)) := by
  rw [renameTempFiles]
  cases h : d.rename file (newName file) <;> simp_all [Disk.os, newName]

theorem read_renameTempFiles_of_notMem (h : renameTempFiles Disk.os d files = (d', err))
    (hn : name ∉ files) (hnew : name ∉ files.map newName) : d'.read name = d.read name := by
  induction files generalizing d with
  | nil =>
      simp only [renameTempFiles, Prod.mk.injEq] at h
      rw [h.1]
  | cons file files ih =>
      rw [List.mem_cons, not_or] at hn
      rw [List.map_cons, List.mem_cons, not_or] at hnew
      rw [renameTempFiles_cons] at h
      cases hr : d.rename file (newName file) with
      | error e =>
          simp only [hr, Prod.mk.injEq] at h
          rw [h.1]
      | ok e =>
          simp only [hr] at h
          rw [ih h hn.2 hnew.2, Disk.read_rename hr, if_neg hnew.1, if_neg hn.1]

/-- Renaming files that all exist moves each of them. -/
theorem renameTempFiles_all (hnodup : files.Nodup) (hall : ∀ f ∈ files, d.read f ≠ none)
    (hapart : ∀ f ∈ files, newName f ∉ files)
    (hinj : ∀ f ∈ files, ∀ g ∈ files, newName f = newName g → f = g) :
    ∃ d', renameTempFiles Disk.os d files = (d', none) ∧
      ∀ f ∈ files, d'.read f = none ∧ d'.read (newName f) = d.read f := by
  induction files generalizing d with
  | nil => exact ⟨d, rfl, by simp⟩
  | cons file files ih =>
      rw [List.nodup_cons] at hnodup
      obtain ⟨e, he⟩ : ∃ e, d.rename file (newName file) = .ok e :=
        Disk.rename_ok_iff.mpr (hall file List.mem_cons_self)
      have hne : ∀ f ∈ files, f ≠ newName file ∧ f ≠ file := fun f hf ↦
        ⟨fun heq ↦ hapart file List.mem_cons_self (heq ▸ List.mem_cons_of_mem _ hf),
          fun heq ↦ hnodup.1 (heq ▸ hf)⟩
      -- the names are apart, so the first rename leaves the other files alone
      have hkeep : ∀ f ∈ files, e.read f = d.read f := by
        intro f hf
        rw [Disk.read_rename he, if_neg (hne f hf).1, if_neg (hne f hf).2]
      rw [renameTempFiles_cons]
      simp only [he]
      rcases ih hnodup.2 (fun f hf ↦ by
          rw [hkeep f hf]; exact hall f (List.mem_cons_of_mem _ hf))
        (fun f hf hmem ↦ hapart f (List.mem_cons_of_mem _ hf) (List.mem_cons_of_mem _ hmem))
        (fun f hf g hg ↦ hinj f (List.mem_cons_of_mem _ hf) g (List.mem_cons_of_mem _ hg))
        with ⟨d', hd', hmoved⟩
      refine ⟨d', hd', ?_⟩
      intro f hf
      rcases List.mem_cons.mp hf with rfl | hf
      · -- and the later ones leave its result alone
        have hself : newName f ≠ f := fun heq ↦
          hapart f List.mem_cons_self (by rw [heq]; exact List.mem_cons_self)
        have hfresh : f ∉ files.map newName := by
          intro hmem
          rcases List.mem_map.mp hmem with ⟨g, hg, hgf⟩
          exact hapart g (List.mem_cons_of_mem _ hg) (hgf ▸ List.mem_cons_self)
        have hfresh' : newName f ∉ files.map newName := by
          intro hmem
          rcases List.mem_map.mp hmem with ⟨g, hg, hgf⟩
          have hsame := hinj g (List.mem_cons_of_mem _ hg) f List.mem_cons_self hgf
          exact hnodup.1 (hsame ▸ hg)
        have hfresh'' : newName f ∉ files := fun hmem ↦
          hapart f List.mem_cons_self (List.mem_cons_of_mem _ hmem)
        constructor
        · rw [read_renameTempFiles_of_notMem hd' hnodup.1 hfresh, Disk.read_rename he,
            if_neg (Ne.symm hself), if_pos rfl]
        · rw [read_renameTempFiles_of_notMem hd' hfresh'' hfresh', Disk.read_rename he, if_pos rfl]
      · rw [(hmoved f hf).2, hkeep f hf]
        exact ⟨(hmoved f hf).1, rfl⟩

/-- The renames that succeeded are on record. -/
theorem renames_renameTempFiles (h : renameTempFiles Disk.os d files = (d', err)) :
    (∀ e ∈ d.renames, e ∈ d'.renames) ∧
      (err = none → ∀ f ∈ files, (f, newName f) ∈ d'.renames) := by
  induction files generalizing d with
  | nil =>
      simp only [renameTempFiles, Prod.mk.injEq] at h
      rw [h.1]
      exact ⟨fun _ he ↦ he, by simp⟩
  | cons file files ih =>
      rw [renameTempFiles_cons] at h
      cases hr : d.rename file (newName file) with
      | error e =>
          simp only [hr, Prod.mk.injEq] at h
          rw [← h.1]
          refine ⟨fun _ he ↦ he, fun herr ↦ ?_⟩
          rw [← h.2] at herr
          simp at herr
      | ok e =>
          simp only [hr] at h
          rcases ih h with ⟨hkeep, hnew⟩
          rw [(Disk.renamed hr).2.1] at hkeep
          refine ⟨fun p hp ↦ hkeep p (List.mem_append_left _ hp), ?_⟩
          intro herr f hf
          rcases List.mem_cons.mp hf with rfl | hf
          · exact hkeep _ (List.mem_append_right _ (by simp))
          · exact hnew herr f hf

theorem renames_deleteFiles (d : Disk) (pattern : GoString) :
    (Coordinator.deleteFiles Disk.os d pattern).renames = d.renames := by
  unfold Coordinator.deleteFiles
  split
  · rfl
  · exact renames_removeFiles rfl

/-! ## Open files -/

theorem moved_of_ne {old new : GoString} (hold : name ≠ old) (hnew : name ≠ new) :
    moved old new (some name) = some name := by
  rw [moved, if_neg (by simpa using hold), if_neg (by simpa using hnew)]

theorem unlinked_of_ne {file : GoString} (hne : name ≠ file) :
    unlinked file (some name) = some name := by
  rw [unlinked, if_neg (by simpa using hne)]

/-- Every open file has gone through some of the changes, and all through the same. -/
def Disk.Through (changes : (Option GoString → Option GoString) → Prop) (d d' : Disk) : Prop :=
  ∃ g, d'.opened = d.opened.map g ∧ ∀ P : Option GoString → Prop,
    (∀ f, changes f → ∀ x, P x → P (f x)) → ∀ x, P x → P (g x)

namespace Disk.Through

variable {changes changes' : (Option GoString → Option GoString) → Prop} {fd : Nat}

theorem same (h : d'.opened = d.opened) : Through changes d d' :=
  ⟨id, by rw [h, List.map_id], fun _ _ _ hx ↦ hx⟩

theorem head {f : Option GoString → Option GoString} {e : Disk} (hf : changes f)
    (he : e.opened = d.opened.map f) (h : Through changes e d') : Through changes d d' := by
  obtain ⟨g, hg, hkeep⟩ := h
  refine ⟨g ∘ f, by rw [hg, he, List.map_map], fun P hP x hx ↦ ?_⟩
  exact hkeep P hP _ (hP f hf x hx)

theorem mono (h : Through changes d d') (himp : ∀ f, changes f → changes' f) :
    Through changes' d d' := by
  obtain ⟨g, hg, hkeep⟩ := h
  exact ⟨g, hg, fun P hP ↦ hkeep P fun f hf ↦ hP f (himp f hf)⟩

/-- What every change keeps. -/
theorem keeps {P : Option GoString → Prop} (h : Through changes d d')
    (hP : ∀ f, changes f → ∀ x, P x → P (f x)) {x : Option GoString}
    (hx : d.opened[fd]? = some x) (hPx : P x) : ∃ y, d'.opened[fd]? = some y ∧ P y := by
  obtain ⟨g, hg, hkeep⟩ := h
  refine ⟨g x, ?_, hkeep P hP x hPx⟩
  rw [hg, List.getElem?_map, hx, Option.map_some]

/-- A file with a name that no change is about. -/
theorem stays (h : Through changes d d') (hkeep : ∀ f, changes f → f (some name) = some name)
    (hx : d.opened[fd]? = some (some name)) : d'.opened[fd]? = some (some name) := by
  obtain ⟨y, hy, rfl⟩ := h.keeps (P := (· = some name))
    (fun f hf x hx ↦ hx ▸ hkeep f hf) hx rfl
  exact hy

end Disk.Through

theorem through_removeFiles (h : removeFiles Disk.os d files = (d', err)) :
    Disk.Through (fun f => ∃ file ∈ files, f = unlinked file) d d' := by
  induction files generalizing d with
  | nil =>
      simp only [removeFiles, Prod.mk.injEq] at h
      exact .same (by rw [h.1])
  | cons file files ih =>
      rw [removeFiles_cons] at h
      cases hr : d.remove file with
      | error e =>
          simp only [hr, Prod.mk.injEq] at h
          exact .same (by rw [h.1])
      | ok e =>
          simp only [hr] at h
          refine .head ⟨file, List.mem_cons_self, rfl⟩ (Disk.removed hr).1 ((ih h).mono ?_)
          rintro f ⟨file', hmem, rfl⟩
          exact ⟨file', List.mem_cons_of_mem _ hmem, rfl⟩

theorem through_renameTempFiles (h : renameTempFiles Disk.os d files = (d', err)) :
    Disk.Through (fun f => ∃ file ∈ files, f = moved file (newName file)) d d' := by
  induction files generalizing d with
  | nil =>
      simp only [renameTempFiles, Prod.mk.injEq] at h
      exact .same (by rw [h.1])
  | cons file files ih =>
      rw [renameTempFiles_cons] at h
      cases hr : d.rename file (newName file) with
      | error e =>
          simp only [hr, Prod.mk.injEq] at h
          exact .same (by rw [h.1])
      | ok e =>
          simp only [hr] at h
          refine .head ⟨file, List.mem_cons_self, rfl⟩ (Disk.renamed hr).1 ((ih h).mono ?_)
          rintro f ⟨file', hmem, rfl⟩
          exact ⟨file', List.mem_cons_of_mem _ hmem, rfl⟩

theorem through_deleteFiles (d : Disk) (pattern : GoString) :
    Disk.Through (fun f => ∃ file, globMatch pattern file = true ∧ f = unlinked file) d
      (Coordinator.deleteFiles Disk.os d pattern) := by
  unfold Coordinator.deleteFiles
  cases hg : Disk.os.glob d pattern with
  | error e => exact .same rfl
  | ok names =>
      refine (through_removeFiles (show removeFiles Disk.os d names = _ from rfl)).mono ?_
      rintro f ⟨file, hmem, rfl⟩
      exact ⟨file, ((Disk.mem_glob hg).mp hmem).2, rfl⟩

end GoLabs.MapReduce
