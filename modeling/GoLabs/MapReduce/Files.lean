import GoLabs.Reasoning.Strings
import GoLabs.Reasoning.GoMap

/-!
# The working directory

The coordinator reaches the file system through `os.Rename`, `os.Remove` and `filepath.Glob` only.
`Os` is that interface over any type of file systems, so that a result about the coordinator can
hold for every pattern of failures; `Disk` is the ordinary directory shared by the coordinator and
the workers, in which a call fails exactly when its source file is missing.  A worker writes to a
file that it has opened before; in between, the file may have been moved to another name, or may
have lost its name.
-/

open GoLabs.Reasoning

namespace GoLabs.MapReduce

/-- The calls of the coordinator to the operating system; an error is given by its text. -/
structure Os (φ : Type) where
  rename : φ → GoString → GoString → Except GoString φ
  remove : φ → GoString → Except GoString φ
  glob : φ → GoString → Except GoString (List GoString)

/-- No call returns an error. -/
structure Os.Faultless {φ : Type} (os : Os φ) : Prop where
  rename : ∀ fs old new, ∃ fs', os.rename fs old new = .ok fs'
  remove : ∀ fs name, ∃ fs', os.remove fs name = .ok fs'
  glob : ∀ fs pattern, ∃ names, os.glob fs pattern = .ok names

/-- A directory: the contents of every file by name, and for each call of `os.OpenFile` the name
that its file has now, if it still has one.  `renames` is not read by any call: it lists the renames
that succeeded. -/
structure Disk where
  files : GoMap GoString GoString
  opened : List (Option GoString)
  renames : List (GoString × GoString)
  named : ∀ name, some name ∈ opened → name ∈ files

/-- The name of an open file after a rename; a file that was replaced has none. -/
def moved (old new : GoString) (name : Option GoString) : Option GoString :=
  if name = some old then some new else if name = some new then none else name

/-- The name of an open file after a removal. -/
def unlinked (file : GoString) (name : Option GoString) : Option GoString :=
  if name = some file then none else name

theorem some_eq_moved {old new name : GoString} {x : Option GoString}
    (h : moved old new x = some name) :
    x = some old ∧ name = new ∨ name ≠ old ∧ x = some name := by
  unfold moved at h
  split at h
  · rename_i hold
    exact .inl ⟨hold, (Option.some.inj h).symm⟩
  · split at h
    · cases h
    · rename_i hold _
      exact .inr ⟨fun heq ↦ hold (heq ▸ h), h⟩

theorem some_eq_unlinked {file name : GoString} {x : Option GoString}
    (h : unlinked file x = some name) : name ≠ file ∧ x = some name := by
  unfold unlinked at h
  split at h
  · cases h
  · rename_i hfile
    exact ⟨fun heq ↦ hfile (heq ▸ h), h⟩

namespace Disk

def empty : Disk := ⟨∅, [], [], by simp⟩

/-- The directory with one more file in it. -/
def put (d : Disk) (name content : GoString) : Disk :=
  { d with
    files := d.files.insert name content
    named := fun other h ↦ (AList.mem_insert _).mpr (.inr (d.named other h)) }

/-- `os.OpenFile` with `O_APPEND|O_WRONLY|O_CREATE`.  The descriptor is the number of the call. -/
def openFile (d : Disk) (name : GoString) : Nat × Disk :=
  (d.opened.length,
    { d with
      files := d.files.insert name ((d.files.lookup name).getD [])
      opened := d.opened ++ [some name]
      named := by
        intro other h
        rw [AList.mem_insert]
        obtain hold | hnew := List.mem_append.mp h
        · exact .inr (d.named other hold)
        · exact .inl (Option.some.inj (List.mem_singleton.mp hnew)) })

/-- A write to an open file.  Nobody can read a file without a name. -/
def write (d : Disk) (fd : Nat) (text : GoString) : Disk :=
  match d.opened[fd]? with
  | some (some name) => d.put name ((d.files.lookup name).getD [] ++ text)
  | _ => d

/-- `os.OpenFile`, one write, and `Close`. -/
def append (d : Disk) (name text : GoString) : Disk :=
  (d.openFile name).2.write (d.openFile name).1 text

def rename (d : Disk) (old new : GoString) : Except GoString Disk :=
  match d.files.lookup old with
  | some content =>
      .ok {
        files := (d.files.erase old).insert new content
        opened := d.opened.map (moved old new)
        renames := d.renames ++ [(old, new)]
        named := by
          intro name h
          obtain ⟨x, hx, hmoved⟩ := List.mem_map.mp h
          rw [AList.mem_insert, AList.mem_erase]
          obtain ⟨-, rfl⟩ | ⟨hne, rfl⟩ := some_eq_moved hmoved
          · exact .inl rfl
          · exact .inr ⟨hne, d.named name hx⟩ }
  | none => .error (lit "rename " ++ old ++ lit " " ++ new ++ lit ": no such file or directory")

def remove (d : Disk) (name : GoString) : Except GoString Disk :=
  match d.files.lookup name with
  | some _ =>
      .ok { d with
        files := d.files.erase name
        opened := d.opened.map (unlinked name)
        named := by
          intro other h
          obtain ⟨x, hx, hunlinked⟩ := List.mem_map.mp h
          obtain ⟨hne, rfl⟩ := some_eq_unlinked hunlinked
          exact AList.mem_erase.mpr ⟨hne, d.named other hx⟩ }
  | none => .error (lit "remove " ++ name ++ lit ": no such file or directory")

/-- `filepath.Glob` returns the matching names in lexical order. -/
def glob (d : Disk) (pattern : GoString) : Except GoString (List GoString) :=
  .ok ((d.files.keys.filter (globMatch pattern)).insertionSort (· ≤ ·))

def os : Os Disk := ⟨rename, remove, glob⟩

def read (d : Disk) (name : GoString) : Option GoString := d.files.lookup name

/-! ## Reading after a call -/

variable {d d' : Disk} {fd : Nat} {name name' old new text : GoString}

theorem read_put {content : GoString} : (d.put name content).read name' =
    if name' = name then some content else d.read name' := by
  unfold read put
  split
  · rename_i heq
    rw [heq]
    exact AList.lookup_insert _
  · rename_i hne
    exact AList.lookup_insert_ne hne

theorem read_openFile : (d.openFile name).2.read name' =
    if name' = name then some ((d.read name).getD []) else d.read name' := by
  change (d.put name _).read name' = _
  exact read_put

/-- What is written to an open file is at the end of the file that has its name now. -/
theorem read_write : (d.write fd text).read name =
    if d.opened[fd]? = some (some name) then (d.read name).map (· ++ text) else d.read name := by
  unfold write
  split
  · rename_i other hother
    rw [read_put]
    by_cases hname : name = other
    · have hmem := d.named other (List.mem_of_getElem? hother)
      obtain ⟨content, hcontent⟩ := Option.isSome_iff_exists.mp (AList.lookup_isSome.mpr hmem)
      have hread : d.read other = some content := hcontent
      rw [if_pos hname, hname, if_pos hother, hread, hcontent]
      rfl
    · rw [if_neg hname, if_neg]
      rw [hother, Option.some.injEq, Option.some.injEq]
      exact fun heq ↦ hname heq.symm
  · rename_i hnone
    rw [if_neg (hnone name)]

theorem opened_write (d : Disk) (fd : Nat) (text : GoString) :
    (d.write fd text).opened = d.opened := by
  unfold write
  split <;> rfl

theorem renames_write (d : Disk) (fd : Nat) (text : GoString) :
    (d.write fd text).renames = d.renames := by
  unfold write
  split <;> rfl

/-- The file that has just been opened. -/
theorem opened_openFile : (d.openFile name).2.opened[(d.openFile name).1]? = some (some name) :=
  List.getElem?_concat_length

theorem read_append : (d.append name text).read name' =
    if name' = name then some ((d.read name).getD [] ++ text) else d.read name' := by
  rw [append, read_write, opened_openFile, read_openFile]
  by_cases hname : name' = name
  · simp [hname]
  · simp [hname, Ne.symm hname]

theorem rename_ok_iff : (∃ d', d.rename old new = .ok d') ↔ d.read old ≠ none := by
  unfold rename read
  cases d.files.lookup old <;> simp

theorem renamed (h : d.rename old new = .ok d') : d'.opened = d.opened.map (moved old new) ∧
    d'.renames = d.renames ++ [(old, new)] ∧ ∃ content, d.read old = some content ∧
      d'.files = (d.files.erase old).insert new content := by
  unfold rename at h
  split at h
  · rename_i content hcontent
    cases h
    exact ⟨rfl, rfl, content, hcontent, rfl⟩
  · cases h

theorem read_rename (h : d.rename old new = .ok d') :
    d'.read name = if name = new then d.read old else if name = old then none else d.read name := by
  obtain ⟨-, -, content, hold, hfiles⟩ := renamed h
  unfold read at hold ⊢
  rw [hfiles]
  by_cases hnew : name = new
  · rw [if_pos hnew, hold, hnew]
    exact AList.lookup_insert _
  · rw [if_neg hnew, AList.lookup_insert_ne hnew]
    by_cases hname : name = old
    · rw [if_pos hname, hname]
      exact AList.lookup_erase old d.files
    · rw [if_neg hname]
      exact AList.lookup_erase_ne hname

theorem remove_ok_iff : (∃ d', d.remove name = .ok d') ↔ d.read name ≠ none := by
  unfold remove read
  cases d.files.lookup name <;> simp

theorem removed (h : d.remove name = .ok d') : d'.opened = d.opened.map (unlinked name) ∧
    d'.renames = d.renames ∧ d'.files = d.files.erase name := by
  unfold remove at h
  split at h
  · cases h
    exact ⟨rfl, rfl, rfl⟩
  · cases h

theorem read_remove (h : d.remove name = .ok d') :
    d'.read name' = if name' = name then none else d.read name' := by
  unfold read
  rw [(removed h).2.2]
  split
  · rename_i heq
    rw [heq]
    exact AList.lookup_erase name d.files
  · rename_i hne
    exact AList.lookup_erase_ne hne

theorem mem_glob {pattern : GoString} {names : List GoString} (h : d.glob pattern = .ok names) :
    name ∈ names ↔ d.read name ≠ none ∧ globMatch pattern name = true := by
  simp only [glob, Except.ok.injEq] at h
  rw [← h, List.mem_insertionSort, List.mem_filter, read, Option.ne_none_iff_isSome,
    AList.lookup_isSome]
  exact Iff.rfl

theorem glob_nodup {pattern : GoString} {names : List GoString} (h : d.glob pattern = .ok names) :
    names.Nodup := by
  simp only [glob, Except.ok.injEq] at h
  rw [← h, (List.perm_insertionSort _ _).nodup_iff]
  exact d.files.keys_nodup.filter _

end Disk

end GoLabs.MapReduce
