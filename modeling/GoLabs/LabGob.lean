import Mathlib.Algebra.BigOperators.Group.Finset.Basic
import Mathlib.Data.Fintype.Card
import Mathlib.Data.Set.Finite.Basic
import GoLabs.Reasoning.GoString
import GoLabs.Reasoning.Search

/-!
# The capitalization check

`checkType` of `labgob/labgob.go` goes through a type and all types it is made of, and complains
about struct fields that `encoding/gob` would not send.  Types may be recursive; the map `checked`
of the types that were seen keeps the search from running in circles, and is shared by all calls.
-/

open GoLabs.Reasoning

namespace GoLabs.LabGob

/-! ## The first rune of a name -/

/-- `utf8.RuneError`. -/
def runeError : Nat := 0xFFFD

/-- The length of an encoding that starts with this byte, and the bounds of its second byte. -/
def firstByte (b : UInt8) : Option (Nat × UInt8 × UInt8) :=
  if 0xC2 ≤ b ∧ b ≤ 0xDF then some (2, 0x80, 0xBF)
  else if b = 0xE0 then some (3, 0xA0, 0xBF)
  else if b = 0xED then some (3, 0x80, 0x9F)
  else if 0xE1 ≤ b ∧ b ≤ 0xEF then some (3, 0x80, 0xBF)
  else if b = 0xF0 then some (4, 0x90, 0xBF)
  else if 0xF1 ≤ b ∧ b ≤ 0xF3 then some (4, 0x80, 0xBF)
  else if b = 0xF4 then some (4, 0x80, 0x8F)
  else none

def within (lo hi b : UInt8) : Bool := lo ≤ b && b ≤ hi

/-- The bits of a continuation byte. -/
def payload (b : UInt8) : Nat := b.toNat % 64

/-- `utf8.DecodeRuneInString`, without the width of the rune. -/
def decodeRune : GoString → Nat
  | [] => runeError
  | b₀ :: s =>
      if b₀ < 0x80 then b₀.toNat
      else
        match firstByte b₀, s with
        | some (2, lo, hi), b₁ :: _ =>
            if within lo hi b₁ then b₀.toNat % 32 * 64 + payload b₁ else runeError
        | some (3, lo, hi), b₁ :: b₂ :: _ =>
            if within lo hi b₁ && within 0x80 0xBF b₂ then
              (b₀.toNat % 16 * 64 + payload b₁) * 64 + payload b₂
            else runeError
        | some (4, lo, hi), b₁ :: b₂ :: b₃ :: _ =>
            if within lo hi b₁ && within 0x80 0xBF b₂ && within 0x80 0xBF b₃ then
              ((b₀.toNat % 8 * 64 + payload b₁) * 64 + payload b₂) * 64 + payload b₃
            else runeError
        | _, _ => runeError

example : [lit "Yes", lit "no", lit "Élan", lit "日", []].map decodeRune =
    [0x59, 0x6E, 0xC9, 0x65E5, runeError] := by decide

/-! ## Types -/

structure Field (T : Type) where
  name : GoString
  type : T

/-- What `checkType` asks `reflect` about a type: its kind, and what it is made of. -/
inductive Shape (T : Type) where
  | struct (fields : List (Field T))
  | slice (elem : T)
  | array (elem : T)
  | ptr (elem : T)
  | map (key elem : T)
  /-- All other kinds. -/
  | other

/-- The types that a type is made of, in the order in which they are checked. -/
def Shape.parts {T : Type} : Shape T → List T
  | .struct fields => fields.map Field.type
  | .slice elem => [elem]
  | .array elem => [elem]
  | .ptr elem => [elem]
  | .map key elem => [elem, key]
  | .other => []

/-- The package variables. -/
structure Memo (T : Type) where
  /-- `none` is the nil map. -/
  checked : Option (T → Bool)
  errorCount : Nat

namespace Memo

variable {T : Type}

/-- `checked[t]`. -/
def isChecked (m : Memo T) (t : T) : Bool :=
  match m.checked with
  | some checked => checked t
  | none => false

/-- `checked[t] = true`, in a map that is made if there is none. -/
def mark [DecidableEq T] (m : Memo T) (t : T) : Memo T :=
  { m with checked := some (Function.update m.isChecked t true) }

end Memo

section CheckType

variable {T : Type} [DecidableEq T] (shape : T → Shape T) (isUpper : Nat → Bool)

/-- The check of one field's name. -/
def checkName (m : Memo T) (f : Field T) : Memo T :=
  if isUpper (decodeRune f.name) then m else { m with errorCount := m.errorCount + 1 }

/-- The `switch` over the kind.  `check` is the recursive call. -/
def checkParts (check : T → Memo T → Option (Memo T)) (m : Memo T) : Shape T → Option (Memo T)
  | .struct fields => fields.foldlM (fun m f => check f.type (checkName isUpper m f)) m
  | .slice elem => check elem m
  | .array elem => check elem m
  | .ptr elem => check elem m
  | .map key elem => do
      let m ← check elem m
      check key m
  | .other => some m

/-- `isUpper` is `unicode.IsUpper`.  The recursion gives up at the depth `fuel`. -/
def checkType : Nat → T → Memo T → Option (Memo T)
  | 0, _, _ => none
  | fuel + 1, t, m =>
      -- only complain once, and avoid recursion
      if m.isChecked t then some m
      else checkParts isUpper (fun t m => checkType fuel t m) (m.mark t) (shape t)

/-- Calls of `checkType`, one after another. -/
def checkTypes (fuel : Nat) (ts : List T) (m : Memo T) : Option (Memo T) :=
  ts.foldlM (fun m t => checkType shape isUpper fuel t m) m

/-- The fields of a struct with a name that does not start with an upper-case letter. -/
def lowerCase : Shape T → Nat
  | .struct fields => fields.countP fun f => ! isUpper (decodeRune f.name)
  | _ => 0

end CheckType

/-! ## One call -/

section Specification

variable {T : Type}

theorem errorCount_checkName (isUpper : Nat → Bool) (m : Memo T) (f : Field T) :
    (checkName isUpper m f).errorCount =
      m.errorCount + [f].countP fun f => ! isUpper (decodeRune f.name) := by
  unfold checkName
  split <;> simp_all

variable [Fintype T] {shape : T → Shape T} {isUpper : Nat → Bool}

def Memo.marks (m : Memo T) : Finset T := Finset.univ.filter fun t => m.isChecked t = true

theorem Memo.mem_marks {m : Memo T} {t : T} : t ∈ m.marks ↔ m.isChecked t = true := by
  simp [Memo.marks]

theorem marks_checkName (isUpper : Nat → Bool) (m : Memo T) (f : Field T) :
    (checkName isUpper m f).marks = m.marks := by
  unfold checkName
  split <;> rfl

/-- The fields to complain about in the types that were seen. -/
def complaints (shape : T → Shape T) (isUpper : Nat → Bool) (m : Memo T) : Nat :=
  ∑ t ∈ m.marks, lowerCase isUpper (shape t)

/-- Calls for `ts` have searched the types, and have complained about the new ones; `more` is the
number of other complaints on the way. -/
structure Checked (shape : T → Shape T) (isUpper : Nat → Bool) (ts : List T) (more : Nat)
    (m m' : Memo T) : Prop where
  search : Searched (fun t => (shape t).parts) ts m.marks m'.marks
  count : m'.errorCount + complaints shape isUpper m =
    m.errorCount + more + complaints shape isUpper m'

variable {m m' m'' : Memo T} {ts ts' : List T} {t : T} {more more' n : Nat}

theorem Checked.nil : Checked shape isUpper [] 0 m m := ⟨.nil, by omega⟩

theorem Checked.append (h : Checked shape isUpper ts more m m')
    (h' : Checked shape isUpper ts' more' m' m'') :
    Checked shape isUpper (ts ++ ts') (more + more') m m'' := by
  have hcount := h.count
  have hcount' := h'.count
  exact ⟨h.search.append h'.search, by omega⟩

theorem checked_checkName (shape : T → Shape T) (isUpper : Nat → Bool) (m : Memo T) (f : Field T) :
    Checked shape isUpper [] ([f].countP fun f => ! isUpper (decodeRune f.name)) m
      (checkName isUpper m f) := by
  have hsame := marks_checkName isUpper m f
  refine ⟨by rw [hsame]; exact .nil, ?_⟩
  unfold complaints
  rw [hsame, errorCount_checkName]

variable [DecidableEq T]

theorem Memo.marks_mark (m : Memo T) (t : T) : (m.mark t).marks = insert t m.marks := by
  ext t'
  rw [Finset.mem_insert, Memo.mem_marks, Memo.mem_marks]
  change Function.update m.isChecked t true t' = true ↔ _
  by_cases heq : t' = t
  · simp [heq]
  · simp [heq]

/-- The complaints of a type are those about its own fields. -/
theorem Checked.node (hnew : m.isChecked t = false)
    (h : Checked shape isUpper (shape t).parts (lowerCase isUpper (shape t)) (m.mark t) m') :
    Checked shape isUpper [t] 0 m m' := by
  have hnot : t ∉ m.marks := by simp [Memo.mem_marks, hnew]
  have hsearch := h.search
  rw [Memo.marks_mark] at hsearch
  refine ⟨hsearch.node, ?_⟩
  have hmark : complaints shape isUpper (m.mark t) =
      lowerCase isUpper (shape t) + complaints shape isUpper m := by
    unfold complaints
    rw [Memo.marks_mark, Finset.sum_insert hnot]
  have hcount := h.count
  rw [hmark] at hcount
  change m'.errorCount + _ = m.errorCount + _ + _ at hcount
  omega

/-- The number of types that have not been seen bounds the depth of the recursion. -/
def Bounded (m : Memo T) (n : Nat) : Prop := (Finset.univ \ m.marks).card ≤ n

theorem Bounded.later (h : Bounded m n) (hs : Checked shape isUpper ts more m m') : Bounded m' n :=
  (Finset.card_le_card (Finset.sdiff_subset_sdiff (Finset.Subset.refl _) hs.search.kept)).trans h

theorem Bounded.mark (h : Bounded m (n + 1)) (hnew : m.isChecked t = false) :
    Bounded (m.mark t) n := by
  unfold Bounded at *
  have hmem : t ∈ Finset.univ \ m.marks := by simp [Memo.mem_marks, hnew]
  rw [Memo.marks_mark, Finset.sdiff_insert, Finset.card_erase_of_mem hmem]
  omega

/-- A call for this type returns, with recursions deeper than `n`. -/
def Returns (shape : T → Shape T) (isUpper : Nat → Bool) (n : Nat) (t : T) : Prop :=
  ∀ m : Memo T, Bounded m n →
    ∃ m', (∀ fuel, n < fuel → checkType shape isUpper fuel t m = some m') ∧
      Checked shape isUpper [t] 0 m m'

section Parts

variable (hreturns : ∀ t, Returns shape isUpper n t)
include hreturns

/-- The loop over the fields. -/
theorem checkFields_spec (fields : List (Field T)) (hm : Bounded m n) :
    ∃ m', (∀ fuel, n < fuel → fields.foldlM
      (fun m f => checkType shape isUpper fuel f.type (checkName isUpper m f)) m = some m') ∧
      Checked shape isUpper (fields.map Field.type)
        (fields.countP fun f => ! isUpper (decodeRune f.name)) m m' := by
  induction fields generalizing m with
  | nil => exact ⟨m, fun _ _ ↦ rfl, .nil⟩
  | cons f fields ih =>
      have hname := checked_checkName shape isUpper m f
      obtain ⟨m₁, hfirst, hchecked⟩ := hreturns f.type _ (hm.later hname)
      have hnamed := hname.append hchecked
      obtain ⟨m', hrest, hchecked'⟩ := ih (hm.later hnamed)
      refine ⟨m', ?_, ?_⟩
      · intro fuel hfuel
        rw [List.foldlM_cons, hfirst fuel hfuel]
        exact hrest fuel hfuel
      · have hall := hnamed.append hchecked'
        rw [Nat.add_zero, ← List.countP_append] at hall
        exact hall

theorem checkParts_spec (hm : Bounded m n) (s : Shape T) :
    ∃ m', (∀ fuel, n < fuel →
      checkParts isUpper (fun t m => checkType shape isUpper fuel t m) m s = some m') ∧
      Checked shape isUpper s.parts (lowerCase isUpper s) m m' := by
  cases s with
  | struct fields => exact checkFields_spec hreturns fields hm
  | slice elem => exact hreturns elem m hm
  | array elem => exact hreturns elem m hm
  | ptr elem => exact hreturns elem m hm
  | map key elem =>
      obtain ⟨m₁, hfirst, hchecked⟩ := hreturns elem m hm
      obtain ⟨m', hsecond, hchecked'⟩ := hreturns key m₁ (hm.later hchecked)
      refine ⟨m', ?_, hchecked.append hchecked'⟩
      intro fuel hfuel
      simp only [checkParts, hfirst fuel hfuel]
      exact hsecond fuel hfuel
  | other => exact ⟨m, fun _ _ ↦ rfl, .nil⟩

end Parts

/-- A call returns whatever the types look like. -/
theorem checkType_returns (shape : T → Shape T) (isUpper : Nat → Bool) (n : Nat) (t : T) :
    Returns shape isUpper n t := by
  induction n generalizing t with
  | zero =>
      -- all types have been seen
      intro m hm
      have hempty : Finset.univ \ m.marks = ∅ := Finset.card_eq_zero.mp (Nat.le_zero.mp hm)
      have hseen : t ∈ m.marks := Finset.sdiff_eq_empty_iff_subset.mp hempty (Finset.mem_univ t)
      refine ⟨m, ?_, .marked hseen, by omega⟩
      intro fuel hfuel
      obtain ⟨fuel, rfl⟩ := Nat.exists_eq_add_of_lt hfuel
      rw [checkType, if_pos (Memo.mem_marks.mp hseen)]
  | succ n ih =>
      intro m hm
      cases hseen : m.isChecked t with
      | true =>
          refine ⟨m, ?_, .marked (Memo.mem_marks.mpr hseen), by omega⟩
          intro fuel hfuel
          obtain ⟨fuel, rfl⟩ := Nat.exists_eq_add_of_lt hfuel
          rw [checkType, if_pos hseen]
      | false =>
          obtain ⟨m', hparts, hchecked⟩ := checkParts_spec ih (hm.mark hseen) (shape t)
          refine ⟨m', ?_, hchecked.node hseen⟩
          intro fuel hfuel
          obtain ⟨fuel, rfl⟩ := Nat.exists_eq_add_of_lt hfuel
          rw [checkType, if_neg (by simp [hseen])]
          exact hparts _ (by omega)

/-! ## A sequence of calls -/

theorem checkTypes_spec (shape : T → Shape T) (isUpper : Nat → Bool) (ts : List T) (m : Memo T) :
    ∃ m', (∀ fuel, Fintype.card T < fuel → checkTypes shape isUpper fuel ts m = some m') ∧
      Checked shape isUpper ts 0 m m' := by
  induction ts generalizing m with
  | nil => exact ⟨m, fun _ _ ↦ rfl, .nil⟩
  | cons t ts ih =>
      obtain ⟨m₁, hfirst, hchecked⟩ := checkType_returns shape isUpper (Fintype.card T) t m
        (Finset.card_le_univ _)
      obtain ⟨m', hrest, hchecked'⟩ := ih m₁
      refine ⟨m', ?_, hchecked.append hchecked'⟩
      intro fuel hfuel
      rw [checkTypes, List.foldlM_cons, hfirst fuel hfuel]
      exact hrest fuel hfuel

/-- The types that can be reached from `ts`. -/
noncomputable def reachable (shape : T → Shape T) (ts : List T) : Finset T :=
  (Set.toFinite {t | ∃ r ∈ ts, Reachable (fun t => (shape t).parts) r t}).toFinset

end Specification

/-- For every finite graph of types and every sequence of calls that starts with nothing checked:
all calls return, at whatever depth the recursion gives up beyond the number of types; what is
checked then are the types that can be reached from the arguments; and each field of such a type
that does not start with an upper-case letter has been complained about once. -/
theorem checkType_exact {T : Type} [DecidableEq T] [Fintype T] (shape : T → Shape T)
    (isUpper : Nat → Bool) (ts : List T) (m : Memo T) (hempty : ∀ t, m.isChecked t = false) :
    ∃ m', (∀ fuel, Fintype.card T < fuel → checkTypes shape isUpper fuel ts m = some m') ∧
      (∀ t, m'.isChecked t = true ↔ t ∈ reachable shape ts) ∧
      m'.errorCount = m.errorCount + ∑ t ∈ reachable shape ts, lowerCase isUpper (shape t) := by
  obtain ⟨m', hrun, hchecked⟩ := checkTypes_spec shape isUpper ts m
  have hnone : m.marks = ∅ := by
    unfold Memo.marks
    rw [Finset.filter_eq_empty_iff]
    intro t _
    simp [hempty t]
  have hsearch := hchecked.search
  rw [hnone] at hsearch
  have hmarks : m'.marks = reachable shape ts := by
    ext t
    rw [hsearch.mem_iff, reachable, Set.Finite.mem_toFinset]
    rfl
  refine ⟨m', hrun, ?_, ?_⟩
  · intro t
    rw [← hmarks, Memo.mem_marks]
  · have hcount := hchecked.count
    unfold complaints at hcount
    rw [hnone, Finset.sum_empty, hmarks] at hcount
    omega

/-- `[]map[*T4]int` of `TestCapital`, and a list of `T4` whose link has no capital letter either:
0 is the slice, 1 the map, 2 `*T4`, 3 `int`, 4 `T4`, 5 a node of the list and 6 a pointer to it. -/
def linked : Fin 7 → Shape (Fin 7)
  | 0 => .slice 1
  | 1 => .map 2 3
  | 2 => .ptr 4
  | 3 => .other
  | 4 => .struct [⟨lit "Yes", 3⟩, ⟨lit "no", 3⟩]
  | 5 => .struct [⟨lit "Val", 4⟩, ⟨lit "next", 6⟩]
  | 6 => .ptr 5

def isAsciiUpper (rune : Nat) : Bool := 65 ≤ rune && rune ≤ 90

theorem checkType_exact_linked :
    (∀ t, (⟨none, 0⟩ : Memo (Fin 7)).isChecked t = false) ∧
      ∃ m', checkTypes linked isAsciiUpper 8 [0, 6, 5] ⟨none, 0⟩ = some m' ∧
        ∑ t ∈ reachable linked [0, 6, 5], lowerCase isAsciiUpper (linked t) = 2 ∧
        5 ∈ reachable linked [0, 6, 5] := by
  have hempty : ∀ t, (⟨none, 0⟩ : Memo (Fin 7)).isChecked t = false := fun _ ↦ rfl
  obtain ⟨m', hrun, hreach, hcount⟩ :=
    checkType_exact linked isAsciiUpper [0, 6, 5] ⟨none, 0⟩ hempty
  have hrun := hrun 8 (by decide)
  have hresult : (checkTypes linked isAsciiUpper 8 [0, 6, 5] ⟨none, 0⟩).map
      (fun m => (m.errorCount, m.isChecked 5)) = some (2, true) := by decide
  rw [hrun] at hresult
  simp only [Option.map_some, Option.some.injEq, Prod.mk.injEq] at hresult
  refine ⟨hempty, m', hrun, ?_, (hreach 5).mp hresult.2⟩
  rw [hresult.1] at hcount
  change 2 = 0 + _ at hcount
  omega

end GoLabs.LabGob
