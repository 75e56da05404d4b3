import Mathlib.Data.List.Basic
import Mathlib.Data.List.Induction
import Mathlib.Data.List.Perm.Subperm

/-! Lists used as tables: rows are appended, looked up by index and overwritten, never removed. -/

namespace GoLabs.Reasoning

variable {α : Type*} {l : List α} {x y : α} {i j : Nat}

theorem getElem?_snoc_eq_some :
    (l ++ [x])[i]? = some y ↔ l[i]? = some y ∨ i = l.length ∧ y = x := by
  rcases Nat.lt_trichotomy i l.length with hlt | heq | hgt
  · rw [List.getElem?_append_left hlt]
    have hne : i ≠ l.length := by omega
    simp [hne]
  · subst heq
    simp [eq_comm]
  · have hout : (l ++ [x])[i]? = none := by
      rw [List.getElem?_eq_none_iff, List.length_append, List.length_singleton]; omega
    have hout' : l[i]? = none := by rw [List.getElem?_eq_none_iff]; omega
    have hne : i ≠ l.length := by omega
    simp [hout, hout', hne]

theorem getElem?_set_eq_some :
    (l.set j x)[i]? = some y ↔ (i = j ∧ j < l.length ∧ y = x) ∨ (i ≠ j ∧ l[i]? = some y) := by
  rw [List.getElem?_set]
  by_cases hij : j = i
  · subst hij
    by_cases hlt : j < l.length
    · simp [hlt, eq_comm]
    · simp [hlt]
  · simp [hij, Ne.symm hij]

/-- A row that an overwriting leaves alone is another one. -/
theorem ne_of_getElem?_set (h : l[i]? = some y) (hset : (l.set j x)[i]? = some y)
    (hne : l[j]? ≠ some x) : i ≠ j := by
  obtain ⟨hij, _, rfl⟩ | ⟨hij, _⟩ := getElem?_set_eq_some.mp hset
  · exact absurd (hij ▸ h) hne
  · exact hij

theorem lt_length_of_getElem? (h : l[i]? = some x) : i < l.length :=
  (List.getElem?_eq_some_iff.mp h).1

theorem getElem?_append_of_some (h : l[i]? = some x) (l' : List α) : (l ++ l')[i]? = some x := by
  rw [List.getElem?_append_left (lt_length_of_getElem? h), h]

theorem forall_mem_set {P : α → Prop} (hl : ∀ z ∈ l, P z) (hx : P x) : ∀ z ∈ l.set i x, P z := by
  intro z hz
  obtain hold | rfl := List.mem_or_eq_of_mem_set hz
  · exact hl z hold
  · exact hx

theorem mem_of_mem_snoc (h : x ∈ l ++ [y]) (hne : x ≠ y) : x ∈ l := by
  obtain hold | hnew := List.mem_append.mp h
  · exact hold
  · exact absurd (List.mem_singleton.mp hnew) hne

theorem nodup_snoc (h : l.Nodup) (hx : x ∉ l) : (l ++ [x]).Nodup := by
  refine List.nodup_append.mpr ⟨h, by simp, ?_⟩
  intro z hz z' hz'
  rw [List.mem_singleton.mp hz']
  exact fun heq ↦ hx (heq ▸ hz)

/-- Overwriting a row with one that `P` does not tell apart. -/
theorem exists_getElem?_set_iff {P : α → Prop} (hx : l[j]? = some x) (hP : P y ↔ P x) :
    (∃ z, (l.set j y)[i]? = some z ∧ P z) ↔ ∃ z, l[i]? = some z ∧ P z := by
  by_cases hij : i = j
  · subst hij
    rw [List.getElem?_set_self (lt_length_of_getElem? hx), hx]
    simp [hP]
  · rw [List.getElem?_set_ne (Ne.symm hij)]

/-- Overwriting a row with one that `f` does not tell apart. -/
theorem map_set_eq {β : Type*} (f : α → β) (h : l[i]? = some x) (hf : f y = f x) :
    (l.set i y).map f = l.map f := by
  rw [List.map_set, hf]
  apply List.ext_getElem?
  intro n
  rw [List.getElem?_set]
  split
  · rename_i hin
    subst hin
    rw [if_pos (by simpa using lt_length_of_getElem? h), List.getElem?_map, h]
    rfl
  · rfl

/-- Overwriting a row moves a count by what the old and the new row contribute. -/
theorem countP_set_add (p : α → Bool) (h : l[i]? = some x) (y : α) :
    (l.set i y).countP p + (if p x then 1 else 0) = l.countP p + (if p y then 1 else 0) := by
  induction l generalizing i with
  | nil => simp at h
  | cons z l ih =>
      cases i with
      | zero =>
          simp only [List.getElem?_cons_zero, Option.some.injEq] at h
          subst h
          simp only [List.set_cons_zero, List.countP_cons]
          omega
      | succ i =>
          have hrest := ih (by simpa using h)
          simp only [List.set_cons_succ, List.countP_cons]
          omega

/-- Distinct rows that satisfy `p` are at most as many as there are such rows. -/
theorem length_le_countP {ids : List Nat} {p : α → Bool} (hnodup : ids.Nodup)
    (h : ∀ n ∈ ids, ∃ x, l[n]? = some x ∧ p x = true) : ids.length ≤ l.countP p := by
  have hcount : l.countP p = ((List.range l.length).filter fun n => l[n]?.any p).length := by
    clear h
    induction l using List.reverseRecOn with
    | nil => rfl
    | append_singleton l x ih =>
        have hsame : (List.range l.length).filter (fun n => (l ++ [x])[n]?.any p) =
            (List.range l.length).filter fun n => l[n]?.any p := by
          apply List.filter_congr
          intro n hn
          rw [List.getElem?_append_left (List.mem_range.mp hn)]
        rw [List.countP_append, ih, List.length_append, List.length_singleton, List.range_succ,
          List.filter_append, List.length_append, hsame]
        cases hx : p x <;> simp [hx]
  rw [hcount]
  apply List.Subperm.length_le
  apply List.subperm_of_subset hnodup
  intro n hn
  rcases h n hn with ⟨x, hx, hp⟩
  rw [List.mem_filter, List.mem_range]
  exact ⟨lt_length_of_getElem? hx, by rw [hx]; exact hp⟩

theorem eq_of_mem_of_length_le_one (h : l.length ≤ 1) (hx : x ∈ l) (hy : y ∈ l) : x = y := by
  match l, h with
  | [], _ => simp at hx
  | [z], _ => rw [List.mem_singleton.mp hx, List.mem_singleton.mp hy]

/-- Where `f` tells the rows apart, the rows with the key of `x` are `x` alone. -/
theorem filter_eq_singleton {β : Type*} [DecidableEq β] {f : α → β} (h : (l.map f).Nodup)
    (hx : x ∈ l) : l.filter (f · = f x) = [x] := by
  induction l with
  | nil => simp at hx
  | cons z l ih =>
      rw [List.map_cons, List.nodup_cons] at h
      rcases List.mem_cons.mp hx with rfl | hx
      · rw [List.filter_cons_of_pos (by simp), List.filter_eq_nil_iff.mpr]
        intro w hw
        simp only [decide_eq_true_eq]
        exact fun heq ↦ h.1 (heq ▸ List.mem_map_of_mem hw)
      · rw [List.filter_cons_of_neg, ih h.2 hx]
        simp only [decide_eq_true_eq]
        exact fun heq ↦ h.1 (heq ▸ List.mem_map_of_mem hx)

theorem flatMap_filter {β : Type*} {p : α → Bool} {f : α → List β}
    (h : ∀ x ∈ l, p x = false → f x = []) : (l.filter p).flatMap f = l.flatMap f := by
  induction l with
  | nil => rfl
  | cons z l ih =>
      have hrest := ih fun x hx ↦ h x (List.mem_cons_of_mem _ hx)
      cases hz : p z with
      | true => rw [List.filter_cons_of_pos hz, List.flatMap_cons, hrest, List.flatMap_cons]
      | false =>
          rw [List.filter_cons_of_neg (by simp [hz]), hrest, List.flatMap_cons,
            h z List.mem_cons_self hz, List.nil_append]

theorem mem_of_mapM {β : Type*} {f : α → Option β} {l' : List β} (h : l.mapM f = some l')
    (hx : x ∈ l) : ∃ y ∈ l', f x = some y := by
  induction l generalizing l' with
  | nil => simp at hx
  | cons z l ih =>
      simp only [List.mapM_cons, Option.bind_eq_bind, Option.bind_eq_some_iff, Option.pure_def,
        Option.some.injEq] at h
      rcases h with ⟨y, hy, ys, hys, rfl⟩
      rcases List.mem_cons.mp hx with rfl | hx
      · exact ⟨y, List.mem_cons_self, hy⟩
      · rcases ih hys hx with ⟨y', hy', hf⟩
        exact ⟨y', List.mem_cons_of_mem _ hy', hf⟩

theorem mem_of_mem_mapM {β : Type*} {f : α → Option β} {l' : List β} (h : l.mapM f = some l')
    {y : β} (hy : y ∈ l') : ∃ x ∈ l, f x = some y := by
  induction l generalizing l' with
  | nil =>
      simp only [List.mapM_nil, Option.pure_def, Option.some.injEq] at h
      simp [← h] at hy
  | cons z l ih =>
      simp only [List.mapM_cons, Option.bind_eq_bind, Option.bind_eq_some_iff, Option.pure_def,
        Option.some.injEq] at h
      obtain ⟨y', hy', rest, hrest, rfl⟩ := h
      obtain rfl | hmem := List.mem_cons.mp hy
      · exact ⟨z, List.mem_cons_self, hy'⟩
      · obtain ⟨x, hx, hfx⟩ := ih hrest hmem
        exact ⟨x, List.mem_cons_of_mem z hx, hfx⟩

theorem mapM_eq_map {β : Type*} {f : α → Option β} {g : α → β} (h : ∀ x ∈ l, f x = some (g x)) :
    l.mapM f = some (l.map g) := by
  induction l with
  | nil => rfl
  | cons z l ih =>
      rw [List.mapM_cons, h z List.mem_cons_self, ih fun x hx ↦ h x (List.mem_cons_of_mem _ hx)]
      rfl

/-- A rearrangement of the values of `f` is made by rearranging the arguments. -/
theorem exists_perm_of_perm_map {β : Type*} {f : α → β} {l' : List β} (h : l'.Perm (l.map f)) :
    ∃ l₁ : List α, l₁.Perm l ∧ l' = l₁.map f := by
  induction l generalizing l' with
  | nil => exact ⟨[], .nil, by simpa using h⟩
  | cons z l ih =>
      rw [List.map_cons] at h
      rcases List.append_of_mem (h.mem_iff.mpr List.mem_cons_self) with ⟨u, v, rfl⟩
      rcases ih ((List.perm_middle.symm.trans h).cons_inv) with ⟨l₁, hperm, huv⟩
      rcases List.append_eq_map_iff.mp huv with ⟨l₂, l₃, rfl, rfl, rfl⟩
      exact ⟨l₂ ++ z :: l₃, List.perm_middle.trans (hperm.cons z), by simp⟩

/-- `P` holds of every entry and the entries before it. -/
def EachAfter (P : List α → α → Prop) (l : List α) : Prop :=
  ∀ before x rest, l = before ++ x :: rest → P before x

theorem eachAfter_nil (P : List α → α → Prop) : EachAfter P [] := by
  intro before x rest h
  simp at h

theorem eachAfter_snoc {P : List α → α → Prop} :
    EachAfter P (l ++ [x]) ↔ EachAfter P l ∧ P l x := by
  constructor
  · intro h
    refine ⟨?_, h l x [] rfl⟩
    intro before y rest heq
    exact h before y (rest ++ [x]) (by rw [heq, List.append_assoc, List.cons_append])
  · rintro ⟨hold, hlast⟩ before y rest heq
    obtain rfl | ⟨rest', z, rfl⟩ := List.eq_nil_or_concat rest
    · obtain ⟨rfl, hy⟩ := List.append_inj' heq rfl
      cases hy
      exact hlast
    · rw [List.concat_eq_append, ← List.cons_append, ← List.append_assoc] at heq
      obtain ⟨rfl, _⟩ := List.append_inj' heq rfl
      exact hold before y rest' rfl

/-- An index below the length of a vector needs no check. -/
instance getElemVectorFin {n : Nat} : GetElem (Vector α n) (Fin n) α fun _ _ => True where
  getElem v i _ := getElem v i.val i.isLt

@[simp] theorem getElem_fin {n : Nat} (v : Vector α n) (i : Fin n) :
    v[i] = getElem v i.val i.isLt := rfl

theorem getElem_set_fin {n : Nat} (v : Vector α n) (i j : Fin n) (x : α) :
    (v.set i x i.isLt)[j] = if j = i then x else v[j] := by
  simp only [getElem_fin, Vector.getElem_set]
  by_cases hji : j = i
  · simp [hji]
  · have hne : (i : Nat) ≠ j := fun h ↦ hji (Fin.ext h.symm)
    simp [hji, hne]

end GoLabs.Reasoning
