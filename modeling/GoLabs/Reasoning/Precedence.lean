import Mathlib.Data.List.Nodup

/-!
# Order of occurrence in a list

`Precedes l x y` says that `x` occurs in `l` before an occurrence of `y`.  On a list without
duplicates, such as a log of distinct events, this is a strict order.
-/

namespace GoLabs.Reasoning

variable {α β : Type*} {l m : List α} {x y z : α}

def Precedes (l : List α) (x y : α) : Prop := [x, y].Sublist l

theorem Precedes.left (h : Precedes l x y) : x ∈ l := h.subset (by simp)

theorem Precedes.right (h : Precedes l x y) : y ∈ l := h.subset (by simp)

theorem Precedes.append (h : Precedes l x y) (m : List α) : Precedes (l ++ m) x y :=
  List.Sublist.trans h (List.sublist_append_left l m)

theorem precedes_snoc (h : x ∈ l) (y : α) : Precedes (l ++ [y]) x y :=
  (List.singleton_sublist.mpr h).append (List.Sublist.refl [y])

theorem precedes_iff_split : Precedes l x y ↔ ∃ a b, l = a ++ b ∧ x ∈ a ∧ y ∈ b := by
  rw [Precedes, show [x, y] = [x] ++ [y] from rfl, List.append_sublist_iff]
  simp only [List.singleton_sublist]

theorem Precedes.filterMap {f : α → Option β} {u v : β} (h : Precedes l x y)
    (hx : f x = some u) (hy : f y = some v) : Precedes (l.filterMap f) u v := by
  have hmap := List.Sublist.filterMap f h
  simp only [List.filterMap_cons, hx, hy, List.filterMap_nil] at hmap
  exact hmap

theorem Precedes.trans (hl : l.Nodup) (h : Precedes l x y) (h' : Precedes l y z) :
    Precedes l x z := by
  obtain ⟨a, b, rfl, hxa, hyb⟩ := precedes_iff_split.mp h
  obtain ⟨c, d, hcd, hyc, hzd⟩ := precedes_iff_split.mp h'
  rcases List.append_eq_append_iff.mp hcd with ⟨e, rfl, rfl⟩ | ⟨e, rfl, rfl⟩
  · exact precedes_iff_split.mpr ⟨a, e ++ d, rfl, hxa, List.mem_append_right _ hzd⟩
  · -- the middle event would occur on both sides of the first cut
    rw [List.append_assoc] at hl
    exact absurd (List.mem_append_right e hyb) (List.disjoint_of_nodup_append hl hyc)

theorem Precedes.asymm (hl : l.Nodup) (h : Precedes l x y) : ¬ Precedes l y x := by
  intro h'
  have hself : [x, x].Nodup := (h.trans hl h').nodup hl
  simp at hself

end GoLabs.Reasoning
