import Mathlib.Data.Finset.Insert
import Mathlib.Logic.Relation

/-!
# Searches with a memo

A search of a graph that marks a node before it goes on to the successors, and turns back at a
marked one.  `Searched` compares the marks before and after such a search; a search of many roots is
put together from searches of single ones, so nothing is said here about the order of the visits or
about how the search is programmed.
-/

namespace GoLabs.Reasoning

variable {α : Type} {next : α → List α} {roots roots' : List α} {marks marks' marks'' : Finset α}
  {x y : α}

/-- `y` can be reached from `x` along the successors. -/
def Reachable (next : α → List α) : α → α → Prop := Relation.ReflTransGen fun x y => y ∈ next x

theorem Reachable.refl (x : α) : Reachable next x x := Relation.ReflTransGen.refl

theorem Reachable.head {z : α} (hy : y ∈ next x) (h : Reachable next y z) : Reachable next x z :=
  Relation.ReflTransGen.head hy h

/-- The search has started at `roots` with the nodes of `marks` marked, and has ended with
`marks'`. -/
structure Searched (next : α → List α) (roots : List α) (marks marks' : Finset α) : Prop where
  kept : marks ⊆ marks'
  started : ∀ r ∈ roots, r ∈ marks'
  closed : ∀ x ∈ marks', x ∉ marks → ∀ y ∈ next x, y ∈ marks'
  reached : ∀ x ∈ marks', x ∉ marks → ∃ r ∈ roots, Reachable next r x

namespace Searched

theorem nil : Searched next [] marks marks :=
  ⟨fun _ hx ↦ hx, by simp, fun _ hx hnot ↦ absurd hx hnot, fun _ hx hnot ↦ absurd hx hnot⟩

/-- The search turns back at a marked node. -/
theorem marked (hx : x ∈ marks) : Searched next [x] marks marks :=
  ⟨fun _ hy ↦ hy, by simpa using hx, fun _ hy hnot ↦ absurd hy hnot,
    fun _ hy hnot ↦ absurd hy hnot⟩

theorem append (h : Searched next roots marks marks') (h' : Searched next roots' marks' marks'') :
    Searched next (roots ++ roots') marks marks'' := by
  refine ⟨h.kept.trans h'.kept, ?_, ?_, ?_⟩
  · intro r hr
    rcases List.mem_append.mp hr with hr | hr
    · exact h'.kept (h.started r hr)
    · exact h'.started r hr
  · -- a node was marked by the first search or by the second
    intro x hx hnot y hy
    by_cases hmid : x ∈ marks'
    · exact h'.kept (h.closed x hmid hnot y hy)
    · exact h'.closed x hx hmid y hy
  · intro x hx hnot
    by_cases hmid : x ∈ marks'
    · obtain ⟨r, hr, hreach⟩ := h.reached x hmid hnot
      exact ⟨r, List.mem_append_left _ hr, hreach⟩
    · obtain ⟨r, hr, hreach⟩ := h'.reached x hx hmid
      exact ⟨r, List.mem_append_right _ hr, hreach⟩

theorem cons (h : Searched next [x] marks marks') (h' : Searched next roots marks' marks'') :
    Searched next (x :: roots) marks marks'' := h.append h'

/-- The search marks an unmarked node and goes on to its successors. -/
theorem node [DecidableEq α] (h : Searched next (next x) (insert x marks) marks') :
    Searched next [x] marks marks' := by
  have hself : x ∈ marks' := h.kept (Finset.mem_insert_self x marks)
  refine ⟨fun y hy ↦ h.kept (Finset.mem_insert_of_mem hy), by simpa using hself, ?_, ?_⟩
  · intro y hy hnot z hz
    by_cases heq : y = x
    · subst heq
      exact h.started z hz
    · exact h.closed y hy (by simp [heq, hnot]) z hz
  · intro y hy hnot
    refine ⟨x, List.mem_singleton.mpr rfl, ?_⟩
    by_cases heq : y = x
    · subst heq
      exact Reachable.refl y
    · obtain ⟨r, hr, hreach⟩ := h.reached y hy (by simp [heq, hnot])
      exact hreach.head hr

/-- A search that starts without marks ends with those of the reachable nodes. -/
theorem mem_iff (h : Searched next roots ∅ marks) :
    x ∈ marks ↔ ∃ r ∈ roots, Reachable next r x := by
  constructor
  · intro hx
    exact h.reached x hx (by simp)
  · rintro ⟨r, hr, hreach⟩
    induction hreach with
    | refl => exact h.started r hr
    | tail _ hedge ih => exact h.closed _ ih (by simp) _ hedge

end Searched

end GoLabs.Reasoning
