import Mathlib.Data.List.Basic

/-!
# Loops that may fail

A loop over a list whose body returns the next state or ends the loop with an error is a `foldlM` in
`Except`.  An invariant of such a loop speaks about the entries that the loop has done.
-/

namespace GoLabs.Reasoning

variable {α β ε : Type} {body : β → α → Except ε β} {l : List α} {s t : β}

theorem loop_cons {x : α} : (x :: l).foldlM body s = .ok t ↔
    ∃ u, body s x = .ok u ∧ l.foldlM body u = .ok t := by
  rw [List.foldlM_cons]
  cases body s x with
  | error e => simp [bind, Except.bind]
  | ok u => simp [bind, Except.bind]

/-- The loop ends, if its body never fails where the invariant holds. -/
theorem loop_total {I : List α → β → Prop} (hinit : I [] s)
    (hbody : ∀ done x rest u, l = done ++ x :: rest → I done u →
      ∃ v, body u x = .ok v ∧ I (done ++ [x]) v) :
    ∃ t, l.foldlM body s = .ok t ∧ I l t := by
  have hall : ∀ (rest done : List α) (u : β), l = done ++ rest → I done u →
      ∃ t, rest.foldlM body u = .ok t ∧ I l t := by
    intro rest
    induction rest with
    | nil =>
        intro done u hl hu
        rw [List.append_nil] at hl
        exact ⟨u, rfl, hl ▸ hu⟩
    | cons x rest ih =>
        intro done u hl hu
        obtain ⟨v, hv, hnext⟩ := hbody done x rest u hl hu
        obtain ⟨t, ht, hI⟩ := ih (done ++ [x]) v (by simp [hl]) hnext
        exact ⟨t, loop_cons.mpr ⟨v, hv, ht⟩, hI⟩
  exact hall l [] s rfl hinit

/-- What the body keeps holds when the loop has ended without an error. -/
theorem loop_invariant {I : List α → β → Prop} (h : l.foldlM body s = .ok t) (hinit : I [] s)
    (hbody : ∀ done x rest u v, l = done ++ x :: rest → I done u → body u x = .ok v →
      I (done ++ [x]) v) : I l t := by
  have hall : ∀ (rest done : List α) (u : β), l = done ++ rest → I done u →
      rest.foldlM body u = .ok t → I l t := by
    intro rest
    induction rest with
    | nil =>
        intro done u hl hu hend
        rw [List.append_nil] at hl
        cases hend
        exact hl ▸ hu
    | cons x rest ih =>
        intro done u hl hu hend
        obtain ⟨v, hv, hrest⟩ := loop_cons.mp hend
        exact ih (done ++ [x]) v (by simp [hl]) (hbody done x rest u v hl hu hv) hrest
  exact hall l [] s rfl hinit h

theorem forM_ok_iff {check : α → Except ε Unit} :
    l.forM check = .ok () ↔ ∀ x ∈ l, check x = .ok () := by
  induction l with
  | nil => simp [pure, Except.pure]
  | cons x l ih =>
      rw [List.forall_mem_cons, ← ih]
      change (check x >>= fun _ => l.forM check) = .ok () ↔ _
      cases check x with
      | error e => simp [bind, Except.bind]
      | ok u => simp [bind, Except.bind]

end GoLabs.Reasoning
