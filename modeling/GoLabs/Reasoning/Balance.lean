import Mathlib.Algebra.BigOperators.Group.Finset.Basic
import Mathlib.Algebra.Order.BigOperators.Group.Finset
import Mathlib.Tactic.Ring

/-!
# Moving load from the most to the least loaded

A load for each member of a finite set, and the greedy rule that moves one unit from a member with
the most to a member with the least, as long as they are two or more apart.  The sum of the squares
goes down with every move, so the rule comes to an end; and members that are within one of the most
loaded stay so and are never given anything.
-/

namespace GoLabs.Reasoning

open Finset

variable {γ : Type*} {s old : Finset γ} {load : γ → ℕ} {a b : γ}

/-- No member has more than one unit more than another. -/
def Leveled (s : Finset γ) (load : γ → ℕ) : Prop := ∀ g ∈ s, ∀ g' ∈ s, load g ≤ load g' + 1

/-- No member has more than one unit more than one of `old`. -/
def Full (s old : Finset γ) (load : γ → ℕ) : Prop := ∀ g ∈ s, ∀ o ∈ old, load g ≤ load o + 1

theorem Leveled.congr {load' : γ → ℕ} (h : Leveled s load) (heq : ∀ g ∈ s, load' g = load g) :
    Leveled s load' := by
  intro g hg g' hg'
  rw [heq g hg, heq g' hg']
  exact h g hg g' hg'

/-- A member two below the most loaded is not one of `old`. -/
theorem Full.notMem (h : Full s old load) (ha : a ∈ s) (hgap : load b + 2 ≤ load a) : b ∉ old := by
  intro hb
  have hle := h a ha b hb
  omega

variable [DecidableEq γ]

/-- One unit less for `a` and one more for `b`. -/
def shift (load : γ → ℕ) (a b : γ) (g : γ) : ℕ :=
  load g - (if g = a then 1 else 0) + (if g = b then 1 else 0)

/-- One more for `b`. -/
def add (load : γ → ℕ) (b : γ) (g : γ) : ℕ := load g + (if g = b then 1 else 0)

def energy (s : Finset γ) (load : γ → ℕ) : ℕ := ∑ g ∈ s, load g ^ 2

/-- Whoever has the least may be given one unit. -/
theorem Leveled.add (h : Leveled s load) (hmin : ∀ g ∈ s, load b ≤ load g) :
    Leveled s (add load b) := by
  intro g hg g' hg'
  have hle := h g hg g' hg'
  have hb := hmin g' hg'
  unfold Reasoning.add
  by_cases hgb : g = b
  · subst hgb
    split <;> omega
  · rw [if_neg hgb]
    omega

theorem energy_shift_lt (ha : a ∈ s) (hb : b ∈ s) (hgap : load b + 2 ≤ load a) :
    energy s (shift load a b) < energy s load := by
  have hab : a ≠ b := by
    rintro rfl
    omega
  have hb' : b ∈ s.erase a := mem_erase.mpr ⟨hab.symm, hb⟩
  unfold energy
  rw [← add_sum_erase s _ ha, ← add_sum_erase (s.erase a) _ hb', ← add_sum_erase s _ ha,
    ← add_sum_erase (s.erase a) _ hb']
  have hrest : ∑ g ∈ (s.erase a).erase b, shift load a b g ^ 2 =
      ∑ g ∈ (s.erase a).erase b, load g ^ 2 := by
    refine sum_congr rfl fun g hg ↦ ?_
    rw [mem_erase, mem_erase] at hg
    simp [shift, hg.1, hg.2.1]
  have hsa : shift load a b a = load a - 1 := by simp [shift, hab]
  have hsb : shift load a b b = load b + 1 := by simp [shift, hab.symm]
  rw [hrest, hsa, hsb, ← Nat.add_assoc, ← Nat.add_assoc]
  refine Nat.add_lt_add_right ?_ _
  obtain ⟨k, hk⟩ := Nat.exists_eq_add_of_le hgap
  rw [hk, show load b + 2 + k - 1 = load b + 1 + k by omega]
  ring_nf
  omega

theorem Full.shift (h : Full s old load) (ha : a ∈ s) (hmax : ∀ g ∈ s, load g ≤ load a)
    (hgap : load b + 2 ≤ load a) : Full s old (shift load a b) := by
  have hb := h.notMem ha hgap
  intro g hg o ho
  have hob : o ≠ b := fun heq ↦ hb (heq ▸ ho)
  -- nobody gets above the old maximum, and nobody in `old` falls two below it
  calc Reasoning.shift load a b g ≤ load a := by
        have hga := hmax g hg
        unfold Reasoning.shift
        by_cases hgb : g = b
        · subst hgb
          rw [if_pos rfl]
          omega
        · rw [if_neg hgb]
          omega
    _ ≤ Reasoning.shift load a b o + 1 := by
        have hao := h a ha o ho
        unfold Reasoning.shift
        rw [if_neg hob]
        by_cases hoa : o = a
        · rw [if_pos hoa, hoa]
          omega
        · rw [if_neg hoa]
          omega

end GoLabs.Reasoning
