import GoLabs.Reasoning.Balance

/-!
# Who gives and who is given

A run of the greedy rule first hands out new units, each to a member with the least, and then moves
units from a member with the most to a member with the least.  Whoever has been given something
never gives, whoever has given something up is never given anything, and the former end at or below
the latter.  That is enough for the run to have moved as few units as any that ends level.
-/

namespace GoLabs.Reasoning

open Finset

variable {γ : Type*} {s recv gave : Finset γ} {load load' : γ → ℕ} {a b : γ}

/-- The loads at some moment of a run: `recv` have been given something and `gave` have given
something up. -/
structure Leveling (s recv gave : Finset γ) (load : γ → ℕ) : Prop where
  recv_sub : recv ⊆ s
  gave_sub : gave ⊆ s
  disjoint : Disjoint recv gave
  low : ∀ r ∈ recv, ∀ g ∈ s, load r ≤ load g + 1
  full : Full s gave load
  below : ∀ r ∈ recv, ∀ g ∈ gave, load r ≤ load g

namespace Leveling

theorem init : Leveling s ∅ ∅ load := by
  constructor <;> simp [Full]

theorem congr (h : Leveling s recv gave load) (heq : ∀ g ∈ s, load' g = load g) :
    Leveling s recv gave load' where
  recv_sub := h.recv_sub
  gave_sub := h.gave_sub
  disjoint := h.disjoint
  low r hr g hg := by
    rw [heq r (h.recv_sub hr), heq g hg]
    exact h.low r hr g hg
  full g hg o ho := by
    rw [heq g hg, heq o (h.gave_sub ho)]
    exact h.full g hg o ho
  below r hr g hg := by
    rw [heq r (h.recv_sub hr), heq g (h.gave_sub hg)]
    exact h.below r hr g hg

/-- Whoever has been given something is at most one above the least, so it does not give. -/
theorem notMem_recv (h : Leveling s recv gave load) (hb : b ∈ s) (hgap : load b + 2 ≤ load a) :
    a ∉ recv := by
  intro ha
  have hle := h.low a ha b hb
  omega

/-- Whoever has given something up is at most one below the most, so it is not given anything. -/
theorem notMem_gave (h : Leveling s recv gave load) (ha : a ∈ s) (hgap : load b + 2 ≤ load a) :
    b ∉ gave :=
  h.full.notMem ha hgap

variable [DecidableEq γ]

/-- A new unit for a member with the least, while nobody has given anything up. -/
theorem add (h : Leveling s recv ∅ load) (hb : b ∈ s) (hmin : ∀ g ∈ s, load b ≤ load g) :
    Leveling s (insert b recv) ∅ (add load b) where
  recv_sub := insert_subset hb h.recv_sub
  gave_sub := empty_subset s
  disjoint := disjoint_empty_right _
  low r hr g hg := by
    have hbg := hmin g hg
    unfold Reasoning.add
    by_cases hrb : r = b
    · rw [if_pos hrb, hrb]
      omega
    · have hle := h.low r (mem_of_mem_insert_of_ne hr hrb) g hg
      rw [if_neg hrb]
      omega
  full _ _ o ho := absurd ho (notMem_empty o)
  below _ _ g hg := absurd hg (notMem_empty g)

/-- One unit goes from a member with the most to a member with the least. -/
theorem shift (h : Leveling s recv gave load) (ha : a ∈ s) (hb : b ∈ s)
    (hgap : load b + 2 ≤ load a) (hmax : ∀ g ∈ s, load g ≤ load a)
    (hmin : ∀ g ∈ s, load b ≤ load g) :
    Leveling s (insert b recv) (insert a gave) (shift load a b) := by
  have hab : a ≠ b := by
    rintro rfl
    omega
  have hra := h.notMem_recv hb hgap
  have hgb := h.notMem_gave ha hgap
  have hsa : Reasoning.shift load a b a = load a - 1 := by simp [Reasoning.shift, hab]
  have hsb : Reasoning.shift load a b b = load b + 1 := by simp [Reasoning.shift, hab.symm]
  have hsame : ∀ g, g ≠ a → g ≠ b → Reasoning.shift load a b g = load g := by
    intro g hga hgb
    simp [Reasoning.shift, hga, hgb]
  -- whoever has been given something is now at most one above the old least
  have hrecv : ∀ r ∈ insert b recv, Reasoning.shift load a b r ≤ load b + 1 := by
    intro r hr
    by_cases hrb : r = b
    · rw [hrb, hsb]
    · have hr' := mem_of_mem_insert_of_ne hr hrb
      rw [hsame r (fun heq ↦ hra (heq ▸ hr')) hrb]
      exact h.low r hr' b hb
  -- and whoever has given something up at least one below the old most
  have hgave : ∀ g ∈ insert a gave, load a ≤ Reasoning.shift load a b g + 1 := by
    intro g hg
    by_cases hga : g = a
    · rw [hga, hsa]
      omega
    · have hg' := mem_of_mem_insert_of_ne hg hga
      rw [hsame g hga (fun heq ↦ hgb (heq ▸ hg'))]
      exact h.full a ha g hg'
  have hwithin : ∀ g ∈ s, load b ≤ Reasoning.shift load a b g ∧
      Reasoning.shift load a b g ≤ load a := by
    intro g hg
    have hbg := hmin g hg
    have hga := hmax g hg
    by_cases hga : g = a
    · rw [hga, hsa]
      omega
    · by_cases hgb : g = b
      · rw [hgb, hsb]
        omega
      · rw [hsame g hga hgb]
        omega
  constructor
  · exact insert_subset hb h.recv_sub
  · exact insert_subset ha h.gave_sub
  · rw [disjoint_insert_left, disjoint_insert_right, mem_insert, not_or]
    exact ⟨⟨hab.symm, hgb⟩, hra, h.disjoint⟩
  · intro r hr g hg
    have hle := hrecv r hr
    have hbg := (hwithin g hg).1
    omega
  · intro g hg o ho
    have hle := hgave o ho
    have hga := (hwithin g hg).2
    omega
  · intro r hr g hg
    have hlow := hrecv r hr
    have hhigh := hgave g hg
    omega

end Leveling

/-- What is kept of `load` in `final` is the most that any level distribution of the same total
keeps, if whoever has gained ends at or below whoever has lost. -/
theorem sum_min_le_of_exchange {final other : γ → ℕ} (hlevel : Leveled s other)
    (htotal : ∑ g ∈ s, other g = ∑ g ∈ s, final g)
    (hexchange : ∀ r ∈ s, ∀ g ∈ s, load r < final r → final g < load g → final r ≤ final g) :
    ∑ g ∈ s, min (load g) (other g) ≤ ∑ g ∈ s, min (load g) (final g) := by
  by_cases hsome : ∃ g ∈ s, final g < load g ∧ ∃ x ∈ s, final g < other x
  · -- a member has lost too much to be compared alone: then those that gained got no more than
    -- the other distribution gives them, and the rest is compared as a whole
    obtain ⟨g, hg, hlost, x, hx, hlt⟩ := hsome
    have hgained : ∀ r ∈ s, load r < final r → final r ≤ other r := by
      intro r hr hmore
      have hle := hexchange r hr g hg hmore hlost
      have hone := hlevel x hx r hr
      omega
    rw [← sum_filter_add_sum_filter_not s (fun r ↦ load r < final r),
      ← sum_filter_add_sum_filter_not s (fun r ↦ load r < final r) (fun g ↦ min (load g) (final g))]
    rw [← sum_filter_add_sum_filter_not s (fun r ↦ load r < final r),
      ← sum_filter_add_sum_filter_not s (fun r ↦ load r < final r) final] at htotal
    have hkeep : ∑ r ∈ s with load r < final r, min (load r) (other r) ≤
        ∑ r ∈ s with load r < final r, min (load r) (final r) := by
      refine sum_le_sum fun r hr ↦ ?_
      have hmore := (mem_filter.mp hr).2
      omega
    have hless : ∑ r ∈ s with load r < final r, final r ≤
        ∑ r ∈ s with load r < final r, other r := by
      refine sum_le_sum fun r hr ↦ ?_
      exact hgained r (mem_filter.mp hr).1 (mem_filter.mp hr).2
    have hrest : ∑ r ∈ s with ¬ load r < final r, min (load r) (other r) ≤
        ∑ r ∈ s with ¬ load r < final r, other r :=
      sum_le_sum fun r _ ↦ Nat.min_le_right _ _
    have hfinal : ∑ r ∈ s with ¬ load r < final r, min (load r) (final r) =
        ∑ r ∈ s with ¬ load r < final r, final r := by
      refine sum_congr rfl fun r hr ↦ ?_
      have hle := (mem_filter.mp hr).2
      omega
    omega
  · refine sum_le_sum fun g hg ↦ ?_
    by_cases hlost : final g < load g
    · have hle : other g ≤ final g := by
        by_contra hmore
        exact hsome ⟨g, hg, hlost, g, hg, by omega⟩
      omega
    · omega

end GoLabs.Reasoning
