import Mathlib.Logic.Relation
import GoLabs.Reasoning.Tables

/-!
# Tables of attempts

A supervisor keeps one row for every attempt at a piece of work, which it calls the origin of the
row.  A waiting attempt is started, a running one ends or is given up and replaced by a new waiting
one, and work with a new origin may be added.  Whatever the order of these steps, every origin has
exactly one attempt that was not given up.
-/

namespace GoLabs.Reasoning

inductive AttemptState where
  | waiting
  | running
  | ended
  | replaced
  deriving DecidableEq, Repr

structure Attempt (ω : Type*) where
  origin : ω
  state : AttemptState
  deriving DecidableEq, Repr

namespace Attempt

variable {ω : Type*} [DecidableEq ω] {l l' : List (Attempt ω)} {o : ω}

/-- One step of the supervisor. -/
inductive Step : List (Attempt ω) → List (Attempt ω) → Prop where
  | start {l : List (Attempt ω)} {i : Nat} {o : ω} (h : l[i]? = some ⟨o, .waiting⟩) :
      Step l (l.set i ⟨o, .running⟩)
  | finish {l : List (Attempt ω)} {i : Nat} {o : ω} (h : l[i]? = some ⟨o, .running⟩) :
      Step l (l.set i ⟨o, .ended⟩)
  | replace {l : List (Attempt ω)} {i : Nat} {o : ω} (h : l[i]? = some ⟨o, .running⟩) :
      Step l (l.set i ⟨o, .replaced⟩ ++ [⟨o, .waiting⟩])
  | add {l : List (Attempt ω)} {o : ω} (h : ∀ a ∈ l, a.origin ≠ o) : Step l (l ++ [⟨o, .waiting⟩])

def Steps : List (Attempt ω) → List (Attempt ω) → Prop := Relation.ReflTransGen Step

/-- The attempts at `o`. -/
def attemptsOf (o : ω) (l : List (Attempt ω)) : Nat := l.countP (·.origin = o)

/-- The attempts at `o` that were not given up. -/
def liveOf (o : ω) (l : List (Attempt ω)) : Nat :=
  l.countP fun a => a.origin = o ∧ a.state ≠ .replaced

/-- The attempts at `o` that were given up. -/
def replacedOf (o : ω) (l : List (Attempt ω)) : Nat :=
  l.countP fun a => a.origin = o ∧ a.state = .replaced

theorem attemptsOf_eq (o : ω) (l : List (Attempt ω)) :
    attemptsOf o l = liveOf o l + replacedOf o l := by
  unfold attemptsOf liveOf replacedOf
  induction l with
  | nil => rfl
  | cons a l ih =>
      simp only [List.countP_cons, ih]
      by_cases ho : a.origin = o <;> by_cases hs : a.state = .replaced <;> simp [ho, hs] <;> omega

/-- Every origin in the table has exactly one attempt that was not given up. -/
def OneLive (l : List (Attempt ω)) : Prop := ∀ a ∈ l, liveOf a.origin l = 1

theorem liveOf_set {i : Nat} {a b : Attempt ω} (h : l[i]? = some a) (horigin : b.origin = a.origin)
    (ha : a.state ≠ .replaced) (hb : b.state ≠ .replaced) : liveOf o (l.set i b) = liveOf o l := by
  have hcount := countP_set_add (fun a ↦ a.origin = o ∧ a.state ≠ .replaced) h b
  simp only [horigin, ne_eq, ha, hb, not_false_eq_true, and_true] at hcount
  simpa [liveOf] using hcount

theorem OneLive.set {i : Nat} {a b : Attempt ω} (hl : OneLive l) (h : l[i]? = some a)
    (horigin : b.origin = a.origin) (ha : a.state ≠ .replaced) (hb : b.state ≠ .replaced) :
    OneLive (l.set i b) := by
  intro c hc
  rw [liveOf_set h horigin ha hb]
  rcases List.mem_or_eq_of_mem_set hc with hold | rfl
  · exact hl c hold
  · rw [horigin]
    exact hl a (List.mem_of_getElem? h)

theorem OneLive.step (hl : OneLive l) (h : Step l l') : OneLive l' := by
  cases h with
  | start h => exact hl.set h rfl (by simp) (by simp)
  | finish h => exact hl.set h rfl (by simp) (by simp)
  | @replace i o h =>
      -- the row given up and its replacement cancel out
      have hlive : ∀ o', liveOf o' (l.set i ⟨o, .replaced⟩ ++ [⟨o, .waiting⟩]) = liveOf o' l := by
        intro o'
        have hcount := countP_set_add (fun a ↦ a.origin = o' ∧ a.state ≠ .replaced) h ⟨o, .replaced⟩
        unfold liveOf
        rw [List.countP_append]
        simp only [List.countP_cons, List.countP_nil]
        simp only [ne_eq, not_true_eq_false, and_false, decide_false, Bool.false_eq_true,
          if_false, reduceCtorEq, not_false_eq_true, and_true] at hcount ⊢
        omega
      have horigin : ∀ a ∈ l.set i ⟨o, .replaced⟩ ++ [⟨o, .waiting⟩], ∃ b ∈ l,
          b.origin = a.origin := by
        intro a ha
        rcases List.mem_append.mp ha with hset | hnew
        · rcases List.mem_or_eq_of_mem_set hset with hold | rfl
          · exact ⟨a, hold, rfl⟩
          · exact ⟨_, List.mem_of_getElem? h, rfl⟩
        · rw [List.mem_singleton.mp hnew]
          exact ⟨_, List.mem_of_getElem? h, rfl⟩
      intro a ha
      rcases horigin a ha with ⟨b, hb, hba⟩
      rw [hlive, ← hba]
      exact hl b hb
  | @add o hnew =>
      intro a ha
      unfold liveOf
      rw [List.countP_append]
      rcases List.mem_append.mp ha with hold | hnew'
      · have hne := hnew a hold
        have hlive := hl a hold
        unfold liveOf at hlive
        rw [hlive]
        simp [Ne.symm hne]
      · rw [List.mem_singleton.mp hnew']
        have hnone : l.countP (fun a ↦ decide (a.origin = o ∧ a.state ≠ .replaced)) = 0 := by
          rw [List.countP_eq_zero]
          intro b hb hcontra
          simp only [decide_eq_true_eq] at hcontra
          exact hnew b hb hcontra.1
        rw [hnone]
        simp

theorem OneLive.steps (hl : OneLive l) (h : Steps l l') : OneLive l' := by
  induction h with
  | refl => exact hl
  | tail _ hstep ih => exact ih.step hstep

/-- All attempts at `o` but one were given up. -/
theorem OneLive.attemptsOf_le (hl : OneLive l) (o : ω) :
    attemptsOf o l ≤ 1 + replacedOf o l := by
  rw [attemptsOf_eq]
  by_cases hex : ∃ a ∈ l, a.origin = o
  · rcases hex with ⟨a, ha, rfl⟩
    have hone := hl a ha
    omega
  · have hnone : liveOf o l = 0 := by
      rw [liveOf, List.countP_eq_zero]
      intro a ha hcontra
      simp only [decide_eq_true_eq] at hcontra
      exact hex ⟨a, ha, hcontra.1⟩
    omega

/-- Two rows of one origin that were not given up are the same row. -/
theorem OneLive.unique (hl : OneLive l) {i j : Nat} {a b : Attempt ω} (ha : l[i]? = some a)
    (hb : l[j]? = some b) (hab : a.origin = b.origin) (hsa : a.state ≠ .replaced)
    (hsb : b.state ≠ .replaced) : i = j := by
  by_contra hij
  have hone := hl a (List.mem_of_getElem? ha)
  have htwo : [i, j].length ≤ liveOf a.origin l := by
    apply length_le_countP (by simp [hij])
    intro n hn
    rcases List.mem_cons.mp hn with rfl | hn
    · exact ⟨a, ha, by simp [hsa]⟩
    · rw [List.mem_singleton.mp hn]
      exact ⟨b, hb, by simp [hab, hsb]⟩
  simp only [List.length_cons, List.length_nil] at htwo
  omega

end Attempt

end GoLabs.Reasoning
