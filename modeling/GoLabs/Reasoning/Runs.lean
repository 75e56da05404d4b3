import Mathlib.Logic.Relation

/-!
# Runs of a labelled step function

A system is a step function `step : σ → α → Option σ`: the action `a` is enabled in `s` when
`step s a` is a state.  `Reaches` is the reflexive-transitive closure of enabled steps, `run`
performs a given schedule, and `restrict` keeps only the actions that a guard admits.
-/

namespace GoLabs.Reasoning

variable {σ α : Type*} {step : σ → α → Option σ} {s t u : σ}

/-- Perform the actions of a schedule in order; `none` as soon as one of them is not enabled. -/
def run (step : σ → α → Option σ) : σ → List α → Option σ
  | s, [] => some s
  | s, a :: as => (step s a).bind (run step · as)

/-- One enabled step. -/
def Moves (step : σ → α → Option σ) (s t : σ) : Prop := ∃ a, step s a = some t

/-- `t` is the state after some schedule of enabled steps from `s`. -/
def Reaches (step : σ → α → Option σ) : σ → σ → Prop := Relation.ReflTransGen (Moves step)

/-- The system in which the action `a` may only be taken in the states that `guard · a` admits. -/
def restrict (step : σ → α → Option σ) (guard : σ → α → Bool) (s : σ) (a : α) : Option σ :=
  if guard s a then step s a else none

/-- The system with a log that no step reads: `note s a` is what the action `a` in `s` adds to
it. -/
def recorded {ε : Type*} (step : σ → α → Option σ) (note : σ → α → List ε) (s : σ × List ε)
    (a : α) : Option (σ × List ε) := (step s.1 a).map fun t => (t, s.2 ++ note s.1 a)

theorem Reaches.refl (s : σ) : Reaches step s s := Relation.ReflTransGen.refl

theorem Reaches.snoc {a : α} (h : Reaches step s t) (hs : step t a = some u) : Reaches step s u :=
  Relation.ReflTransGen.tail h ⟨a, hs⟩

theorem Reaches.trans (h : Reaches step s t) (h' : Reaches step t u) : Reaches step s u :=
  Relation.ReflTransGen.trans h h'

theorem restrict_eq_some {guard : σ → α → Bool} {a : α} :
    restrict step guard s a = some t ↔ guard s a = true ∧ step s a = some t := by
  unfold restrict
  split <;> simp_all

theorem recorded_eq_some {ε : Type*} {note : σ → α → List ε} {s t : σ × List ε} {a : α} :
    recorded step note s a = some t ↔ step s.1 a = some t.1 ∧ t.2 = s.2 ++ note s.1 a := by
  unfold recorded
  rw [Option.map_eq_some_iff]
  constructor
  · rintro ⟨u, hu, rfl⟩
    exact ⟨hu, rfl⟩
  · rintro ⟨hs, hlog⟩
    exact ⟨t.1, hs, Prod.ext rfl hlog.symm⟩

/-- The invariant rule: a predicate kept by every enabled step holds in every reached state.  The
step case also knows that its source state is reached. -/
theorem Reaches.invariant {I : σ → Prop} (h : Reaches step s t) (hinit : I s)
    (hstep : ∀ u a v, Reaches step s u → step u a = some v → I u → I v) : I t := by
  induction h with
  | refl => exact hinit
  | tail hr hm ih =>
      obtain ⟨a, ha⟩ := hm
      exact hstep _ a _ hr ha ih

/-- The invariant rule for a predicate that only holds below a bound.  The bound can only be
crossed in one direction, so it held in every state before one that meets it. -/
theorem Reaches.invariant_below {B I : σ → Prop} (h : Reaches step s t)
    (hback : ∀ u a v, step u a = some v → B v → B u) (hinit : I s)
    (hstep : ∀ u a v, Reaches step s u → step u a = some v → B v → I u → I v)
    (hb : B t) : I t := by
  induction h with
  | refl => exact hinit
  | tail hr hm ih =>
      obtain ⟨a, ha⟩ := hm
      exact hstep _ a _ hr ha hb (ih (hback _ a _ ha hb))

theorem Reaches.of_restrict {guard : σ → α → Bool} (h : Reaches (restrict step guard) s t) :
    Reaches step s t := by
  refine h.invariant (Reaches.refl s) ?_
  intro u a v _ hstep hu
  exact hu.snoc (restrict_eq_some.mp hstep).2

/-- A stricter guard reaches less. -/
theorem Reaches.restrict_mono {guard guard' : σ → α → Bool}
    (h : Reaches (restrict step guard) s t)
    (hguard : ∀ u a, guard u a = true → guard' u a = true) :
    Reaches (restrict step guard') s t := by
  refine h.invariant (Reaches.refl s) ?_
  intro u a v _ hstep hu
  obtain ⟨hg, hs⟩ := restrict_eq_some.mp hstep
  exact hu.snoc (restrict_eq_some.mpr ⟨hguard u a hg, hs⟩)

theorem reaches_of_run {l : List α} (h : run step s l = some t) : Reaches step s t := by
  induction l generalizing s with
  | nil =>
      simp only [run, Option.some.injEq] at h
      exact h ▸ Reaches.refl s
  | cons a as ih =>
      simp only [run, Option.bind_eq_some_iff] at h
      obtain ⟨u, hu, hrun⟩ := h
      exact ((Reaches.refl s).snoc hu).trans (ih hrun)

theorem run_of_restrict {guard : σ → α → Bool} {as : List α}
    (h : run (restrict step guard) s as = some t) : run step s as = some t := by
  induction as generalizing s with
  | nil => exact h
  | cons a as ih =>
      simp only [run, Option.bind_eq_some_iff] at h ⊢
      obtain ⟨u, hu, hrun⟩ := h
      exact ⟨u, (restrict_eq_some.mp hu).2, ih hrun⟩

/-- The simulation rule: what is related step by step is related along every schedule.  An action
that `f` leaves out is one that the second system does not take. -/
theorem run_simulates {τ β : Type*} {step' : τ → β → Option τ} {f : α → Option β} {R : σ → τ → Prop}
    (hstep : ∀ s a b t s', f a = some b → R s s' → step s a = some t →
      ∃ t', step' s' b = some t' ∧ R t t')
    (hskip : ∀ s a t s', f a = none → R s s' → step s a = some t → R t s')
    {as : List α} {s' : τ} (hrun : run step s as = some t) (hinit : R s s') :
    ∃ t', run step' s' (as.filterMap f) = some t' ∧ R t t' := by
  induction as generalizing s s' with
  | nil =>
      simp only [run, Option.some.injEq] at hrun
      exact ⟨s', rfl, hrun ▸ hinit⟩
  | cons a as ih =>
      simp only [run, Option.bind_eq_some_iff] at hrun
      obtain ⟨u, hu, hrest⟩ := hrun
      cases hf : f a with
      | none =>
          rw [List.filterMap_cons_none hf]
          exact ih hrest (hskip s a u s' hf hinit hu)
      | some b =>
          obtain ⟨u', hu', hR⟩ := hstep s a b u s' hf hinit hu
          obtain ⟨t', ht', hR'⟩ := ih hrest hR
          refine ⟨t', ?_, hR'⟩
          rw [List.filterMap_cons_some hf, run, hu']
          exact ht'

/-- The state after a schedule that can be performed. -/
theorem reaches_get {as : List α} (h : (run step s as).isSome = true) :
    Reaches step s ((run step s as).get h) := reaches_of_run (Option.some_get h).symm

end GoLabs.Reasoning
