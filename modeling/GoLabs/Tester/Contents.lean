import GoLabs.Tester.Lineage

/-!
# What is in a persister

A persister holds what the last `Save` of its instance left there or, before the first one, what it
was copied from.  So the log of saves and copies says what every persister holds, at every time.
-/

open GoLabs.Reasoning

namespace GoLabs.Tester

variable {n : Nat} {instances : List (Instance n)} {log : List SaveEvent} {p : Nat}

/-- What an event leaves at address `p`; `instances` says which persister an instance works on. -/
def SaveEvent.writes (instances : List (Instance n)) (p : Nat) : SaveEvent → Option Persister
  | .save _ k contents =>
      if (instances[k]?).map Instance.persister = some p then some contents else none
  | .copy _ dst contents => if dst = p then some contents else none

/-- What a persister holds after the events of a log. -/
def contentsAt (instances : List (Instance n)) (p : Nat) (log : List SaveEvent) : Persister :=
  log.foldl (fun contents e => (e.writes instances p).getD contents) makePersister

theorem contentsAt_snoc (e : SaveEvent) : contentsAt instances p (log ++ [e]) =
    (e.writes instances p).getD (contentsAt instances p log) := by
  rw [contentsAt, contentsAt, List.foldl_append, List.foldl_cons, List.foldl_nil]

/-- Events that are about other persisters. -/
theorem contentsAt_append_of_none {evs : List SaveEvent}
    (h : ∀ e ∈ evs, e.writes instances p = none) :
    contentsAt instances p (log ++ evs) = contentsAt instances p log := by
  induction evs using List.reverseRecOn with
  | nil => rw [List.append_nil]
  | append_singleton evs e ih =>
      obtain ⟨hevs, he⟩ := List.forall_mem_append.mp h
      rw [← List.append_assoc, contentsAt_snoc, he e List.mem_cons_self, Option.getD_none, ih hevs]

/-- The last event about a persister says what it holds. -/
theorem contentsAt_of_last {b : Nat} {e : SaveEvent} {contents : Persister} (hb : log[b]? = some e)
    (he : e.writes instances p = some contents)
    (hlast : ∀ (a : Nat) (e' : SaveEvent), b < a → log[a]? = some e' →
      e'.writes instances p = none) : contentsAt instances p log = contents := by
  obtain ⟨hlt, hget⟩ := List.getElem?_eq_some_iff.mp hb
  have hsplit : log = (log.take b ++ [e]) ++ log.drop (b + 1) := by
    rw [← hget, List.take_append_getElem, List.take_append_drop]
  rw [hsplit, contentsAt_append_of_none, contentsAt_snoc, he, Option.getD_some]
  intro e' he'
  obtain ⟨j, hj⟩ := List.mem_iff_getElem?.mp he'
  rw [List.getElem?_drop] at hj
  exact hlast (b + 1 + j) e' (by omega) hj

/-- A new instance saves nothing before it is there. -/
theorem contentsAt_snoc_instance {m : Instance n}
    (h : ∀ r k contents, .save r k contents ∈ log → k < instances.length) :
    contentsAt (instances ++ [m]) p log = contentsAt instances p log := by
  induction log using List.reverseRecOn with
  | nil => rfl
  | append_singleton log e ih =>
      have hsame : e.writes (instances ++ [m]) p = e.writes instances p := by
        cases e with
        | copy src dst contents => rfl
        | save r k contents =>
            have hk := h r k contents (List.mem_append_right _ List.mem_cons_self)
            rw [SaveEvent.writes, SaveEvent.writes, List.getElem?_append_left hk]
      rw [contentsAt_snoc, contentsAt_snoc, hsame,
        ih fun r k contents hmem ↦ h r k contents (List.mem_append_left _ hmem)]

/-! ## Steps of the cluster -/

variable {sg sg' : ServerGrp n} {c c' : Cluster n}

/-- A save changes one persister, that of its instance. -/
theorem Cluster.saveBy_eq_some {k : Nat} {contents : Persister}
    (h : c.saveBy k contents = some c') :
    ∃ inst, c.grp.instances[k]? = some inst ∧ c' = { c with grp :=
      { c.grp with persisters := c.grp.persisters.set inst.persister contents } } := by
  obtain ⟨inst, hinst, rfl⟩ := Option.map_eq_some_iff.mp h
  exact ⟨inst, hinst, rfl⟩

/-- What a step does to the persisters, with its part of the log. -/
inductive Stores (sg sg' : ServerGrp n) : List SaveEvent → Prop where
  | nothing (hpers : sg'.persisters = sg.persisters)
      (hinst : sg'.instances = sg.instances ∨ ∃ m, sg'.instances = sg.instances ++ [m]) :
      Stores sg sg' []
  | save {r : Option Nat} {k : Nat} {inst : Instance n} {contents : Persister}
      (hk : sg.instances[k]? = some inst) (hinst : sg'.instances = sg.instances)
      (hpers : sg'.persisters = sg.persisters.set inst.persister contents) :
      Stores sg sg' [.save r k contents]
  | copy {i : Fin n} (hr : Renews sg i sg') : Stores sg sg' (copyOf sg i)

theorem stores_live {i : Fin n} {phase phase' : Phase} {step : LifeStep n}
    (h : c.grp.live i phase step = some (sg', phase')) :
    Stores c.grp sg' (c.note (.live i step)) := by
  unfold ServerGrp.live at h
  split at h
  · obtain ⟨sg'', hstart, heq⟩ := Option.map_eq_some_iff.mp h
    cases heq
    exact .copy (renews_startSaved hstart)
  · obtain ⟨p, -, heq⟩ := Option.map_eq_some_iff.mp h
    cases heq
    exact .nothing rfl (.inr ⟨_, rfl⟩)
  · cases h
    exact .nothing rfl (.inl rfl)
  · cases h
    exact .nothing rfl (.inl rfl)
  · cases h
    exact .nothing rfl (.inl rfl)
  · cases h
    change Stores _ _ (copyOf c.grp i)
    cases hsaved : c.grp.saved i with
    | some p => exact .copy (renews_shutdownSaved hsaved)
    | none =>
        -- `shutdownServer` copies nothing when nothing is kept
        rw [ServerGrp.shutdownSaved, show c.grp.srvs[i].saved = none from hsaved, copyOf, hsaved]
        exact .nothing rfl (.inl rfl)
  · cases h

theorem stores_step {a : ClusterStep n} (hs : c.step a = some c') :
    Stores c.grp c'.grp (c.note a) := by
  cases a with
  | net op =>
      obtain ⟨net, -, rfl⟩ := Option.map_eq_some_iff.mp hs
      exact .nothing rfl (.inl rfl)
  | live i step =>
      obtain ⟨⟨grp, phase⟩, hlive, rfl⟩ := Option.map_eq_some_iff.mp hs
      exact stores_live hlive
  | call endname =>
      cases hs
      exact .nothing rfl (.inl rfl)
  | req r step =>
      obtain ⟨q, -, hq⟩ := Option.bind_eq_some_iff.mp hs
      obtain ⟨q', -, rfl⟩ := Option.map_eq_some_iff.mp hq
      exact .nothing rfl (.inl rfl)
  | save r contents =>
      obtain ⟨k, hk, hsave⟩ := Option.bind_eq_some_iff.mp hs
      obtain ⟨inst, hinst, rfl⟩ := Cluster.saveBy_eq_some hsave
      simp only [Cluster.note, hk, Option.toList_some, List.map_cons, List.map_nil]
      exact .save hinst rfl rfl
  | background k contents =>
      obtain ⟨inst, hinst, rfl⟩ := Cluster.saveBy_eq_some hs
      exact .save hinst rfl rfl

/-- Instances keep their address. -/
theorem Stores.keeps_instances {evs : List SaveEvent} (h : Stores sg sg' evs) :
    sg.instances <+: sg'.instances := by
  cases h with
  | nothing hpers hinst =>
      obtain hinst | ⟨m, hinst⟩ := hinst <;> rw [hinst]
      exact List.prefix_append _ _
  | save hk hinst hpers => rw [hinst]
  | copy hr => rw [hr.instances]

/-! ## The log says it all -/

structure Replayed (sg : ServerGrp n) (log : List SaveEvent) : Prop where
  held : ∀ p < sg.persisters.length,
    sg.persisters[p]? = some (contentsAt sg.instances p log)
  /-- A copy is of what the events before it left. -/
  copied : ∀ (b src dst : Nat) (contents : Persister), log[b]? = some (.copy src dst contents) →
    contents = contentsAt sg.instances src (log.take b)
  /-- Nothing is copied to an address twice. -/
  once : ∀ (b b' src src' dst : Nat) (contents contents' : Persister),
    log[b]? = some (.copy src dst contents) → log[b']? = some (.copy src' dst contents') → b = b'
  dst_lt : ∀ src dst contents, .copy src dst contents ∈ log → dst < sg.persisters.length
  saved_lt : ∀ r k contents, .save r k contents ∈ log → k < sg.instances.length

theorem Replayed.init (h : sg.persisters = []) : Replayed sg [] := by
  refine ⟨?_, by simp, by simp, by simp, by simp⟩
  intro p hp
  rw [h] at hp
  cases hp

/-- The events of a log are about persisters that are there. -/
theorem Replayed.writes_eq_none (h : Replayed sg log)
    (hpers : ∀ (k : Nat) (inst : Instance n), sg.instances[k]? = some inst →
      inst.persister < sg.persisters.length) :
    ∀ e ∈ log, e.writes sg.instances sg.persisters.length = none := by
  intro e he
  cases e with
  | copy src dst contents =>
      have hlt := h.dst_lt src dst contents he
      exact if_neg (by omega)
  | save r k contents =>
      have hk := List.getElem?_eq_getElem (h.saved_lt r k contents he)
      have hlt := hpers k _ hk
      rw [SaveEvent.writes, hk]
      exact if_neg (by simp only [Option.map_some, Option.some.injEq]; omega)

theorem Replayed.save {r : Option Nat} {k : Nat} {inst : Instance n} {contents : Persister}
    (h : Replayed sg log) (hk : sg.instances[k]? = some inst)
    (hinst : sg'.instances = sg.instances)
    (hpers : sg'.persisters = sg.persisters.set inst.persister contents) :
    Replayed sg' (log ++ [.save r k contents]) := by
  have hcopy : ∀ {b src dst : Nat} {copied : Persister},
      (log ++ [.save r k contents])[b]? = some (.copy src dst copied) →
      log[b]? = some (.copy src dst copied) := by
    intro b src dst copied hb
    obtain hold | ⟨-, hnew⟩ := getElem?_snoc_eq_some.mp hb
    · exact hold
    · cases hnew
  constructor
  · intro p hp
    rw [hpers, List.length_set] at hp
    rw [hpers, hinst, contentsAt_snoc, SaveEvent.writes, hk, Option.map_some,
      List.getElem?_set]
    by_cases hpp : inst.persister = p
    · subst hpp
      simp [hp]
    · simpa [hpp] using h.held p hp
  · intro b src dst copied hb
    have hold := hcopy hb
    rw [hinst, List.take_append_of_le_length (lt_length_of_getElem? hold).le]
    exact h.copied b src dst copied hold
  · intro b b' src src' dst copied copied' hb hb'
    exact h.once b b' src src' dst copied copied' (hcopy hb) (hcopy hb')
  · intro src dst copied hmem
    rw [hpers, List.length_set]
    exact h.dst_lt src dst copied (mem_of_mem_snoc hmem (by simp))
  · intro r' k' contents' hmem
    rw [hinst]
    obtain hold | hnew := List.mem_append.mp hmem
    · exact h.saved_lt r' k' contents' hold
    · cases List.mem_singleton.mp hnew
      exact lt_length_of_getElem? hk

theorem Replayed.copy {i : Fin n} {phases : Vector Phase n} (h : Replayed sg log)
    (hlin : Lineage sg phases log) (hr : Renews sg i sg') :
    Replayed sg' (log ++ copyOf sg i) := by
  have hfresh := h.writes_eq_none hlin.persister_lt
  have hlen := hr.length
  -- the persisters that were there
  have hold : ∀ p < sg.persisters.length, sg'.persisters[p]? = sg.persisters[p]? := by
    intro p hp
    rw [hr.persisters, List.getElem?_append_left hp]
  have hnew : sg'.persisters[sg.persisters.length]? = some (sg.copy (sg.saved i)) := by
    rw [hr.persisters]
    exact List.getElem?_concat_length
  cases hsaved : sg.saved i with
  | none =>
      have hcopy : copyOf sg i = [] := by
        unfold copyOf
        rw [hsaved]
      rw [hcopy, List.append_nil]
      refine ⟨?_, ?_, h.once, ?_, ?_⟩
      · intro p hp
        rw [hr.instances]
        obtain hlt | rfl : p < sg.persisters.length ∨ p = sg.persisters.length := by omega
        · rw [hold p hlt]
          exact h.held p hlt
        · have hempty : contentsAt sg.instances sg.persisters.length ([] ++ log) = makePersister :=
            contentsAt_append_of_none hfresh
          rw [List.nil_append] at hempty
          rw [hnew, hsaved, hempty]
          rfl
      · rw [hr.instances]
        exact h.copied
      · intro src dst contents hmem
        have := h.dst_lt src dst contents hmem
        omega
      · rw [hr.instances]
        exact h.saved_lt
  | some q =>
      have hcopy : copyOf sg i = [.copy q sg.persisters.length (sg.copy (some q))] := by
        unfold copyOf
        rw [hsaved]
      have hq : sg.copy (some q) = contentsAt sg.instances q log := by
        unfold ServerGrp.copy
        rw [Option.bind_some, h.held q (hlin.saved_lt i q hsaved), Option.getD_some]
      rw [hcopy]
      constructor
      · intro p hp
        rw [hr.instances, contentsAt_snoc, SaveEvent.writes]
        obtain hlt | rfl : p < sg.persisters.length ∨ p = sg.persisters.length := by omega
        · rw [if_neg (by omega), hold p hlt, Option.getD_none]
          exact h.held p hlt
        · rw [if_pos rfl, hnew, hsaved, Option.getD_some]
      · intro b src dst contents hb
        rw [hr.instances]
        obtain hbefore | ⟨rfl, heq⟩ := getElem?_snoc_eq_some.mp hb
        · rw [List.take_append_of_le_length (lt_length_of_getElem? hbefore).le]
          exact h.copied b src dst contents hbefore
        · cases heq
          rw [List.take_left, hq]
      · -- the address of the copy is a new one
        have hdst : ∀ (b src : Nat) (contents : Persister),
            log[b]? ≠ some (.copy src sg.persisters.length contents) := by
          intro b src contents hb
          have := h.dst_lt _ _ _ (List.mem_of_getElem? hb)
          omega
        intro b b' src src' dst contents contents' hb hb'
        obtain hb | ⟨rfl, heq⟩ := getElem?_snoc_eq_some.mp hb <;>
          obtain hb' | ⟨rfl, heq'⟩ := getElem?_snoc_eq_some.mp hb'
        · exact h.once b b' src src' dst contents contents' hb hb'
        · cases heq'
          exact absurd hb (hdst b src contents)
        · cases heq
          exact absurd hb' (hdst b' src' contents')
        · rfl
      · intro src dst contents hmem
        obtain hbefore | heq := List.mem_append.mp hmem
        · have := h.dst_lt src dst contents hbefore
          omega
        · cases List.mem_singleton.mp heq
          omega
      · intro r k contents hmem
        rw [hr.instances]
        exact h.saved_lt r k contents (mem_of_mem_snoc hmem (by simp))

theorem Replayed.step {a : ClusterStep n} (h : Replayed c.grp log)
    (hlin : Lineage c.grp c.phases log) (hs : c.step a = some c') :
    Replayed c'.grp (log ++ c.note a) := by
  have hstores := stores_step hs
  generalize c.note a = evs at hstores
  cases hstores with
  | save hk hinst hpers => exact h.save hk hinst hpers
  | copy hr => exact h.copy hlin hr
  | nothing hpers hinst =>
      rw [List.append_nil]
      obtain hinst | ⟨m, hinst⟩ := hinst
      · refine ⟨?_, ?_, h.once, ?_, ?_⟩
        · rw [hpers, hinst]
          exact h.held
        · rw [hinst]
          exact h.copied
        · rw [hpers]
          exact h.dst_lt
        · rw [hinst]
          exact h.saved_lt
      · refine ⟨?_, ?_, h.once, ?_, ?_⟩
        · intro p hp
          rw [hpers] at hp
          rw [hpers, hinst, contentsAt_snoc_instance h.saved_lt]
          exact h.held p hp
        · intro b src dst contents hb
          rw [hinst, contentsAt_snoc_instance]
          · exact h.copied b src dst contents hb
          · exact fun r k x hmem ↦ h.saved_lt r k x (List.mem_of_mem_take hmem)
        · rw [hpers]
          exact h.dst_lt
        · intro r k contents hmem
          have := h.saved_lt r k contents hmem
          rw [hinst, List.length_append]
          omega

/-- What an instance reads. -/
theorem Replayed.read_eq (h : Replayed c.grp log) (hlin : Lineage c.grp c.phases log) {k : Nat}
    {inst : Instance n} (hinst : c.grp.instances[k]? = some inst) :
    c.read k = some (contentsAt c.grp.instances inst.persister log) := by
  rw [Cluster.read, hinst, Option.bind_some]
  exact h.held _ (hlin.persister_lt k inst hinst)

/-- An instance that has not saved yet reads what was copied to its persister. -/
theorem Replayed.read_copied (h : Replayed c.grp log) (hlin : Lineage c.grp c.phases log)
    {k b src : Nat} {inst : Instance n} {contents : Persister}
    (hinst : c.grp.instances[k]? = some inst)
    (hb : log[b]? = some (.copy src inst.persister contents))
    (hsaves : ∀ r x, .save r k x ∉ log) : c.read k = some contents := by
  rw [h.read_eq hlin hinst, contentsAt_of_last hb (if_pos rfl)]
  intro a e hlt ha
  cases e with
  | copy src' dst x =>
      refine if_neg fun hdst ↦ ?_
      subst hdst
      exact absurd (h.once b a src src' _ contents x hb ha) (by omega)
  | save r k' x =>
      refine if_neg fun heq ↦ ?_
      obtain ⟨inst', hinst', hpers⟩ := Option.map_eq_some_iff.mp heq
      have hk := hlin.persister_inj k' k inst' inst hinst' hinst hpers
      exact hsaves r x (hk ▸ List.mem_of_getElem? ha)

end GoLabs.Tester
