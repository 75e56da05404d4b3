import GoLabs.Tester.Requests

/-!
# Who owns which persister

Every instance works on a persister of its own.  When a server is shut down, what its instance has
saved is copied to a persister that no instance works on, and from there to the persister of the
next instance.
-/

open GoLabs.Reasoning

namespace GoLabs.Tester

variable {n : Nat} {sg sg' : ServerGrp n} {i : Fin n} {log : List SaveEvent}

/-! ## Instances of a server -/

/-- `k` is the last instance of server `i`. -/
structure LastOf (l : List (Instance n)) (i : Fin n) (k : Nat) (inst : Instance n) : Prop where
  mem : l[k]? = some inst
  srv : inst.srv = i
  last : ∀ k' inst', k < k' → l[k']? = some inst' → inst'.srv ≠ i

/-- `k'` is the next instance of the server of `k`. -/
structure NextOf (l : List (Instance n)) (k k' : Nat) (inst inst' : Instance n) : Prop where
  old : l[k]? = some inst
  new : l[k']? = some inst'
  srv : inst'.srv = inst.srv
  lt : k < k'
  between : ∀ j m, k < j → j < k' → l[j]? = some m → m.srv ≠ inst.srv

/-- Position `b` of the log is the copy of `src` at a shutdown, from which `dst` was made when the
server was started again. -/
def CopiedOver (log : List SaveEvent) (src dst b : Nat) (contents : Persister) : Prop :=
  ∃ mid b', b < b' ∧ log[b]? = some (.copy src mid contents) ∧
    log[b']? = some (.copy mid dst contents)

theorem LastOf.of_snoc {l : List (Instance n)} {m inst : Instance n} {k : Nat}
    (h : LastOf (l ++ [m]) i k inst) (hm : m.srv ≠ i) : LastOf l i k inst := by
  obtain hmem | ⟨_, heq⟩ := getElem?_snoc_eq_some.mp h.mem
  · exact ⟨hmem, h.srv, fun k' inst' hlt hk' ↦ h.last k' inst' hlt (getElem?_append_of_some hk' _)⟩
  · exact absurd (heq ▸ h.srv) hm

theorem LastOf.snoc {l : List (Instance n)} {m inst : Instance n} {k : Nat}
    (h : LastOf l i k inst) (hm : m.srv ≠ i) : LastOf (l ++ [m]) i k inst := by
  refine ⟨getElem?_append_of_some h.mem _, h.srv, ?_⟩
  intro k' inst' hlt hk'
  obtain hold | ⟨_, heq⟩ := getElem?_snoc_eq_some.mp hk'
  · exact h.last k' inst' hlt hold
  · rwa [heq]

theorem CopiedOver.append {src dst b : Nat} {contents : Persister}
    (h : CopiedOver log src dst b contents) (evs : List SaveEvent) :
    CopiedOver (log ++ evs) src dst b contents := by
  obtain ⟨mid, b', hlt, hcopy, hcopy'⟩ := h
  exact ⟨mid, b', hlt, getElem?_append_of_some hcopy evs, getElem?_append_of_some hcopy' evs⟩

/-- A new instance of server `i` comes after its last one. -/
theorem NextOf.snoc_cases {l : List (Instance n)} {inst inst' m : Instance n} {k k' : Nat}
    (h : NextOf (l ++ [m]) k k' inst inst') :
    NextOf l k k' inst inst' ∨ k' = l.length ∧ inst' = m ∧ LastOf l m.srv k inst := by
  obtain ⟨hold, hnew, hsrv, hlt, hbetween⟩ := h
  have hk : k < l.length := by
    have := lt_length_of_getElem? hnew
    simp only [List.length_append, List.length_singleton] at this
    omega
  rw [List.getElem?_append_left hk] at hold
  have hbetween' : ∀ j x, k < j → j < k' → l[j]? = some x → x.srv ≠ inst.srv := by
    intro j x hj hj' hx
    exact hbetween j x hj hj' (getElem?_append_of_some hx _)
  obtain hin | ⟨hlast, heq⟩ := getElem?_snoc_eq_some.mp hnew
  · exact .inl ⟨hold, hin, hsrv, hlt, hbetween'⟩
  · right
    subst heq
    refine ⟨hlast, rfl, hold, hsrv.symm, ?_⟩
    intro j x hj hx
    rw [hsrv]
    exact hbetween' j x hj (hlast ▸ lt_length_of_getElem? hx) hx

/-! ## The invariant -/

/-- No instance works on the persister that the tester keeps for server `i`. -/
def Unowned (sg : ServerGrp n) (i : Fin n) : Prop :=
  ∀ (p k : Nat) (inst : Instance n), sg.saved i = some p → sg.instances[k]? = some inst →
    inst.persister ≠ p

/-- Instance `k` is the last one of server `i`, and works on the persister kept for it. -/
def Owned (sg : ServerGrp n) (i : Fin n) (k : Nat) : Prop :=
  ∃ inst, LastOf sg.instances i k inst ∧ sg.saved i = some inst.persister

/-- What is kept for server `i` was copied from the persister of its last instance. -/
def Retired (sg : ServerGrp n) (log : List SaveEvent) (i : Fin n) : Prop :=
  ∀ (k : Nat) (inst : Instance n), LastOf sg.instances i k inst →
    ∃ (p : Nat) (contents : Persister) (b : Nat), sg.saved i = some p ∧
      sg.persisters[p]? = some contents ∧ log[b]? = some (.copy inst.persister p contents)

/-- What is kept for server `i` was copied over from its last instance. -/
def Restored (sg : ServerGrp n) (log : List SaveEvent) (i : Fin n) : Prop :=
  ∀ (k : Nat) (inst : Instance n), LastOf sg.instances i k inst →
    ∃ p b contents, sg.saved i = some p ∧ CopiedOver log inst.persister p b contents

def PhaseOk (sg : ServerGrp n) (log : List SaveEvent) (i : Fin n) : Phase → Prop
  | .down => Unowned sg i ∧ Retired sg log i
  | .saved => Unowned sg i ∧ Restored sg log i
  | .booted k | .up k | .isolated k | .deleted k => Owned sg i k

structure Lineage (sg : ServerGrp n) (phases : Vector Phase n) (log : List SaveEvent) : Prop where
  saved_lt : ∀ i p, sg.saved i = some p → p < sg.persisters.length
  saved_inj : ∀ i j p, sg.saved i = some p → sg.saved j = some p → i = j
  persister_lt : ∀ (k : Nat) (inst : Instance n), sg.instances[k]? = some inst →
    inst.persister < sg.persisters.length
  persister_inj : ∀ (k k' : Nat) (inst inst' : Instance n), sg.instances[k]? = some inst →
    sg.instances[k']? = some inst' → inst.persister = inst'.persister → k = k'
  /-- What was copied is not kept any more. -/
  copied : ∀ src dst contents, SaveEvent.copy src dst contents ∈ log →
    src < sg.persisters.length ∧ ∀ i, sg.saved i ≠ some src
  servers : ∀ name k, sg.net.servers name = some k → ∃ i : Fin n, name = serverName sg.gid i ∧
    (phases[i] = .up k ∨ phases[i] = .isolated k)
  phase : ∀ i : Fin n, PhaseOk sg log i phases[i]
  chain : ∀ (k k' : Nat) (inst inst' : Instance n), NextOf sg.instances k k' inst inst' →
    ∃ b contents, CopiedOver log inst.persister inst'.persister b contents

/-- The instance that the network finds is the last one, and its persister was not copied. -/
theorem Lineage.not_copied {phases : Vector Phase n} (h : Lineage sg phases log)
    {name : GoString} {k : Nat} (hserver : sg.net.servers name = some k) :
    ∃ inst, sg.instances[k]? = some inst ∧
      ∀ dst contents, SaveEvent.copy inst.persister dst contents ∉ log := by
  obtain ⟨i, _, hphase⟩ := h.servers name k hserver
  have howned : Owned sg i k := by
    have hok := h.phase i
    obtain hup | hiso := hphase
    · rwa [hup] at hok
    · rwa [hiso] at hok
  obtain ⟨inst, hlast, hsaved⟩ := howned
  refine ⟨inst, hlast.mem, ?_⟩
  intro dst contents hmem
  exact (h.copied _ _ _ hmem).2 i hsaved

/-! ## Steps that copy nothing -/

/-- The log grows, and a server's instances and its persister stay. -/
theorem PhaseOk.append {phase : Phase} (h : PhaseOk sg log i phase)
    (hinst : sg'.instances = sg.instances) (hsaved : sg'.saved i = sg.saved i)
    (hkept : ∀ p, sg.saved i = some p → Unowned sg i → sg'.persisters[p]? = sg.persisters[p]?)
    (evs : List SaveEvent) : PhaseOk sg' (log ++ evs) i phase := by
  have hunowned : Unowned sg i → Unowned sg' i := by
    intro hun
    unfold Unowned
    rw [hinst, hsaved]
    exact hun
  cases phase with
  | down =>
      refine ⟨hunowned h.1, ?_⟩
      intro k inst hlast
      rw [hinst] at hlast
      obtain ⟨p, contents, b, hp, hcontents, hcopy⟩ := h.2 k inst hlast
      exact ⟨p, contents, b, hsaved.trans hp, (hkept p hp h.1).trans hcontents,
        getElem?_append_of_some hcopy evs⟩
  | saved =>
      refine ⟨hunowned h.1, ?_⟩
      intro k inst hlast
      rw [hinst] at hlast
      obtain ⟨p, b, contents, hp, hover⟩ := h.2 k inst hlast
      exact ⟨p, b, contents, hsaved.trans hp, hover.append evs⟩
  | booted k | up k | isolated k | deleted k =>
      obtain ⟨inst, hlast, hp⟩ := h
      exact ⟨inst, by rw [hinst]; exact hlast, hsaved.trans hp⟩

/-- A step that neither starts nor shuts down a server, and saves at most. -/
theorem Lineage.quiet {phases : Vector Phase n} (h : Lineage sg phases log)
    (hsrvs : sg'.srvs = sg.srvs) (hinst : sg'.instances = sg.instances) (hgid : sg'.gid = sg.gid)
    (hservers : sg'.net.servers = sg.net.servers)
    (hlen : sg'.persisters.length = sg.persisters.length)
    (hkept : ∀ i p, sg.saved i = some p → Unowned sg i → sg'.persisters[p]? = sg.persisters[p]?)
    {evs : List SaveEvent} (hevs : ∀ src dst contents, SaveEvent.copy src dst contents ∉ evs) :
    Lineage sg' phases (log ++ evs) := by
  have hsaved : ∀ i, sg'.saved i = sg.saved i := by
    intro i
    unfold ServerGrp.saved
    rw [hsrvs]
  constructor
  · intro i p hp
    rw [hlen]
    exact h.saved_lt i p (hsaved i ▸ hp)
  · intro i j p hi hj
    exact h.saved_inj i j p (hsaved i ▸ hi) (hsaved j ▸ hj)
  · rw [hinst, hlen]
    exact h.persister_lt
  · rw [hinst]
    exact h.persister_inj
  · intro src dst contents hmem
    obtain hold | hnew := List.mem_append.mp hmem
    · rw [hlen]
      obtain ⟨hlt, hne⟩ := h.copied src dst contents hold
      exact ⟨hlt, fun i ↦ hsaved i ▸ hne i⟩
    · exact absurd hnew (hevs src dst contents)
  · rw [hservers, hgid]
    exact h.servers
  · intro i
    exact (h.phase i).append hinst (hsaved i) (hkept i) evs
  · intro k k' inst inst' hnext
    rw [hinst] at hnext
    obtain ⟨b, contents, hover⟩ := h.chain k k' inst inst' hnext
    exact ⟨b, contents, hover.append evs⟩

/-! ## Starting and shutting down -/

/-- The event of copying what is kept for server `i`. -/
def copyOf (sg : ServerGrp n) (i : Fin n) : List SaveEvent :=
  match sg.saved i with
  | some p => [.copy p sg.persisters.length (sg.copy (some p))]
  | none => []

/-- Server `i` gets a new persister, and what was kept for it is copied at most. -/
structure Renews (sg : ServerGrp n) (i : Fin n) (sg' : ServerGrp n) : Prop where
  saved : ∀ j, sg'.saved j = if j = i then some sg.persisters.length else sg.saved j
  persisters : sg'.persisters = sg.persisters ++ [sg.copy (sg.saved i)]
  instances : sg'.instances = sg.instances
  gid : sg'.gid = sg.gid
  servers : sg'.net.servers = sg.net.servers

theorem renews_startSaved {endNames : Vector EndName n} (h : sg.startSaved i endNames = some sg') :
    Renews sg i sg' := by
  obtain ⟨net, hnet, rfl⟩ := Option.map_eq_some_iff.mp h
  refine ⟨?_, rfl, rfl, rfl, (makes_makeServer hnet).servers⟩
  intro j
  unfold ServerGrp.saved
  rw [getElem_set_fin]
  split <;> rfl

theorem renews_shutdownSaved {p : Nat} (h : sg.saved i = some p) :
    Renews sg i (sg.shutdownSaved i) := by
  unfold ServerGrp.shutdownSaved
  rw [show sg.srvs[i].saved = some p from h]
  refine ⟨?_, by rw [h], rfl, rfl, rfl⟩
  intro j
  unfold ServerGrp.saved
  rw [getElem_set_fin]
  split <;> rfl

theorem Renews.length (hr : Renews sg i sg') :
    sg'.persisters.length = sg.persisters.length + 1 := by
  rw [hr.persisters, List.length_append, List.length_singleton]

theorem Renews.saved_self (hr : Renews sg i sg') : sg'.saved i = some sg.persisters.length := by
  rw [hr.saved, if_pos rfl]

theorem Renews.saved_ne (hr : Renews sg i sg') {j : Fin n} (hj : j ≠ i) :
    sg'.saved j = sg.saved j := by
  rw [hr.saved, if_neg hj]

/-- The address that is kept now is new, or it was kept before for the same server. -/
theorem Renews.saved_cases (hr : Renews sg i sg') {j : Fin n} {p : Nat}
    (hp : sg'.saved j = some p) :
    j = i ∧ p = sg.persisters.length ∨ j ≠ i ∧ sg.saved j = some p := by
  by_cases hj : j = i
  · rw [hj, hr.saved_self, Option.some.injEq] at hp
    exact .inl ⟨hj, hp.symm⟩
  · rw [hr.saved_ne hj] at hp
    exact .inr ⟨hj, hp⟩

/-- The copy that is made is of what was kept for server `i`, and that is not kept any more. -/
theorem Lineage.copied_renew {phases : Vector Phase n} (h : Lineage sg phases log)
    (hr : Renews sg i sg') {src dst : Nat} {contents : Persister}
    (hmem : SaveEvent.copy src dst contents ∈ log ++ copyOf sg i) :
    src < sg'.persisters.length ∧ ∀ j, sg'.saved j ≠ some src := by
  have hlen := hr.length
  have hkept : src < sg.persisters.length ∧ ∀ j, j ≠ i → sg.saved j ≠ some src := by
    obtain hin | hnew := List.mem_append.mp hmem
    · obtain ⟨hlt, hne⟩ := h.copied src dst contents hin
      exact ⟨hlt, fun j _ ↦ hne j⟩
    · unfold copyOf at hnew
      split at hnew
      · rename_i p hp
        have hsrc : src = p := by simp_all
        subst hsrc
        exact ⟨h.saved_lt i src hp, fun j hj hsaved ↦ hj (h.saved_inj j i src hsaved hp)⟩
      · cases hnew
  refine ⟨by omega, ?_⟩
  intro j hj
  obtain ⟨-, hsrc⟩ | ⟨hji, hold⟩ := hr.saved_cases hj
  · omega
  · exact hkept.2 j hji hold

theorem Lineage.renew {phases : Vector Phase n} (h : Lineage sg phases log)
    (hr : Renews sg i sg') {phase : Phase}
    (hold : ∀ k, phases[i] ≠ .up k ∧ phases[i] ≠ .isolated k)
    (hphase : PhaseOk sg' (log ++ copyOf sg i) i phase) :
    Lineage sg' (phases.set i phase i.isLt) (log ++ copyOf sg i) := by
  have hlen := hr.length
  constructor
  · intro j p hp
    obtain ⟨-, rfl⟩ | ⟨-, hold⟩ := hr.saved_cases hp
    · omega
    · have := h.saved_lt j p hold
      omega
  · -- the new address is not the address of any other server's persister
    intro j j' p hj hj'
    obtain ⟨hji, hp⟩ | ⟨-, hold⟩ := hr.saved_cases hj <;>
      obtain ⟨hji', hp'⟩ | ⟨-, hold'⟩ := hr.saved_cases hj'
    · rw [hji, hji']
    · have := h.saved_lt j' p hold'
      omega
    · have := h.saved_lt j p hold
      omega
    · exact h.saved_inj j j' p hold hold'
  · intro k inst hk
    rw [hr.instances] at hk
    have := h.persister_lt k inst hk
    omega
  · rw [hr.instances]
    exact h.persister_inj
  · intro src dst contents hmem
    exact h.copied_renew hr hmem
  · -- a name that leads to an instance is of a server that is up, which `i` is not
    intro name k hk
    rw [hr.servers] at hk
    obtain ⟨j, hname, hup⟩ := h.servers name k hk
    have hj : j ≠ i := by
      intro hji
      subst hji
      obtain hup | hiso := hup
      · exact (hold k).1 hup
      · exact (hold k).2 hiso
    refine ⟨j, by rw [hname, hr.gid], ?_⟩
    rw [getElem_set_fin, if_neg hj]
    exact hup
  · intro j
    rw [getElem_set_fin]
    split
    · rename_i hj
      rw [hj]
      exact hphase
    · rename_i hj
      apply (h.phase j).append hr.instances (hr.saved_ne hj)
      intro p hp _
      rw [hr.persisters, List.getElem?_append_left (h.saved_lt j p hp)]
  · intro k k' inst inst' hnext
    rw [hr.instances] at hnext
    obtain ⟨b, contents, hover⟩ := h.chain k k' inst inst' hnext
    exact ⟨b, contents, hover.append _⟩

theorem Lineage.shutdown {phases : Vector Phase n} (h : Lineage sg phases log) {k : Nat}
    (hphase : phases[i] = .deleted k) :
    Lineage (sg.shutdownSaved i) (phases.set i .down i.isLt) (log ++ copyOf sg i) := by
  have hok := h.phase i
  rw [hphase] at hok
  obtain ⟨inst, hlast, hsaved⟩ := hok
  have hr := renews_shutdownSaved hsaved
  apply h.renew hr (by simp [hphase])
  have hcopy : copyOf sg i =
      [.copy inst.persister sg.persisters.length (sg.copy (some inst.persister))] := by
    unfold copyOf
    rw [hsaved]
  constructor
  · intro p k' m hp hm heq
    rw [hr.saved, if_pos rfl, Option.some.injEq] at hp
    rw [hr.instances] at hm
    have := h.persister_lt k' m hm
    omega
  · intro k' m hm
    rw [hr.instances] at hm
    -- the last instance is the one whose persister is copied
    have heq : k' = k := by
      obtain hlt | heq | hgt := Nat.lt_trichotomy k' k
      · exact absurd hlast.srv (hm.last k inst hlt hlast.mem)
      · exact heq
      · exact absurd hm.srv (hlast.last k' m hgt hm.mem)
    subst heq
    have hinst : m = inst := Option.some.inj (hm.mem.symm.trans hlast.mem)
    subst hinst
    refine ⟨sg.persisters.length, sg.copy (some m.persister), log.length, ?_, ?_, ?_⟩
    · rw [hr.saved, if_pos rfl]
    · rw [hr.persisters, hsaved]
      simp
    · rw [hcopy]
      simp

theorem Lineage.start {phases : Vector Phase n} (h : Lineage sg phases log)
    {endNames : Vector EndName n} (hphase : phases[i] = .down)
    (hs : sg.startSaved i endNames = some sg') :
    Lineage sg' (phases.set i .saved i.isLt) (log ++ copyOf sg i) := by
  have hr := renews_startSaved hs
  have hok := h.phase i
  rw [hphase] at hok
  apply h.renew hr (by simp [hphase])
  constructor
  · intro p k m hp hm heq
    rw [hr.saved, if_pos rfl, Option.some.injEq] at hp
    rw [hr.instances] at hm
    have := h.persister_lt k m hm
    omega
  · intro k inst hlast
    rw [hr.instances] at hlast
    obtain ⟨p, contents, b, hp, hcontents, hcopy⟩ := hok.2 k inst hlast
    have hcopy' : copyOf sg i = [.copy p sg.persisters.length contents] := by
      unfold copyOf ServerGrp.copy
      simp [hp, hcontents]
    refine ⟨sg.persisters.length, b, contents, by rw [hr.saved, if_pos rfl], p, log.length,
      lt_length_of_getElem? hcopy, getElem?_append_of_some hcopy _, ?_⟩
    rw [hcopy']
    simp

theorem Lineage.boot {phases : Vector Phase n} (h : Lineage sg phases log) {p : Nat}
    (hphase : phases[i] = .saved) (hp : sg.saved i = some p) :
    Lineage (sg.boot i p) (phases.set i (.booted sg.instances.length) i.isLt) log := by
  have hok := h.phase i
  rw [hphase] at hok
  obtain ⟨hunowned, hrestored⟩ := hok
  constructor
  · exact h.saved_lt
  · exact h.saved_inj
  · intro k inst hk
    obtain hold | ⟨_, rfl⟩ := getElem?_snoc_eq_some.mp hk
    · exact h.persister_lt k inst hold
    · exact h.saved_lt i p hp
  · intro k k' inst inst' hk hk' heq
    obtain hold | ⟨hlen, rfl⟩ := getElem?_snoc_eq_some.mp hk <;>
      obtain hold' | ⟨hlen', rfl⟩ := getElem?_snoc_eq_some.mp hk'
    · exact h.persister_inj k k' inst inst' hold hold' heq
    · exact absurd heq (hunowned p k inst hp hold)
    · exact absurd heq.symm (hunowned p k' inst' hp hold')
    · rw [hlen, hlen']
  · exact h.copied
  · intro name k hk
    obtain ⟨j, hname, hup⟩ := h.servers name k hk
    have hj : j ≠ i := by
      intro hji
      subst hji
      simp [hphase] at hup
    refine ⟨j, hname, ?_⟩
    rw [getElem_set_fin, if_neg hj]
    exact hup
  · intro j
    rw [getElem_set_fin]
    split
    · rename_i hj
      subst hj
      -- the new instance is the last one of its server
      refine ⟨⟨j, p⟩, ⟨by simp [ServerGrp.boot], rfl, ?_⟩, hp⟩
      intro k' inst' hlt hk'
      have := lt_length_of_getElem? hk'
      simp only [ServerGrp.boot, List.length_append, List.length_singleton] at this
      omega
    · rename_i hj
      have hne : i ≠ j := Ne.symm hj
      have hunowned' : Unowned sg j → Unowned (sg.boot i p) j := by
        intro hun q k inst hq hk
        obtain hold | ⟨_, rfl⟩ := getElem?_snoc_eq_some.mp hk
        · exact hun q k inst hq hold
        · intro heq
          subst heq
          exact hne (h.saved_inj i j p hp hq)
      have hother := h.phase j
      cases hph : phases[j] with
      | down =>
          rw [hph] at hother
          exact ⟨hunowned' hother.1, fun k inst hlast ↦ hother.2 k inst (hlast.of_snoc hne)⟩
      | saved =>
          rw [hph] at hother
          exact ⟨hunowned' hother.1, fun k inst hlast ↦ hother.2 k inst (hlast.of_snoc hne)⟩
      | booted k | up k | isolated k | deleted k =>
          rw [hph] at hother
          obtain ⟨inst, hlast, hq⟩ := hother
          exact ⟨inst, hlast.snoc hne, hq⟩
  · intro k k' inst inst' hnext
    obtain hold | ⟨_, rfl, hlast⟩ := hnext.snoc_cases
    · exact h.chain k k' inst inst' hold
    · obtain ⟨q, b, contents, hq, hover⟩ := hrestored k inst hlast
      rw [hp, Option.some.injEq] at hq
      exact ⟨b, contents, hq ▸ hover⟩

/-- A step that moves server `i` on with its instance; only the network's servers may change. -/
theorem Lineage.advance {phases : Vector Phase n} (h : Lineage sg phases log) {phase : Phase}
    (hsrvs : sg'.srvs = sg.srvs) (hinst : sg'.instances = sg.instances)
    (hpers : sg'.persisters = sg.persisters) (hphase : PhaseOk sg log i phase)
    (hservers : ∀ name k, sg'.net.servers name = some k → ∃ j : Fin n,
      name = serverName sg'.gid j ∧ if j = i then phase = .up k ∨ phase = .isolated k
        else phases[j] = .up k ∨ phases[j] = .isolated k) :
    Lineage sg' (phases.set i phase i.isLt) log := by
  have hsaved : ∀ i, sg'.saved i = sg.saved i := by
    intro i
    unfold ServerGrp.saved
    rw [hsrvs]
  have hok : ∀ j phase, PhaseOk sg log j phase → PhaseOk sg' log j phase := by
    intro j phase hj
    have := hj.append hinst (hsaved j) (fun p _ _ ↦ by rw [hpers]) []
    rwa [List.append_nil] at this
  constructor
  · simpa only [hsaved, hpers] using h.saved_lt
  · simpa only [hsaved] using h.saved_inj
  · simpa only [hinst, hpers] using h.persister_lt
  · simpa only [hinst] using h.persister_inj
  · simpa only [hsaved, hpers] using h.copied
  · intro name k hk
    obtain ⟨j, hname, hup⟩ := hservers name k hk
    refine ⟨j, hname, ?_⟩
    rw [getElem_set_fin]
    split at hup
    · rename_i hj
      rwa [if_pos hj]
    · rename_i hj
      rwa [if_neg hj]
  · intro j
    rw [getElem_set_fin]
    split
    · rename_i hj
      exact hok j phase (hj ▸ hphase)
    · exact hok j _ (h.phase j)
  · simpa only [hinst] using h.chain

/-- The network's servers, apart from server `i`. -/
theorem Lineage.servers_other {phases : Vector Phase n} (h : Lineage sg phases log)
    {name : GoString} {k : Nat} (hne : name ≠ serverName sg.gid i)
    (hk : sg.net.servers name = some k) : ∃ j : Fin n, name = serverName sg.gid j ∧ j ≠ i ∧
      (phases[j] = .up k ∨ phases[j] = .isolated k) := by
  obtain ⟨j, hname, hup⟩ := h.servers name k hk
  refine ⟨j, hname, ?_, hup⟩
  intro hj
  exact hne (hj ▸ hname)

theorem Lineage.add {phases : Vector Phase n} (h : Lineage sg phases log) {k : Nat}
    (hphase : phases[i] = .booted k) :
    Lineage (sg.addServer i k) (phases.set i (.up k) i.isLt) log := by
  have hok : PhaseOk sg log i (.up k) := by
    have hold := h.phase i
    rw [hphase] at hold
    exact hold
  apply h.advance (by rfl) (by rfl) (by rfl) hok
  intro name k' hk
  by_cases hname : name = serverName sg.gid i
  · refine ⟨i, hname, ?_⟩
    rw [if_pos rfl]
    simp only [ServerGrp.addServer, Network.addServer, hname, Function.update_self,
      Option.some.injEq] at hk
    exact .inl (by rw [hk])
  · simp only [ServerGrp.addServer, Network.addServer, Function.update_of_ne hname] at hk
    obtain ⟨j, hj, hne, hup⟩ := h.servers_other hname hk
    exact ⟨j, hj, by rwa [if_neg hne]⟩

theorem Lineage.delete {phases : Vector Phase n} (h : Lineage sg phases log) {k : Nat}
    (hphase : phases[i] = .isolated k) :
    Lineage (sg.deleteServer i) (phases.set i (.deleted k) i.isLt) log := by
  have hok : PhaseOk sg log i (.deleted k) := by
    have hold := h.phase i
    rw [hphase] at hold
    exact hold
  apply h.advance (by rfl) (by rfl) (by rfl) hok
  intro name k' hk
  by_cases hname : name = serverName sg.gid i
  · simp [ServerGrp.deleteServer, Network.deleteServer, hname] at hk
  · simp only [ServerGrp.deleteServer, Network.deleteServer, Function.update_of_ne hname] at hk
    obtain ⟨j, hj, hne, hup⟩ := h.servers_other hname hk
    exact ⟨j, hj, by rwa [if_neg hne]⟩

theorem Lineage.disconnect {phases : Vector Phase n} (h : Lineage sg phases log) {k : Nat}
    (hphase : phases[i] = .up k) :
    Lineage (sg.disconnectAll i) (phases.set i (.isolated k) i.isLt) log := by
  have hok : PhaseOk sg log i (.isolated k) := by
    have hold := h.phase i
    rw [hphase] at hold
    exact hold
  have hservers : (sg.disconnectAll i).net.servers = sg.net.servers := by
    unfold ServerGrp.disconnectAll ServerGrp.disconnect
    rw [Network.servers_foldl, Network.servers_foldl]
  apply h.advance (by rfl) (by rfl) (by rfl) hok
  intro name k' hk
  rw [hservers] at hk
  obtain ⟨j, hname, hup⟩ := h.servers name k' hk
  refine ⟨j, hname, ?_⟩
  split
  · rename_i hj
    subst hj
    simp_all
  · exact hup

end GoLabs.Tester
