import GoLabs.Tester.Contents

/-!
# Acknowledged saves and restarts

`DeleteServer` comes before the persister is copied, and `processReq` looks for the server again
after its handler has returned.  So the saves of a handler whose `Call` returned true come before
the copy from which the next instance starts, the next instance reads what they left, and what an
old instance saves after that goes to a persister that no newer instance reads.
-/

open GoLabs.Reasoning

namespace GoLabs.Tester

variable {n : Nat} {sg sg' : ServerGrp n} {log : List SaveEvent} {c c' : Cluster n}

/-! ## Steps of the cluster -/

theorem Network.perform_servers {net net' : Network} {op : NetOp}
    (h : net.perform op = some net') : net'.servers = net.servers := by
  cases op with
  | makeEnd e =>
      obtain ⟨_, rfl⟩ := makeEnd_eq_some.mp h
      rfl
  | deleteEnd e =>
      simp only [perform, deleteEnd, Option.ite_none_right_eq_some, Option.some.injEq] at h
      rw [← h.2]
  | connect | enable | reliable | longReordering =>
      cases h
      rfl

theorem Lineage.saveBy {k : Nat} {contents : Persister} (h : Lineage c.grp c.phases log)
    (hs : c.saveBy k contents = some c') {evs : List SaveEvent}
    (hevs : ∀ src dst contents, SaveEvent.copy src dst contents ∉ evs) :
    Lineage c'.grp c'.phases (log ++ evs) := by
  obtain ⟨inst, hinst, rfl⟩ := Cluster.saveBy_eq_some hs
  apply h.quiet (by rfl) (by rfl) (by rfl) (by rfl) (by simp) _ hevs
  intro i p hp hunowned
  exact List.getElem?_set_ne (hunowned p k inst hp hinst)

theorem Lineage.live {i : Fin n} {step : LifeStep n} (h : Lineage c.grp c.phases log)
    (hs : c.step (.live i step) = some c') :
    Lineage c'.grp c'.phases (log ++ c.note (.live i step)) := by
  obtain ⟨⟨grp, phase⟩, hlive, rfl⟩ := Option.map_eq_some_iff.mp hs
  -- each step of a life is possible in one phase only
  cases step with
  | start endNames =>
      cases hphase : c.phases[i] with
      | down =>
          rw [hphase] at hlive
          obtain ⟨sg', hstart, heq⟩ := Option.map_eq_some_iff.mp hlive
          cases heq
          exact h.start hphase hstart
      | saved | booted | up | isolated | deleted => simp [hphase, ServerGrp.live] at hlive
  | boot =>
      cases hphase : c.phases[i] with
      | saved =>
          rw [hphase] at hlive
          obtain ⟨p, hp, heq⟩ := Option.map_eq_some_iff.mp hlive
          cases heq
          exact (List.append_nil log).symm ▸ h.boot hphase hp
      | down | booted | up | isolated | deleted => simp [hphase, ServerGrp.live] at hlive
  | add =>
      cases hphase : c.phases[i] with
      | booted k =>
          rw [hphase] at hlive
          cases hlive
          exact (List.append_nil log).symm ▸ h.add hphase
      | down | saved | up | isolated | deleted => simp [hphase, ServerGrp.live] at hlive
  | disconnect =>
      cases hphase : c.phases[i] with
      | up k =>
          rw [hphase] at hlive
          cases hlive
          exact (List.append_nil log).symm ▸ h.disconnect hphase
      | down | saved | booted | isolated | deleted => simp [hphase, ServerGrp.live] at hlive
  | delete =>
      cases hphase : c.phases[i] with
      | isolated k =>
          rw [hphase] at hlive
          cases hlive
          exact (List.append_nil log).symm ▸ h.delete hphase
      | down | saved | booted | up | deleted => simp [hphase, ServerGrp.live] at hlive
  | shutdown =>
      cases hphase : c.phases[i] with
      | deleted k =>
          rw [hphase] at hlive
          cases hlive
          exact h.shutdown hphase
      | down | saved | booted | up | isolated => simp [hphase, ServerGrp.live] at hlive

theorem Lineage.step {a : ClusterStep n} (h : Lineage c.grp c.phases log)
    (hs : c.step a = some c') : Lineage c'.grp c'.phases (log ++ c.note a) := by
  cases a with
  | net op =>
      obtain ⟨net, hnet, rfl⟩ := Option.map_eq_some_iff.mp hs
      exact h.quiet (by rfl) (by rfl) (by rfl) (by exact Network.perform_servers hnet) (by rfl)
        (by intros; rfl) (by simp [Cluster.note])
  | live i step => exact h.live hs
  | call endname =>
      cases hs
      exact (List.append_nil log).symm ▸ h
  | req r step =>
      obtain ⟨q, _, hq⟩ := Option.bind_eq_some_iff.mp hs
      obtain ⟨q', _, rfl⟩ := Option.map_eq_some_iff.mp hq
      exact (List.append_nil log).symm ▸ h
  | save r contents =>
      obtain ⟨k, hk, hsave⟩ := Option.bind_eq_some_iff.mp hs
      exact h.saveBy hsave (by simp [Cluster.note])
  | background k contents => exact h.saveBy hs (by simp [Cluster.note])

theorem Lineage.init {gid : Int} {names : Vector (Vector EndName n) n}
    (h : makeSrvGrp makeNetwork gid names = some sg) :
    Lineage (Cluster.init sg).grp (Cluster.init sg).phases [] := by
  obtain ⟨net, hnet, rfl⟩ := Option.map_eq_some_iff.mp h
  have hmakes := Network.makes_foldlM (fun i : Fin n => (List.finRange n).map fun j => names[i][j])
    (fun _ _ _ hrow ↦ makes_makeServer hrow) _ hnet
  constructor
  · simp [Cluster.init, ServerGrp.saved]
  · simp [Cluster.init, ServerGrp.saved]
  · simp [Cluster.init]
  · simp [Cluster.init]
  · simp
  · intro name k hk
    have hservers : net.servers = makeNetwork.servers := hmakes.servers
    simp [Cluster.init, hservers, makeNetwork] at hk
  · intro i
    simp only [Cluster.init, getElem_fin, Vector.getElem_replicate]
    refine ⟨by simp [Unowned], ?_⟩
    intro k inst hlast
    exact absurd hlast.mem (by simp)
  · intro k k' inst inst' hnext
    exact absurd hnext.old (by simp [Cluster.init])

/-! ## Requests -/

/-- The saves for request `r` come before every copy of the persister of instance `k`. -/
def SavedBefore (sg : ServerGrp n) (log : List SaveEvent) (r k : Nat) : Prop :=
  ∀ inst, sg.instances[k]? = some inst → ∀ (a b m dst : Nat) (contents copied : Persister),
    log[a]? = some (.save (some r) m contents) →
    log[b]? = some (.copy inst.persister dst copied) → a < b

/-- What follows from where `processReq` stands with request `r`. -/
def Req.PcOk (sg : ServerGrp n) (log : List SaveEvent) (r : Nat) (q : Req) : Prop :=
  match q.pc with
  | .sent => q.handler = .idle
  | .accepted _ k _ => q.handler = .idle ∧ k < sg.instances.length
  | .waiting _ k _ => q.handler = .running k ∨ q.handler = .returned k
  | .answered _ k _ => q.handler = .returned k
  | .alive _ | .replying true | .returned true =>
      ∃ k, q.handler = .returned k ∧ SavedBefore sg log r k
  | _ => True

structure Req.Ok (sg : ServerGrp n) (log : List SaveEvent) (r : Nat) (q : Req) : Prop where
  handler : ∀ k, q.handler = .running k ∨ q.handler = .returned k → k < sg.instances.length
  saves : ∀ m contents, SaveEvent.save (some r) m contents ∈ log →
    q.handler = .running m ∨ q.handler = .returned m
  pc : q.PcOk sg log r

/-- Once the handler has returned, only copies are added. -/
theorem SavedBefore.append {r k : Nat} {evs : List SaveEvent} (h : SavedBefore sg log r k)
    (hinst : ∀ inst, sg'.instances[k]? = some inst → sg.instances[k]? = some inst)
    (hevs : ∀ m contents, SaveEvent.save (some r) m contents ∉ evs) :
    SavedBefore sg' (log ++ evs) r k := by
  intro inst hk a b m dst contents copied ha hb
  have halt : a < log.length := by
    by_contra hge
    rw [List.getElem?_append_right (by omega)] at ha
    exact hevs m contents (List.mem_of_getElem? ha)
  rw [List.getElem?_append_left halt] at ha
  by_cases hblt : b < log.length
  · rw [List.getElem?_append_left hblt] at hb
    exact h inst (hinst inst hk) a b m dst contents copied ha hb
  · omega

/-- A step of others, or one that only saves for a request whose handler runs. -/
theorem Req.Ok.append {r : Nat} {q : Req} {evs : List SaveEvent} (h : q.Ok sg log r)
    (hinst : sg.instances <+: sg'.instances)
    (hevs : ∀ m contents, SaveEvent.save (some r) m contents ∈ evs → q.handler = .running m) :
    q.Ok sg' (log ++ evs) r := by
  have hlen := hinst.length_le
  -- an instance that was there before is still at its address
  have hsame : ∀ k inst, k < sg.instances.length → sg'.instances[k]? = some inst →
      sg.instances[k]? = some inst := by
    intro k inst hk hinst'
    obtain ⟨rest, heq⟩ := hinst
    rwa [← heq, List.getElem?_append_left hk] at hinst'
  have hacked : (∃ k, q.handler = .returned k ∧ SavedBefore sg log r k) →
      ∃ k, q.handler = .returned k ∧ SavedBefore sg' (log ++ evs) r k := by
    rintro ⟨k, hk, hbefore⟩
    refine ⟨k, hk, hbefore.append (fun inst ↦ hsame k inst (h.handler k (.inr hk))) ?_⟩
    intro m contents hmem
    have hrunning := hevs m contents hmem
    rw [hk] at hrunning
    cases hrunning
  refine ⟨fun k hk ↦ Nat.lt_of_lt_of_le (h.handler k hk) hlen, ?_, ?_⟩
  · intro m contents hmem
    obtain hold | hnew := List.mem_append.mp hmem
    · exact h.saves m contents hold
    · exact .inl (hevs m contents hnew)
  have hpc := h.pc
  unfold Req.PcOk at hpc ⊢
  split at hpc <;> simp_all
  omega

/-- A server that is not dead is the last instance, and its persister was not copied. -/
theorem Lineage.savedBefore {phases : Vector Phase n} {name : GoString} {k : Nat}
    (h : Lineage sg phases log) (hserver : sg.net.servers name = some k) (r : Nat) :
    k < sg.instances.length ∧ SavedBefore sg log r k := by
  obtain ⟨inst, hinst, hcopy⟩ := h.not_copied hserver
  refine ⟨lt_length_of_getElem? hinst, ?_⟩
  intro inst' hinst' a b m dst contents copied _ hb
  rw [hinst, Option.some.injEq] at hinst'
  subst hinst'
  exact absurd (List.mem_of_getElem? hb) (hcopy dst copied)

theorem Req.Ok.next {phases : Vector Phase n} {r : Nat} {q q' : Req} {step : ReqStep}
    (h : q.Ok sg log r) (hlin : Lineage sg phases log) (hs : q.next sg.net step = some q') :
    q'.Ok sg log r := by
  obtain ⟨e, pc, handler⟩ := q
  have hpc := h.pc
  have hhandler := h.handler
  have hsaves := h.saves
  cases step with
  | read =>
      simp only [Req.next] at hs
      split at hs <;> try cases hs
      split at hs <;> cases hs
      · rename_i name k _ hname hserver
        refine ⟨hhandler, hsaves, hpc, ?_⟩
        simp only [Network.readEndnameInfo] at hname hserver
        rw [hname, Option.bind_some] at hserver
        exact (hlin.savedBefore hserver r).1
      · exact ⟨hhandler, hsaves, trivial⟩
  | dropRequest =>
      simp only [Req.next] at hs
      split at hs <;> cases hs
      exact ⟨hhandler, hsaves, trivial⟩
  | dispatch =>
      simp only [Req.next] at hs
      split at hs <;> cases hs
      obtain ⟨hidle, hlt⟩ : handler = .idle ∧ _ := hpc
      refine ⟨?_, ?_, .inl rfl⟩
      · intro k' hk'
        simp only [Handler.running.injEq, reduceCtorEq, or_false] at hk'
        exact hk' ▸ hlt
      · -- nothing was saved for a request before its handler runs
        intro m contents hmem
        have hrunning := hsaves m contents hmem
        simp [hidle] at hrunning
  | handlerReturn =>
      simp only [Req.next] at hs
      split at hs <;> cases hs
      refine ⟨fun k' hk' ↦ hhandler k' (by simpa using hk'), ?_, ?_⟩
      · intro m contents hmem
        simpa using hsaves m contents hmem
      -- before the handler returns, its reply cannot have been taken
      unfold Req.PcOk at hpc ⊢
      cases pc <;> simp_all
      split <;> simp_all
      split <;> simp_all
  | receive =>
      simp only [Req.next] at hs
      split at hs <;> cases hs
      refine ⟨hhandler, hsaves, ?_⟩
      simpa [Req.PcOk] using hpc
  | giveUp =>
      simp only [Req.next] at hs
      split at hs <;> try cases hs
      split at hs <;> cases hs
      exact ⟨hhandler, hsaves, trivial⟩
  | check =>
      simp only [Req.next] at hs
      split at hs
      · rename_i _ name k reliable
        split at hs <;> cases hs
        · exact ⟨hhandler, hsaves, trivial⟩
        · rename_i halive
          have hserver : sg.net.servers name = some k := by
            simp only [Network.isServerDead] at halive
            simp_all
          exact ⟨hhandler, hsaves, k, hpc, (hlin.savedBefore hserver r).2⟩
      · cases hs
        exact ⟨hhandler, hsaves, trivial⟩
      · cases hs
  | dropReply =>
      simp only [Req.next] at hs
      split at hs <;> cases hs
      exact ⟨hhandler, hsaves, trivial⟩
  | reply =>
      simp only [Req.next] at hs
      split at hs <;> cases hs
      exact ⟨hhandler, hsaves, hpc⟩
  | deliver =>
      simp only [Req.next] at hs
      split at hs <;> cases hs
      rename_i _ ok
      refine ⟨hhandler, hsaves, ?_⟩
      cases ok with
      | false => trivial
      | true => exact hpc

namespace Cluster

/-- Only a handler that runs saves for its request. -/
theorem note_save {a : ClusterStep n} {r m : Nat} {contents : Persister}
    (h : .save (some r) m contents ∈ c.note a) : c.runningOn r = some m := by
  unfold note at h
  split at h <;> try split at h
  all_goals simp only [List.mem_map, List.mem_singleton, List.not_mem_nil, Option.mem_toList,
    reduceCtorEq, SaveEvent.save.injEq, false_and] at h
  obtain ⟨k, hk, hr, rfl, _⟩ := h
  rw [← Option.some.inj hr]
  exact hk

theorem handler_of_runningOn {r m : Nat} {q : Req} (hq : c.reqs[r]? = some q)
    (h : c.runningOn r = some m) : q.handler = .running m := by
  obtain ⟨e, pc, handler⟩ := q
  unfold runningOn at h
  rw [hq] at h
  cases handler with
  | running k =>
      cases h
      rfl
  | idle => cases h
  | returned k => cases h

theorem lt_of_runningOn {r m : Nat} (h : c.runningOn r = some m) : r < c.reqs.length := by
  unfold runningOn at h
  split at h
  · rename_i hq
    exact lt_length_of_getElem? hq
  · cases h

structure ReqsOk (c : Cluster n) (log : List SaveEvent) : Prop where
  ok : ∀ (r : Nat) (q : Req), c.reqs[r]? = some q → q.Ok c.grp log r
  known : ∀ r m contents, SaveEvent.save (some r) m contents ∈ log → r < c.reqs.length

/-- A step that leaves the requests alone. -/
theorem ReqsOk.same {a : ClusterStep n} (h : c.ReqsOk log) (hs : c.step a = some c')
    (hreqs : c'.reqs = c.reqs) : c'.ReqsOk (log ++ c.note a) := by
  constructor
  · intro r q hq
    rw [hreqs] at hq
    refine (h.ok r q hq).append (stores_step hs).keeps_instances ?_
    exact fun m contents hmem ↦ handler_of_runningOn hq (note_save hmem)
  · intro r m contents hmem
    rw [hreqs]
    obtain hold | hnew := List.mem_append.mp hmem
    · exact h.known r m contents hold
    · exact lt_of_runningOn (note_save hnew)

theorem ReqsOk.step {a : ClusterStep n} (h : c.ReqsOk log) (hlin : Lineage c.grp c.phases log)
    (hs : c.step a = some c') : c'.ReqsOk (log ++ c.note a) := by
  cases a with
  | net op =>
      apply h.same hs
      obtain ⟨net, _, rfl⟩ := Option.map_eq_some_iff.mp hs
      rfl
  | live i step =>
      apply h.same hs
      obtain ⟨⟨grp, phase⟩, _, rfl⟩ := Option.map_eq_some_iff.mp hs
      rfl
  | call endname =>
      cases hs
      rw [show c.note (.call endname) = [] from rfl, List.append_nil]
      constructor
      · intro r q hq
        obtain hold | ⟨rfl, rfl⟩ := getElem?_snoc_eq_some.mp hq
        · exact h.ok r q hold
        · refine ⟨by simp, fun m contents hmem ↦ ?_, rfl⟩
          -- a new request has no save in the log
          exact absurd (h.known _ m contents hmem) (Nat.lt_irrefl _)
      · intro r m contents hmem
        rw [List.length_append]
        exact Nat.lt_add_right _ (h.known r m contents hmem)
  | req r step =>
      obtain ⟨q, hq, hnext⟩ := Option.bind_eq_some_iff.mp hs
      obtain ⟨q', hq', rfl⟩ := Option.map_eq_some_iff.mp hnext
      rw [show c.note (.req r step) = [] from rfl, List.append_nil]
      constructor
      · intro r' q'' hget
        obtain ⟨rfl, _, rfl⟩ | ⟨_, hold⟩ := getElem?_set_eq_some.mp hget
        · exact (h.ok r' q hq).next hlin hq'
        · exact h.ok r' q'' hold
      · rw [List.length_set]
        exact h.known
  | save r contents =>
      apply h.same hs
      obtain ⟨k, _, hsave⟩ := Option.bind_eq_some_iff.mp hs
      obtain ⟨inst, _, rfl⟩ := saveBy_eq_some hsave
      rfl
  | background k contents =>
      apply h.same hs
      obtain ⟨inst, _, rfl⟩ := saveBy_eq_some hs
      rfl

/-- A save is one of the two steps that save, and goes to the persister of its instance. -/
theorem save_of_note {a : ClusterStep n} {r : Option Nat} {k : Nat} {contents : Persister}
    (hs : c.step a = some c') (h : .save r k contents ∈ c.note a) :
    c.saveBy k contents = some c' := by
  cases a with
  | save r' contents' =>
      obtain ⟨k', hk', hsave⟩ := Option.bind_eq_some_iff.mp hs
      simp only [note, hk', Option.toList_some, List.map_cons, List.map_nil, List.mem_singleton,
        SaveEvent.save.injEq] at h
      obtain ⟨_, rfl, rfl⟩ := h
      exact hsave
  | background k' contents' =>
      simp only [note, List.mem_singleton, SaveEvent.save.injEq] at h
      obtain ⟨_, rfl, rfl⟩ := h
      exact hs
  | live i step =>
      cases step with
      | start | shutdown =>
          simp only [note] at h
          split at h <;> simp at h
      | boot | add | disconnect | delete => simp [note] at h
  | net op => simp [note] at h
  | call endname => simp [note] at h
  | req r' step => simp [note] at h

theorem read_saveBy {k k' : Nat} {contents : Persister} (h : Lineage c.grp c.phases log)
    (hs : c.saveBy k contents = some c') (hne : k' ≠ k) : c'.read k' = c.read k' := by
  obtain ⟨inst, hinst, rfl⟩ := saveBy_eq_some hs
  unfold read
  dsimp only
  cases hk' : c.grp.instances[k']? with
  | none => rfl
  | some inst' =>
      have hpers : inst.persister ≠ inst'.persister := by
        intro heq
        exact hne (h.persister_inj k' k inst' inst hk' hinst heq.symm)
      exact List.getElem?_set_ne hpers

theorem kept_saveBy {k : Nat} {contents : Persister} {inst : Instance n}
    (h : Lineage c.grp c.phases log) (hs : c.saveBy k contents = some c')
    (hinst : c.grp.instances[k]? = some inst) {dst : Nat} {copied : Persister}
    (hcopy : .copy inst.persister dst copied ∈ log) (i : Fin n) : c'.kept i = c.kept i := by
  obtain ⟨inst', hinst', rfl⟩ := saveBy_eq_some hs
  rw [hinst, Option.some.injEq] at hinst'
  subst hinst'
  unfold kept ServerGrp.saved
  dsimp only
  cases hp : c.grp.srvs[i].saved with
  | none => rfl
  | some p =>
      have hne : inst.persister ≠ p := by
        intro heq
        exact (h.copied _ _ _ hcopy).2 i (heq ▸ hp)
      exact List.getElem?_set_ne hne

/-- Instance `k` made the saves for request `r`, and they come before every copy of its persister.
The next instance is made from such a copy: the copy is of what the saves before it left, and the
next instance reads it until it saves something itself. -/
structure Acknowledged (c : Cluster n) (log : List SaveEvent) (r k : Nat) (inst : Instance n) :
    Prop where
  started : c.grp.instances[k]? = some inst
  own : ∀ m contents, .save (some r) m contents ∈ log → m = k
  copies : ∀ (a b m dst : Nat) (contents copied : Persister),
    log[a]? = some (.save (some r) m contents) →
    log[b]? = some (.copy inst.persister dst copied) → a < b
  next : ∀ k' inst', NextOf c.grp.instances k k' inst inst' →
    ∃ b copied, CopiedOver log inst.persister inst'.persister b copied ∧
      copied = contentsAt c.grp.instances inst.persister (log.take b) ∧
      ((∀ r' contents, .save r' k' contents ∉ log) → c.read k' = some copied) ∧
      ∀ (a m : Nat) (contents : Persister), log[a]? = some (.save (some r) m contents) → a < b

end Cluster

/-- When a `Call` returned true, the saves of its handler come before the copy from which the next
instance is made, and the next instance reads what they left.  A save changes what no other instance
reads; and once the persister of an instance was copied, a save of that instance changes nothing
that the tester keeps for a later one. -/
theorem acknowledged_saves_survive {gid : Int} {names : Vector (Vector EndName n) n}
    {sg₀ : ServerGrp n} {c : Cluster n} {log : List SaveEvent}
    (hmake : makeSrvGrp makeNetwork gid names = some sg₀)
    (h : Reaches (recorded Cluster.step Cluster.note) (Cluster.init sg₀, []) (c, log)) :
    (∀ (r : Nat) (q : Req), c.reqs[r]? = some q → q.pc = .returned true →
      ∃ k inst, q.handler = .returned k ∧ c.Acknowledged log r k inst) ∧
    ∀ (a : ClusterStep n) (c' : Cluster n) (r : Option Nat) (k : Nat) (contents : Persister),
      c.step a = some c' → .save r k contents ∈ c.note a →
      (∀ k', k' ≠ k → c'.read k' = c.read k') ∧
      ∀ (inst : Instance n) (dst : Nat) (copied : Persister), c.grp.instances[k]? = some inst →
        .copy inst.persister dst copied ∈ log → ∀ i, c'.kept i = c.kept i := by
  -- the three invariants go through the run together
  have hinv : Lineage c.grp c.phases log ∧ c.ReqsOk log ∧ Replayed c.grp log := by
    refine h.invariant (I := fun s =>
      Lineage s.1.grp s.1.phases s.2 ∧ s.1.ReqsOk s.2 ∧ Replayed s.1.grp s.2) ?_ ?_
    · refine ⟨Lineage.init hmake, ⟨by simp [Cluster.init], by simp⟩, .init ?_⟩
      obtain ⟨net, -, rfl⟩ := Option.map_eq_some_iff.mp hmake
      rfl
    · intro u a v _ hs hu
      obtain ⟨hstep, hlog⟩ := recorded_eq_some.mp hs
      rw [hlog]
      exact ⟨hu.1.step hstep, hu.2.1.step hu.1 hstep, hu.2.2.step hu.1 hstep⟩
  obtain ⟨hlin, hreqs, hreplayed⟩ := hinv
  constructor
  · intro r q hq hpc
    have hok := hreqs.ok r q hq
    have hacked := hok.pc
    unfold Req.PcOk at hacked
    rw [hpc] at hacked
    obtain ⟨k, hk, hbefore⟩ := hacked
    have hlt := hok.handler k (.inr hk)
    have hinst := List.getElem?_eq_getElem hlt
    refine ⟨k, _, hk, hinst, ?_, hbefore _ hinst, ?_⟩
    · intro m contents hmem
      have hown := hok.saves m contents hmem
      simp only [hk, reduceCtorEq, Handler.returned.injEq, false_or] at hown
      exact hown.symm
    · intro k' inst' hnext
      -- the next instance begins with a `Copy` that comes after the `Save`s
      obtain ⟨b, copied, hover⟩ := hlin.chain k k' _ inst' hnext
      obtain ⟨mid, b', -, hb, hb'⟩ := id hover
      refine ⟨b, copied, hover, hreplayed.copied b _ mid copied hb, ?_, ?_⟩
      · exact hreplayed.read_copied hlin hnext.new hb'
      · intro a m contents ha
        exact hbefore _ hinst a b m mid contents copied ha hb
  · intro a c' r k contents hs hnote
    have hsave := Cluster.save_of_note hs hnote
    refine ⟨fun k' hne ↦ Cluster.read_saveBy hlin hsave hne, ?_⟩
    intro inst dst copied hinst hcopy i
    exact Cluster.kept_saveBy hlin hsave hinst hcopy i

theorem single_made : (makeSrvGrp (n := 1) makeNetwork 0 #v[#v[[0]]]).isSome = true := by decide

/-- One server. -/
def single : ServerGrp 1 := (makeSrvGrp makeNetwork 0 #v[#v[[0]]]).get single_made

/-- A handler saves, its reply is delayed, the server is restarted, `Call` returns true, and then
the old instance saves once more. -/
def delayedReply : List (ClusterStep 1) :=
  [.live 0 (.start #v[[1]]), .live 0 .boot, .live 0 .add, .net (.enable [1] true), .call [1],
   .req 0 .read, .req 0 .dispatch, .save 0 ⟨[7], []⟩, .req 0 .handlerReturn, .req 0 .receive,
   .req 0 .check, .req 0 .reply, .live 0 .disconnect, .live 0 .delete, .live 0 .shutdown,
   .live 0 (.start #v[[2]]), .live 0 .boot, .req 0 .deliver, .background 0 ⟨[9], []⟩]

theorem delayedReply_runs : (run (recorded Cluster.step Cluster.note) (Cluster.init single, [])
    delayedReply).isSome = true := by decide +kernel

theorem acknowledged_saves_survive_delayedReply :
    ∃ c log, run (recorded Cluster.step Cluster.note) (Cluster.init single, []) delayedReply =
        some (c, log) ∧
      c.reqs = [⟨[1], .returned true, .returned 0⟩] ∧
      log = [.save (some 0) 0 ⟨[7], []⟩, .copy 0 1 ⟨[7], []⟩, .copy 1 2 ⟨[7], []⟩,
        .save none 0 ⟨[9], []⟩] ∧
      c.read 0 = some ⟨[9], []⟩ ∧ c.read 1 = some ⟨[7], []⟩ ∧
      (∃ k inst, Handler.returned 0 = .returned k ∧ c.Acknowledged log 0 k inst) ∧
      ∀ c', c.step (.background 0 ⟨[8], []⟩) = some c' → c'.read 1 = c.read 1 := by
  have hreqs : ((run (recorded Cluster.step Cluster.note) (Cluster.init single, [])
    delayedReply).get delayedReply_runs).1.reqs = [⟨[1], .returned true, .returned 0⟩] := by
    decide +kernel
  have hlog : ((run (recorded Cluster.step Cluster.note) (Cluster.init single, [])
    delayedReply).get delayedReply_runs).2 = [.save (some 0) 0 ⟨[7], []⟩,
      .copy 0 1 ⟨[7], []⟩, .copy 1 2 ⟨[7], []⟩, .save none 0 ⟨[9], []⟩] := by decide +kernel
  have hread : ((run (recorded Cluster.step Cluster.note) (Cluster.init single, [])
    delayedReply).get delayedReply_runs).1.read 0 = some ⟨[9], []⟩ := by decide +kernel
  have hread' : ((run (recorded Cluster.step Cluster.note) (Cluster.init single, [])
    delayedReply).get delayedReply_runs).1.read 1 = some ⟨[7], []⟩ := by decide +kernel
  have hreach := reaches_get delayedReply_runs
  have hrun := (Option.some_get delayedReply_runs).symm
  generalize (run (recorded Cluster.step Cluster.note) (Cluster.init single, [])
    delayedReply).get delayedReply_runs = last at *
  obtain ⟨c, log⟩ := last
  dsimp only at hreqs hlog hread hread'
  obtain ⟨hacked, hsaves⟩ := acknowledged_saves_survive (Option.some_get single_made).symm hreach
  refine ⟨c, log, hrun, hreqs, hlog, hread, hread', ?_, ?_⟩
  · exact hacked 0 ⟨[1], .returned true, .returned 0⟩ (by simp [hreqs]) rfl
  · intro c' hs
    exact (hsaves _ c' none 0 ⟨[8], []⟩ hs (by simp [Cluster.note])).1 1 (by decide)

end GoLabs.Tester
