import GoLabs.ShardCtrler.Lock

/-!
# Leadership after `2 ^ 64` versions

Versions wrap around.  A handle that is still resending the `Put` of its `ReleaseLeadership` after
exactly `2 ^ 64` further writes of the key finds its version again, and frees a lock that another
handle holds.  Nothing else has to go wrong: one reply is lost, and every handler runs while its
`Call` waits.
-/

open GoLabs.Reasoning GoLabs.KvSrv

namespace GoLabs.ShardCtrler

variable {l : GoString} {s : Sys Lock} {i : Nat} {p : Proc Lock} {w : Tversion}

/-! ## Undisturbed methods -/

/-- A handle takes a free lock. -/
theorem reaches_acquire (hp : s.procs[i]? = some p)
    (hpc : p.st.pc = .idle ∨ ∃ err, p.st.pc = .released err)
    (hm : s.net.server.m l = some ⟨lit "", w⟩) :
    ∃ t n, Reaches (restrict (Sys.step (program l) l) Sys.withinCall) s t ∧
      t.procs = s.procs.set i ⟨⟨p.st.id, w + 1, .held⟩, n⟩ ∧
      t.net.server.m l = some ⟨p.st.id, w + 1⟩ ∧ s.net.calls <+: t.net.calls := by
  have hi := lt_length_of_getElem? hp
  have hidle : (program l).request p.st = none := by
    obtain hpc | ⟨err, hpc⟩ := hpc <;> simp [program, Lock.request, hpc]
  have hact : (program l).act p.st .acquireLeadership = some { p.st with pc := .get } := by
    obtain hpc | ⟨err, hpc⟩ := hpc <;> simp [program, Lock.act, hpc]
  have hget := dispatch_get hm
  let s₁ : Sys Lock := { s with net := s.net.roundTrip i (.get ⟨l⟩) }
  have hm₁ : s₁.net.server.m l = some ⟨lit "", w⟩ := by
    change (s.net.server.dispatch (.get ⟨l⟩)).1.m l = _
    rw [hget]
    exact hm
  obtain ⟨hput, hm₂⟩ := dispatch_put hm₁ p.st.id
  have hfree : Reaches (restrict (Sys.step (program l) l) Sys.withinCall)
      (s.enter (program l) i { p.st with pc := .get })
      (s₁.enter (program l) i { p.st with pc := .put w }) := by
    refine Sys.reaches_call hi rfl ?_
    rw [hget]
    rfl
  have htake : Reaches (restrict (Sys.step (program l) l) Sys.withinCall)
      (s₁.enter (program l) i { p.st with pc := .put w })
      (Sys.enter (program l)
        { s₁ with net := s₁.net.roundTrip i (.put ⟨l, p.st.id, w⟩) } i
        { p.st with ver := w + 1, pc := .held }) := by
    refine Sys.reaches_call hi rfl ?_
    rw [hput]
    rfl
  refine ⟨_, _, ((Sys.reaches_act hp hidle hact).trans hfree).trans htake, rfl, hm₂, ?_⟩
  exact (List.prefix_append _ _).trans (List.prefix_append _ _)

/-- A handle that leads frees the lock. -/
theorem reaches_release {v : StoredValue} (hp : s.procs[i]? = some p) (hpc : p.st.pc = .held)
    (hm : s.net.server.m l = some v) :
    ∃ t n, Reaches (restrict (Sys.step (program l) l) Sys.withinCall) s t ∧
      t.procs = s.procs.set i ⟨{ p.st with pc := .released .ok }, n⟩ ∧
      t.net.server.m l = some ⟨lit "", v.version + 1⟩ ∧ s.net.calls <+: t.net.calls := by
  have hi := lt_length_of_getElem? hp
  have hidle : (program l).request p.st = none := by simp [program, Lock.request, hpc]
  have hact : (program l).act p.st .releaseLeadership = some { p.st with pc := .relGet } := by
    simp [program, Lock.act, hpc]
  have hget := dispatch_get hm
  let s₁ : Sys Lock := { s with net := s.net.roundTrip i (.get ⟨l⟩) }
  have hm₁ : s₁.net.server.m l = some v := by
    change (s.net.server.dispatch (.get ⟨l⟩)).1.m l = _
    rw [hget]
    exact hm
  obtain ⟨hput, hm₂⟩ := dispatch_put hm₁ (lit "")
  have hseen : Reaches (restrict (Sys.step (program l) l) Sys.withinCall)
      (s.enter (program l) i { p.st with pc := .relGet })
      (s₁.enter (program l) i { p.st with pc := .relPut v.version }) := by
    refine Sys.reaches_call hi rfl ?_
    rw [hget]
    rfl
  have hfree : Reaches (restrict (Sys.step (program l) l) Sys.withinCall)
      (s₁.enter (program l) i { p.st with pc := .relPut v.version })
      (Sys.enter (program l)
        { s₁ with net := s₁.net.roundTrip i (.put ⟨l, lit "", v.version⟩) } i
        { p.st with pc := .released .ok }) := by
    refine Sys.reaches_call hi rfl ?_
    rw [hput]
    rfl
  refine ⟨_, _, ((Sys.reaches_act hp hidle hact).trans hseen).trans hfree, rfl, hm₂, ?_⟩
  exact (List.prefix_append _ _).trans (List.prefix_append _ _)

/-- A handle takes and frees the lock again and again. -/
theorem reaches_cycles (hp : s.procs[i]? = some p)
    (hpc : p.st.pc = .idle ∨ ∃ err, p.st.pc = .released err)
    (hm : s.net.server.m l = some ⟨lit "", w⟩) (k : Nat) :
    ∃ t q, Reaches (restrict (Sys.step (program l) l) Sys.withinCall) s t ∧
      t.procs = s.procs.set i q ∧ q.st.id = p.st.id ∧
      (q.st.pc = .idle ∨ ∃ err, q.st.pc = .released err) ∧
      t.net.server.m l = some ⟨lit "", w + 2 * UInt64.ofNat k⟩ ∧
      s.net.calls <+: t.net.calls := by
  have hi := lt_length_of_getElem? hp
  induction k with
  | zero =>
      refine ⟨s, p, Reaches.refl s, ?_, rfl, hpc, ?_, List.prefix_refl _⟩
      · obtain ⟨_, hget⟩ := List.getElem?_eq_some_iff.mp hp
        rw [← hget, List.set_getElem_self]
      · rw [hm]
        simp
  | succ k ih =>
      obtain ⟨t, q, hst, hprocs, hid, hqpc, htm, hcalls⟩ := ih
      have hq : t.procs[i]? = some q := by
        rw [hprocs]
        exact List.getElem?_set_self hi
      obtain ⟨t₁, n₁, ht₁, hprocs₁, hm₁, hcalls₁⟩ := reaches_acquire hq hqpc htm
      have hq₁ : t₁.procs[i]? = some ⟨⟨q.st.id, w + 2 * UInt64.ofNat k + 1, .held⟩, n₁⟩ := by
        rw [hprocs₁]
        exact List.getElem?_set_self (lt_length_of_getElem? hq)
      obtain ⟨t₂, n₂, ht₂, hprocs₂, hm₂, hcalls₂⟩ := reaches_release hq₁ rfl hm₁
      refine ⟨t₂, ⟨⟨q.st.id, w + 2 * UInt64.ofNat k + 1, .released .ok⟩, n₂⟩,
        (hst.trans ht₁).trans ht₂, ?_, hid, .inr ⟨.ok, rfl⟩, ?_,
        (hcalls.trans hcalls₁).trans hcalls₂⟩
      · rw [hprocs₂, hprocs₁, hprocs, List.set_set, List.set_set]
      · have hversion : w + 2 * UInt64.ofNat k + 1 + 1 = w + 2 * UInt64.ofNat (k + 1) := by
          rw [UInt64.ofNat_add, UInt64.mul_add, UInt64.add_assoc, UInt64.add_assoc]
          rfl
        rw [hm₂, hversion]

/-- A sleeping Clerk call sends its attempt again and receives the reply. -/
theorem reaches_resend {n : Nat} {c : ClerkCall} (hc : s.net.calls[n]? = some c)
    (hpc : c.pc = .sleeping) :
    ∃ net, Reaches (restrict (Sys.step (program l) l) Sys.withinCall) s { s with net } ∧
      net.server = (s.net.server.dispatch c.req).1 ∧
      net.result n = some (clerkReturn true (s.net.server.dispatch c.req).2) := by
  have hn := lt_length_of_getElem? hc
  let net₁ := s.net.resend n c
  let c₁ : ClerkCall := { c with retried := true, pc := .calling s.net.attempts.length }
  have hc₁ : net₁.calls[n]? = some c₁ := List.getElem?_set_self hn
  have hat₁ : net₁.attempts[s.net.attempts.length]? = some ⟨n, c.req, none⟩ := by
    simp [net₁, Net.resend]
  let net₂ := net₁.exec s.net.attempts.length n c.req
  have hat₂ : net₂.attempts[s.net.attempts.length]? =
      some ⟨n, c.req, some (s.net.server.dispatch c.req).2⟩ :=
    List.getElem?_set_self (lt_length_of_getElem? hat₁)
  have hresend : restrict (Sys.step (program l) l) Sys.withinCall s (.net (.resend n)) =
      some { s with net := net₁ } := by
    rw [restrict_eq_some]
    refine ⟨rfl, ?_⟩
    simp only [Sys.step, foreign, if_true, Net.step_iff.mpr (.resend hc hpc), Option.map_some,
      net₁]
  have hexec : restrict (Sys.step (program l) l) Sys.withinCall { s with net := net₁ }
      (.net (.exec s.net.attempts.length)) = some { s with net := net₂ } := by
    rw [restrict_eq_some]
    constructor
    · simp only [Sys.withinCall, Net.withinCall, List.any_eq_true, decide_eq_true_eq]
      exact ⟨_, List.mem_of_getElem? hc₁, rfl⟩
    · simp only [Sys.step, foreign, if_true, Net.step_iff.mpr (.exec hat₁), Option.map_some, net₂]
  let net₃ := net₂.deliver n c₁ s.net.attempts.length (s.net.server.dispatch c.req).2
  have hdeliver : restrict (Sys.step (program l) l) Sys.withinCall { s with net := net₂ }
      (.net (.deliver n)) = some { s with net := net₃ } := by
    rw [restrict_eq_some]
    refine ⟨rfl, ?_⟩
    simp only [Sys.step, foreign, if_true,
      Net.step_iff.mpr (.deliver (s := net₂) hc₁ rfl hat₂), Option.map_some, net₃]
  refine ⟨net₃, (((Reaches.refl s).snoc hresend).snoc hexec).snoc hdeliver, rfl, ?_⟩
  rw [Net.result_deliver (s := net₂) hc₁, if_pos rfl]

/-! ## Two leaders -/

/-- Handle 0 leads and releases, and the reply to the `Put` of its release, which carries version 2,
is lost. -/
def lostRelease : List (SysAction LockCall) :=
  [.act 0 .acquireLeadership, .net (.exec 1), .net (.deliver 1), .resume 0, .net (.exec 2),
   .net (.deliver 2), .resume 0, .act 0 .releaseLeadership, .net (.exec 3), .net (.deliver 3),
   .resume 0, .net (.exec 4), .net (.lose 4)]

theorem lostRelease_runs :
    (run (restrict (Sys.step (program (lit "l")) (lit "l")) Sys.withinCall)
      (leadership (lit "l") 1 [lit "a", lit "b"]) lostRelease).isSome = true := by
  decide

theorem leadership_shared :
    ∃ (s : Sys Lock) (p q : Proc Lock),
      Reaches (restrict (Sys.step (program (lit "l")) (lit "l")) Sys.withinCall)
        (leadership (lit "l") 1 [lit "a", lit "b"]) s ∧
      s.procs[0]? = some p ∧ s.procs[1]? = some q ∧ p.st.pc = .held ∧ q.st.pc = .held := by
  have hreach := reaches_get lostRelease_runs
  have hprocs : ((run (restrict (Sys.step (program (lit "l")) (lit "l")) Sys.withinCall)
      (leadership (lit "l") 1 [lit "a", lit "b"]) lostRelease).get lostRelease_runs).procs =
      [⟨⟨lit "a", 2, .relPut 2⟩, 4⟩, ⟨⟨lit "b", 0, .idle⟩, 0⟩] := by decide
  have hm : ((run (restrict (Sys.step (program (lit "l")) (lit "l")) Sys.withinCall)
      (leadership (lit "l") 1 [lit "a", lit "b"]) lostRelease).get
        lostRelease_runs).net.server.m (lit "l") = some ⟨lit "", 3⟩ := by decide
  have hcall : ((run (restrict (Sys.step (program (lit "l")) (lit "l")) Sys.withinCall)
      (leadership (lit "l") 1 [lit "a", lit "b"]) lostRelease).get
        lostRelease_runs).net.calls[4]? =
      some ⟨0, .put ⟨lit "l", lit "", 2⟩, false, .sleeping⟩ := by decide
  generalize (run (restrict (Sys.step (program (lit "l")) (lit "l")) Sys.withinCall)
    (leadership (lit "l") 1 [lit "a", lit "b"]) lostRelease).get lostRelease_runs = s
    at hreach hprocs hm hcall
  -- handle 1 writes the key until its version is 1 again, and then leads at version 2
  have hb : s.procs[1]? = some ⟨⟨lit "b", 0, .idle⟩, 0⟩ := by
    rw [hprocs]
    rfl
  obtain ⟨t, q, hst, htprocs, hid, hqpc, htm, htcalls⟩ :=
    reaches_cycles hb (.inl rfl) hm (2 ^ 63 - 1)
  have hwrapped : (3 : Tversion) + 2 * UInt64.ofNat (2 ^ 63 - 1) = 1 := by decide
  rw [hwrapped] at htm
  have hq : t.procs[1]? = some q := by
    rw [htprocs, hprocs]
    rfl
  obtain ⟨u, n, htu, huprocs, hum, hucalls⟩ := reaches_acquire hq hqpc htm
  have hucall : u.net.calls[4]? = some ⟨0, .put ⟨lit "l", lit "", 2⟩, false, .sleeping⟩ := by
    obtain ⟨more, hmore⟩ := htcalls.trans hucalls
    rw [← hmore]
    exact getElem?_append_of_some hcall more
  -- the resent `Put` of handle 0 finds its version, and handle 0 leads as well
  obtain ⟨net, hunet, hserver, hresult⟩ := reaches_resend (l := lit "l") hucall rfl
  have hleads : u.net.server.m (lit "l") = some ⟨q.st.id, 2⟩ := hum
  obtain ⟨hreply, hnetm⟩ := dispatch_put hleads (lit "")
  have hresult : net.result 4 = some (.put .ok) := by
    rw [hresult]
    exact congrArg (fun reply ↦ some (clerkReturn true reply)) hreply
  have ha : u.procs[0]? = some ⟨⟨lit "a", 2, .relPut 2⟩, 4⟩ := by
    rw [huprocs, htprocs, hprocs]
    rfl
  have hreleased : restrict (Sys.step (program (lit "l")) (lit "l")) Sys.withinCall
      { u with net } (.resume 0) =
      some (Sys.enter (program (lit "l")) { u with net } 0 ⟨lit "a", 2, .released .ok⟩) := by
    rw [restrict_eq_some]
    refine ⟨rfl, ?_⟩
    simp only [Sys.step, ha, Option.bind_eq_bind, Option.bind_some, hresult]
    rfl
  have hfreed : (Sys.enter (program (lit "l")) { u with net } 0
      ⟨lit "a", 2, .released .ok⟩).net.server.m (lit "l") = some ⟨lit "", 3⟩ := by
    change net.server.m (lit "l") = _
    rw [hserver]
    exact hnetm
  have ha' : (Sys.enter (program (lit "l")) { u with net } 0
      ⟨lit "a", 2, .released .ok⟩).procs[0]? =
      some ⟨⟨lit "a", 2, .released .ok⟩, net.calls.length⟩ := by
    rw [Sys.procs_enter]
    exact List.getElem?_set_self (lt_length_of_getElem? ha)
  obtain ⟨x, n', hux, hxprocs, _, _⟩ := reaches_acquire ha' (.inr ⟨_, rfl⟩) hfreed
  refine ⟨x, ⟨⟨lit "a", 3 + 1, .held⟩, n'⟩, ⟨⟨q.st.id, 1 + 1, .held⟩, n⟩,
    ((((hreach.trans hst).trans htu).trans hunet).snoc hreleased).trans hux, ?_, ?_, rfl, rfl⟩
  · rw [hxprocs]
    exact List.getElem?_set_self (lt_length_of_getElem? ha')
  · rw [hxprocs, List.getElem?_set_ne (by decide), Sys.procs_enter,
      List.getElem?_set_ne (by decide), huprocs]
    exact List.getElem?_set_self (lt_length_of_getElem? hq)

end GoLabs.ShardCtrler
