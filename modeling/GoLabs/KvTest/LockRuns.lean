import GoLabs.KvTest.LockData

/-!
# Runs of the lock test

The clients and their locks run over one network.  The network may lose replies, so that a client
may wait for the lock forever, but no client ever finds another one in its way.
-/

open GoLabs.Reasoning GoLabs.KvSrv

namespace GoLabs.KvTest

/-- What holds in every run of the test. -/
structure Guarded (s : LockTest) : Prop where
  locks : Reaches (LockSys.step lockKey) LockSys.init s.locks
  linked : Linked s.locks.handles s.procs
  data : DataInv s.sys

/-- The versions of both keys do not wrap around. -/
def LockTest.Below (s : LockTest) : Prop :=
  s.locks.net.writes lockKey < 2 ^ 64 ∧ s.locks.net.writes dataKey < 2 ^ 64

section Runs

variable {s t : LockTest} {act : LockTestAction} {c : Nat} {p : Proc LockClient} {st : LockClient}

theorem lockKey_ne : lockKey ≠ dataKey := by decide

theorem Guarded.unique (h : Guarded s) (hb : s.Below) (c d : Nat) (p q : Proc LockClient)
    (hp : s.procs[c]? = some p) (hq : s.procs[d]? = some q) (hin : p.st.pc.inside = true)
    (hin' : q.st.pc.inside = true) : c = d := by
  obtain ⟨g, hx⟩ := LockSys.exclusive_of_reaches h.locks hb.1
  exact h.linked.inside_unique hx hp hq hin hin'

/-- The Clerk calls of the locks do not touch the data. -/
theorem Guarded.lock_data (h : Guarded s) (hb : s.Below) {act : LockAction} {locks : LockSys}
    (hs : s.locks.step lockKey act = some locks)
    (hf : ∀ action, act = .net action → foreign dataKey action = true) :
    DataInv ⟨locks.net, s.procs⟩ := by
  have hbelow : Sys.Below [dataKey] s.sys := by
    intro key hkey
    rw [List.mem_singleton.mp hkey]
    exact hb.2
  obtain ⟨i, k, hm⟩ | ⟨action, net, rfl, hnet, rfl⟩ := LockSys.moved_or_net hs
  · obtain ⟨_, hsame⟩ | ⟨r, hr, hinvoke⟩ := hm.net_cases
    · rw [hsame]
      exact h.data
    · rw [hinvoke]
      refine h.data.net hbelow (h.unique hb) ?_ (Net.step_invoke s.locks.net i r)
      cases r with
      | get args => rfl
      | put args =>
          simp only [foreign, (Handle.request_put hr).1, decide_eq_true_eq]
          exact lockKey_ne
  · exact h.data.net hbelow (h.unique hb) (hf _ rfl) hnet

theorem lockTest_enter_handles (s : LockTest) (c : Nat) (st : LockClient) :
    (s.enter c st).locks.handles = s.locks.handles := rfl

theorem lockTest_enter_procs (s : LockTest) (c : Nat) (st : LockClient) :
    (s.enter c st).procs = s.procs.set c ⟨st, s.locks.net.calls.length⟩ :=
  Sys.procs_enter LockClient.program s.sys c st

/-- The calls of the clients are none of the locks' business. -/
theorem lockTest_enter_locks (s : LockTest) (c : Nat) (st : LockClient) :
    (s.enter c st).locks = s.locks ∨
      ∃ action, s.locks.step lockKey (.net action) = some (s.enter c st).locks := by
  have hnet := Sys.net_enter LockClient.program s.sys c st
  have hlocks : (s.enter c st).locks =
      { s.locks with net := (s.sys.enter LockClient.program c st).net } := rfl
  cases hreq : LockClient.program.request st with
  | none =>
      simp only [hreq] at hnet
      rw [hlocks, hnet]
      exact .inl rfl
  | some r =>
      simp only [hreq] at hnet
      rw [hlocks, hnet]
      refine .inr ⟨.invoke c r, ?_⟩
      have hforeign : foreign lockKey (.invoke c r) = true := by
        cases r with
        | get args => rfl
        | put args =>
            have hkey : args.key = dataKey := by
              simp only [LockClient.program, LockClient.request] at hreq
              split at hreq <;>
                simp only [Option.some.injEq, Request.put.injEq, reduceCtorEq] at hreq
              all_goals rw [← hreq]
            simp only [foreign, hkey, decide_eq_true_eq]
            exact lockKey_ne.symm
      simp only [LockSys.step, Sys.step, hforeign, if_true]
      rfl

theorem lockTest_enter_writes (s : LockTest) (c : Nat) (st : LockClient) (key : GoString) :
    s.locks.net.writes key ≤ (s.enter c st).locks.net.writes key := by
  obtain hsame | ⟨action, hs⟩ := lockTest_enter_locks s c st
  · rw [hsame]
  · exact LockSys.writes_le_of_step hs key

/-- What a client does to its `Lock` is a step of the locks, or none. -/
theorem lockPart_cases {signal : LockSignal} {locks : LockSys} {cl : LockClient}
    (h : LockTest.lockPart s.locks cl signal = some locks) :
    locks = s.locks ∨ ∃ act, s.locks.step lockKey act = some locks ∧
      ∀ action, act ≠ .net action := by
  unfold LockTest.lockPart at h
  split at h
  · rw [Option.ite_none_right_eq_some] at h
    exact .inr ⟨_, h.2, by simp⟩
  · exact .inr ⟨_, h, by simp⟩
  · exact .inr ⟨_, h, by simp⟩
  all_goals first
    | (rw [Option.ite_none_right_eq_some, Option.some.injEq] at h; exact .inl h.2.symm)
    | (rw [Option.some.injEq] at h; exact .inl h.symm)

theorem lockTest_writes_le {act : LockTestAction} (hs : s.step act = some t) (key : GoString) :
    s.locks.net.writes key ≤ t.locks.net.writes key := by
  cases lockTest_step_cases hs with
  | @client c signal p st locks hp hact hlocks =>
      refine le_trans ?_ (lockTest_enter_writes { s with locks } c st key)
      obtain rfl | ⟨act, hstep, _⟩ := lockPart_cases hlocks
      · exact le_rfl
      · exact LockSys.writes_le_of_step hstep key
  | resume hp hreq hres hresume => exact lockTest_enter_writes s _ _ key
  | method hlock => exact LockSys.writes_le_of_step hlock key
  | retry hlock => exact LockSys.writes_le_of_step hlock key
  | net hf hlock => exact LockSys.writes_le_of_step hlock key

theorem returned_iff {s : LockSys} {lk : Nat} :
    LockTest.returned s lk = true ↔ ∃ h, s.handles[lk]? = some h ∧ h.pc = .idle := by
  unfold LockTest.returned
  cases hh : s.handles[lk]? with
  | none => simp
  | some h => simp

/-- The `Lock` of a client, when its method has returned. -/
theorem Linked.waited (hl : Linked s.locks.handles s.procs) (hp : s.procs[c]? = some p)
    (hstart : p.st.pc ≠ .start) (hreturned : LockTest.returned s.locks p.st.lk = true) :
    ∃ k, s.locks.handles[p.st.lk]? = some k ∧ k.pc = .idle ∧ Fits k p.st.pc := by
  obtain ⟨k, hk, hidle⟩ := returned_iff.mp hreturned
  obtain ⟨k', hk', hfits⟩ := hl.fits c p hp hstart
  rw [hk, Option.some.injEq] at hk'
  subst hk'
  exact ⟨k, hk, hidle, hfits⟩

/-- When `Acquire` has returned, no other client is inside. -/
theorem Guarded.alone (h : Guarded s) (hb : s.Below) (hp : s.procs[c]? = some p)
    (hpc : p.st.pc = .acquiring) (hreturned : LockTest.returned s.locks p.st.lk = true) (d : Nat)
    (q : Proc LockClient) (hq : s.procs[d]? = some q) : q.st.pc.inside = false := by
  refine Bool.eq_false_iff.mpr fun hin ↦ ?_
  obtain ⟨k, hk, hidle, hfits⟩ := h.linked.waited hp (by rw [hpc]; simp) hreturned
  have hheld : k.held = true := by simpa [hpc, Fits, hidle] using hfits
  have hstart : q.st.pc ≠ .start := by
    intro heq
    rw [heq] at hin
    cases hin
  obtain ⟨m, hm, hfits'⟩ := h.linked.fits d q hq hstart
  obtain ⟨g, hx⟩ := LockSys.exclusive_of_reaches h.locks hb.1
  have hlk := hx.held_unique hk hm hheld (fits_inside hfits' hin)
  obtain rfl := h.linked.own c d p q hp hq (by rw [hpc]; simp) hstart hlk
  rw [hp, Option.some.injEq] at hq
  subst hq
  rw [hpc] at hin
  cases hin

theorem Guarded.linked_makeLock (h : Guarded s) (n : Nat) :
    Linked (s.locks.makeLock lockKey).handles
      (s.procs.set c ⟨{ st with lk := s.locks.handles.length, pc := .making }, n⟩) := by
  rw [LockSys.handles_makeLock]
  refine h.linked.enter (h := Handle.made) ?_ ?_ ?_
  · intro d q hq _ hstart
    obtain ⟨k, hk, _⟩ := h.linked.fits d q hq hstart
    have hlt := lt_length_of_getElem? hk
    exact ⟨Nat.ne_of_lt hlt, List.getElem?_append_left hlt⟩
  · exact getElem?_snoc_eq_some.mpr (.inr ⟨rfl, rfl⟩)
  · exact ⟨rfl, .inr (.inl rfl)⟩

/-- A client calls a method of its `Lock`, or comes back from one. -/
theorem Guarded.linked_client (h : Guarded s) (hp : s.procs[c]? = some p) {signal : LockSignal}
    {locks : LockSys} (hact : p.st.act signal = some st)
    (hlocks : LockTest.lockPart s.locks p.st signal = some locks) (n : Nat) :
    Linked locks.handles (s.procs.set c ⟨st, n⟩) := by
  have hsame : ∀ {pc : LockPoint} {k : Handle} {i : Nat}, p.st.pc ≠ .start →
      s.locks.handles[p.st.lk]? = some k → Fits k pc →
      Linked s.locks.handles (s.procs.set c ⟨{ p.st with i := i, pc := pc }, n⟩) :=
    fun hstart hk hfits ↦ h.linked.go_same hp hstart hk rfl hfits
  obtain ⟨lk, rfl, hpc, rfl⟩ | ⟨rfl, hpc, rfl⟩ | ⟨rfl, hpc, rfl⟩ | ⟨rfl, hpc, rfl⟩ |
    ⟨rfl, hpc, rfl⟩ | ⟨ver, rfl, hpc, rfl⟩ | ⟨rfl, hpc, rfl⟩ | ⟨rfl, hpc, rfl⟩ :=
    act_cases_lock hact <;> simp only [LockTest.lockPart] at hlocks
  · rw [Option.ite_none_right_eq_some] at hlocks
    obtain ⟨rfl, hstep⟩ := hlocks
    simp only [LockSys.step, Option.some.injEq] at hstep
    subst hstep
    exact h.linked_makeLock n
  all_goals have hstart : p.st.pc ≠ .start := by rw [hpc]; simp
  · -- `MakeLock` has returned
    rw [Option.ite_none_right_eq_some, Option.some.injEq] at hlocks
    obtain ⟨hret, rfl⟩ := hlocks
    obtain ⟨k, hk, hidle, hfits⟩ := h.linked.waited hp hstart hret
    rw [hpc] at hfits
    exact hsame hstart hk ⟨hfits.1, hidle⟩
  · rw [Option.some.injEq] at hlocks
    subst hlocks
    obtain ⟨k, hk, hfits⟩ := h.linked.fits c p hp hstart
    rw [hpc] at hfits
    exact hsame hstart hk hfits
  · cases LockSys.step_cases hlocks with
    | acquire hk hidle hcause =>
        have hh := LockSys.handles_eq_some.mpr ⟨_, hk⟩
        obtain ⟨k, hk', hfits⟩ := h.linked.fits c p hp hstart
        rw [hh, Option.some.injEq] at hk'
        subst hk'
        rw [hpc] at hfits
        rw [LockSys.handles_enter]
        exact h.linked.go hp hstart hh rfl (.inr ⟨hfits.1, .inr (.inl rfl)⟩)
  · -- `Acquire` has returned
    rw [Option.ite_none_right_eq_some, Option.some.injEq] at hlocks
    obtain ⟨hret, rfl⟩ := hlocks
    obtain ⟨k, hk, hidle, hfits⟩ := h.linked.waited hp hstart hret
    have hheld : k.held = true := by simpa [hpc, Fits, hidle] using hfits
    exact hsame hstart hk ⟨hheld, hidle⟩
  · rw [Option.some.injEq] at hlocks
    subst hlocks
    obtain ⟨k, hk, hfits⟩ := h.linked.fits c p hp hstart
    rw [hpc] at hfits
    exact hsame hstart hk hfits
  · cases LockSys.step_cases hlocks with
    | release hk hidle hheld hcause =>
        rw [LockSys.handles_enter]
        exact h.linked.go hp hstart (LockSys.handles_eq_some.mpr ⟨_, hk⟩) rfl ⟨rfl, .inr rfl⟩
  · -- `Release` has returned
    rw [Option.ite_none_right_eq_some, Option.some.injEq] at hlocks
    obtain ⟨hret, rfl⟩ := hlocks
    obtain ⟨k, hk, hidle, hfits⟩ := h.linked.waited hp hstart hret
    rw [hpc] at hfits
    exact hsame hstart hk ⟨hfits.1, hidle⟩

/-- A client goes on after a Clerk call of its own. -/
theorem Guarded.linked_resume (h : Guarded s) (hp : s.procs[c]? = some p) {res : Result}
    (hresume : p.st.resume res = some st) (n : Nat) :
    Linked s.locks.handles (s.procs.set c ⟨st, n⟩) := by
  have hgo : ∀ {pc : LockPoint} {i : Nat}, p.st.pc ≠ .start →
      (∀ k, Fits k p.st.pc → Fits k pc) →
      Linked s.locks.handles (s.procs.set c ⟨{ p.st with i := i, pc := pc }, n⟩) := by
    intro pc i hstart hfits
    obtain ⟨k, hk, hfit⟩ := h.linked.fits c p hp hstart
    exact h.linked.go_same hp hstart hk rfl (hfits k hfit)
  cases LockClient.resumed_of_resume hresume with
  | created hpc => exact hgo (by rw [hpc]; simp) (by rw [hpc]; exact fun _ hfits ↦ hfits)
  | found hpc hbad => exact hgo (by rw [hpc]; simp) fun _ _ ↦ trivial
  | put hpc => exact hgo (by rw [hpc]; simp) (by rw [hpc]; exact fun _ hfits ↦ hfits)
  | refused hpc herr =>
      exact hgo (by obtain hpc | hpc := hpc <;> rw [hpc] <;> simp) fun _ _ ↦ trivial
  | written hpc => exact hgo (by rw [hpc]; simp) (by rw [hpc]; exact fun _ hfits ↦ hfits)
  | cleared hpc => exact hgo (by rw [hpc]; simp) (by rw [hpc]; exact fun _ hfits ↦ hfits)

theorem Guarded.enter_locks {locks : LockSys}
    (h : Reaches (LockSys.step lockKey) LockSys.init locks) :
    Reaches (LockSys.step lockKey) LockSys.init (LockTest.enter { s with locks } c st).locks := by
  obtain hsame | ⟨action, hs⟩ := lockTest_enter_locks { s with locks } c st
  · rw [hsame]
    exact h
  · exact h.snoc hs

theorem LockTest.Below.data (hb : s.Below) : Sys.Below [dataKey] s.sys := by
  intro key hkey
  rw [List.mem_singleton.mp hkey]
  exact hb.2

theorem lockTest_below_back (hs : s.step act = some t) (hb : t.Below) : s.Below :=
  ⟨(lockTest_writes_le hs lockKey).trans_lt hb.1, (lockTest_writes_le hs dataKey).trans_lt hb.2⟩

theorem act_request_none {signal : LockSignal} (hact : p.st.act signal = some st) :
    LockClient.program.request p.st = none := by
  obtain ⟨_, _, hpc, _⟩ | ⟨_, hpc, _⟩ | ⟨_, hpc, _⟩ | ⟨_, hpc, _⟩ | ⟨_, hpc, _⟩ | ⟨_, _, hpc, _⟩ |
    ⟨_, hpc, _⟩ | ⟨_, hpc, _⟩ := act_cases_lock hact <;>
    simp only [LockClient.program, LockClient.request, hpc]

/-- `Acquire` is left only when it has returned. -/
theorem returned_of_acquiring {signal : LockSignal} {locks : LockSys}
    (hact : p.st.act signal = some st)
    (hlocks : LockTest.lockPart s.locks p.st signal = some locks) (hpc : p.st.pc = .acquiring) :
    LockTest.returned s.locks p.st.lk = true := by
  cases signal <;> simp only [LockClient.act, hpc, reduceCtorEq] at hact
  simp only [LockTest.lockPart, Option.ite_none_right_eq_some] at hlocks
  exact hlocks.1

theorem Guarded.step (h : Guarded s) (hs : s.step act = some t) (hb : t.Below) : Guarded t := by
  have hbelow := lockTest_below_back hs hb
  cases lockTest_step_cases hs with
  | @client c signal p st locks hp hact hlocks =>
      have hmid : LockTest.Below { s with locks } :=
        ⟨(lockTest_enter_writes { s with locks } c st lockKey).trans_lt hb.1,
          (lockTest_enter_writes { s with locks } c st dataKey).trans_lt hb.2⟩
      -- first the method of the `Lock`, then the client
      have hpart : Reaches (LockSys.step lockKey) LockSys.init locks ∧
          DataInv (LockTest.sys { s with locks }) := by
        obtain rfl | ⟨act, hstep, hnet⟩ := lockPart_cases hlocks
        · exact ⟨h.locks, h.data⟩
        · exact ⟨h.locks.snoc hstep,
            h.lock_data hbelow hstep fun action heq ↦ absurd heq (hnet action)⟩
      refine ⟨enter_locks hpart.1, ?_, ?_⟩
      · rw [lockTest_enter_handles, lockTest_enter_procs]
        exact h.linked_client hp hact hlocks _
      · refine hpart.2.enter hmid.data hp (.act (act_request_none hact) hact) fun hpc ↦ ?_
        -- the client comes back from `Acquire`: nobody else is inside
        exact h.alone hbelow hp hpc (returned_of_acquiring hact hlocks hpc)
  | @resume c p r res st hp hreq hres hresume =>
      refine ⟨enter_locks h.locks, ?_, ?_⟩
      · rw [lockTest_enter_handles, lockTest_enter_procs]
        exact h.linked_resume hp hresume _
      · refine h.data.enter hbelow.data hp (.resume hreq hres hresume) fun hpc ↦ ?_
        simp only [LockClient.request, hpc, reduceCtorEq] at hreq
  | @method lk locks hlock =>
      refine ⟨h.locks.snoc hlock, ?_, h.lock_data hbelow hlock (by simp)⟩
      cases LockSys.step_cases hlock with
      | resume hk hres hresumes hcause =>
          rw [LockSys.handles_enter]
          exact h.linked.set (LockSys.handles_eq_some.mpr ⟨_, hk⟩) fun pc hfits ↦
            hfits.resumes hresumes
  | @retry lk locks hlock =>
      refine ⟨h.locks.snoc hlock, ?_, h.lock_data hbelow hlock (by simp)⟩
      cases LockSys.step_cases hlock with
      | retry hk hpc hcause =>
          rw [LockSys.handles_enter]
          exact h.linked.set (LockSys.handles_eq_some.mpr ⟨_, hk⟩) fun pc hfits ↦ hfits.retry hpc
  | @net action locks hf hlock =>
      refine ⟨h.locks.snoc hlock, ?_, h.lock_data hbelow hlock ?_⟩
      · cases LockSys.step_cases hlock with
        | net hforeign hnet => exact h.linked
      · intro action' heq
        rw [← LockAction.net.inj heq]
        exact hf

theorem guarded_begin (nclnt : Nat) : Guarded (LockTest.begin nclnt) := by
  have hstart : ∀ (c : Nat) (p : Proc LockClient), (LockTest.begin nclnt).procs[c]? = some p →
      p.st.pc = .start := by
    intro c p hp
    obtain ⟨me, _, rfl⟩ := List.mem_map.mp (List.mem_of_getElem? hp)
    rfl
  refine ⟨.refl _, ⟨fun c p hp hpc ↦ absurd (hstart c p hp) hpc,
    fun c d p q hp _ hpc ↦ absurd (hstart c p hp) hpc⟩, ?_⟩
  refine ⟨?_, ?_, ?_⟩
  · have hsys : (LockTest.begin nclnt).sys =
        Sys.start Net.init ((List.range nclnt).map fun me => ⟨me, 0, 0, .start⟩) := by
      simp [LockTest.sys, LockTest.begin, Sys.start, LockSys.init]
    rw [hsys]
    refine Sys.Careful.start_init (by simp) fun st hst ↦ ?_
    obtain ⟨me, _, rfl⟩ := List.mem_map.mp hst
    rfl
  · intro c p hp
    simp only [DataStands, hstart c p hp]
  · intro _ x hx
    cases hx

theorem guarded_of_reaches {nclnt : Nat} (h : Reaches LockTest.step (LockTest.begin nclnt) s)
    (hb : s.Below) : Guarded s :=
  h.invariant_below (B := LockTest.Below) (I := Guarded) (fun _ _ _ ↦ lockTest_below_back)
    (guarded_begin nclnt) (fun _ _ _ _ hs hb hg ↦ hg.step hs hb) hb

/-- Whatever the network does to their calls, no client finds another one in its way: nobody calls
`t.Fatalf`, at most one client is between `Acquire` and `Release`, and no number is left behind
under `"l0"` when nobody is. -/
theorem lockClients_never_fatal {nclnt : Nat}
    (h : Reaches LockTest.step (LockTest.begin nclnt) s) (hb : s.Below) :
    (∀ (c : Nat) (p : Proc LockClient) (why : LockFatal), s.procs[c]? = some p →
      p.st.pc ≠ .fatal why) ∧
    (∀ (c d : Nat) (p q : Proc LockClient), s.procs[c]? = some p → s.procs[d]? = some q →
      p.st.pc.inside = true → q.st.pc.inside = true → c = d) ∧
    ((∀ (c : Nat) (p : Proc LockClient), s.procs[c]? = some p → p.st.pc.inside = false) →
      ∀ x, s.locks.net.server.m dataKey = some x → x.value = []) := by
  have hg := guarded_of_reaches h hb
  refine ⟨?_, hg.unique hb, ?_⟩
  · intro c p why hp hpc
    have hstands := hg.data.stands c p hp
    simp only [DataStands, hpc] at hstands
  · intro hout
    refine hg.data.clean fun c p hp hdirty ↦ ?_
    have hin := hdirty.inside
    rw [hout c p hp] at hin
    cases hin

/-- Client 0 gets the lock and client 1 does not.  The reply to the `Put` of client 0 under `"l0"`
is lost, and it goes on with `ErrMaybe`. -/
def oneInside : List LockTestAction :=
  [.client 0 (.makeLock 0), .client 1 (.makeLock 1), .net (.exec 0), .net (.deliver 0), .method 0,
   .net (.exec 1), .net (.deliver 1), .method 1, .net (.exec 2), .net (.deliver 2), .method 0,
   .client 0 .made, .net (.exec 3), .net (.deliver 3), .method 1, .client 1 .made,
   .net (.exec 4), .net (.deliver 4), .resume 0, .net (.exec 5), .net (.deliver 5), .resume 1,
   .client 0 .acquire, .client 1 .acquire, .net (.exec 6), .net (.exec 7), .net (.deliver 6),
   .method 0, .net (.deliver 7), .method 1, .net (.exec 8), .net (.deliver 8), .method 0,
   .net (.exec 9), .net (.deliver 9), .method 1, .client 0 .acquired, .net (.exec 10),
   .net (.deliver 10), .resume 0, .net (.exec 11), .net (.lose 11), .net (.resend 11),
   .net (.exec 12), .net (.deliver 11), .resume 0]

/-- Client 0 clears the key and leaves. -/
def leaves : List LockTestAction :=
  [.client 0 .wake, .net (.exec 13), .net (.deliver 12), .resume 0, .client 0 .release,
   .net (.exec 14), .net (.deliver 13), .method 0, .client 0 .released]

theorem oneInside_runs : (run LockTest.step (LockTest.begin 2) oneInside).isSome = true := by
  decide +kernel

theorem leaves_runs :
    (run LockTest.step (LockTest.begin 2) (oneInside ++ leaves)).isSome = true := by
  decide +kernel

theorem lockClients_never_fatal_leaves :
    ∃ s t, run LockTest.step (LockTest.begin 2) oneInside = some s ∧
      s.procs.map (fun p => p.st.pc) = [.sleep 1, .acquiring] ∧
      s.locks.net.server.m dataKey = some ⟨lit "0", 2⟩ ∧
      (∀ (d : Nat) (q : Proc LockClient), s.procs[d]? = some q → q.st.pc.inside = true → d = 0) ∧
      run LockTest.step (LockTest.begin 2) (oneInside ++ leaves) = some t ∧
      t.procs.map (fun p => p.st.pc) = [.top, .acquiring] ∧
      ∀ x, t.locks.net.server.m dataKey = some x → x.value = [] := by
  refine ⟨_, _, (Option.some_get oneInside_runs).symm, by decide +kernel, by decide +kernel, ?_,
    (Option.some_get leaves_runs).symm, by decide +kernel, ?_⟩
  · intro d q hq hin
    have hproc : ((run LockTest.step (LockTest.begin 2) oneInside).get
        oneInside_runs).procs[0]?.map (fun p => p.st.pc) = some (.sleep 1) := by
      decide +kernel
    obtain ⟨p, hp, hpc⟩ := Option.map_eq_some_iff.mp hproc
    exact (lockClients_never_fatal (reaches_get oneInside_runs)
      ⟨by decide +kernel, by decide +kernel⟩).2.1 d 0 q p hq hp hin (by rw [hpc]; rfl)
  · have hout : ∀ p ∈ ((run LockTest.step (LockTest.begin 2) (oneInside ++ leaves)).get
        leaves_runs).procs, p.st.pc.inside = false := by
      decide +kernel
    exact (lockClients_never_fatal (reaches_get leaves_runs)
      ⟨by decide +kernel, by decide +kernel⟩).2.2 fun c p hp ↦ hout p (List.mem_of_getElem? hp)

end Runs

end GoLabs.KvTest
