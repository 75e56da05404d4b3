import GoLabs.KvSrv.Lock

/-!
# Locks that nobody holds

The clients alternate `Acquire` and `Release`, and a handler runs within the `Call` that sent its
request.  When the reply of a `tryAcquire` that took effect is lost, the Clerk resends, is told
`ErrVersion` and returns `ErrMaybe`; `tryAcquire` takes that for a failure, and the key is left at
`"1"` with no client that believes to hold the lock.  As long as no such reply is lost, the last
writer of `"1"` keeps the lock until it has written `"0"`.

The argument follows the last write to the key only, so it needs no bound on the versions.
-/

open GoLabs.Reasoning

namespace GoLabs.KvSrv

/-- The handle has returned from `Acquire` and not completed its `Release`, or is inside the `Put`
call of `tryAcquire`. -/
def Handle.engaged (h : Handle) : Bool :=
  h.held || match h.pc with
    | .tryPut | .release => true
    | _ => false

namespace LockSys

/-- A client calls `Acquire` only after its `Release`, and handlers run within their `Call`. -/
def alternates (s : LockSys) : LockAction → Bool
  | .acquire i => s.handles[i]?.any fun h => !h.held
  | .net act => s.net.withinCall act
  | _ => true

/-- The key is at `"1"` and no handle has anything to do with it. -/
def Orphaned (l : GoString) (s : LockSys) : Prop :=
  (∃ w, s.net.server.m l = some ⟨lit "1", w⟩) ∧ ∀ h ∈ s.handles, h.engaged = false

/-- The reply to the attempt that a Clerk call is waiting for. -/
def replyOf (s : LockSys) (n : Nat) : Option Reply := do
  let c ← s.net.calls[n]?
  match c.pc with
  | .calling a => (← s.net.attempts[a]?).reply
  | _ => none

/-- When a `Put` of `tryAcquire` that took effect returns, it does so with the reply of the attempt
that took effect: that reply was not lost and replaced by the reply to a resend. -/
def replyKept (s : LockSys) : LockAction → Bool
  | .net (.deliver n) =>
      (s.procs.any fun p => p.st.pc = .tryPut ∧ p.call = n) →
      (s.net.attempts.any fun x => x.call = n ∧ x.reply = some (.put ⟨.ok⟩)) →
      s.replyOf n = some (.put ⟨.ok⟩)
  | _ => true

/-- One handle makes the lock and calls `Acquire`.  The reply to its `Put` of `"1"` is lost, the
resend is told `ErrVersion`, and `tryAcquire` returns false. -/
def lostAcquire : List LockAction :=
  [.makeLock, .net (.exec 0), .net (.deliver 0), .resume 0, .net (.exec 1), .net (.deliver 1),
   .resume 0, .acquire 0, .net (.exec 2), .net (.deliver 2), .resume 0, .net (.exec 3),
   .net (.lose 3), .net (.resend 3), .net (.exec 4), .net (.deliver 3), .resume 0]

end LockSys

theorem lock_orphaned_lostAcquire :
    ∃ l s, Reaches (restrict (LockSys.step l) LockSys.alternates) LockSys.init s ∧
      LockSys.Orphaned l s := by
  refine ⟨lit "l", _, reaches_of_run (l := LockSys.lostAcquire) rfl, ⟨2, rfl⟩, ?_⟩
  decide

namespace LockSys

/-- `p` answers for the value `"1"` at version `w`: its `tryAcquire` wrote it, and no attempt of its
`Release` has reached the server. -/
def Keeps (net : Net) (p : Proc Handle) (w : Tversion) : Prop :=
  (p.st.pc = .tryPut ∧ net.Took p.call ∧ w = p.st.version + 1) ∨
    (p.st.held = true ∧ p.st.pc = .idle ∧ w = p.st.version) ∨
    (p.st.pc = .release ∧ (∀ reply, ¬ net.Answered p.call reply) ∧ w = p.st.version)

structure Kept (l : GoString) (s : LockSys) : Prop where
  keeper : ∀ w, s.net.server.m l = some ⟨lit "1", w⟩ →
    ∃ (i : Nat) (p : Proc Handle), s.procs[i]? = some p ∧ Keeps s.net p w
  returned : ∀ (i : Nat) (p : Proc Handle) (res : Result), s.procs[i]? = some p →
    p.st.pc = .tryPut → s.net.result p.call = some res → s.net.Took p.call → res = .put .ok

variable {l : GoString} {s t : LockSys} {p : Proc Handle} {w : Tversion}

theorem Kept.init : Kept l LockSys.init := by
  constructor <;> simp [LockSys.init, Net.init, makeKVServer]

theorem Keeps.engaged {net : Net} (hk : Keeps net p w) : p.st.engaged = true := by
  unfold Handle.engaged
  rcases hk with ⟨hpc, -⟩ | ⟨hheld, -⟩ | ⟨hpc, -⟩
  · simp [hpc]
  · simp [hheld]
  · simp [hpc]

theorem Kept.not_orphaned (hk : Kept l s) : ¬ Orphaned l s := by
  rintro ⟨⟨w, hw⟩, hnone⟩
  rcases hk.keeper w hw with ⟨i, p, hp, hkeeps⟩
  have hfree := hnone p.st (List.mem_of_getElem? (handles_eq_some.mpr ⟨p.call, hp⟩))
  rw [hkeeps.engaged] at hfree
  simp at hfree

/-- Whether a handle answers for the value depends on the answers only. -/
theorem keeps_congr {net net' : Net} (hview : net'.view = net.view) :
    Keeps net' p w ↔ Keeps net p w := by
  have hans : net'.Answered = net.Answered := congrArg View.answered hview
  unfold Keeps Net.Took
  rw [hans]

/-- A handle moves, and answers for what it did before. -/
theorem Kept.moved {i : Nat} {h : Handle} (hk : Kept l s)
    (hm : Sys.Moved (Handle.program l) s i h t)
    (hsame : ∀ p w, s.procs[i]? = some p → Keeps s.net p w →
      Keeps s.net ⟨h, s.net.calls.length⟩ w) : Kept l t := by
  have hserver : t.net.server = s.net.server := congrArg View.server hm.view
  have hans : t.net.Answered = s.net.Answered := congrArg View.answered hm.view
  constructor
  · intro w hstored
    rw [hserver] at hstored
    rcases hk.keeper w hstored with ⟨j, p, hp, hkeeps⟩
    by_cases hji : j = i
    · subst hji
      exact ⟨j, _, hm.self, (keeps_congr hm.view).mpr (hsame p w hp hkeeps)⟩
    · exact ⟨j, p, (hm.other j hji).trans hp, (keeps_congr hm.view).mpr hkeeps⟩
  · intro j p res hp hpc hres htook
    rw [hm.result] at hres
    rcases hm.cases hp with ⟨-, rfl⟩ | ⟨-, hold⟩
    · -- its call has just been made
      simp [Net.result] at hres
    · rw [Net.Took, hans] at htook
      exact hk.returned j p res hold hpc hres htook

/-- A step of the network that runs no handler and returns no lock `Put` with a wrong result. -/
theorem Kept.quiet (hk : Kept l s) {net : Net} (hview : net.view = s.net.view)
    (hret : ∀ (i : Nat) (p : Proc Handle) (res : Result), s.procs[i]? = some p →
      p.st.pc = .tryPut → net.result p.call = some res → s.net.Took p.call → res = .put .ok) :
    Kept l { s with net } := by
  have hserver : net.server = s.net.server := congrArg View.server hview
  have hans : net.Answered = s.net.Answered := congrArg View.answered hview
  constructor
  · intro w hstored
    rw [hserver] at hstored
    rcases hk.keeper w hstored with ⟨i, p, hp, hkeeps⟩
    exact ⟨i, p, hp, (keeps_congr hview).mpr hkeeps⟩
  · intro i p res hp hpc hres htook
    rw [Net.Took, hans] at htook
    exact hret i p res hp hpc hres htook

/-- The call that waits for an attempt is the one that sent it, and it has not returned. -/
theorem result_of_within (hi : s.net.Inv) {a m : Nat} {r : Request} {o : Option Reply}
    (hat : s.net.attempts[a]? = some ⟨m, r, o⟩) (hwithin : s.net.withinCall (.exec a) = true) :
    s.net.result m = none := by
  simp only [Net.withinCall, List.any_eq_true, decide_eq_true_eq] at hwithin
  rcases hwithin with ⟨c, hmem, hpc⟩
  rcases List.mem_iff_getElem?.mp hmem with ⟨n, hn⟩
  rcases hi.calling n c a hn hpc with ⟨r', hr⟩
  rw [hat, Option.some.injEq, Attempt.mk.injEq] at hr
  rw [hr.1]
  simp [Net.result, hn, hpc]

/-- Running a handler: a `Put` of `"1"` that takes effect has a handle waiting for it, and the first
`Put` of a `Release` to reach the server ends the value it was meant for. -/
theorem Kept.exec (hk : Kept l s) (hi : s.net.Inv) (hw : Sys.Wired (Handle.program l) l s)
    {a m : Nat} {r : Request} (hat : s.net.attempts[a]? = some ⟨m, r, none⟩)
    (hwithin : s.net.withinCall (.exec a) = true) :
    Kept l { s with net := s.net.exec a m r } := by
  have hreqm := hi.req_of_attempt hat
  have hnone := result_of_within hi hat hwithin
  constructor
  · intro w hstored
    change (s.net.exec a m r).server.m l = _ at hstored
    by_cases hwrite : ∃ args, r = .put args ∧ args.key = l ∧ (s.net.server.put args).2.err = .ok
    · rcases hwrite with ⟨args, rfl, hkey, hok⟩
      rw [Net.server_exec_write hkey hok, Option.some.injEq, StoredValue.mk.injEq] at hstored
      rcases hstored with ⟨hone, hversion⟩
      rcases hw.pending m args hreqm hkey hnone with ⟨i, p, hp, hreq, rfl⟩
      refine ⟨i, p, hp, ?_⟩
      -- the only `Put` of "1" is the one of `tryAcquire`
      rcases Handle.request_put hreq with ⟨-, hargs, ⟨-, hzero⟩ | ⟨hpc, -⟩ | ⟨-, hzero⟩⟩
      · exact absurd (hzero.symm.trans hone) (by decide)
      · refine .inl ⟨hpc, (Net.took_exec_write hat hok p.call).mpr (.inr rfl), ?_⟩
        rw [← hversion, hargs]
      · exact absurd (hzero.symm.trans hone) (by decide)
    · have hother : ∀ args, r = .put args → args.key = l → (s.net.server.put args).2.err ≠ .ok :=
        fun args hr hkey hok ↦ hwrite ⟨args, hr, hkey, hok⟩
      rw [Net.server_exec_other hother] at hstored
      rcases hk.keeper w hstored with ⟨i, p, hp, hkeeps⟩
      refine ⟨i, p, hp, ?_⟩
      rcases hkeeps with ⟨hpc, htook, hv⟩ | hheld | ⟨hpc, hans, hv⟩
      · exact .inl ⟨hpc, (Net.answered_exec hat).mpr (.inl htook), hv⟩
      · exact .inr (.inl hheld)
      · refine .inr (.inr ⟨hpc, ?_, hv⟩)
        intro reply ha
        rcases (Net.answered_exec hat).mp ha with hold | ⟨hcall, -⟩
        · exact hans reply hold
        · have hreq := hw.waits i p (.put ⟨l, lit "0", p.st.version⟩) hp
            (by simp [Handle.program, Handle.request, hpc])
          rw [hcall, hreqm, Option.some.injEq] at hreq
          apply hother _ hreq rfl
          rw [put_err_eq_ok_iff, KVServer.view, hstored, hv]
          rfl
  · intro i p res hp hpc hres htook
    change s.net.result p.call = some res at hres
    rcases (Net.answered_exec hat).mp htook with hold | ⟨hcall, -⟩
    · exact hk.returned i p res hp hpc hres hold
    · rw [hcall, hnone] at hres
      simp at hres

/-- A method that goes on keeps the lock if its handle kept it. -/
theorem Kept.resumed (hk : Kept l s) (hi : s.net.Inv) {i n : Nat} {h : Handle} {res : Result}
    (hp : s.procs[i]? = some p) (hres : s.net.result p.call = some res)
    (hr : Resumes p.st res h) (hkeeps : Keeps s.net p w) : Keeps s.net ⟨h, n⟩ w := by
  rcases hkeeps with ⟨hpc, htook, hv⟩ | ⟨-, hpc, -⟩ | ⟨-, hans, -⟩
  · obtain rfl := hk.returned i p res hp hpc hres htook
    cases hr with
    | acquired _ => exact .inr (.inl ⟨rfl, rfl, hv⟩)
    | failed _ herr => exact absurd rfl herr
    | made hpc' => simp [hpc] at hpc'
    | released hpc' => simp [hpc] at hpc'
  · -- no call is under way
    cases hr <;> simp_all
  · rcases hi.answered_of_result hres with ⟨reply, retried, ha, -⟩
    exact absurd ha (hans reply)

/-- A delivered result is truthful when the reply that took effect was kept. -/
theorem Kept.deliver (hk : Kept l s) {n a m : Nat} {c : ClerkCall} {r : Request} {reply : Reply}
    (hc : s.net.calls[n]? = some c) (hpc : c.pc = .calling a)
    (hat : s.net.attempts[a]? = some ⟨m, r, some reply⟩)
    (hkept : s.replyKept (.net (.deliver n)) = true) :
    Kept l { s with net := s.net.deliver n c a reply } := by
  refine hk.quiet (Net.view_quiet (Net.step_iff.mpr (.deliver hc hpc hat)) rfl) ?_
  intro i p res hp hput hres htook
  rw [Net.result_deliver hc] at hres
  split at hres
  · rename_i heq
    rw [Option.some.injEq] at hres
    have hreply : s.replyOf n = some reply := by simp [replyOf, hc, hpc, hat]
    rcases htook with ⟨b, req, hb⟩
    simp only [replyKept, decide_eq_true_eq, List.any_eq_true, decide_eq_true_eq] at hkept
    have hok := hkept ⟨p, List.mem_of_getElem? hp, hput, heq⟩
      ⟨_, List.mem_of_getElem? hb, heq, rfl⟩
    rw [hreply, Option.some.injEq] at hok
    rw [← hres, hok]
    simp [clerkReturn, clerkPut]
  · exact hk.returned i p res hp hput hres htook

theorem Kept.step {act : LockAction} (hk : Kept l s) (hi : s.net.Inv)
    (hw : Sys.Wired (Handle.program l) l s) (hs : s.step l act = some t)
    (halt : s.alternates act = true) (hkept : s.replyKept act = true) : Kept l t := by
  cases step_cases hs with
  | makeLock =>
      refine hk.moved (Sys.moved_spawn _) ?_
      intro p w hp
      have hlt := lt_length_of_getElem? hp
      omega
  | @acquire i p hp hpc hcause =>
      have hfree : p.st.held = false := by
        have hh : s.handles[i]? = some p.st := handles_eq_some.mpr ⟨p.call, hp⟩
        simpa [alternates, hh] using halt
      refine hk.moved (Sys.moved_enter hp hcause) ?_
      rintro q w hq (⟨hn, -⟩ | ⟨hheld, -⟩ | ⟨hn, -⟩) <;> simp_all
  | @retry i p hp hpc hcause =>
      refine hk.moved (Sys.moved_enter hp hcause) ?_
      rintro q w hq (⟨hn, -⟩ | ⟨-, hn, -⟩ | ⟨hn, -⟩) <;> simp_all
  | @release i p hp hpc hheld hcause =>
      refine hk.moved (Sys.moved_enter hp hcause) ?_
      intro q w hq hkeeps
      rw [hp, Option.some.injEq] at hq
      subst hq
      rcases hkeeps with ⟨hn, -⟩ | ⟨-, -, hv⟩ | ⟨hn, -⟩
      · simp [hpc] at hn
      · -- the lock is held until this `Put` is answered
        exact .inr (.inr ⟨rfl, hi.not_answered_next, hv⟩)
      · simp [hpc] at hn
  | @resume i p res h hp hres hresumes hcause =>
      refine hk.moved (Sys.moved_enter hp hcause) ?_
      intro q w hq hkeeps
      rw [hp, Option.some.injEq] at hq
      subst hq
      exact hk.resumed hi hp hres hresumes hkeeps
  | net hf hnet =>
      -- all but `exec` and `deliver` leave the server, the answers and the results as they are
      have hstay : ∀ {net : Net}, net.view = s.net.view →
          (∀ n, net.result n = s.net.result n) → Kept l { s with net } := by
        intro net hview hresult
        refine hk.quiet hview ?_
        intro i p res hp hpc hres htook
        rw [hresult] at hres
        exact hk.returned i p res hp hpc hres htook
      cases Net.step_iff.mp hnet with
      | invoke clerk r => exact hstay (Net.view_quiet hnet rfl) fun _ ↦ Net.result_invoke
      | exec hat => exact hk.exec hi hw hat halt
      | lose hc hpc => exact hstay (Net.view_quiet hnet rfl) fun _ ↦ Net.result_lose hc hpc
      | resend hc hpc => exact hstay (Net.view_quiet hnet rfl) fun _ ↦ Net.result_resend hc hpc
      | deliver hc hpc hat => exact hk.deliver hc hpc hat hkept

end LockSys

/-- As long as every `Put` of a `tryAcquire` that takes effect is answered by the reply of the
attempt that took effect, a lock that is taken has a handle that answers for it. -/
theorem lock_not_orphaned {l : GoString} {s : LockSys}
    (h : Reaches (restrict (restrict (LockSys.step l) LockSys.alternates) LockSys.replyKept)
      LockSys.init s) : ¬ LockSys.Orphaned l s := by
  refine LockSys.Kept.not_orphaned (h.invariant LockSys.Kept.init ?_)
  intro u act v hu hs hk
  rcases restrict_eq_some.mp hs with ⟨hkept, hs'⟩
  rcases restrict_eq_some.mp hs' with ⟨halt, hstep⟩
  have hrun := hu.of_restrict.of_restrict
  exact hk.step (Net.inv_of_reaches (LockSys.net_reaches hrun)) (LockSys.wired_of_reaches hrun)
    hstep halt hkept

/-- The first attempt of the `Put` of `"1"` is lost before it reaches the server; the resend takes
effect and its reply arrives. -/
def LockSys.resentAcquire : List LockAction :=
  [.makeLock, .net (.exec 0), .net (.deliver 0), .resume 0, .net (.exec 1), .net (.deliver 1),
   .resume 0, .acquire 0, .net (.exec 2), .net (.deliver 2), .resume 0, .net (.lose 3),
   .net (.resend 3), .net (.exec 4), .net (.deliver 3), .resume 0]

theorem lock_not_orphaned_resentAcquire :
    ∃ s, run (restrict (restrict (LockSys.step (lit "l")) LockSys.alternates) LockSys.replyKept)
        LockSys.init LockSys.resentAcquire = some s ∧
      s.net.server.m (lit "l") = some ⟨lit "1", 2⟩ ∧ ¬ LockSys.Orphaned (lit "l") s :=
  ⟨_, rfl, rfl, lock_not_orphaned (reaches_of_run (l := LockSys.resentAcquire) rfl)⟩

end GoLabs.KvSrv
