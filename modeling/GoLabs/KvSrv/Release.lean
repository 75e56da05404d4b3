import GoLabs.KvSrv.RoundTrip
import GoLabs.KvSrv.MutualExclusion

/-!
# Releasing the lock

`Release` does not look at the result of its `Put`.  It need not: a handle that holds the lock is
the only one whose `Put` can match the version of the key, so the first attempt that the server
executes takes effect, and every later one comes too late for good.  Only after `2 ^ 64` writes of
the key the version comes back, and with it the chance of an attempt that is still under way.
-/

open GoLabs.Reasoning

namespace GoLabs.KvSrv

theorem effects_append (n : Nat) (history history' : List Event) :
    effects n (history ++ history') = effects n history ++ effects n history' :=
  List.filter_append ..

namespace Net

variable {net t : Net} {n a : Nat} {args : PutArgs} {act : Action}

/-- Call `n` has taken effect once, before it returned, and its version is behind the key. -/
structure Settled (net : Net) (n a : Nat) (args : PutArgs) : Prop where
  effects : effects n net.history = [.exec n a (.put args) (.put ⟨.ok⟩)]
  replies : ∀ reply, net.Answered n reply → reply = .put ⟨.ok⟩ ∨ reply = .put ⟨.errVersion⟩
  before : ∀ b req res, .ret n b req res ∈ net.history →
    Precedes net.history (.exec n a (.put args) (.put ⟨.ok⟩)) (.ret n b req res)
  behind : args.version.toNat < net.writes args.key

theorem Settled.mem (h : net.Settled n a args) :
    .exec n a (.put args) (.put ⟨.ok⟩) ∈ net.history := by
  have hmem : Event.exec n a (.put args) (.put ⟨.ok⟩) ∈ KvSrv.effects n net.history := by
    rw [h.effects]
    exact List.mem_singleton.mpr rfl
  obtain ⟨_, _, -, hhistory⟩ := mem_effects.mp hmem
  exact hhistory

theorem Settled.req (h : net.Settled n a args) (hi : net.Inv) : net.req n = some (.put args) :=
  hi.req_of_attempt ((hi.exec_iff _ _ _ _).mp h.mem)

/-- A `Put` behind the version of its key is refused. -/
theorem Inv.put_behind (hi : net.Inv) (hb : net.writes args.key < 2 ^ 64)
    (h : args.version.toNat < net.writes args.key) :
    (net.server.put args).2 = ⟨.errVersion⟩ := by
  have hno : (net.server.put args).2.err ≠ .ok := by
    intro hok
    have heq := (hi.put_ok_iff hb).mp hok
    omega
  have herr : (net.server.put args).2.err = .errVersion := by
    obtain hok | hversion | hmissing := put_err_cases net.server args
    · exact absurd hok hno
    · exact hversion
    · -- the key has been written
      have hzero := (hi.served.eq_none_iff args.key).mp (put_noKey hmissing)
      change net.writes args.key = 0 at hzero
      omega
  exact congrArg PutReply.mk herr

theorem Settled.step (h : net.Settled n a args) (hi : net.Inv)
    (hb : net.writes args.key < 2 ^ 64) (hs : net.step act = some t) : t.Settled n a args := by
  have hbehind : args.version.toNat < t.writes args.key :=
    Nat.lt_of_lt_of_le h.behind (writes_le_of_step hs args.key)
  -- an event that is no effect of the call is the only one that can be added
  have hsnoc : ∀ e : Event, KvSrv.effects n [e] = [] →
      KvSrv.effects n (net.history ++ [e]) = [.exec n a (.put args) (.put ⟨.ok⟩)] := by
    intro e he
    rw [effects_append, he, List.append_nil]
    exact h.effects
  have hold : ∀ e : Event, (∀ b req res, e ≠ .ret n b req res) →
      ∀ b req res, .ret n b req res ∈ net.history ++ [e] →
        Precedes (net.history ++ [e]) (.exec n a (.put args) (.put ⟨.ok⟩)) (.ret n b req res) := by
    intro e he b req res hmem
    obtain hmem | hnew := List.mem_append.mp hmem
    · exact (h.before b req res hmem).append _
    · exact absurd (List.mem_singleton.mp hnew).symm (he b req res)
  cases step_iff.mp hs with
  | invoke clerk r =>
      refine ⟨hsnoc _ rfl, ?_, hold _ (by simp), hbehind⟩
      exact fun reply ha ↦ h.replies reply (answered_invoke.mp ha)
  | lose hc hpc => exact ⟨h.effects, h.replies, h.before, hbehind⟩
  | resend hc hpc =>
      refine ⟨h.effects, ?_, h.before, hbehind⟩
      exact fun reply ha ↦ h.replies reply (answered_resend.mp ha)
  | deliver hc hpc hat =>
      refine ⟨hsnoc _ rfl, h.replies, ?_, hbehind⟩
      intro b req res hmem
      obtain hmem | hnew := List.mem_append.mp hmem
      · exact (h.before b req res hmem).append _
      · rw [List.mem_singleton.mp hnew]
        exact precedes_snoc h.mem _
  | @exec a' m r hat =>
      by_cases hmn : m = n
      · subst hmn
        have hr := hi.req_of_attempt hat
        rw [h.req hi, Option.some.injEq] at hr
        subst hr
        have hlate : (net.server.dispatch (.put args)).2 = .put ⟨.errVersion⟩ :=
          congrArg Reply.put (hi.put_behind hb h.behind)
        refine ⟨hsnoc _ ?_, ?_, hold _ (by simp), hbehind⟩
        · rw [hlate]
          simp [KvSrv.effects, tookEffect]
        · intro reply ha
          obtain ha | ⟨-, rfl⟩ := (answered_exec hat).mp ha
          · exact h.replies reply ha
          · exact .inr hlate
      · refine ⟨hsnoc _ (by simp [KvSrv.effects, hmn]), ?_, hold _ (by simp), hbehind⟩
        intro reply ha
        obtain ha | ⟨hnm, -⟩ := (answered_exec hat).mp ha
        · exact h.replies reply ha
        · exact absurd hnm.symm hmn

/-- The first attempt of a call settles it, if it takes effect. -/
theorem settled_of_exec (hi : net.Inv) (hb : net.writes args.key < 2 ^ 64)
    (hat : net.attempts[a]? = some ⟨n, .put args, none⟩) (hfresh : ∀ reply, ¬ net.Answered n reply)
    (hok : (net.server.put args).2.err = .ok) : (net.exec a n (.put args)).Settled n a args := by
  have hreply : (net.server.dispatch (.put args)).2 = .put ⟨.ok⟩ :=
    congrArg Reply.put (congrArg PutReply.mk hok)
  have hexec : ∀ b req reply, .exec n b req reply ∉ net.history := by
    intro b req reply hmem
    exact hfresh reply ⟨b, req, (hi.exec_iff _ _ _ _).mp hmem⟩
  constructor
  · have hnone : KvSrv.effects n net.history = [] := by
      refine List.eq_nil_iff_forall_not_mem.mpr fun e he ↦ ?_
      obtain ⟨b, args', rfl, hmem⟩ := mem_effects.mp he
      exact hexec _ _ _ hmem
    change KvSrv.effects n (net.history ++ [_]) = _
    rw [effects_append, hnone, hreply]
    simp [KvSrv.effects, tookEffect]
  · intro reply ha
    obtain ha | ⟨-, rfl⟩ := (answered_exec hat).mp ha
    · exact absurd ha (hfresh reply)
    · exact .inl hreply
  · intro b req res hmem
    obtain hmem | hnew := List.mem_append.mp hmem
    · obtain ⟨reply, hp⟩ := hi.exec_before_ret n b req res hmem
      exact absurd hp.left (hexec b req reply)
    · simp at hnew
  · rw [writes_exec_write rfl hok, (hi.put_ok_iff hb).mp hok]
    exact Nat.lt_succ_self _

/-- What the Clerk returns for a settled call. -/
theorem Settled.result (h : net.Settled n a args) (hi : net.Inv) {res : Result}
    (hres : net.result n = some res) : res = .put .ok ∨ res = .put .errMaybe := by
  obtain ⟨reply, retried, ha, rfl⟩ := hi.answered_of_result hres
  obtain rfl | rfl := h.replies reply ha
  · exact .inl (by simp [clerkReturn, clerkPut])
  · cases retried with
    | true => exact .inr (by simp [clerkReturn, clerkPut])
    | false =>
        -- an only attempt that is refused has not taken effect
        have htook : net.Took n := ⟨a, _, (hi.exec_iff _ _ _ _).mp h.mem⟩
        exact absurd htook (hi.not_took_of_errVersion (by simpa [clerkReturn, clerkPut] using hres))

end Net

namespace LockSys

variable {l : GoString} {g : Option (Nat × Tversion)} {s t : LockSys} {i : Nat} {h : Handle}

/-- Handle `i` waits in `Release`, and no attempt of its `Put` has been executed. -/
structure Releasing (s : LockSys) (i : Nat) (p : Proc Handle) : Prop where
  proc : s.procs[i]? = some p
  pc : p.st.pc = .release
  fresh : ∀ reply, ¬ s.net.Answered p.call reply

theorem Releasing.request {p : Proc Handle} (hr : s.Releasing i p) :
    (Handle.program l).request p.st = some (.put ⟨l, lit "0", p.st.version⟩) := by
  simp [Handle.program, Handle.request, hr.pc]

/-- Nobody but the owner can have moved the version of the key. -/
theorem Releasing.put_ok {p : Proc Handle} (hr : s.Releasing i p) (hx : Exclusive l g s) :
    (s.net.server.put ⟨l, lit "0", p.st.version⟩).2.err = .ok := by
  have hstored := hx.stored hr.proc (.inr (.inr ⟨hr.pc, hr.fresh _, rfl⟩))
  rw [put_err_eq_ok_iff]
  change _ = (s.net.server.view l).version
  rw [KVServer.view, hstored]
  rfl

theorem Releasing.moved {p : Proc Handle} {j : Nat} (hr : s.Releasing i p) (hi : s.net.Inv)
    (hm : Sys.Moved (Handle.program l) s j h t) : t.Releasing i p := by
  -- a handle whose call has not been answered does not move
  have hij : i ≠ j := by
    rintro rfl
    have hres := hm.free p _ hr.proc hr.request
    obtain ⟨res, hres⟩ := Option.ne_none_iff_exists'.mp hres
    obtain ⟨reply, _, ha, _⟩ := hi.answered_of_result hres
    exact hr.fresh reply ha
  refine ⟨(hm.other i hij).trans hr.proc, hr.pc, fun reply ha ↦ hr.fresh reply ?_⟩
  change t.net.view.answered _ _ at ha
  rw [hm.view] at ha
  exact ha

theorem Releasing.net {p : Proc Handle} {action : Action} {net : Net} (hr : s.Releasing i p)
    (hx : Exclusive l g s) (hb : s.net.writes l < 2 ^ 64) (hs : s.net.step action = some net) :
    Releasing { s with net } i p ∨ ∃ a, net.Settled p.call a ⟨l, lit "0", p.st.version⟩ := by
  have hi := hx.careful.inv
  by_cases hq : Net.quiet action = true
  · refine .inl ⟨hr.proc, hr.pc, fun reply ha ↦ hr.fresh reply ?_⟩
    change net.view.answered _ _ at ha
    rw [Net.view_quiet hs hq] at ha
    exact ha
  · cases Net.step_iff.mp hs with
    | @exec a m r hat =>
        by_cases hmn : m = p.call
        · subst hmn
          have hsame := hi.req_of_attempt hat
          rw [hx.careful.req hr.proc hr.request, Option.some.injEq] at hsame
          subst hsame
          exact .inr ⟨a, Net.settled_of_exec hi hb hat hr.fresh (hr.put_ok hx)⟩
        · refine .inl ⟨hr.proc, hr.pc, fun reply ha ↦ ?_⟩
          obtain hold | ⟨hnm, -⟩ := (Net.answered_exec hat).mp ha
          · exact hr.fresh reply hold
          · exact hmn hnm.symm
    | _ => simp [Net.quiet] at hq

/-- From its call on, a `Release` is waiting for its first execution or settled. -/
theorem released {s₀ s₁ : LockSys} (h₀ : Reaches (step l) LockSys.init s₀)
    (hh : s₀.handles[i]? = some h) (hrel : s₀.step l (.release i) = some s₁)
    (hlater : Reaches (step l) s₁ s) (hb : s.net.writes l < 2 ^ 64) :
    s.Releasing i ⟨h.release, s₀.net.calls.length⟩ ∨
      ∃ a, s.net.Settled s₀.net.calls.length a ⟨l, lit "0", h.version⟩ := by
  have hi₀ := Net.inv_of_reaches (net_reaches h₀)
  have h₁ := h₀.snoc hrel
  refine hlater.invariant_below (B := fun s ↦ s.net.writes l < 2 ^ 64)
    (I := fun s ↦ s.Releasing i ⟨h.release, s₀.net.calls.length⟩ ∨
      ∃ a, s.net.Settled s₀.net.calls.length a ⟨l, lit "0", h.version⟩) ?_ ?_ ?_ hb
  · intro u act w hs hw
    exact lt_of_le_of_lt (writes_le_of_step hs l) hw
  · obtain ⟨n, hp⟩ := handles_eq_some.mp hh
    cases step_cases hrel with
    | release hp' hpc hheld hcause =>
        rw [hp, Option.some.injEq] at hp'
        subst hp'
        have hm := Sys.moved_enter hp hcause
        refine .inl ⟨hm.self, rfl, fun reply ha ↦ hi₀.not_answered_next reply ?_⟩
        change (s₀.enter (Handle.program l) i h.release).net.view.answered _ _ at ha
        rw [hm.view] at ha
        exact ha
  · intro u act w hu hs hw hor
    have hbelow := lt_of_le_of_lt (writes_le_of_step hs l) hw
    obtain ⟨g, hx⟩ := exclusive_of_reaches (h₁.trans hu) hbelow
    obtain hwaits | ⟨a, hsettled⟩ := hor
    · obtain ⟨j, k, hm⟩ | ⟨action, net, -, hnet, rfl⟩ := moved_or_net hs
      · exact .inl (hwaits.moved hx.careful.inv hm)
      · exact hwaits.net hx hbelow hnet
    · obtain hsame | ⟨action, hnet⟩ := net_of_step hs
      · exact .inr ⟨a, hsame ▸ hsettled⟩
      · exact .inr ⟨a, hsettled.step hx.careful.inv hbelow hnet⟩

end LockSys

/-- A handle calls `Release`, and in a later state the Clerk call of it has returned: its `Put` has
taken effect in one attempt, between the call and the return. -/
theorem release_frees_once {l : GoString} {s₀ s₁ s : LockSys} {i : Nat} {h : Handle}
    (h₀ : Reaches (LockSys.step l) LockSys.init s₀) (hh : s₀.handles[i]? = some h)
    (hrel : s₀.step l (.release i) = some s₁) (hlater : Reaches (LockSys.step l) s₁ s)
    (hb : s.net.writes l < 2 ^ 64) {n : Nat} (hn : n = s₀.net.calls.length) {res : Result}
    (hret : s.net.result n = some res) :
    (res = .put .ok ∨ res = .put .errMaybe) ∧
      ∃ a b, effects n s.net.history =
          [.exec n a (.put ⟨l, lit "0", h.version⟩) (.put ⟨.ok⟩)] ∧
        Precedes s.net.history (.invoke n (.put ⟨l, lit "0", h.version⟩))
          (.exec n a (.put ⟨l, lit "0", h.version⟩) (.put ⟨.ok⟩)) ∧
        Precedes s.net.history (.exec n a (.put ⟨l, lit "0", h.version⟩) (.put ⟨.ok⟩))
          (.ret n b (.put ⟨l, lit "0", h.version⟩) res) := by
  subst hn
  have hi := Net.inv_of_reaches (LockSys.net_reaches ((h₀.snoc hrel).trans hlater))
  obtain hwaits | ⟨a, hsettled⟩ := LockSys.released h₀ hh hrel hlater hb
  · obtain ⟨reply, _, ha, _⟩ := hi.answered_of_result hret
    exact absurd ha (hwaits.fresh reply)
  · refine ⟨hsettled.result hi hret, a, ?_⟩
    obtain ⟨c, b, hc, hpc⟩ := Net.result_eq_some.mp hret
    have hreq : c.req = .put ⟨l, lit "0", h.version⟩ := by
      obtain ⟨c', hc', hreq⟩ := Net.req_eq_some.mp (hsettled.req hi)
      rw [hc, Option.some.injEq] at hc'
      exact hc' ▸ hreq
    have hmem : Event.ret s₀.net.calls.length b (.put ⟨l, lit "0", h.version⟩) res ∈
        s.net.history := (hi.ret_iff _ _ _ _).mpr ⟨c, hc, hreq, hpc⟩
    exact ⟨b, hsettled.effects, hi.invoke_before_exec _ _ _ _ hsettled.mem,
      hsettled.before b _ res hmem⟩

/-- Two handles are made and the first one acquires the lock, at version 2. -/
def holding : List LockAction :=
  [.makeLock, .net (.exec 0), .net (.deliver 0), .resume 0, .net (.exec 1), .net (.deliver 1),
   .resume 0, .makeLock, .net (.exec 2), .net (.deliver 2), .resume 1, .acquire 0, .net (.exec 3),
   .net (.deliver 3), .resume 0, .net (.exec 4), .net (.deliver 4), .resume 0]

/-- The second attempt of the `Put` takes effect and the third one is answered; the first one is
executed after the other handle has acquired the lock. -/
def releasedLate : List LockAction :=
  [.net (.lose 5), .net (.resend 5), .net (.lose 5), .net (.resend 5), .net (.exec 6),
   .net (.exec 7), .net (.deliver 5), .resume 0, .acquire 1, .net (.exec 8), .net (.deliver 6),
   .resume 1, .net (.exec 9), .net (.deliver 7), .resume 1, .net (.exec 5)]

theorem holding_runs :
    (run (LockSys.step (lit "l")) LockSys.init holding).isSome = true := by decide

def heldOnce : LockSys := (run (LockSys.step (lit "l")) LockSys.init holding).get holding_runs

theorem heldOnce_releases : (heldOnce.step (lit "l") (.release 0)).isSome = true := by decide

theorem releasedLate_runs : (run (LockSys.step (lit "l"))
    ((heldOnce.step (lit "l") (.release 0)).get heldOnce_releases) releasedLate).isSome = true := by
  decide

theorem release_frees_once_late :
    ∃ s₁ s : LockSys, Reaches (LockSys.step (lit "l")) LockSys.init heldOnce ∧
      heldOnce.step (lit "l") (.release 0) = some s₁ ∧
      run (LockSys.step (lit "l")) s₁ releasedLate = some s ∧
      s.net.result 5 = some (.put .errMaybe) ∧ s.handles.map Handle.held = [false, true] ∧
      ∃ a b, effects 5 s.net.history =
          [.exec 5 a (.put ⟨lit "l", lit "0", 2⟩) (.put ⟨.ok⟩)] ∧
        Precedes s.net.history (.invoke 5 (.put ⟨lit "l", lit "0", 2⟩))
          (.exec 5 a (.put ⟨lit "l", lit "0", 2⟩) (.put ⟨.ok⟩)) ∧
        Precedes s.net.history (.exec 5 a (.put ⟨lit "l", lit "0", 2⟩) (.put ⟨.ok⟩))
          (.ret 5 b (.put ⟨lit "l", lit "0", 2⟩) (.put .errMaybe)) := by
  have hrel := (Option.some_get heldOnce_releases).symm
  have hlater := (Option.some_get releasedLate_runs).symm
  have hheld : heldOnce.handles[0]? = some ⟨2, true, .idle⟩ := by decide
  refine ⟨_, _, reaches_get holding_runs, hrel, hlater, by decide, by decide, ?_⟩
  exact (release_frees_once (n := 5) (reaches_get holding_runs) hheld hrel (reaches_of_run hlater)
    (by decide) (by decide) (by decide)).2

/-! ## Versions that wrap around -/

namespace LockSys

variable {l : GoString} {s : LockSys} {i : Nat} {h : Handle} {w : Tversion}

theorem reaches_act {p : Proc Handle} (call : LockCall) (hp : s.procs[i]? = some p)
    (hpc : p.st.pc = .idle) (hact : p.st.act call = some h) :
    Reaches (step l) s (s.enter (Handle.program l) i h) := by
  have hidle : (Handle.program l).request p.st = none := by
    simp [Handle.program, Handle.request, hpc]
  exact reaches_of_sys (Sys.reaches_act hp hidle hact).of_restrict

/-- A method makes a Clerk call that meets no loss, and goes on. -/
theorem reaches_call {h' : Handle} {r : Request} (hi : i < s.procs.length)
    (hr : h.request l = some r)
    (hresume : h.resume (clerkReturn false (s.net.server.dispatch r).2) = some h') :
    Reaches (step l) (s.enter (Handle.program l) i h)
      (({ s with net := s.net.roundTrip i r } : LockSys).enter (Handle.program l) i h') :=
  reaches_of_sys (Sys.reaches_call hi hr hresume).of_restrict

/-- What undisturbed methods of handle `i` do, which leaves it as `h'`. -/
structure Undisturbed (l : GoString) (i : Nat) (s t : LockSys) (h' : Handle) (v : StoredValue) :
    Prop where
  reaches : Reaches (step l) s t
  handles : t.handles = s.handles.set i h'
  stored : t.net.server.m l = some v
  attempts : s.net.attempts <+: t.net.attempts
  history : s.net.history <+: t.net.history

theorem Undisturbed.trans {s t u : LockSys} {h k : Handle} {v v' : StoredValue}
    (hst : Undisturbed l i s t h v) (htu : Undisturbed l i t u k v') :
    Undisturbed l i s u k v' where
  reaches := hst.reaches.trans htu.reaches
  handles := by rw [htu.handles, hst.handles, List.set_set]
  stored := htu.stored
  attempts := hst.attempts.trans htu.attempts
  history := hst.history.trans htu.history

/-- A handle takes a free lock. -/
theorem undisturbed_acquire (hh : s.handles[i]? = some h) (hpc : h.pc = .idle)
    (hm : s.net.server.m l = some ⟨lit "0", w⟩) :
    ∃ t, Undisturbed l i s t ⟨w + 1, true, .idle⟩ ⟨lit "1", w + 1⟩ := by
  obtain ⟨n, hp⟩ := handles_eq_some.mp hh
  have hlt := lt_length_of_getElem? hp
  have hget := dispatch_get hm
  let h₂ : Handle := { h with version := w, pc := .tryPut }
  let s₁ : LockSys := { s with net := s.net.roundTrip i (.get ⟨l⟩) }
  have hm₁ : s₁.net.server.m l = some ⟨lit "0", w⟩ := by
    change (s.net.server.dispatch (.get ⟨l⟩)).1.m l = _
    rw [hget]
    exact hm
  obtain ⟨hput, hm₂⟩ := dispatch_put hm₁ (lit "1")
  have hacquire : Reaches (step l) s (s.enter (Handle.program l) i h.tryAcquire) :=
    reaches_act .acquire hp hpc (by simp [Handle.act, hpc])
  have hfree : Reaches (step l) (s.enter (Handle.program l) i h.tryAcquire)
      (s₁.enter (Handle.program l) i h₂) := by
    refine reaches_call hlt rfl ?_
    rw [hget]
    rfl
  have htake : Reaches (step l) (s₁.enter (Handle.program l) i h₂)
      (({ s₁ with net := s₁.net.roundTrip i (.put ⟨l, lit "1", w⟩) } : LockSys).enter
        (Handle.program l) i ⟨w + 1, true, .idle⟩) := by
    refine reaches_call hlt rfl ?_
    rw [hput]
    rfl
  refine ⟨_, hacquire.trans (hfree.trans htake), handles_enter _ _ _ _, hm₂, ?_, ?_⟩
  · exact (List.prefix_append _ _).trans (List.prefix_append _ _)
  · exact (List.prefix_append _ _).trans (List.prefix_append _ _)

/-- A handle that holds the lock frees it. -/
theorem undisturbed_release {value : GoString} (hh : s.handles[i]? = some h) (hpc : h.pc = .idle)
    (hheld : h.held = true) (hm : s.net.server.m l = some ⟨value, h.version⟩) :
    ∃ t, Undisturbed l i s t ⟨h.version + 1, false, .idle⟩ ⟨lit "0", h.version + 1⟩ := by
  obtain ⟨n, hp⟩ := handles_eq_some.mp hh
  obtain ⟨hput, hm₁⟩ := dispatch_put hm (lit "0")
  have hrelease : Reaches (step l) s (s.enter (Handle.program l) i h.release) :=
    reaches_act .release hp hpc (by simp [Handle.act, hpc, hheld])
  have hfree : Reaches (step l) (s.enter (Handle.program l) i h.release)
      (({ s with net := s.net.roundTrip i (.put ⟨l, lit "0", h.version⟩) } : LockSys).enter
        (Handle.program l) i ⟨h.version + 1, false, .idle⟩) := by
    refine reaches_call (lt_length_of_getElem? hp) rfl ?_
    rw [hput]
    rfl
  refine ⟨_, hrelease.trans hfree, handles_enter _ _ _ _, hm₁, ?_, ?_⟩
  · exact List.prefix_append _ _
  · exact List.prefix_append _ _

/-- A handle takes and frees the lock again and again. -/
theorem undisturbed_cycles (hh : s.handles[i]? = some h) (hpc : h.pc = .idle)
    (hm : s.net.server.m l = some ⟨lit "0", w⟩) (k : Nat) :
    ∃ t h', h'.pc = .idle ∧
      Undisturbed l i s t h' ⟨lit "0", w + 2 * UInt64.ofNat k⟩ := by
  have hlt := lt_length_of_getElem? hh
  induction k with
  | zero =>
      refine ⟨s, h, hpc, Reaches.refl s, ?_, ?_, List.prefix_refl _, List.prefix_refl _⟩
      · obtain ⟨_, hget⟩ := List.getElem?_eq_some_iff.mp hh
        rw [← hget, List.set_getElem_self]
      · rw [hm]
        simp
  | succ k ih =>
      obtain ⟨t, h', hpc', hst⟩ := ih
      have hh' : t.handles[i]? = some h' := by
        rw [hst.handles]
        exact List.getElem?_set_self hlt
      obtain ⟨t₁, ht₁⟩ := undisturbed_acquire hh' hpc' hst.stored
      have hh₁ : t₁.handles[i]? = some ⟨w + 2 * UInt64.ofNat k + 1, true, .idle⟩ := by
        rw [ht₁.handles]
        exact List.getElem?_set_self (lt_length_of_getElem? hh')
      obtain ⟨t₂, ht₂⟩ := undisturbed_release hh₁ rfl rfl ht₁.stored
      have hversion : w + 2 * UInt64.ofNat k + 1 + 1 = w + 2 * UInt64.ofNat (k + 1) := by
        rw [UInt64.ofNat_add, UInt64.mul_add, UInt64.add_assoc, UInt64.add_assoc]
        rfl
      have hall := (hst.trans ht₁).trans ht₂
      rw [hversion] at hall
      exact ⟨t₂, _, rfl, hall⟩

end LockSys

/-- The first attempt of the `Put` is still under way when `Release` returns. -/
def releasedOpen : List LockAction :=
  [.net (.lose 5), .net (.resend 5), .net (.exec 6), .net (.deliver 5), .resume 0]

theorem releasedOpen_runs : (run (LockSys.step (lit "l"))
    ((heldOnce.step (lit "l") (.release 0)).get heldOnce_releases) releasedOpen).isSome = true := by
  decide

def releasedOnce : LockSys :=
  (run (LockSys.step (lit "l")) ((heldOnce.step (lit "l") (.release 0)).get heldOnce_releases)
    releasedOpen).get releasedOpen_runs

/-- After `2 ^ 63` further turns of handle 1, the attempt that is left over from a `Release` of
handle 0 that has returned frees the lock that handle 1 holds. -/
theorem release_frees_again :
    ∃ (s₁ s : LockSys) (k : Handle), Reaches (LockSys.step (lit "l")) LockSys.init heldOnce ∧
      heldOnce.handles[0]? = some ⟨2, true, .idle⟩ ∧
      heldOnce.step (lit "l") (.release 0) = some s₁ ∧ Reaches (LockSys.step (lit "l")) s₁ s ∧
      s.handles[1]? = some k ∧ k.held = true ∧
      s.net.server.m (lit "l") = some ⟨lit "0", 3⟩ ∧
      Precedes s.net.history (.ret 5 6 (.put ⟨lit "l", lit "0", 2⟩) (.put .ok))
        (.exec 5 5 (.put ⟨lit "l", lit "0", 2⟩) (.put ⟨.ok⟩)) := by
  have hheld : heldOnce.handles[0]? = some ⟨2, true, .idle⟩ := by decide
  have hopen : Reaches (LockSys.step (lit "l")) _ releasedOnce := reaches_get releasedOpen_runs
  have hhandle : releasedOnce.handles[1]? = some ⟨0, false, .idle⟩ := by decide
  have hm : releasedOnce.net.server.m (lit "l") = some ⟨lit "0", 3⟩ := by decide
  have hat : releasedOnce.net.attempts[5]? = some ⟨5, .put ⟨lit "l", lit "0", 2⟩, none⟩ := by
    decide
  have hret : .ret 5 6 (.put ⟨lit "l", lit "0", 2⟩) (.put .ok) ∈ releasedOnce.net.history := by
    decide
  generalize releasedOnce = s at hopen hhandle hm hat hret
  -- handle 1 writes the key until its version is 1 again, and then holds the lock at version 2
  obtain ⟨t, h, hpc, hst⟩ := LockSys.undisturbed_cycles hhandle rfl hm (2 ^ 63 - 1)
  have hwrapped : (3 : Tversion) + 2 * UInt64.ofNat (2 ^ 63 - 1) = 1 := by decide
  rw [hwrapped] at hst
  have hh : t.handles[1]? = some h := by
    rw [hst.handles]
    exact List.getElem?_set_self (lt_length_of_getElem? hhandle)
  obtain ⟨u, htu⟩ := LockSys.undisturbed_acquire hh hpc hst.stored
  have hsu := hst.trans htu
  have huat : u.net.attempts[5]? = some ⟨5, .put ⟨lit "l", lit "0", 2⟩, none⟩ := by
    obtain ⟨more, hmore⟩ := hsu.attempts
    rw [← hmore]
    exact getElem?_append_of_some hat more
  -- the attempt finds its version again
  obtain ⟨hreply, hfreed⟩ := dispatch_put hsu.stored (lit "0")
  have hexec : u.step (lit "l") (.net (.exec 5)) =
      some { u with net := u.net.exec 5 5 (.put ⟨lit "l", lit "0", 2⟩) } := by
    simp only [LockSys.step, Sys.step, foreign, if_true, Net.step_iff.mpr (.exec huat),
      Option.map_some]
  refine ⟨_, _, ⟨1 + 1, true, .idle⟩, reaches_get holding_runs, hheld,
    (Option.some_get heldOnce_releases).symm, (hopen.trans hsu.reaches).snoc hexec, ?_, rfl,
    hfreed, ?_⟩
  · change u.handles[1]? = _
    rw [hsu.handles]
    exact List.getElem?_set_self (lt_length_of_getElem? hhandle)
  · change Precedes (u.net.history ++ [.exec 5 5 (.put ⟨lit "l", lit "0", 1 + 1⟩)
      (u.net.server.dispatch (.put ⟨lit "l", lit "0", 1 + 1⟩)).2]) _ _
    rw [hreply]
    exact precedes_snoc (hsu.history.subset hret) _

end GoLabs.KvSrv
