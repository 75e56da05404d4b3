import GoLabs.Reasoning.Tables
import GoLabs.Reasoning.Precedence
import GoLabs.KvSrv.Clerk

/-!
# What every run of the Clerks keeps

`Net.Inv` ties the tables of attempts and calls to the history, and the history to the server: the
executed attempts, in order, are a served log.  It holds in every run of the network, late handlers
included.
-/

open GoLabs.Reasoning

namespace GoLabs.KvSrv

/-- The requests the server executed, in order, with their replies. -/
def execLog (history : List Event) : List (Request × Reply) :=
  history.filterMap fun e =>
    match e with
    | .exec _ _ req reply => some (req, reply)
    | _ => none

theorem execLog_append (h h' : List Event) : execLog (h ++ h') = execLog h ++ execLog h' := by
  unfold execLog
  rw [List.filterMap_append]

@[simp] theorem execLog_snoc_invoke (h : List Event) (n : Nat) (req : Request) :
    execLog (h ++ [.invoke n req]) = execLog h := by
  simp [execLog]

@[simp] theorem execLog_snoc_exec (h : List Event) (n a : Nat) (req : Request) (reply : Reply) :
    execLog (h ++ [.exec n a req reply]) = execLog h ++ [(req, reply)] := by
  simp [execLog]

@[simp] theorem execLog_snoc_ret (h : List Event) (n a : Nat) (req : Request) (res : Result) :
    execLog (h ++ [.ret n a req res]) = execLog h := by
  simp [execLog]

theorem mem_execLog {h : List Event} {req : Request} {reply : Reply} :
    (req, reply) ∈ execLog h ↔ ∃ n a, Event.exec n a req reply ∈ h := by
  unfold execLog
  rw [List.mem_filterMap]
  constructor
  · rintro ⟨e, he, hsome⟩
    cases e with
    | exec n a req' reply' =>
        simp only [Option.some.injEq, Prod.mk.injEq] at hsome
        exact ⟨n, a, by rw [← hsome.1, ← hsome.2]; exact he⟩
    | invoke n req' => simp at hsome
    | ret n a req' res => simp at hsome
  · rintro ⟨n, a, he⟩
    exact ⟨_, he, rfl⟩

namespace Net

structure Inv (s : Net) : Prop where
  /-- An attempt carries the request of the call that sent it. -/
  attempt_call : ∀ (a : Nat) (x : Attempt), s.attempts[a]? = some x →
    ∃ c, s.calls[x.call]? = some c ∧ c.req = x.req
  calling : ∀ (n : Nat) (c : ClerkCall) (a : Nat), s.calls[n]? = some c → c.pc = .calling a →
    ∃ r, s.attempts[a]? = some ⟨n, c.req, r⟩
  /-- Before the first resend a call has sent one attempt only. -/
  first : ∀ (n : Nat) (c : ClerkCall) (a b : Nat) (x y : Attempt), s.calls[n]? = some c →
    c.retried = false → s.attempts[a]? = some x → s.attempts[b]? = some y →
    x.call = n → y.call = n → a = b
  invoke_iff : ∀ (n : Nat) (req : Request),
    .invoke n req ∈ s.history ↔ ∃ c, s.calls[n]? = some c ∧ c.req = req
  exec_iff : ∀ (n a : Nat) (req : Request) (reply : Reply),
    .exec n a req reply ∈ s.history ↔ s.attempts[a]? = some ⟨n, req, some reply⟩
  ret_iff : ∀ (n a : Nat) (req : Request) (res : Result), .ret n a req res ∈ s.history ↔
    ∃ c, s.calls[n]? = some c ∧ c.req = req ∧ c.pc = .returned a res
  returned : ∀ (n : Nat) (c : ClerkCall) (a : Nat) (res : Result), s.calls[n]? = some c →
    c.pc = .returned a res →
    ∃ reply, s.attempts[a]? = some ⟨n, c.req, some reply⟩ ∧ res = clerkReturn c.retried reply
  nodup : s.history.Nodup
  invoke_before_exec : ∀ (n a : Nat) (req : Request) (reply : Reply),
    .exec n a req reply ∈ s.history → Precedes s.history (.invoke n req) (.exec n a req reply)
  exec_before_ret : ∀ (n a : Nat) (req : Request) (res : Result), .ret n a req res ∈ s.history →
    ∃ reply, Precedes s.history (.exec n a req reply) (.ret n a req res)
  served : Served (execLog s.history) s.server

theorem Inv.init : Inv Net.init := by
  constructor <;> simp [Net.init, execLog, served_nil]

theorem Inv.invoke {s : Net} (h : Inv s) (clerk : Nat) (req : Request) :
    Inv (s.invoke clerk req) where
  attempt_call a x hx := by
    rcases getElem?_snoc_eq_some.mp hx with hold | ⟨-, rfl⟩
    · have hcall := h.attempt_call a x hold
      rcases hcall with ⟨c, hc, hreq⟩
      exact ⟨c, getElem?_snoc_eq_some.mpr (.inl hc), hreq⟩
    · exact ⟨_, getElem?_snoc_eq_some.mpr (.inr ⟨rfl, rfl⟩), rfl⟩
  calling n c a hc hpc := by
    rcases getElem?_snoc_eq_some.mp hc with hold | ⟨rfl, rfl⟩
    · rcases h.calling n c a hold hpc with ⟨r, hr⟩
      exact ⟨r, getElem?_snoc_eq_some.mpr (.inl hr)⟩
    · simp only [ClerkPc.calling.injEq] at hpc
      exact ⟨none, getElem?_snoc_eq_some.mpr (.inr ⟨hpc.symm, rfl⟩)⟩
  first n c a b x y hc hfirst hx hy hxn hyn := by
    -- the new attempt belongs to the new call, an old one to an old call
    have hold : ∀ (d : Nat) (z : Attempt), s.attempts[d]? = some z →
        z.call < s.calls.length := by
      intro d z hz
      rcases h.attempt_call d z hz with ⟨e, he, -⟩
      exact lt_length_of_getElem? he
    rcases getElem?_snoc_eq_some.mp hx with hx | ⟨ha, rfl⟩ <;>
      rcases getElem?_snoc_eq_some.mp hy with hy | ⟨hb, rfl⟩
    · rcases getElem?_snoc_eq_some.mp hc with hc | ⟨hn, -⟩
      · exact h.first n c a b x y hc hfirst hx hy hxn hyn
      · have hlt := hold a x hx
        omega
    · have hlt := hold a x hx
      simp only at hyn
      omega
    · have hlt := hold b y hy
      simp only at hxn
      omega
    · omega
  invoke_iff n req' := by
    change _ ∈ s.history ++ _ ↔ ∃ c, (s.calls ++ _)[n]? = _ ∧ _
    simp only [List.mem_append, List.mem_singleton, h.invoke_iff, getElem?_snoc_eq_some,
      Event.invoke.injEq]
    constructor
    · rintro (⟨c, hc, hreq⟩ | ⟨rfl, rfl⟩)
      · exact ⟨c, .inl hc, hreq⟩
      · exact ⟨_, .inr ⟨rfl, rfl⟩, rfl⟩
    · rintro ⟨c, hc | ⟨rfl, rfl⟩, hreq⟩
      · exact .inl ⟨c, hc, hreq⟩
      · exact .inr ⟨rfl, hreq.symm⟩
  exec_iff n a req' reply := by
    change _ ∈ s.history ++ _ ↔ (s.attempts ++ _)[a]? = _
    simp [List.mem_append, h.exec_iff, getElem?_snoc_eq_some]
  ret_iff n a req' res := by
    change _ ∈ s.history ++ _ ↔ ∃ c, (s.calls ++ _)[n]? = _ ∧ _
    simp only [List.mem_append, List.mem_singleton, h.ret_iff, getElem?_snoc_eq_some,
      reduceCtorEq, or_false]
    constructor
    · rintro ⟨c, hc, hrest⟩
      exact ⟨c, .inl hc, hrest⟩
    · rintro ⟨c, hc | ⟨rfl, rfl⟩, hrest⟩
      · exact ⟨c, hc, hrest⟩
      · exact absurd hrest.2 (by simp)
  returned n c a res hc hpc := by
    rcases getElem?_snoc_eq_some.mp hc with hold | ⟨rfl, rfl⟩
    · rcases h.returned n c a res hold hpc with ⟨reply, hat, hres⟩
      exact ⟨reply, getElem?_snoc_eq_some.mpr (.inl hat), hres⟩
    · exact absurd hpc (by simp)
  nodup := by
    apply nodup_snoc h.nodup
    intro he
    rcases (h.invoke_iff _ _).mp he with ⟨c, hc, -⟩
    exact absurd (lt_length_of_getElem? hc) (by omega)
  invoke_before_exec n a req' reply he := by
    have hold := mem_of_mem_snoc he (by simp)
    exact (h.invoke_before_exec n a req' reply hold).append _
  exec_before_ret n a req' res hr := by
    obtain ⟨reply, hp⟩ := h.exec_before_ret n a req' res (mem_of_mem_snoc hr (by simp))
    exact ⟨reply, hp.append _⟩
  served := by
    change Served (execLog (s.history ++ [.invoke _ _])) s.server
    rw [execLog_snoc_invoke]
    exact h.served

theorem Inv.exec {s : Net} (h : Inv s) {a n : Nat} {req : Request}
    (hat : s.attempts[a]? = some ⟨n, req, none⟩) : Inv (s.exec a n req) where
  attempt_call b x hx := by
    rcases getElem?_set_eq_some.mp hx with ⟨-, -, rfl⟩ | ⟨-, hold⟩
    · exact h.attempt_call a ⟨n, req, none⟩ hat
    · exact h.attempt_call b x hold
  calling m c b hc hpc := by
    rcases h.calling m c b hc hpc with ⟨r, hr⟩
    by_cases hba : b = a
    · subst hba
      rw [hat] at hr
      simp only [Option.some.injEq, Attempt.mk.injEq] at hr
      refine ⟨some (s.server.dispatch req).2, getElem?_set_eq_some.mpr (.inl ⟨rfl, ?_, ?_⟩)⟩
      · exact lt_length_of_getElem? hat
      · rw [hr.1, hr.2.1]
    · exact ⟨r, getElem?_set_eq_some.mpr (.inr ⟨hba, hr⟩)⟩
  first m c b d x y hc hfirst hx hy hxm hym := by
    -- the table has the same attempts for the same calls as before
    have hback : ∀ (e : Nat) (z : Attempt), (s.exec a n req).attempts[e]? = some z →
        ∃ w : Attempt, s.attempts[e]? = some w ∧ w.call = z.call := by
      intro e z hz
      rcases getElem?_set_eq_some.mp hz with ⟨rfl, -, rfl⟩ | ⟨-, hold⟩
      · exact ⟨_, hat, rfl⟩
      · exact ⟨z, hold, rfl⟩
    rcases hback b x hx with ⟨x', hx', hxx⟩
    rcases hback d y hy with ⟨y', hy', hyy⟩
    exact h.first m c b d x' y' hc hfirst hx' hy' (hxx.trans hxm) (hyy.trans hym)
  invoke_iff m req' := by
    change _ ∈ s.history ++ _ ↔ _
    simp only [List.mem_append, List.mem_singleton, reduceCtorEq, or_false]
    exact h.invoke_iff m req'
  exec_iff m b req' reply := by
    change _ ∈ s.history ++ _ ↔ (s.attempts.set a _)[b]? = _
    simp only [List.mem_append, List.mem_singleton, h.exec_iff, getElem?_set_eq_some,
      Event.exec.injEq, Attempt.mk.injEq, Option.some.injEq]
    have hlt := lt_length_of_getElem? hat
    constructor
    · rintro (hold | ⟨rfl, rfl, rfl, rfl⟩)
      · -- `a` had no reply yet
        have hne : b ≠ a := by
          rintro rfl
          rw [hat] at hold
          simp at hold
        exact .inr ⟨hne, hold⟩
      · exact .inl ⟨rfl, hlt, rfl, rfl, rfl⟩
    · rintro (⟨rfl, -, rfl, rfl, rfl⟩ | ⟨-, hold⟩)
      · exact .inr ⟨rfl, rfl, rfl, rfl⟩
      · exact .inl hold
  ret_iff m b req' res := by
    change _ ∈ s.history ++ _ ↔ _
    simp only [List.mem_append, List.mem_singleton, reduceCtorEq, or_false]
    exact h.ret_iff m b req' res
  returned m c b res hc hpc := by
    rcases h.returned m c b res hc hpc with ⟨reply, hold, hres⟩
    have hne : b ≠ a := by
      rintro rfl
      rw [hat] at hold
      simp at hold
    exact ⟨reply, getElem?_set_eq_some.mpr (.inr ⟨hne, hold⟩), hres⟩
  nodup := by
    apply nodup_snoc h.nodup
    intro he
    -- an attempt is executed once, before it has a reply
    have hdone := (h.exec_iff _ _ _ _).mp he
    rw [hat] at hdone
    simp at hdone
  invoke_before_exec m b req' reply he := by
    rcases List.mem_append.mp he with hold | hnew
    · exact (h.invoke_before_exec m b req' reply hold).append _
    · simp only [List.mem_singleton, Event.exec.injEq] at hnew
      rcases hnew with ⟨rfl, rfl, rfl, rfl⟩
      exact precedes_snoc ((h.invoke_iff _ _).mpr (h.attempt_call b _ hat)) _
  exec_before_ret m b req' res hr := by
    obtain ⟨reply, hp⟩ := h.exec_before_ret m b req' res (mem_of_mem_snoc hr (by simp))
    exact ⟨reply, hp.append _⟩
  served := by
    change Served (execLog (s.history ++ [.exec _ _ _ _])) _
    rw [execLog_snoc_exec]
    exact h.served.snoc req

theorem Inv.lose {s : Net} (h : Inv s) {n a : Nat} {c : ClerkCall}
    (hc : s.calls[n]? = some c) (hpc : c.pc = .calling a) : Inv (s.lose n c) where
  attempt_call b x hx := by
    exact (exists_getElem?_set_iff hc (by rfl)).mpr (h.attempt_call b x hx)
  calling m d b hd hdpc := by
    rcases getElem?_set_eq_some.mp hd with ⟨-, -, rfl⟩ | ⟨-, hold⟩
    · exact absurd hdpc (by simp)
    · exact h.calling m d b hold hdpc
  first m d b e x y hd hfirst hx hy hxm hym := by
    rcases getElem?_set_eq_some.mp hd with ⟨rfl, -, rfl⟩ | ⟨-, hold⟩
    · exact h.first m c b e x y hc hfirst hx hy hxm hym
    · exact h.first m d b e x y hold hfirst hx hy hxm hym
  invoke_iff m req := by
    rw [show (s.lose n c).history = s.history from rfl, h.invoke_iff]
    exact (exists_getElem?_set_iff hc (by rfl)).symm
  exec_iff := h.exec_iff
  ret_iff m b req res := by
    rw [show (s.lose n c).history = s.history from rfl, h.ret_iff]
    exact (exists_getElem?_set_iff hc (by simp [hpc])).symm
  returned m d b res hd hdpc := by
    rcases getElem?_set_eq_some.mp hd with ⟨-, -, rfl⟩ | ⟨-, hold⟩
    · exact absurd hdpc (by simp)
    · exact h.returned m d b res hold hdpc
  nodup := h.nodup
  invoke_before_exec := h.invoke_before_exec
  exec_before_ret := h.exec_before_ret
  served := h.served

theorem Inv.resend {s : Net} (h : Inv s) {n : Nat} {c : ClerkCall}
    (hc : s.calls[n]? = some c) (hpc : c.pc = .sleeping) : Inv (s.resend n c) where
  attempt_call b x hx := by
    apply (exists_getElem?_set_iff hc (by rfl)).mpr
    rcases getElem?_snoc_eq_some.mp hx with hold | ⟨-, rfl⟩
    · exact h.attempt_call b x hold
    · exact ⟨c, hc, rfl⟩
  calling m d b hd hdpc := by
    rcases getElem?_set_eq_some.mp hd with ⟨rfl, -, rfl⟩ | ⟨-, hold⟩
    · simp only [ClerkPc.calling.injEq] at hdpc
      exact ⟨none, getElem?_snoc_eq_some.mpr (.inr ⟨hdpc.symm, rfl⟩)⟩
    · rcases h.calling m d b hold hdpc with ⟨r, hr⟩
      exact ⟨r, getElem?_snoc_eq_some.mpr (.inl hr)⟩
  first m d b e x y hd hfirst hx hy hxm hym := by
    rcases getElem?_set_eq_some.mp hd with ⟨-, -, rfl⟩ | ⟨hmn, hold⟩
    · exact absurd hfirst (by simp)
    · -- the new attempt belongs to another call
      have hback : ∀ (i : Nat) (z : Attempt), (s.resend n c).attempts[i]? = some z →
          z.call = m → s.attempts[i]? = some z := by
        intro i z hz hzm
        rcases getElem?_snoc_eq_some.mp hz with hz | ⟨-, rfl⟩
        · exact hz
        · exact absurd hzm.symm hmn
      exact h.first m d b e x y hold hfirst (hback b x hx hxm) (hback e y hy hym) hxm hym
  invoke_iff m req := by
    rw [show (s.resend n c).history = s.history from rfl, h.invoke_iff]
    exact (exists_getElem?_set_iff hc (by rfl)).symm
  exec_iff m b req reply := by
    change _ ∈ s.history ↔ (s.attempts ++ _)[b]? = _
    simp [h.exec_iff, getElem?_snoc_eq_some]
  ret_iff m b req res := by
    rw [show (s.resend n c).history = s.history from rfl, h.ret_iff]
    exact (exists_getElem?_set_iff hc (by simp [hpc])).symm
  returned m d b res hd hdpc := by
    rcases getElem?_set_eq_some.mp hd with ⟨-, -, rfl⟩ | ⟨-, hold⟩
    · exact absurd hdpc (by simp)
    · rcases h.returned m d b res hold hdpc with ⟨reply, hat, hres⟩
      exact ⟨reply, getElem?_snoc_eq_some.mpr (.inl hat), hres⟩
  nodup := h.nodup
  invoke_before_exec := h.invoke_before_exec
  exec_before_ret := h.exec_before_ret
  served := h.served

theorem Inv.deliver {s : Net} (h : Inv s) {n a : Nat} {c : ClerkCall} {reply : Reply}
    (hc : s.calls[n]? = some c) (hpc : c.pc = .calling a)
    (hat : s.attempts[a]? = some ⟨n, c.req, some reply⟩) : Inv (s.deliver n c a reply) where
  attempt_call b x hx := (exists_getElem?_set_iff hc (by rfl)).mpr (h.attempt_call b x hx)
  calling m d b hd hdpc := by
    rcases getElem?_set_eq_some.mp hd with ⟨-, -, rfl⟩ | ⟨-, hold⟩
    · exact absurd hdpc (by simp)
    · exact h.calling m d b hold hdpc
  first m d b e x y hd hfirst hx hy hxm hym := by
    rcases getElem?_set_eq_some.mp hd with ⟨rfl, -, rfl⟩ | ⟨-, hold⟩
    · exact h.first m c b e x y hc hfirst hx hy hxm hym
    · exact h.first m d b e x y hold hfirst hx hy hxm hym
  invoke_iff m req := by
    change _ ∈ s.history ++ _ ↔ _
    simp only [List.mem_append, List.mem_singleton, reduceCtorEq, or_false, h.invoke_iff]
    exact (exists_getElem?_set_iff hc (by rfl)).symm
  exec_iff m b req reply' := by
    change _ ∈ s.history ++ _ ↔ _
    simp only [List.mem_append, List.mem_singleton, reduceCtorEq, or_false]
    exact h.exec_iff m b req reply'
  ret_iff m b req res := by
    change _ ∈ s.history ++ _ ↔ _
    simp only [List.mem_append, List.mem_singleton, h.ret_iff, Event.ret.injEq]
    have hlt := lt_length_of_getElem? hc
    constructor
    · rintro (⟨d, hd, hrest⟩ | ⟨rfl, rfl, rfl, rfl⟩)
      · have hne : m ≠ n := by
          rintro rfl
          rw [hc, Option.some.injEq] at hd
          rw [← hd, hpc] at hrest
          simp at hrest
        exact ⟨d, getElem?_set_eq_some.mpr (.inr ⟨hne, hd⟩), hrest⟩
      · exact ⟨_, getElem?_set_eq_some.mpr (.inl ⟨rfl, hlt, rfl⟩), rfl, rfl⟩
    · rintro ⟨d, hd, hreq, hdpc⟩
      rcases getElem?_set_eq_some.mp hd with ⟨rfl, -, rfl⟩ | ⟨-, hold⟩
      · simp only [ClerkPc.returned.injEq] at hdpc
        exact .inr ⟨rfl, hdpc.1.symm, hreq.symm, hdpc.2.symm⟩
      · exact .inl ⟨d, hold, hreq, hdpc⟩
  returned m d b res hd hdpc := by
    rcases getElem?_set_eq_some.mp hd with ⟨rfl, -, rfl⟩ | ⟨-, hold⟩
    · simp only [ClerkPc.returned.injEq] at hdpc
      exact ⟨reply, by rw [← hdpc.1]; exact hat, hdpc.2.symm⟩
    · exact h.returned m d b res hold hdpc
  nodup := by
    apply nodup_snoc h.nodup
    intro he
    -- a call returns once, while it is still waiting
    rcases (h.ret_iff _ _ _ _).mp he with ⟨d, hd, -, hdpc⟩
    rw [hc, Option.some.injEq] at hd
    rw [← hd, hpc] at hdpc
    simp at hdpc
  invoke_before_exec m b req reply' he := by
    have hold := mem_of_mem_snoc he (by simp)
    exact (h.invoke_before_exec m b req reply' hold).append _
  exec_before_ret m b req res hr := by
    rcases List.mem_append.mp hr with hold | hnew
    · rcases h.exec_before_ret m b req res hold with ⟨reply', hp⟩
      exact ⟨reply', hp.append _⟩
    · simp only [List.mem_singleton, Event.ret.injEq] at hnew
      rcases hnew with ⟨rfl, rfl, rfl, rfl⟩
      exact ⟨reply, precedes_snoc ((h.exec_iff _ _ _ _).mpr hat) _⟩
  served := by
    change Served (execLog (s.history ++ [.ret _ _ _ _])) s.server
    rw [execLog_snoc_ret]
    exact h.served

theorem Inv.step {s t : Net} {act : Action} (h : Inv s) (hs : s.step act = some t) : Inv t := by
  cases step_iff.mp hs with
  | invoke clerk req => exact h.invoke clerk req
  | exec hat => exact h.exec hat
  | lose hc hpc => exact h.lose hc hpc
  | resend hc hpc => exact h.resend hc hpc
  | @deliver n a m c req reply hc hpc hat =>
      have hown := h.calling n c a hc hpc
      rcases hown with ⟨r, hr⟩
      have hsame := hr
      rw [hat, Option.some.injEq, Attempt.mk.injEq] at hsame
      exact h.deliver hc hpc (by rw [hr, ← hsame.2.2])

theorem inv_of_reaches {s : Net} (h : Reaches Net.step Net.init s) : Inv s :=
  h.invariant Inv.init fun _ _ _ _ hs hu ↦ hu.step hs

end Net

end GoLabs.KvSrv
