import GoLabs.Reasoning.Tables
import GoLabs.KvSrv.Stack

/-!
# The stack refines the lossy network

`Net` lets a `Call` return false at any time, lets a handler run at most once and at any time after
its attempt was sent, and gives a `Call` that returns true the reply of its own attempt.  Every run
of the stack is such a run: the goroutines of labrpc lose requests and replies and run handlers
late, but they never run one twice and never mix up two replies.
-/

open GoLabs.Reasoning
open GoLabs.Tester

/-! ## The goroutines of a request -/

namespace GoLabs.Tester.Req

variable {net : Network} {q q' : Req}

/-- The handler has returned. -/
def Answered (q : Req) : Prop := ∃ server, q.handler = .returned server

/-- What the place of `processReq` says about the handler. -/
def Sound (q : Req) : Prop :=
  match q.pc with
  | .sent | .accepted _ _ _ => q.handler = .idle
  | .waiting _ _ _ => q.handler ≠ .idle
  | .answered _ _ _ | .alive _ | .replying true | .returned true => q.Answered
  | .gaveUp | .replying false | .returned false => True

/-- What each step of the goroutines needs and does. -/
inductive Next (net : Network) (q : Req) : ReqStep → Req → Prop where
  | accept {name : GoString} {server : Nat} (hpc : q.pc = .sent)
      (henabled : net.enabled q.endname = true) (hname : net.connections q.endname = some name)
      (hserver : net.servers name = some server) :
      Next net q .read { q with pc := .accepted name server net.reliable }
  | reject (hpc : q.pc = .sent)
      (hdead : ∀ name server, net.enabled q.endname = true → net.connections q.endname = some name →
        net.servers name ≠ some server) :
      Next net q .read { q with pc := .replying false }
  | dropRequest {name : GoString} {server : Nat} (hpc : q.pc = .accepted name server false) :
      Next net q .dropRequest { q with pc := .replying false }
  | dispatch {name : GoString} {server : Nat} {reliable : Bool}
      (hpc : q.pc = .accepted name server reliable) :
      Next net q .dispatch
        { q with pc := .waiting name server reliable, handler := .running server }
  | handlerReturn {server : Nat} (hh : q.handler = .running server) :
      Next net q .handlerReturn { q with handler := .returned server }
  | receive {name : GoString} {server server' : Nat} {reliable : Bool}
      (hpc : q.pc = .waiting name server reliable) (hh : q.handler = .returned server') :
      Next net q .receive { q with pc := .answered name server reliable }
  | giveUp {name : GoString} {server : Nat} {reliable : Bool}
      (hpc : q.pc = .waiting name server reliable)
      (hdead : net.isServerDead q.endname name server = true) :
      Next net q .giveUp { q with pc := .gaveUp }
  | dead {name : GoString} {server : Nat} {reliable : Bool}
      (hpc : q.pc = .answered name server reliable)
      (hdead : net.isServerDead q.endname name server = true) :
      Next net q .check { q with pc := .replying false }
  | alive {name : GoString} {server : Nat} {reliable : Bool}
      (hpc : q.pc = .answered name server reliable)
      (hdead : net.isServerDead q.endname name server = false) :
      Next net q .check { q with pc := .alive reliable }
  | gaveUp (hpc : q.pc = .gaveUp) : Next net q .check { q with pc := .replying false }
  | dropReply (hpc : q.pc = .alive false) : Next net q .dropReply { q with pc := .replying false }
  | reply {reliable : Bool} (hpc : q.pc = .alive reliable) :
      Next net q .reply { q with pc := .replying true }
  | deliver {ok : Bool} (hpc : q.pc = .replying ok) :
      Next net q .deliver { q with pc := .returned ok }

theorem next_read (h : q.next net .read = some q') : Next net q .read q' := by
  simp only [next, Network.readEndnameInfo] at h
  split at h
  · rename_i hpc
    split at h
    · rename_i name server henabled hname hserver
      cases h
      rw [hname, Option.bind_some] at hserver
      exact .accept hpc henabled hname hserver
    · rename_i hdead
      cases h
      refine .reject hpc ?_
      intro name server henabled hname hserver
      exact hdead name server henabled hname (by rw [hname, Option.bind_some, hserver])
  · cases h

theorem next_cases {step : ReqStep} (h : q.next net step = some q') : Next net q step q' := by
  cases step with
  | read => exact next_read h
  | dropRequest =>
      simp only [next] at h
      split at h <;> cases h
      exact .dropRequest ‹_›
  | dispatch =>
      simp only [next] at h
      split at h <;> cases h
      exact .dispatch ‹_›
  | handlerReturn =>
      simp only [next] at h
      split at h <;> cases h
      exact .handlerReturn ‹_›
  | receive =>
      simp only [next] at h
      split at h <;> cases h
      exact .receive ‹_› ‹_›
  | giveUp =>
      simp only [next] at h
      split at h
      · split at h <;> cases h
        exact .giveUp ‹_› ‹_›
      · cases h
  | check =>
      simp only [next] at h
      split at h
      · split at h <;> cases h
        · exact .dead ‹_› ‹_›
        · rename_i hdead
          exact .alive ‹_› (Bool.eq_false_iff.mpr hdead)
      · cases h
        exact .gaveUp ‹_›
      · cases h
  | dropReply =>
      simp only [next] at h
      split at h <;> cases h
      exact .dropReply ‹_›
  | reply =>
      simp only [next] at h
      split at h <;> cases h
      exact .reply ‹_›
  | deliver =>
      simp only [next] at h
      split at h <;> cases h
      exact .deliver ‹_›

theorem Sound.next {step : ReqStep} (h : q.Sound) (hn : Next net q step q') : q'.Sound := by
  cases hn with
  | accept hpc | reject hpc | dropRequest hpc | dispatch hpc | giveUp hpc | dead hpc | alive hpc
  | gaveUp hpc | dropReply hpc | reply hpc =>
      simp only [Sound, hpc] at h ⊢
      try exact h
      try simp
  | receive hpc hh => exact ⟨_, hh⟩
  | @handlerReturn server hh =>
      have hret : Answered { q with handler := .returned server } := ⟨server, rfl⟩
      cases hpc : q.pc with
      | sent | accepted => simp [Sound, hpc, hh] at h
      | waiting => simp [Sound]
      | answered | alive => simpa only [Sound, hpc] using hret
      | gaveUp => simp only [Sound]
      | replying ok | returned ok =>
          cases ok with
          | false => simp only [Sound]
          | true => simpa only [Sound, hpc] using hret
  | @deliver ok hpc =>
      cases ok with
      | false => trivial
      | true =>
          rw [Sound, hpc] at h
          exact h

theorem Next.answered_iff {step : ReqStep} (hn : Next net q step q') (h : q.Sound)
    (hstep : step ≠ .handlerReturn) : q'.Answered ↔ q.Answered := by
  cases hn with
  | dispatch hpc =>
      rw [Sound, hpc] at h
      simp [Answered, h]
  | handlerReturn => exact absurd rfl hstep
  | accept | reject | dropRequest | receive | giveUp | dead | alive | gaveUp | dropReply | reply
  | deliver => exact Iff.rfl

/-- Only the last step of `processReq` lets `Call` return. -/
theorem Next.live {step : ReqStep} (hn : Next net q step q') (hstep : step ≠ .handlerReturn) :
    ∀ ok, q.pc ≠ .returned ok := by
  intro ok
  cases hn with
  | handlerReturn => exact absurd rfl hstep
  | accept hpc | reject hpc | dropRequest hpc | dispatch hpc | receive hpc | giveUp hpc | dead hpc
  | alive hpc | gaveUp hpc | dropReply hpc | reply hpc | deliver hpc => simp [hpc]

theorem Next.endname {step : ReqStep} (hn : Next net q step q') : q'.endname = q.endname := by
  cases hn <;> rfl

end GoLabs.Tester.Req

namespace GoLabs.KvSrv

namespace Stack

variable {s t : Stack} {a : StackAction}

/-! ## What a step does -/

/-- The end that a call goes through, and the request on it. -/
inductive Sends (s : Stack) (k n : Nat) (req : Request) (name : EndName) : Stack → Prop where
  | intro {ck : Clerk} {clnt clnt' : Clnt} {net : Network} {e : EndName}
      (hck : s.clerks[k]? = some ck) (hclnt : s.clnts[ck.clnt]? = some clnt)
      (hend : clnt.makeEnd s.net ck.server name = some (clnt', net, e)) :
      Sends s k n req name { s with
        net
        clnts := s.clnts.set ck.clnt clnt'
        reqs := s.reqs ++ [⟨⟨e, .sent, .idle⟩, n, req.svcMeth, req, none⟩] }

theorem send_cases {k n : Nat} {req : Request} {name : EndName} (h : s.send k n req name = some t) :
    Sends s k n req name t := by
  simp only [send, Option.bind_eq_bind, Option.bind_eq_some_iff] at h
  obtain ⟨ck, hck, clnt, hclnt, ⟨clnt', net, e⟩, hend, ht⟩ := h
  cases ht
  exact .intro hck hclnt hend

/-- The request `r` and what is left of its `Call` after a step of its goroutines. -/
inductive Step (s : Stack) : StackAction → Stack → Prop where
  | perform {op : NetOp} {net : Network} (hnet : s.net.perform op = some net) :
      Step s (.perform op) { s with net }
  | deleteServer (name : GoString) :
      Step s (.deleteServer name) { s with net := s.net.deleteServer name }
  | cleanup : Step s .cleanup { s with destroyed := true }
  | makeClientTo (srvs : Option (List GoString)) :
      Step s (.makeClientTo srvs) { s with clnts := s.clnts ++ [makeClntTo srvs] }
  | connectAll {i : Nat} {it : Iteration GoString} {clnt : Clnt} (hclnt : s.clnts[i]? = some clnt) :
      Step s (.connectAll i it) { s with
        clnts := s.clnts.set i { clnt with srvs := none }
        net := clnt.enableAll it s.net true }
  | disconnectAll {i : Nat} {it : Iteration GoString} {clnt : Clnt}
      (hclnt : s.clnts[i]? = some clnt) :
      Step s (.disconnectAll i it) { s with
        clnts := s.clnts.set i { clnt with srvs := some [] }
        net := clnt.enableAll it s.net false }
  | makeClerk (clnt : Nat) (server : GoString) :
      Step s (.makeClerk clnt server) { s with clerks := s.clerks ++ [⟨clnt, server⟩] }
  | invoke {k : Nat} {req : Request} {name : EndName} {u : Stack}
      (hsend : Sends s k s.calls.length req name u) :
      Step s (.invoke k req name) { u with
        calls := s.calls ++ [⟨k, req, false, .calling s.reqs.length⟩]
        history := s.history ++ [.invoke s.calls.length req] }
  | resend {n : Nat} {name : EndName} {c : ClerkCall} {u : Stack} (hc : s.calls[n]? = some c)
      (hpc : c.pc = .sleeping) (hsend : Sends s c.clerk n c.req name u) :
      Step s (.resend n name) { u with
        calls := s.calls.set n { c with retried := true, pc := .calling s.reqs.length } }
  | refuse {r : Nat} {q : RpcReq} {c : ClerkCall} (hq : s.reqs[r]? = some q)
      (hdestroyed : s.destroyed = true) (hpc : q.req.pc = .sent) (hc : s.calls[q.call]? = some c) :
      Step s (.refuse r) { s with
        reqs := s.reqs.set r { q with req := { q.req with pc := .returned false } }
        calls := s.calls.set q.call { c with pc := .sleeping } }
  | handlerReturn {r : Nat} {q : RpcReq} {q' : Req} {kv : KVServer} {reply : Reply}
      (hq : s.reqs[r]? = some q) (hnext : q.req.next s.net .handlerReturn = some q')
      (hhandle : handle s.kv q.svcMeth q.args = some (kv, reply)) :
      Step s (.req r .handlerReturn) { s with
        kv
        reqs := s.reqs.set r { q with req := q', reply := some reply }
        history := s.history ++ [.exec q.call r q.args reply] }
  | succeed {r : Nat} {q : RpcReq} {q' : Req} {c : ClerkCall} {reply : Reply}
      (hq : s.reqs[r]? = some q) (hnext : q.req.next s.net .deliver = some q')
      (hpc : q'.pc = .returned true) (hc : s.calls[q.call]? = some c)
      (hreply : q.reply = some reply) :
      Step s (.req r .deliver) { s with
        reqs := s.reqs.set r { q with req := q' }
        calls := s.calls.set q.call { c with pc := .returned r (clerkReturn c.retried reply) }
        history := s.history ++ [.ret q.call r c.req (clerkReturn c.retried reply)] }
  | fail {r : Nat} {q : RpcReq} {q' : Req} {c : ClerkCall}
      (hq : s.reqs[r]? = some q) (hnext : q.req.next s.net .deliver = some q')
      (hpc : q'.pc ≠ .returned true) (hc : s.calls[q.call]? = some c) :
      Step s (.req r .deliver) { s with
        reqs := s.reqs.set r { q with req := q' }
        calls := s.calls.set q.call { c with pc := .sleeping } }
  | goroutine {r : Nat} {q : RpcReq} {q' : Req} {step : ReqStep} (hq : s.reqs[r]? = some q)
      (hnext : q.req.next s.net step = some q') (hstep : step ≠ .handlerReturn)
      (hstep' : step ≠ .deliver) :
      Step s (.req r step) { s with reqs := s.reqs.set r { q with req := q' } }

theorem step_cases (h : s.step a = some t) : Step s a t := by
  cases a with
  | perform op =>
      obtain ⟨net, hnet, rfl⟩ := Option.map_eq_some_iff.mp h
      exact .perform hnet
  | deleteServer name =>
      cases h
      exact .deleteServer name
  | cleanup =>
      cases h
      exact .cleanup
  | makeClientTo srvs =>
      cases h
      exact .makeClientTo srvs
  | connectAll i it =>
      obtain ⟨clnt, hclnt, rfl⟩ := Option.map_eq_some_iff.mp h
      exact .connectAll hclnt
  | disconnectAll i it =>
      obtain ⟨clnt, hclnt, rfl⟩ := Option.map_eq_some_iff.mp h
      exact .disconnectAll hclnt
  | makeClerk clnt server =>
      cases h
      exact .makeClerk clnt server
  | invoke k req name =>
      obtain ⟨u, hsend, rfl⟩ := Option.map_eq_some_iff.mp h
      exact .invoke (send_cases hsend)
  | resend n name =>
      simp only [step] at h
      split at h
      · rename_i k req retried hc
        obtain ⟨u, hsend, rfl⟩ := Option.map_eq_some_iff.mp h
        exact .resend hc rfl (send_cases hsend)
      · cases h
  | refuse r =>
      obtain ⟨q, hq, h⟩ := Option.bind_eq_some_iff.mp h
      split at h
      · rename_i hcond
        obtain ⟨c, hc, rfl⟩ := Option.map_eq_some_iff.mp h
        exact .refuse hq hcond.1 hcond.2 hc
      · cases h
  | req r step =>
      obtain ⟨q, hq, h⟩ := Option.bind_eq_some_iff.mp h
      obtain ⟨q', hnext, h⟩ := Option.bind_eq_some_iff.mp h
      cases step with
      | handlerReturn =>
          obtain ⟨⟨kv, reply⟩, hhandle, rfl⟩ := Option.map_eq_some_iff.mp h
          exact .handlerReturn hq hnext hhandle
      | deliver =>
          simp only [process] at h
          split at h
          · rename_i hpc
            obtain ⟨c, hc, h⟩ := Option.bind_eq_some_iff.mp h
            obtain ⟨reply, hreply, rfl⟩ := Option.map_eq_some_iff.mp h
            exact .succeed hq hnext hpc hc hreply
          · rename_i hpc
            obtain ⟨c, hc, rfl⟩ := Option.map_eq_some_iff.mp h
            exact .fail hq hnext hpc hc
      | read | dropRequest | dispatch | receive | giveUp | check | dropReply | reply =>
          cases h
          exact .goroutine hq hnext (by simp) (by simp)

/-! ## The refinement -/

structure Inv (s : Stack) : Prop where
  /-- A `Call` that has not returned is the one that its Clerk waits for. -/
  waits : ∀ (r : Nat) (q : RpcReq), s.reqs[r]? = some q → (∀ ok, q.req.pc ≠ .returned ok) →
    ∃ c, s.calls[q.call]? = some c ∧ c.pc = .calling r
  meth : ∀ q ∈ s.reqs, q.svcMeth = q.args.svcMeth
  sound : ∀ q ∈ s.reqs, q.req.Sound
  replied : ∀ q ∈ s.reqs, q.reply ≠ none ↔ q.req.Answered

theorem Inv.init (net : Network) : Inv (Stack.init net) := by
  constructor <;> simp [Stack.init]

/-- The tester does something, or a client is made. -/
theorem Inv.aside (h : Inv s) (hreqs : t.reqs = s.reqs) (hcalls : t.calls = s.calls) : Inv t := by
  obtain ⟨hwaits, hmeth, hsound, hreplied⟩ := h
  constructor <;> rw [hreqs]
  · rw [hcalls]
    exact hwaits
  · exact hmeth
  · exact hsound
  · exact hreplied

/-- A new request, for which the call `n` waits; it did not wait for another one. -/
theorem Inv.send (h : Inv s) {k n : Nat} {req : Request} {name : EndName} {u : Stack}
    {calls : List ClerkCall} {history : List Event} {c : ClerkCall}
    (hsend : Sends s k n req name u) (hnew : calls[n]? = some c)
    (hpc : c.pc = .calling s.reqs.length)
    (hold : ∀ (m r : Nat) (c : ClerkCall), s.calls[m]? = some c → c.pc = .calling r →
      calls[m]? = some c) : Inv { u with calls, history } := by
  cases hsend with
  | intro hck hclnt hend =>
      constructor
      · intro r q hq hlive
        obtain hq | ⟨rfl, rfl⟩ := getElem?_snoc_eq_some.mp hq
        · obtain ⟨c', hc', hpc'⟩ := h.waits r q hq hlive
          exact ⟨c', hold q.call r c' hc' hpc', hpc'⟩
        · exact ⟨c, hnew, hpc⟩
      · exact List.forall_mem_append.mpr ⟨h.meth, by simp⟩
      · exact List.forall_mem_append.mpr ⟨h.sound, by simp [Req.Sound]⟩
      · exact List.forall_mem_append.mpr ⟨h.replied, by simp [Req.Answered]⟩

/-- A request moves on; `calls` are as before, except for the call of a request that has
returned. -/
theorem Inv.set (h : Inv s) {r : Nat} {q q' : RpcReq} {calls : List ClerkCall} {kv : KVServer}
    {history : List Event} (hq : s.reqs[r]? = some q) (hmeth : q'.svcMeth = q'.args.svcMeth)
    (hsound : q'.req.Sound) (hreplied : q'.reply ≠ none ↔ q'.req.Answered)
    (hwaits : (∀ ok, q'.req.pc ≠ .returned ok) →
      ∃ c, calls[q'.call]? = some c ∧ c.pc = .calling r)
    (hold : ∀ (m b : Nat) (c : ClerkCall), b ≠ r → s.calls[m]? = some c → c.pc = .calling b →
      calls[m]? = some c) :
    Inv { s with kv, calls, history, reqs := s.reqs.set r q' } := by
  constructor
  · intro b x hx hlive
    obtain ⟨rfl, -, rfl⟩ | ⟨hne, hx⟩ := getElem?_set_eq_some.mp hx
    · exact hwaits hlive
    · obtain ⟨c, hc, hpc⟩ := h.waits b x hx hlive
      exact ⟨c, hold x.call b c hne hc hpc, hpc⟩
  · exact forall_mem_set h.meth hmeth
  · exact forall_mem_set h.sound hsound
  · exact forall_mem_set h.replied hreplied

/-- The call that a request returns to stops waiting for it, and only for it. -/
theorem waits_set {calls : List ClerkCall} {n r : Nat} {c c' : ClerkCall}
    (hc : calls[n]? = some c) (hpc : c.pc = .calling r) (m b : Nat) (x : ClerkCall) (hne : b ≠ r)
    (hx : calls[m]? = some x) (hxpc : x.pc = .calling b) : (calls.set n c')[m]? = some x := by
  refine getElem?_set_eq_some.mpr (.inr ⟨?_, hx⟩)
  rintro rfl
  rw [hc, Option.some.injEq] at hx
  rw [← hx, hpc, ClerkPc.calling.injEq] at hxpc
  exact hne hxpc.symm

theorem Inv.step (h : Inv s) (hs : s.step a = some t) : Inv t := by
  cases step_cases hs with
  | perform | deleteServer | cleanup | makeClientTo | connectAll | disconnectAll | makeClerk =>
      exact h.aside rfl rfl
  | invoke hsend =>
      refine h.send hsend (getElem?_snoc_eq_some.mpr (.inr ⟨rfl, rfl⟩)) rfl ?_
      intro m r c hc _
      exact getElem?_append_of_some hc _
  | @resend n name c u hc hpc hsend =>
      have hlt := lt_length_of_getElem? hc
      refine h.send hsend (getElem?_set_eq_some.mpr (.inl ⟨rfl, hlt, rfl⟩)) rfl ?_
      intro m r x hx hxpc
      refine getElem?_set_eq_some.mpr (.inr ⟨?_, hx⟩)
      -- the call that resends was sleeping, and waited for no request
      rintro rfl
      rw [hc, Option.some.injEq] at hx
      rw [← hx, hpc] at hxpc
      cases hxpc
  | @refuse r q c hq _ hpc hc =>
      have hmem := List.mem_of_getElem? hq
      obtain ⟨c', hc', hpc'⟩ := h.waits r q hq (by simp [hpc])
      refine h.set hq (h.meth q hmem) (by simp [Req.Sound]) ?_
        (fun hlive ↦ absurd rfl (hlive false)) (waits_set hc' hpc')
      exact h.replied q hmem
  | @handlerReturn r q q' kv reply hq hnext hhandle =>
      have hmem := List.mem_of_getElem? hq
      have hn := Req.next_cases hnext
      have hsound := (h.sound q hmem).next hn
      cases hn with
      | @handlerReturn server hh =>
          refine h.set hq (h.meth q hmem) hsound ?_ (h.waits r q hq) fun _ _ _ _ hx _ ↦ hx
          -- its reply is stored now
          simp [Req.Answered]
  | @succeed r q q' c reply hq hnext hpc hc hreply =>
      have hmem := List.mem_of_getElem? hq
      have hn := Req.next_cases hnext
      obtain ⟨c', hc', hpc'⟩ := h.waits r q hq (hn.live (by simp))
      refine h.set hq (h.meth q hmem) ((h.sound q hmem).next hn) ?_ ?_ (waits_set hc' hpc')
      · exact (h.replied q hmem).trans (hn.answered_iff (h.sound q hmem) (by simp)).symm
      · exact fun hlive ↦ absurd hpc (hlive true)
  | @fail r q q' c hq hnext hpc hc =>
      have hmem := List.mem_of_getElem? hq
      have hn := Req.next_cases hnext
      obtain ⟨c', hc', hpc'⟩ := h.waits r q hq (hn.live (by simp))
      refine h.set hq (h.meth q hmem) ((h.sound q hmem).next hn) ?_ ?_ (waits_set hc' hpc')
      · exact (h.replied q hmem).trans (hn.answered_iff (h.sound q hmem) (by simp)).symm
      · intro hlive
        cases hn with
        | @deliver ok _ => exact absurd rfl (hlive ok)
  | @goroutine r q q' step hq hnext hstep hstep' =>
      have hmem := List.mem_of_getElem? hq
      have hn := Req.next_cases hnext
      refine h.set hq (h.meth q hmem) ((h.sound q hmem).next hn) ?_ ?_ fun _ _ _ _ hx _ ↦ hx
      · exact (h.replied q hmem).trans (hn.answered_iff (h.sound q hmem) hstep).symm
      · exact fun _ ↦ h.waits r q hq (hn.live hstep)

theorem inv_of_reaches {net : Network} (h : Reaches Stack.step (Stack.init net) s) : Inv s :=
  h.invariant (Inv.init net) fun _ _ _ _ hs hu ↦ hu.step hs

/-! ## The simulation -/

/-- What the goroutines of a request do is not seen, apart from the reply. -/
theorem abs_moved {r : Nat} {q : RpcReq} (hq : s.reqs[r]? = some q) (q' : Req)
    (calls : List ClerkCall) (history : List Event) :
    abs { s with reqs := s.reqs.set r { q with req := q' }, calls, history } =
      { s.abs with calls, history } := by
  simp only [abs, map_set_eq RpcReq.attempt hq
    (show RpcReq.attempt { q with req := q' } = q.attempt from rfl)]

theorem abs_attempt {r : Nat} {q : RpcReq} (hq : s.reqs[r]? = some q) :
    s.abs.attempts[r]? = some q.attempt := by
  change (s.reqs.map RpcReq.attempt)[r]? = _
  rw [List.getElem?_map, hq, Option.map_some]

/-- The Clerk waits for the request that returns. -/
theorem Inv.waiting (h : Inv s) {r : Nat} {q : RpcReq} {c : ClerkCall} (hq : s.reqs[r]? = some q)
    (hlive : ∀ ok, q.req.pc ≠ .returned ok) (hc : s.calls[q.call]? = some c) :
    c.pc = .calling r := by
  obtain ⟨c', hc', hpc⟩ := h.waits r q hq hlive
  obtain rfl : c' = c := Option.some.inj (hc'.symm.trans hc)
  exact hpc

/-- The handler of a request runs once. -/
theorem Inv.unanswered (h : Inv s) {q : RpcReq} (hq : q ∈ s.reqs) {server : Nat}
    (hh : q.req.handler = .running server) : q.reply = none := by
  by_contra hne
  obtain ⟨server', hret⟩ := (h.replied q hq).mp hne
  rw [hh] at hret
  cases hret

/-- A step of the stack is a step of the network of the Clerks, or none of their business. -/
theorem abs_step (h : Inv s) (hs : s.step a = some t) :
    t.abs = s.abs ∨ ∃ act, s.abs.step act = some t.abs ∧
      ∀ r, act = .exec r → ∃ q server, s.reqs[r]? = some q ∧ q.req.handler = .running server := by
  cases step_cases hs with
  | perform | deleteServer | cleanup | makeClientTo | connectAll | disconnectAll | makeClerk =>
      exact .inl rfl
  | @invoke k req name u hsend =>
      refine .inr ⟨.invoke k req, ?_, by simp⟩
      cases hsend
      simp [Net.step, Net.invoke, abs, RpcReq.attempt]
  | @resend n name c u hc hpc hsend =>
      refine .inr ⟨.resend n, Net.step_iff.mpr ?_, by simp⟩
      have hstep := Net.Step.resend (s := s.abs) hc hpc
      cases hsend
      simpa [Net.resend, abs, RpcReq.attempt] using hstep
  | @refuse r q c hq _ hpc hc =>
      refine .inr ⟨.lose q.call, Net.step_iff.mpr ?_, by simp⟩
      rw [abs_moved hq]
      exact Net.Step.lose (s := s.abs) hc (h.waiting hq (by simp [hpc]) hc)
  | @handlerReturn r q q' kv reply hq hnext hhandle =>
      have hmem := List.mem_of_getElem? hq
      cases Req.next_cases hnext with
      | @handlerReturn server hh =>
          have hattempt := abs_attempt hq
          rw [RpcReq.attempt, h.unanswered hmem hh] at hattempt
          rw [h.meth q hmem, handle_svcMeth, Option.some.injEq] at hhandle
          -- the handler runs when it returns, and answers its own attempt
          refine .inr ⟨.exec r, ?_, ?_⟩
          · simp only [Net.step, hattempt, Net.exec]
            simp only [abs, hhandle, List.map_set, RpcReq.attempt]
          · intro r' heq
            cases heq
            exact ⟨q, server, hq, hh⟩
  | @succeed r q q' c reply hq hnext hpc hc hreply =>
      refine .inr ⟨.deliver q.call, Net.step_iff.mpr ?_, by simp⟩
      have hattempt := abs_attempt hq
      rw [RpcReq.attempt, hreply] at hattempt
      have hwait := h.waiting hq ((Req.next_cases hnext).live (by simp)) hc
      rw [abs_moved hq]
      exact Net.Step.deliver (s := s.abs) hc hwait hattempt
  | @fail r q q' c hq hnext hpc hc =>
      -- `Call` returns false, whatever became of the request
      refine .inr ⟨.lose q.call, Net.step_iff.mpr ?_, by simp⟩
      rw [abs_moved hq]
      exact Net.Step.lose (s := s.abs) hc (h.waiting hq ((Req.next_cases hnext).live (by simp)) hc)
  | @goroutine r q q' step hq hnext hstep hstep' => exact .inl (abs_moved hq q' s.calls s.history)

end Stack

/-- Every run of the Clerks over labrpc, whatever the tester does to the network, is a run of the
Clerks over the lossy network. -/
theorem labrpc_refines_net {net : Network} {s : Stack}
    (h : Reaches Stack.step (Stack.init net) s) : Reaches Net.step Net.init s.abs := by
  refine h.invariant (I := fun s => Reaches Net.step Net.init s.abs) (Reaches.refl _) ?_
  intro u a v hr hs hu
  obtain heq | ⟨act, hact, -⟩ := Stack.abs_step (Stack.inv_of_reaches hr) hs
  · rwa [heq]
  · exact hu.snoc hact

/-- The network of `MakeTestKV`. -/
def kvNet : Network := makeNetwork.addServer (serverName 0 0) 0

/-- A client with its Clerk, and a `Put` that reaches the server. -/
def firstPut : List StackAction :=
  [.makeClientTo none, .makeClerk 0 (serverName 0 0),
   .invoke 0 (.put ⟨lit "k", lit "v", 0⟩) (lit "e"), .req 0 .read, .req 0 .dispatch,
   .req 0 .handlerReturn, .req 0 .receive, .req 0 .check]

/-- The network drops the reply, and the Clerk sends the `Put` again. -/
def droppedReply : List StackAction :=
  .perform (.reliable false) :: firstPut ++
  [.req 0 .dropReply, .req 0 .deliver, .resend 0 [], .req 1 .read, .req 1 .dispatch,
   .req 1 .handlerReturn, .req 1 .receive, .req 1 .check, .req 1 .reply, .req 1 .deliver]

theorem droppedReply_runs :
    (run Stack.step (Stack.init kvNet) droppedReply).isSome = true := by decide

theorem labrpc_refines_net_droppedReply :
    ∃ s, run Stack.step (Stack.init kvNet) droppedReply = some s ∧
      s.calls.map ClerkCall.pc = [.returned 1 (.put .errMaybe)] ∧
      Reaches Net.step Net.init s.abs :=
  ⟨_, (Option.some_get droppedReply_runs).symm, by decide,
    labrpc_refines_net (reaches_get droppedReply_runs)⟩

end GoLabs.KvSrv
