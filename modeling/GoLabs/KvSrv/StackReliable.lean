import GoLabs.KvSrv.ClerkRuns
import GoLabs.KvSrv.PutResults
import GoLabs.KvSrv.StackRuns

/-!
# Runs of the stack without disturbance

As long as no end is disabled and the server is not deleted, a handler runs only while its `Call`
waits.  As long as the network is reliable too, no `Call` returns false, so every Clerk call that
has returned was executed exactly once.
-/

open GoLabs.Reasoning
open GoLabs.Tester

namespace GoLabs.Tester

/-- The ends that there are stay, an enabled one stays enabled, and the servers are the same. -/
structure Network.Keeps (net net' : Network) : Prop where
  ends : ∀ e ∈ net.ends, e ∈ net'.ends
  enabled : ∀ e ∈ net.ends, net.enabled e = true → net'.enabled e = true
  servers : net'.servers = net.servers

theorem Network.Keeps.refl (net : Network) : net.Keeps net := ⟨fun _ h ↦ h, fun _ _ h ↦ h, rfl⟩

theorem Network.isServerDead_eq_false {net : Network} {e : EndName} {name : GoString}
    {server : Nat} : net.isServerDead e name server = false ↔
      net.enabled e = true ∧ net.servers name = some server := by
  simp [Network.isServerDead]

theorem Clnt.keeps_enableAll (clnt : Clnt) (it : Iteration GoString) (net : Network) :
    net.Keeps (clnt.enableAll it net true) := by
  refine ⟨?_, ?_, Clnt.servers_enableAll clnt it net true⟩
  · rw [Clnt.ends_enableAll]
    exact fun _ h ↦ h
  · intro e _ hen
    by_cases hown : ∃ server, clnt.ends.lookup server = some e
    · obtain ⟨server, hown⟩ := hown
      exact Clnt.enabled_enableAll_own hown it net true
    · rwa [Clnt.enabled_enableAll_other (not_exists.mp hown)]

theorem Clnt.Makes.keeps {clnt clnt' : Clnt} {net net' : Network} {server : GoString} {e : EndName}
    (h : clnt.Makes net server clnt' net' e) : net.Keeps net' := by
  cases h with
  | old => exact .refl net
  | fresh hnone hname =>
      refine ⟨fun _ he ↦ List.mem_append_left _ he, ?_, rfl⟩
      intro e' he' hen
      have hne : e' ≠ e := fun heq ↦ hname (heq ▸ he')
      simpa [hne] using hen

/-- A request on the end reaches the server. -/
structure Network.Open (net : Network) (e : EndName) (server : GoString) : Prop where
  mem : e ∈ net.ends
  enabled : net.enabled e = true
  connected : net.connections e = some server

theorem Network.Open.keep {net net' : Network} {e : EndName} {server : GoString}
    (h : net.Open e server) (hk : net.Keeps net')
    (hconn : ∀ e ∈ net.ends, net'.connections e = net.connections e) : net'.Open e server :=
  ⟨hk.ends e h.mem, hk.enabled e h.mem h.enabled, (hconn e h.mem).trans h.connected⟩

theorem Clnt.Makes.connections {clnt clnt' : Clnt} {net net' : Network} {server : GoString}
    {e : EndName} (h : clnt.Makes net server clnt' net' e) :
    ∀ e' ∈ net.ends, net'.connections e' = net.connections e' := by
  cases h with
  | old => exact fun _ _ ↦ rfl
  | fresh hnone hname =>
      intro e' he'
      have hne : e' ≠ e := fun heq ↦ hname (heq ▸ he')
      simp [hne]

namespace Req

variable {net net' : Network} {q q' : Req}

/-- The handler runs only while `processReq` waits for it, and until then the server is there. -/
structure Attended (net : Network) (q : Req) : Prop where
  running : ∀ server, q.handler = .running server →
    ∃ name server' reliable, q.pc = .waiting name server' reliable
  alive : ∀ name server reliable, q.pc = .accepted name server reliable ∨
    q.pc = .waiting name server reliable ∨ q.pc = .answered name server reliable →
    net.isServerDead q.endname name server = false

theorem Attended.keep (h : q.Attended net) (hk : net.Keeps net') (hend : q.endname ∈ net.ends) :
    q.Attended net' := by
  refine ⟨h.running, ?_⟩
  intro name server reliable hpc
  obtain ⟨hen, hserver⟩ := Network.isServerDead_eq_false.mp (h.alive name server reliable hpc)
  rw [Network.isServerDead_eq_false, hk.servers]
  exact ⟨hk.enabled _ hend hen, hserver⟩

theorem Attended.next {step : ReqStep} (h : q.Attended net) (hn : Next net q step q') :
    q'.Attended net := by
  -- a step from a place where `processReq` does not wait, with the handler left as it is
  have hquiet : (∀ name server reliable, q.pc ≠ .waiting name server reliable) →
      ∀ server, q.handler ≠ .running server := by
    intro hpc server hh
    obtain ⟨name, server', reliable, hwait⟩ := h.running server hh
    exact hpc name server' reliable hwait
  cases hn with
  | @accept name server hpc henabled hname hserver =>
      refine ⟨fun server' hh ↦ absurd hh (hquiet (by simp [hpc]) server'), ?_⟩
      rintro name' server' reliable (heq | heq | heq) <;> cases heq
      exact Network.isServerDead_eq_false.mpr ⟨henabled, hserver⟩
  | @dispatch name server reliable hpc =>
      refine ⟨fun _ _ ↦ ⟨name, server, reliable, rfl⟩, ?_⟩
      rintro name' server' reliable' (heq | heq | heq) <;> cases heq
      exact h.alive name server reliable (.inl hpc)
  | handlerReturn hh => exact ⟨by simp, h.alive⟩
  | @receive name server server' reliable hpc hh =>
      refine ⟨by simp [hh], ?_⟩
      rintro name' server'' reliable' (heq | heq | heq) <;> cases heq
      exact h.alive name server reliable (.inr (.inl hpc))
  | @giveUp name server reliable hpc hdead =>
      rw [h.alive name server reliable (.inr (.inl hpc))] at hdead
      cases hdead
  | reject hpc | dropRequest hpc | dead hpc | alive hpc | gaveUp hpc | dropReply hpc | reply hpc
  | deliver hpc =>
      exact ⟨fun server hh ↦ absurd hh (hquiet (by simp [hpc]) server), by simp⟩

/-- Nothing has gone wrong with the request, and on a reliable network nothing will. -/
def Fine (q : Req) : Prop :=
  match q.pc with
  | .sent | .accepted _ _ true | .waiting _ _ true | .answered _ _ true | .alive true
  | .replying true | .returned true => True
  | _ => False

theorem Fine.next {step : ReqStep} {name : GoString} {server : Nat} (h : q.Fine)
    (hatt : q.Attended net) (hopen : net.Open q.endname name)
    (hserver : net.servers name = some server) (hreliable : net.reliable = true)
    (hn : Next net q step q') : q'.Fine := by
  cases hn with
  | accept hpc => simp [Fine, hreliable]
  | reject hpc hdead => exact absurd hserver (hdead name server hopen.enabled hopen.connected)
  | @giveUp name' server' reliable hpc hdead =>
      rw [hatt.alive name' server' reliable (.inr (.inl hpc))] at hdead
      cases hdead
  | @dead name' server' reliable hpc hdead =>
      rw [hatt.alive name' server' reliable (.inr (.inr hpc))] at hdead
      cases hdead
  | handlerReturn hh => exact h
  | dropRequest hpc | gaveUp hpc | dropReply hpc => simp [Fine, hpc] at h
  | @dispatch _ _ reliable hpc | @receive _ _ _ reliable hpc | @alive _ _ reliable hpc =>
      cases reliable with
      | true => simp [Fine]
      | false => simp [Fine, hpc] at h
  | reply => trivial
  | @deliver ok hpc =>
      cases ok with
      | true => simp [Fine]
      | false => simp [Fine, hpc] at h

end Req

end GoLabs.Tester

namespace GoLabs.KvSrv

namespace Stack

variable {s t : Stack} {a : StackAction} {net : Network}

/-! ## Handlers within their calls -/

/-- No end is disabled or deleted, and neither is the server. -/
def steady (_ : Stack) : StackAction → Bool
  | .perform (.enable _ false) | .perform (.deleteEnd _) | .deleteServer _ | .disconnectAll _ _ =>
      false
  | _ => true

structure Steady (s : Stack) : Prop where
  clnts : ∀ clnt ∈ s.clnts, ∀ server e, clnt.ends.lookup server = some e → e ∈ s.net.ends
  reqs : ∀ q ∈ s.reqs, q.req.endname ∈ s.net.ends ∧ q.req.Attended s.net

theorem Steady.init (net : Network) : Steady (Stack.init net) := by
  constructor <;> simp [Stack.init]

theorem Steady.keep (h : Steady s) (hk : s.net.Keeps t.net) (hreqs : t.reqs = s.reqs)
    (hclnts : ∀ clnt ∈ t.clnts, ∀ server e, clnt.ends.lookup server = some e →
      (∃ old ∈ s.clnts, old.ends.lookup server = some e) ∨ e ∈ t.net.ends) : Steady t := by
  constructor
  · intro clnt hclnt server e hend
    obtain ⟨old, hold, hend⟩ | hmem := hclnts clnt hclnt server e hend
    · exact hk.ends e (h.clnts old hold server e hend)
    · exact hmem
  · intro q hq
    obtain ⟨hend, hatt⟩ := h.reqs q (hreqs ▸ hq)
    exact ⟨hk.ends _ hend, hatt.keep hk hend⟩

theorem Steady.set (h : Steady s) {r : Nat} {q q' : RpcReq} {calls : List ClerkCall} {kv : KVServer}
    {history : List Event} (hq : s.reqs[r]? = some q) (hend : q'.req.endname = q.req.endname)
    (hatt : q'.req.Attended s.net) :
    Steady { s with kv, calls, history, reqs := s.reqs.set r q' } := by
  refine ⟨h.clnts, forall_mem_set h.reqs ⟨?_, hatt⟩⟩
  rw [hend]
  exact (h.reqs q (List.mem_of_getElem? hq)).1

theorem keeps_perform {op : NetOp} (hnet : s.net.perform op = some net)
    (hsteady : s.steady (.perform op) = true) : s.net.Keeps net := by
  cases op with
  | makeEnd e =>
      obtain ⟨hfresh, rfl⟩ := Network.makeEnd_eq_some.mp hnet
      refine ⟨fun _ he ↦ List.mem_append_left _ he, ?_, rfl⟩
      intro e' he' hen
      have hne : e' ≠ e := fun heq ↦ hfresh (heq ▸ he')
      simpa [hne] using hen
  | deleteEnd e => cases hsteady
  | enable e v =>
      cases v with
      | false => cases hsteady
      | true =>
          cases hnet
          refine ⟨fun _ he ↦ he, ?_, rfl⟩
          intro e' _ hen
          simp [hen]
  | connect | reliable | longReordering =>
      cases hnet
      exact ⟨fun _ he ↦ he, fun _ _ hen ↦ hen, rfl⟩

theorem Steady.send (h : Steady s) {k n : Nat} {req : Request} {name : EndName} {u : Stack}
    {calls : List ClerkCall} {history : List Event} (hsend : Sends s k n req name u) :
    Steady { u with calls, history } := by
  cases hsend with
  | @intro ck clnt clnt' net e hck hclnt hend =>
      have hmakes := Clnt.makeEnd_cases hend
      have hmem := List.mem_of_getElem? hclnt
      have hends : ∀ server e', clnt'.ends.lookup server = some e' → e' ∈ net.ends := by
        intro server e' hlook
        cases hmakes with
        | old => exact h.clnts clnt hmem server e' hlook
        | fresh hnone hname =>
            by_cases hserver : server = ck.server
            · subst hserver
              rw [AList.lookup_insert, Option.some.injEq] at hlook
              simp [hlook]
            · rw [AList.lookup_insert_ne hserver] at hlook
              exact List.mem_append_left _ (h.clnts clnt hmem server e' hlook)
      have hown : clnt'.ends.lookup ck.server = some e := by
        cases hmakes with
        | old hold => exact hold
        | fresh => exact AList.lookup_insert _
      constructor
      · refine forall_mem_set ?_ hends
        intro old hold server e' hlook
        exact hmakes.keeps.ends e' (h.clnts old hold server e' hlook)
      · refine List.forall_mem_append.mpr ⟨?_, List.forall_mem_singleton.mpr ⟨?_, ?_⟩⟩
        · intro q hq
          obtain ⟨hqend, hatt⟩ := h.reqs q hq
          exact ⟨hmakes.keeps.ends _ hqend, hatt.keep hmakes.keeps hqend⟩
        · exact hends ck.server e hown
        · exact ⟨by simp, by simp⟩

theorem Steady.step (h : Steady s) (hs : restrict Stack.step steady s a = some t) : Steady t := by
  obtain ⟨hsteady, hs⟩ := restrict_eq_some.mp hs
  cases step_cases hs with
  | perform hnet =>
      exact h.keep (keeps_perform hnet hsteady) rfl fun clnt hclnt _ _ hend ↦
        .inl ⟨clnt, hclnt, hend⟩
  | deleteServer | disconnectAll => cases hsteady
  | cleanup | makeClerk =>
      exact h.keep (.refl _) rfl fun clnt hclnt _ _ hend ↦ .inl ⟨clnt, hclnt, hend⟩
  | makeClientTo srvs =>
      refine h.keep (.refl _) rfl ?_
      intro clnt hclnt server e hend
      obtain hclnt | hnew := List.mem_append.mp hclnt
      · exact .inl ⟨clnt, hclnt, hend⟩
      · rw [List.mem_singleton.mp hnew] at hend
        cases hend
  | @connectAll i it clnt hclnt =>
      refine h.keep (clnt.keeps_enableAll it s.net) rfl ?_
      refine forall_mem_set (fun old hold _ _ hend ↦ .inl ⟨old, hold, hend⟩) ?_
      exact fun _ _ hend ↦ .inl ⟨clnt, List.mem_of_getElem? hclnt, hend⟩
  | invoke hsend => exact h.send hsend
  | resend hc hpc hsend => exact h.send hsend
  | @refuse r q c hq _ hpc _ =>
      refine h.set hq rfl ⟨?_, by simp⟩
      intro server hh
      obtain ⟨name, server', reliable, hwait⟩ :=
        (h.reqs q (List.mem_of_getElem? hq)).2.running server hh
      rw [hpc] at hwait
      cases hwait
  | handlerReturn hq hnext | succeed hq hnext | fail hq hnext | goroutine hq hnext =>
      have hn := Req.next_cases hnext
      exact h.set hq hn.endname ((h.reqs _ (List.mem_of_getElem? hq)).2.next hn)

theorem steady_of_reaches (h : Reaches (restrict Stack.step steady) (Stack.init net) s) :
    Steady s := h.invariant (Steady.init net) fun _ _ _ _ hs hu ↦ hu.step hs

/-- In a steady run the steps of the stack are steps of the network in which a handler runs only
while its `Call` waits. -/
theorem abs_step_within (h : Reaches (restrict Stack.step steady) (Stack.init net) s)
    (hs : s.step a = some t) :
    t.abs = s.abs ∨ ∃ act, restrict Net.step Net.withinCall s.abs act = some t.abs := by
  have hinv := inv_of_reaches h.of_restrict
  obtain heq | ⟨act, hact, hexec⟩ := abs_step hinv hs
  · exact .inl heq
  · refine .inr ⟨act, restrict_eq_some.mpr ⟨?_, hact⟩⟩
    cases act with
    | exec r =>
        -- the handler runs, so `processReq` waits for it and the Clerk for `processReq`
        obtain ⟨q, server, hq, hh⟩ := hexec r rfl
        obtain ⟨name, server', reliable, hpc⟩ :=
          ((steady_of_reaches h).reqs q (List.mem_of_getElem? hq)).2.running server hh
        obtain ⟨c, hc, hcall⟩ := hinv.waits r q hq (by simp [hpc])
        exact List.any_eq_true.mpr ⟨c, List.mem_of_getElem? hc, by simpa using hcall⟩
    | invoke | lose | resend | deliver => rfl

end Stack

/-- As long as no end is disabled and the server is not deleted, the network may lose requests and
replies and delay them, and still every handler runs between the start and the return of its
`Call`. -/
theorem labrpc_refines_withinCall {net : Network} {s : Stack}
    (h : Reaches (restrict Stack.step Stack.steady) (Stack.init net) s) :
    Reaches (restrict Net.step Net.withinCall) Net.init s.abs := by
  refine h.invariant (I := fun s => Reaches (restrict Net.step Net.withinCall) Net.init s.abs)
    (Reaches.refl _) ?_
  intro u a v hr hs hu
  obtain heq | ⟨act, hact⟩ := Stack.abs_step_within hr (restrict_eq_some.mp hs).2
  · rwa [heq]
  · exact hu.snoc hact

theorem droppedReply_steady : (run (restrict Stack.step Stack.steady) (Stack.init kvNet)
    droppedReply).isSome = true := by decide

theorem labrpc_refines_withinCall_droppedReply :
    ∃ s, run (restrict Stack.step Stack.steady) (Stack.init kvNet) droppedReply = some s ∧
      s.calls.map ClerkCall.pc = [.returned 1 (.put .errMaybe)] ∧
      Reaches (restrict Net.step Net.withinCall) Net.init s.abs :=
  ⟨_, (Option.some_get droppedReply_steady).symm, by decide,
    labrpc_refines_withinCall (reaches_get droppedReply_steady)⟩

namespace Stack

variable {s t : Stack} {a : StackAction} {net : Network}

/-! ## Reliable runs -/

/-- The tests of a reliable network: it stays so, the clients may connect to all servers, and the
Clerks call the server by its name.  Neither is the server deleted nor an end disabled or deleted,
and the tester does not call `Cleanup`.  Replies may still be delayed. -/
def calm (_ : Stack) : StackAction → Bool
  | .perform (.reliable yes) => yes
  | .perform (.longReordering _) | .perform (.makeEnd _) | .perform (.enable _ true) => true
  | .perform _ | .deleteServer _ | .cleanup | .disconnectAll _ _ => false
  | .makeClientTo srvs => srvs.isNone
  | .makeClerk _ server => server = serverName 0 0
  | _ => true

theorem steady_of_calm {op : StackAction} (h : s.calm op = true) : s.steady op = true := by
  cases op with
  | perform op =>
      cases op with
      | enable e v =>
          cases v with
          | true => rfl
          | false => cases h
      | deleteEnd => cases h
      | makeEnd | connect | reliable | longReordering => rfl
  | deleteServer | disconnectAll => cases h
  | cleanup | makeClientTo | connectAll | makeClerk | invoke | resend | refuse | req => rfl

structure Calm (s : Stack) : Prop where
  reliable : s.net.reliable = true
  server : ∃ k, s.net.servers (serverName 0 0) = some k
  standing : s.destroyed = false
  clnts : ∀ clnt ∈ s.clnts, clnt.srvs = none ∧
    ∀ server e, clnt.ends.lookup server = some e → s.net.Open e server
  clerks : ∀ ck ∈ s.clerks, ck.server = serverName 0 0
  reqs : ∀ q ∈ s.reqs, s.net.Open q.req.endname (serverName 0 0) ∧ q.req.Fine
  calls : ∀ c ∈ s.calls, c.retried = false ∧ c.pc ≠ .sleeping

theorem Calm.init (hreliable : net.reliable = true)
    (hserver : ∃ k, net.servers (serverName 0 0) = some k) : Calm (Stack.init net) :=
  ⟨hreliable, hserver, rfl, by simp [Stack.init], by simp [Stack.init], by simp [Stack.init],
    by simp [Stack.init]⟩

/-- The network changes, but not for the ends that are there. -/
theorem Calm.keep (h : Calm s) {clnts : List Clnt} (hk : s.net.Keeps net)
    (hconn : ∀ e ∈ s.net.ends, net.connections e = s.net.connections e)
    (hreliable : net.reliable = true)
    (hclnts : ∀ clnt ∈ clnts, clnt.srvs = none ∧
      ∀ server e, clnt.ends.lookup server = some e →
        (∃ old ∈ s.clnts, old.ends.lookup server = some e) ∨ net.Open e server) :
    Calm { s with net, clnts } := by
  obtain ⟨k, hk'⟩ := h.server
  refine ⟨hreliable, ⟨k, by rw [← hk']; exact congrFun hk.servers _⟩, h.standing, ?_, h.clerks, ?_,
    h.calls⟩
  · intro clnt hclnt
    obtain ⟨hsrvs, hends⟩ := hclnts clnt hclnt
    refine ⟨hsrvs, ?_⟩
    intro server e hend
    obtain ⟨old, hold, hend⟩ | hopen := hends server e hend
    · exact ((h.clnts old hold).2 server e hend).keep hk hconn
    · exact hopen
  · intro q hq
    exact ⟨(h.reqs q hq).1.keep hk hconn, (h.reqs q hq).2⟩

theorem Calm.perform (h : Calm s) {op : NetOp} (hnet : s.net.perform op = some net)
    (hcalm : s.calm (.perform op) = true) : Calm { s with net } := by
  refine h.keep (keeps_perform hnet (steady_of_calm hcalm)) ?_ ?_ ?_
  · intro e he
    cases op with
    | makeEnd e' =>
        obtain ⟨hfresh, rfl⟩ := Network.makeEnd_eq_some.mp hnet
        have hne : e ≠ e' := fun heq ↦ hfresh (heq ▸ he)
        simp [hne]
    | deleteEnd | connect => cases hcalm
    | enable | reliable | longReordering =>
        cases hnet
        rfl
  · cases op with
    | makeEnd e' =>
        obtain ⟨-, rfl⟩ := Network.makeEnd_eq_some.mp hnet
        exact h.reliable
    | deleteEnd | connect => cases hcalm
    | enable | longReordering =>
        cases hnet
        exact h.reliable
    | reliable yes =>
        cases hnet
        exact hcalm
  · intro clnt hclnt
    exact ⟨(h.clnts clnt hclnt).1, fun server e hend ↦ .inl ⟨clnt, hclnt, hend⟩⟩

theorem Calm.makes (h : Calm s) {clnt clnt' : Clnt} {server : GoString} {e : EndName}
    (hclnt : clnt ∈ s.clnts) (hmakes : clnt.Makes s.net server clnt' net e) :
    net.Open e server ∧ net.reliable = true ∧ clnt'.srvs = none ∧
      ∀ server' e', clnt'.ends.lookup server' = some e' →
        clnt.ends.lookup server' = some e' ∨ net.Open e' server' := by
  obtain ⟨hsrvs, hends⟩ := h.clnts clnt hclnt
  cases hmakes with
  | old hold => exact ⟨hends server e hold, h.reliable, hsrvs, fun _ _ hend ↦ .inl hend⟩
  | fresh hnone hname =>
      have hopen : Network.Open { s.net with
          ends := s.net.ends ++ [e]
          enabled := Function.update s.net.enabled e (clnt.allowedL server)
          connections := Function.update s.net.connections e (some server) } e server :=
        ⟨by simp, by simp [Clnt.allowedL, hsrvs], by simp⟩
      refine ⟨hopen, h.reliable, hsrvs, ?_⟩
      intro server' e' hend
      by_cases hserver : server' = server
      · subst hserver
        rw [AList.lookup_insert, Option.some.injEq] at hend
        exact .inr (hend ▸ hopen)
      · rw [AList.lookup_insert_ne hserver] at hend
        exact .inl hend

theorem Calm.send (h : Calm s) {k n : Nat} {req : Request} {name : EndName} {u : Stack}
    {calls : List ClerkCall} {history : List Event} (hsend : Sends s k n req name u)
    (hcalls : ∀ c ∈ calls, c.retried = false ∧ c.pc ≠ .sleeping) :
    Calm { u with calls, history } := by
  cases hsend with
  | @intro ck clnt clnt' net e hck hclnt hend =>
      have hmakes := Clnt.makeEnd_cases hend
      have hmem := List.mem_of_getElem? hclnt
      obtain ⟨hopen, hreliable, hsrvs, hends⟩ := h.makes hmem hmakes
      have hkept : Calm { s with net, clnts := s.clnts.set ck.clnt clnt' } := by
        refine h.keep hmakes.keeps hmakes.connections hreliable (forall_mem_set ?_ ⟨hsrvs, ?_⟩)
        · intro old hold
          exact ⟨(h.clnts old hold).1, fun server e' hlook ↦ .inl ⟨old, hold, hlook⟩⟩
        · intro server e' hlook
          exact (hends server e' hlook).imp_left fun hold ↦ ⟨clnt, hmem, hold⟩
      rw [h.clerks ck (List.mem_of_getElem? hck)] at hopen
      refine ⟨hkept.reliable, hkept.server, hkept.standing, hkept.clnts, hkept.clerks, ?_, hcalls⟩
      exact List.forall_mem_append.mpr
        ⟨hkept.reqs, List.forall_mem_singleton.mpr ⟨hopen, by simp [Req.Fine]⟩⟩

theorem Calm.set (h : Calm s) {r : Nat} {q q' : RpcReq} {calls : List ClerkCall} {kv : KVServer}
    {history : List Event} (hq : s.reqs[r]? = some q) (hend : q'.req.endname = q.req.endname)
    (hfine : q'.req.Fine) (hcalls : ∀ c ∈ calls, c.retried = false ∧ c.pc ≠ .sleeping) :
    Calm { s with kv, calls, history, reqs := s.reqs.set r q' } := by
  refine ⟨h.reliable, h.server, h.standing, h.clnts, h.clerks, ?_, hcalls⟩
  refine forall_mem_set h.reqs ⟨?_, hfine⟩
  rw [hend]
  exact (h.reqs q (List.mem_of_getElem? hq)).1

theorem Calm.step (h : Calm s) (hsteady : Steady s)
    (hs : restrict Stack.step calm s a = some t) : Calm t := by
  obtain ⟨hcalm, hs⟩ := restrict_eq_some.mp hs
  have hnext : ∀ {r : Nat} {q : RpcReq} {q' : Req} {step : ReqStep}, s.reqs[r]? = some q →
      q.req.next s.net step = some q' → q'.Fine := by
    intro r q q' step hq hn
    have hmem := List.mem_of_getElem? hq
    obtain ⟨k, hk⟩ := h.server
    exact (h.reqs q hmem).2.next (hsteady.reqs q hmem).2 (h.reqs q hmem).1 hk h.reliable
      (Req.next_cases hn)
  cases step_cases hs with
  | perform hnet => exact h.perform hnet hcalm
  | deleteServer | cleanup | disconnectAll => cases hcalm
  | makeClientTo srvs =>
      refine h.keep (.refl _) (fun _ _ ↦ rfl) h.reliable ?_
      refine List.forall_mem_append.mpr ⟨?_, List.forall_mem_singleton.mpr ⟨?_, ?_⟩⟩
      · intro clnt hclnt
        exact ⟨(h.clnts clnt hclnt).1, fun server e hend ↦ .inl ⟨clnt, hclnt, hend⟩⟩
      · exact Option.isNone_iff_eq_none.mp hcalm
      · intro server e hend
        cases hend
  | @connectAll i it clnt hclnt =>
      have hmem := List.mem_of_getElem? hclnt
      obtain ⟨hconn, hrel⟩ := clnt.enableAll_rest it s.net true
      refine h.keep (clnt.keeps_enableAll it s.net) (fun e _ ↦ congrFun hconn e)
        (hrel.trans h.reliable) (forall_mem_set ?_ ⟨rfl, ?_⟩)
      · intro old hold
        exact ⟨(h.clnts old hold).1, fun server e hend ↦ .inl ⟨old, hold, hend⟩⟩
      · exact fun server e hend ↦ .inl ⟨clnt, hmem, hend⟩
  | makeClerk clnt server =>
      refine ⟨h.reliable, h.server, h.standing, h.clnts, ?_, h.reqs, h.calls⟩
      exact List.forall_mem_append.mpr
        ⟨h.clerks, List.forall_mem_singleton.mpr (of_decide_eq_true hcalm)⟩
  | invoke hsend =>
      exact h.send hsend (List.forall_mem_append.mpr ⟨h.calls, by simp⟩)
  -- no call ever fails, so no Clerk sleeps
  | resend hc hpc hsend => exact absurd hpc (h.calls _ (List.mem_of_getElem? hc)).2
  | refuse hq hdestroyed =>
      rw [h.standing] at hdestroyed
      cases hdestroyed
  | handlerReturn hq hn =>
      exact h.set hq (Req.next_cases hn).endname (hnext hq hn) h.calls
  | @succeed r q q' c reply hq hn hpc hc hreply =>
      refine h.set hq (Req.next_cases hn).endname (hnext hq hn) (forall_mem_set h.calls ?_)
      exact ⟨(h.calls c (List.mem_of_getElem? hc)).1, by simp⟩
  | fail hq hn hpc =>
      have hfine := hnext hq hn
      cases Req.next_cases hn with
      | @deliver ok =>
          cases ok with
          | true => exact absurd rfl hpc
          -- a request that is fine does not return false
          | false => cases hfine
  | goroutine hq hn => exact h.set hq (Req.next_cases hn).endname (hnext hq hn) h.calls

theorem calm_of_reaches (hreliable : net.reliable = true)
    (hserver : ∃ k, net.servers (serverName 0 0) = some k)
    (h : Reaches (restrict Stack.step calm) (Stack.init net) s) : Calm s := by
  refine h.invariant (Calm.init hreliable hserver) ?_
  intro u act v hr hs hu
  exact hu.step (steady_of_reaches (hr.restrict_mono fun _ _ ↦ steady_of_calm)) hs

theorem net_inv_of_reaches (h : Reaches Stack.step (Stack.init net) s) : s.abs.Inv := by
  refine h.invariant (I := fun s => s.abs.Inv) Net.Inv.init ?_
  intro u act v hr hs hu
  obtain heq | ⟨act', hact, -⟩ := abs_step (inv_of_reaches hr) hs
  · rwa [heq]
  · exact hu.step hact

end Stack

/-- `ErrMaybe` is the Clerk's word. -/
theorem dispatch_ne_errMaybe (kv : KVServer) (req : Request) :
    (kv.dispatch req).2 ≠ .put ⟨.errMaybe⟩ := by
  cases req with
  | get args => simp [KVServer.dispatch]
  | put args =>
      simp only [KVServer.dispatch, KVServer.put]
      split <;> split <;> simp

/-- The executions of call `n`. -/
def execsOf (n : Nat) (history : List Event) : List Event :=
  history.filter fun e =>
    match e with
    | .exec m _ _ _ => m = n
    | _ => false

theorem mem_execsOf {n : Nat} {history : List Event} {e : Event} :
    e ∈ execsOf n history ↔ ∃ a req reply, e = .exec n a req reply ∧ e ∈ history := by
  unfold execsOf
  rw [List.mem_filter]
  cases e with
  | exec m a req reply =>
      simp only [decide_eq_true_eq, Event.exec.injEq]
      constructor
      · rintro ⟨he, rfl⟩
        exact ⟨a, req, reply, ⟨rfl, rfl, rfl, rfl⟩, he⟩
      · rintro ⟨_, _, _, ⟨rfl, -⟩, he⟩
        exact ⟨he, rfl⟩
  | invoke | ret => simp

/-- On a reliable network whose ends are left alone, with a server that is not deleted and without a
`Cleanup`, any number of Clerks: every Clerk call that has returned was executed exactly once, by
the attempt that it returned with, and returned what the server answered; `Put` never returns
`ErrMaybe`. -/
theorem reliable_exactly_once {net : Network} {s : Stack} (hreliable : net.reliable = true)
    (hserver : ∃ k, net.servers (serverName 0 0) = some k)
    (h : Reaches (restrict Stack.step Stack.calm) (Stack.init net) s) {n a : Nat} {req : Request}
    {res : Result} (hret : .ret n a req res ∈ s.history) :
    ∃ reply, execsOf n s.history = [.exec n a req reply] ∧ res = clerkReturn false reply ∧
      res ≠ .put .errMaybe := by
  have hcalm := Stack.calm_of_reaches hreliable hserver h
  have hinv := Stack.net_inv_of_reaches h.of_restrict
  obtain ⟨c, hc, rfl, hpc⟩ := (hinv.ret_iff n a req res).mp hret
  obtain ⟨reply, hreply, hres⟩ := hinv.returned n c a res hc hpc
  have hfirst := (hcalm.calls c (List.mem_of_getElem? hc)).1
  rw [hfirst] at hres
  have hexec := (hinv.exec_iff n a c.req reply).mpr hreply
  refine ⟨reply, ?_, hres, ?_⟩
  · have hnodup : (execsOf n s.history).Nodup := List.Nodup.filter _ hinv.nodup
    rw [← List.perm_singleton, List.perm_ext_iff_of_nodup hnodup (List.nodup_singleton _)]
    intro e
    rw [List.mem_singleton, mem_execsOf]
    constructor
    · rintro ⟨b, req', reply', rfl, hb⟩
      have hattempt := (hinv.exec_iff n b req' reply').mp hb
      obtain rfl := hinv.first n c b a _ _ hc hfirst hattempt hreply rfl rfl
      rw [hreply, Option.some.injEq, Attempt.mk.injEq, Option.some.injEq] at hattempt
      rw [hattempt.2.1, hattempt.2.2]
    · rintro rfl
      exact ⟨a, c.req, reply, rfl, hexec⟩
  · intro hmaybe
    obtain ⟨herr, -⟩ | ⟨-, hretried, -⟩ := clerkReturn_eq_put (hres.symm.trans hmaybe)
    · obtain ⟨kv, hkv⟩ := hinv.served.reply _ (mem_execLog.mpr ⟨n, a, hexec⟩)
      exact dispatch_ne_errMaybe kv c.req (hkv.symm.trans herr)
    · cases hretried

def answeredPut : List StackAction := firstPut ++ [.req 0 .reply, .req 0 .deliver]

theorem answeredPut_calm : (run (restrict Stack.step Stack.calm) (Stack.init kvNet)
    answeredPut).isSome = true := by decide

theorem reliable_exactly_once_answeredPut :
    ∃ s reply, run (restrict Stack.step Stack.calm) (Stack.init kvNet) answeredPut = some s ∧
      .ret 0 0 (.put ⟨lit "k", lit "v", 0⟩) (.put .ok) ∈ s.history ∧
      execsOf 0 s.history = [.exec 0 0 (.put ⟨lit "k", lit "v", 0⟩) reply] ∧
      .put .ok = clerkReturn false reply := by
  have hret : Event.ret 0 0 (.put ⟨lit "k", lit "v", 0⟩) (.put .ok) ∈
      ((run (restrict Stack.step Stack.calm) (Stack.init kvNet)
        answeredPut).get answeredPut_calm).history := by decide
  obtain ⟨reply, honce, hres, -⟩ :=
    reliable_exactly_once rfl ⟨0, by decide⟩ (reaches_get answeredPut_calm) hret
  exact ⟨_, reply, (Option.some_get answeredPut_calm).symm, hret, honce, hres⟩

end GoLabs.KvSrv
