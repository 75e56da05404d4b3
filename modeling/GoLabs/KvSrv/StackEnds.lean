import GoLabs.KvSrv.StackRuns

/-!
# The ends of the clients

As long as the tester keeps its hands off the ends of the clients, an end is enabled exactly when
its client may connect to its server, whichever of `ConnectAll`, `DisconnectAll` and the first call
to the server came last.
-/

open GoLabs.Reasoning
open GoLabs.Tester

namespace GoLabs.KvSrv

namespace Stack

variable {s t : Stack} {a : StackAction} {net : Network}

/-! ## The ends of the clients -/

/-- The end is one of a client. -/
def owns (s : Stack) (e : EndName) : Bool :=
  s.clnts.any fun clnt => clnt.ends.keys.any fun server => clnt.ends.lookup server = some e

theorem owns_of_lookup {i : Nat} {clnt : Clnt} {server : GoString} {e : EndName}
    (hi : s.clnts[i]? = some clnt) (hend : clnt.ends.lookup server = some e) : s.owns e = true := by
  refine List.any_eq_true.mpr ⟨clnt, List.mem_of_getElem? hi, ?_⟩
  refine List.any_eq_true.mpr ⟨server, ?_, by simpa using hend⟩
  exact AList.lookup_isSome.mp (by rw [hend]; rfl)

/-- The tester leaves the ends of the clients to the clients. -/
def handsOff (s : Stack) : StackAction → Bool
  | .perform (.deleteEnd e) | .perform (.connect e _) | .perform (.enable e _) => !s.owns e
  | _ => true

structure Exact (s : Stack) : Prop where
  ends : ∀ (i : Nat) (clnt : Clnt) (server : GoString) (e : EndName), s.clnts[i]? = some clnt →
    clnt.ends.lookup server = some e → e ∈ s.net.ends ∧ s.net.connections e = some server ∧
      s.net.enabled e = clnt.allowedL server
  apart : ∀ (i j : Nat) (clnt clnt' : Clnt) (server server' : GoString) (e : EndName),
    s.clnts[i]? = some clnt → s.clnts[j]? = some clnt' → clnt.ends.lookup server = some e →
    clnt'.ends.lookup server' = some e → i = j ∧ server = server'

theorem Exact.init (net : Network) : Exact (Stack.init net) := by
  constructor <;> simp [Stack.init]

/-- The clients stay, and so do their ends. -/
theorem Exact.keep (h : Exact s) (hclnts : t.clnts = s.clnts)
    (hends : ∀ e, s.owns e = true → e ∈ s.net.ends → e ∈ t.net.ends ∧
      t.net.connections e = s.net.connections e ∧ t.net.enabled e = s.net.enabled e) : Exact t := by
  constructor <;> rw [hclnts]
  · intro i clnt server e hi hend
    obtain ⟨hmem, hconn, hen⟩ := h.ends i clnt server e hi hend
    obtain ⟨hmem', hconn', hen'⟩ := hends e (owns_of_lookup hi hend) hmem
    exact ⟨hmem', hconn'.trans hconn, hen'.trans hen⟩
  · exact h.apart

theorem Exact.perform (h : Exact s) {op : NetOp} (hnet : s.net.perform op = some net)
    (hoff : s.handsOff (.perform op) = true) : Exact { s with net } := by
  refine h.keep rfl ?_
  intro e howns hmem
  have hne : ∀ e', (!s.owns e') = true → e ≠ e' := by
    rintro e' hnot rfl
    rw [howns] at hnot
    cases hnot
  cases op with
  | makeEnd e' =>
      obtain ⟨hfresh, rfl⟩ := Network.makeEnd_eq_some.mp hnet
      have hne : e ≠ e' := fun heq ↦ hfresh (heq ▸ hmem)
      simp [hmem, hne]
  | deleteEnd e' =>
      simp only [Network.perform, Network.deleteEnd, Option.ite_none_right_eq_some,
        Option.some.injEq] at hnet
      obtain ⟨-, rfl⟩ := hnet
      simp [hne e' hoff, (List.mem_erase_of_ne (hne e' hoff)).mpr hmem]
  | connect e' servername =>
      cases hnet
      simp [Network.connect, hne e' hoff, hmem]
  | enable e' v =>
      cases hnet
      simp [Network.enable, hne e' hoff, hmem]
  | reliable | longReordering =>
      cases hnet
      exact ⟨hmem, rfl, rfl⟩

/-- `ConnectAll` and `DisconnectAll`: the ends of the client are switched, and only they. -/
theorem Exact.enableAll (h : Exact s) {i : Nat} {it : Iteration GoString} {clnt : Clnt} {v : Bool}
    {srvs : Option (List GoString)} (hi : s.clnts[i]? = some clnt)
    (hallowed : ∀ server, Clnt.allowedL { clnt with srvs } server = v) :
    Exact { s with
      clnts := s.clnts.set i { clnt with srvs }, net := clnt.enableAll it s.net v } := by
  have hbefore : ∀ (j : Nat) (clnt' : Clnt),
      (s.clnts.set i { clnt with srvs })[j]? = some clnt' →
      ∃ old, s.clnts[j]? = some old ∧ clnt'.ends = old.ends := by
    intro j clnt' hj
    obtain ⟨rfl, -, rfl⟩ | ⟨-, hj⟩ := getElem?_set_eq_some.mp hj
    · exact ⟨clnt, hi, rfl⟩
    · exact ⟨clnt', hj, rfl⟩
  constructor
  · intro j clnt' server e hj hend
    obtain ⟨old, hold, hsame⟩ := hbefore j clnt' hj
    obtain ⟨hmem, hconn, hen⟩ := h.ends j old server e hold (hsame ▸ hend)
    refine ⟨?_, ?_, ?_⟩
    · change e ∈ (clnt.enableAll it s.net v).ends
      rwa [Clnt.ends_enableAll]
    · change (clnt.enableAll it s.net v).connections e = _
      rwa [(Clnt.enableAll_rest clnt it s.net v).1]
    · change (clnt.enableAll it s.net v).enabled e = _
      obtain ⟨rfl, -, rfl⟩ | ⟨hne, hj⟩ := getElem?_set_eq_some.mp hj
      · have hown : clnt.ends.lookup server = some e := hend
        rw [Clnt.enabled_enableAll_own hown, hallowed]
      · rw [Clnt.enabled_enableAll_other]
        · obtain rfl : clnt' = old := Option.some.inj (hj.symm.trans hold)
          exact hen
        · intro server' hown
          exact hne (h.apart j i _ _ _ _ e hold hi (hsame ▸ hend) hown).1
  · intro j k clnt₁ clnt₂ server server' e hj hk hend hend'
    obtain ⟨old₁, hold₁, hsame₁⟩ := hbefore j clnt₁ hj
    obtain ⟨old₂, hold₂, hsame₂⟩ := hbefore k clnt₂ hk
    exact h.apart j k old₁ old₂ server server' e hold₁ hold₂ (hsame₁ ▸ hend) (hsame₂ ▸ hend')

/-- The new end of a client is as its client wants it, and no end of another one. -/
theorem Exact.fresh (h : Exact s) {i : Nat} {clnt : Clnt} {server : GoString} {name : EndName}
    {reqs : List RpcReq} {calls : List ClerkCall} {history : List Event}
    (hi : s.clnts[i]? = some clnt) (hname : name ∉ s.net.ends) :
    Exact { s with
      reqs, calls, history
      clnts := s.clnts.set i { clnt with ends := clnt.ends.insert server name }
      net := { s.net with
        ends := s.net.ends ++ [name]
        enabled := Function.update s.net.enabled name (clnt.allowedL server)
        connections := Function.update s.net.connections name (some server) } } := by
  -- every end is the new one or was there before
  have hbefore : ∀ (j : Nat) (clnt' : Clnt) (server' : GoString) (e : EndName),
      (s.clnts.set i { clnt with ends := clnt.ends.insert server name })[j]? = some clnt' →
      clnt'.ends.lookup server' = some e →
      (j = i ∧ server' = server ∧ e = name ∧ clnt'.allowedL server = clnt.allowedL server) ∨
        ∃ old, s.clnts[j]? = some old ∧ old.ends.lookup server' = some e ∧
          clnt'.allowedL server' = old.allowedL server' := by
    intro j clnt' server' e hj hend
    obtain ⟨rfl, -, rfl⟩ | ⟨-, hj⟩ := getElem?_set_eq_some.mp hj
    · by_cases hserver : server' = server
      · subst hserver
        have hlook : (clnt.ends.insert server' name).lookup server' = some e := hend
        rw [AList.lookup_insert, Option.some.injEq] at hlook
        exact .inl ⟨rfl, rfl, hlook.symm, rfl⟩
      · have hlook : (clnt.ends.insert server name).lookup server' = some e := hend
        rw [AList.lookup_insert_ne hserver] at hlook
        exact .inr ⟨clnt, hi, hlook, rfl⟩
    · exact .inr ⟨clnt', hj, hend, rfl⟩
  constructor
  · intro j clnt' server' e hj hend
    obtain ⟨-, rfl, rfl, hsame⟩ | ⟨old, hold, hlook, hsame⟩ := hbefore j clnt' server' e hj hend
    · simp [hsame]
    · obtain ⟨hmem, hconn, hen⟩ := h.ends j old server' e hold hlook
      have hne : e ≠ name := fun heq ↦ hname (heq ▸ hmem)
      simp [hmem, hne, hconn, hen, hsame]
  · intro j k clnt₁ clnt₂ server₁ server₂ e hj hk hend₁ hend₂
    obtain ⟨rfl, rfl, rfl, -⟩ | ⟨old₁, hold₁, hlook₁, -⟩ := hbefore j clnt₁ server₁ e hj hend₁
    · obtain ⟨rfl, rfl, -, -⟩ | ⟨old₂, hold₂, hlook₂, -⟩ := hbefore k clnt₂ server₂ e hk hend₂
      · exact ⟨rfl, rfl⟩
      · exact absurd (h.ends k old₂ server₂ e hold₂ hlook₂).1 hname
    · obtain ⟨rfl, rfl, rfl, -⟩ | ⟨old₂, hold₂, hlook₂, -⟩ := hbefore k clnt₂ server₂ e hk hend₂
      · exact absurd (h.ends j old₁ server₁ e hold₁ hlook₁).1 hname
      · exact h.apart j k old₁ old₂ server₁ server₂ e hold₁ hold₂ hlook₁ hlook₂

/-- A call may make an end; its name is new. -/
theorem Exact.send (h : Exact s) {k n : Nat} {req : Request} {name : EndName} {u : Stack}
    {calls : List ClerkCall} {history : List Event} (hsend : Sends s k n req name u) :
    Exact { u with calls, history } := by
  cases hsend with
  | @intro ck clnt clnt' net e hck hclnt hend =>
      cases Clnt.makeEnd_cases hend with
      | old hold =>
          obtain ⟨hlt, hget⟩ := List.getElem?_eq_some_iff.mp hclnt
          have hset : s.clnts.set ck.clnt clnt = s.clnts := by
            rw [← hget]
            exact List.set_getElem_self hlt
          exact h.keep hset fun e _ hmem ↦ ⟨hmem, rfl, rfl⟩
      | fresh hnone hname => exact h.fresh hclnt hname

theorem Exact.step (h : Exact s) (hs : restrict Stack.step handsOff s a = some t) : Exact t := by
  obtain ⟨hoff, hs⟩ := restrict_eq_some.mp hs
  cases step_cases hs with
  | perform hnet => exact h.perform hnet hoff
  | deleteServer | cleanup | makeClerk | refuse | handlerReturn | succeed | fail | goroutine =>
      exact h.keep rfl fun e _ hmem ↦ ⟨hmem, rfl, rfl⟩
  | makeClientTo srvs =>
      have hold : ∀ (i : Nat) (clnt : Clnt) (server : GoString) (e : EndName),
          (s.clnts ++ [makeClntTo srvs])[i]? = some clnt → clnt.ends.lookup server = some e →
          s.clnts[i]? = some clnt := by
        intro i clnt server e hi hend
        obtain hi | ⟨-, rfl⟩ := getElem?_snoc_eq_some.mp hi
        · exact hi
        · cases hend
      constructor
      · intro i clnt server e hi hend
        exact h.ends i clnt server e (hold i clnt server e hi hend) hend
      · intro i j clnt clnt' server server' e hi hj hend hend'
        exact h.apart i j clnt clnt' server server' e (hold i clnt server e hi hend)
          (hold j clnt' server' e hj hend') hend hend'
  | connectAll hi => exact h.enableAll hi fun _ ↦ rfl
  | disconnectAll hi => exact h.enableAll hi fun _ ↦ rfl
  | invoke hsend => exact h.send hsend
  | resend hc hpc hsend => exact h.send hsend

end Stack

/-- Whatever the clients do, as long as the tester leaves their ends to them: an end of a client is
connected to the server that it was made for, it is enabled exactly when the client may connect to
that server now, and no other end of any client has its name. -/
theorem clnt_ends_exact {net : Network} {s : Stack}
    (h : Reaches (restrict Stack.step Stack.handsOff) (Stack.init net) s) {i : Nat} {clnt : Clnt}
    {server : GoString} {e : EndName} (hi : s.clnts[i]? = some clnt)
    (hend : clnt.ends.lookup server = some e) :
    s.net.connections e = some server ∧
      (s.net.enabled e = true ↔ ∀ srvs, clnt.srvs = some srvs → server ∈ srvs) ∧
      ∀ (j : Nat) (clnt' : Clnt) (server' : GoString), s.clnts[j]? = some clnt' →
        clnt'.ends.lookup server' = some e → j = i ∧ server' = server := by
  have hexact : s.Exact := h.invariant (Stack.Exact.init net) fun _ _ _ _ hs hu ↦ hu.step hs
  obtain ⟨-, hconn, hen⟩ := hexact.ends i clnt server e hi hend
  refine ⟨hconn, ?_, ?_⟩
  · rw [hen, Clnt.allowedL]
    cases clnt.srvs with
    | none => simp
    | some srvs => simp
  · intro j clnt' server' hj hend'
    exact hexact.apart j i clnt' clnt server' server e hj hi hend' hend

/-- The client is disconnected while its `Put` waits. -/
def cutOff : List StackAction := firstPut ++ [.disconnectAll 0 (.stored _)]

theorem cutOff_runs : (run (restrict Stack.step Stack.handsOff) (Stack.init kvNet)
    cutOff).isSome = true := by decide

theorem cutOff_clnt : (((run (restrict Stack.step Stack.handsOff) (Stack.init kvNet)
    cutOff).get cutOff_runs).clnts[0]?).isSome = true := by decide

theorem clnt_ends_exact_cutOff :
    ∃ s clnt, run (restrict Stack.step Stack.handsOff) (Stack.init kvNet) cutOff = some s ∧
      s.clnts[0]? = some clnt ∧ clnt.ends.lookup (serverName 0 0) = some (lit "e") ∧
      s.net.enabled (lit "e") = false ∧
      (s.net.enabled (lit "e") = true ↔
        ∀ srvs, clnt.srvs = some srvs → serverName 0 0 ∈ srvs) := by
  have hend : ((((run (restrict Stack.step Stack.handsOff) (Stack.init kvNet)
      cutOff).get cutOff_runs).clnts[0]?).get cutOff_clnt).ends.lookup (serverName 0 0) =
        some (lit "e") := by decide
  refine ⟨_, _, (Option.some_get cutOff_runs).symm, (Option.some_get cutOff_clnt).symm, hend,
    by decide, ?_⟩
  exact (clnt_ends_exact (reaches_get cutOff_runs) (Option.some_get cutOff_clnt).symm hend).2.1

end GoLabs.KvSrv
