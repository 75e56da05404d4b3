import GoLabs.KvSrv.CallViews

/-!
# The versions of one key

As long as nobody sends a `Put` to a key ahead of the key's version, an answered `Put` is behind it
for good, and what a `Get` saw is still there if the version is.  This is all that programs rest on
that write back what they have read.
-/

open GoLabs.Reasoning

namespace GoLabs.KvSrv

/-- The network moves on its own; a call made by somebody else never writes the key. -/
def foreign (key : GoString) : Action → Bool
  | .invoke _ (.put args) => args.key ≠ key
  | _ => true

namespace Net

/-- The versions of the `Put`s to the key, answered or not, and what the `Get`s have seen. -/
structure Versions (key : GoString) (net : Net) : Prop where
  sent : ∀ (n : Nat) (args : PutArgs), net.req n = some (.put args) → args.key = key →
    args.version.toNat ≤ net.writes key
  answered : ∀ (n : Nat) (args : PutArgs) (reply : Reply), net.req n = some (.put args) →
    args.key = key → net.Answered n reply → args.version.toNat < net.writes key
  seen : ∀ (n : Nat) (r : GetReply), net.req n = some (.get ⟨key⟩) → net.Answered n (.get r) →
    r.err = .ok → r.version.toNat ≤ net.writes key ∧
      (r.version.toNat = net.writes key → net.server.m key = some ⟨r.value, r.version⟩)

/-- The network has run no handler, and no `Put` to the key was sent ahead of its versions. -/
structure Quiet (key : GoString) (net t : Net) : Prop where
  server : t.server = net.server
  writes : t.writes key = net.writes key
  answered : ∀ n reply, t.Answered n reply ↔ net.Answered n reply
  keeps : ∀ n r, net.req n = some r → t.req n = some r
  sent : ∀ n args, t.req n = some (.put args) → args.key = key →
    net.req n = some (.put args) ∨ args.version.toNat ≤ net.writes key

variable {key : GoString} {net t : Net}

theorem Quiet.refl (net : Net) : Quiet key net net :=
  ⟨rfl, rfl, fun _ _ ↦ Iff.rfl, fun _ _ h ↦ h, fun _ _ h _ ↦ .inl h⟩

theorem Quiet.of_step {act : Action} (hs : net.step act = some t) (hq : Net.quiet act = true)
    (hsent : ∀ clerk args, act = .invoke clerk (.put args) → args.key = key →
      args.version.toNat ≤ net.writes key) : Quiet key net t := by
  obtain ⟨hserver, hwrites, hans⟩ := Net.quiet_step hs hq
  refine ⟨hserver, hwrites key, hans, fun n r hr ↦ Net.req_of_step hs hr, ?_⟩
  intro n args hn hkey
  obtain hold | ⟨_, clerk, hact⟩ := Net.req_before_step hs hn
  · exact .inl hold
  · exact .inr (hsent clerk args hact hkey)

/-- A call that was answered before a quiet step had its request before it. -/
theorem Quiet.req_before (hq : Quiet key net t) (hi : net.Inv) {n : Nat} {r : Request}
    {reply : Reply} (hn : t.req n = some r) (ha : net.Answered n reply) : net.req n = some r := by
  obtain ⟨r', hr⟩ := hi.answered_req ha
  have hsame := hq.keeps n r' hr
  rw [hn, Option.some.injEq] at hsame
  exact hsame ▸ hr

theorem Versions.quiet (hv : Versions key net) (hi : net.Inv) (hq : Quiet key net t) :
    Versions key t := by
  constructor
  · intro n args hn hkey
    rw [hq.writes]
    obtain hold | hle := hq.sent n args hn hkey
    · exact hv.sent n args hold hkey
    · exact hle
  · intro n args reply hn hkey ha
    rw [hq.writes]
    rw [hq.answered] at ha
    exact hv.answered n args reply (hq.req_before hi hn ha) hkey ha
  · intro n r hn ha hok
    rw [hq.writes, hq.server]
    rw [hq.answered] at ha
    exact hv.seen n r (hq.req_before hi hn ha) ha hok

variable {a m : Nat} {r : Request} {args : PutArgs}

theorem writes_exec_other
    (hother : ∀ args, r = .put args → args.key = key → (net.server.put args).2.err ≠ .ok) :
    (net.exec a m r).writes key = net.writes key := by
  rw [writes_exec]
  cases r with
  | get args => rfl
  | put args =>
      have hnone : wins key [(.put args, (net.server.dispatch (.put args)).2)] = [] := by
        simp only [wins, KVServer.dispatch, List.filterMap_cons, List.filterMap_nil]
        rw [if_neg (fun hwin ↦ hother args rfl hwin.1 hwin.2)]
      rw [hnone]
      rfl

theorem writes_exec_write (hkey : args.key = key) (hok : (net.server.put args).2.err = .ok) :
    (net.exec a m (.put args)).writes key = net.writes key + 1 := by
  rw [writes_exec]
  simp [wins, KVServer.dispatch, hkey, hok]

/-- What a `Get` that runs now says about the key. -/
theorem Inv.get_seen (hi : net.Inv) (hb : net.writes key < 2 ^ 64)
    (hok : (net.server.get ⟨key⟩).err = .ok) :
    (net.server.get ⟨key⟩).version.toNat = net.writes key ∧
      net.server.m key = some ⟨(net.server.get ⟨key⟩).value, (net.server.get ⟨key⟩).version⟩ := by
  unfold KVServer.get at hok ⊢
  cases hm : net.server.m key with
  | none => simp [hm] at hok
  | some v => exact ⟨(hi.writes_of_some hb hm).1, rfl⟩

/-- A handler that does not write the key. -/
theorem Versions.exec_other (hv : Versions key net) (hi : net.Inv) (hb : net.writes key < 2 ^ 64)
    (hat : net.attempts[a]? = some ⟨m, r, none⟩)
    (hother : ∀ args, r = .put args → args.key = key → (net.server.put args).2.err ≠ .ok) :
    Versions key (net.exec a m r) := by
  have hreqm := hi.req_of_attempt hat
  have hwrites := writes_exec_other hother (a := a) (m := m)
  constructor
  · intro n args hn hkey
    rw [hwrites]
    exact hv.sent n args hn hkey
  · intro n args reply hn hkey ha
    change net.req n = _ at hn
    rw [hwrites]
    obtain hold | ⟨rfl, _⟩ := (answered_exec hat).mp ha
    · exact hv.answered n args reply hn hkey hold
    · -- a refused `Put` is behind, since it was not ahead when it was sent
      rw [hreqm, Option.some.injEq] at hn
      have hle := hv.sent n args (hn ▸ hreqm) hkey
      subst hkey
      have hne : args.version.toNat ≠ net.writes args.key :=
        fun heq ↦ hother args hn rfl ((hi.put_ok_iff hb).mpr heq)
      omega
  · intro n g hn ha hok
    change net.req n = _ at hn
    rw [hwrites, server_exec_other hother]
    obtain hold | ⟨rfl, hreply⟩ := (answered_exec hat).mp ha
    · exact hv.seen n g hn hold hok
    · rw [hreqm, Option.some.injEq] at hn
      subst hn
      simp only [KVServer.dispatch, Reply.get.injEq] at hreply
      subst hreply
      obtain ⟨hver, hm⟩ := hi.get_seen hb hok
      exact ⟨by omega, fun _ ↦ hm⟩

/-- A handler that writes the key. -/
theorem Versions.exec_write (hv : Versions key net)
    (hat : net.attempts[a]? = some ⟨m, .put args, none⟩) (hkey : args.key = key)
    (hok : (net.server.put args).2.err = .ok) : Versions key (net.exec a m (.put args)) := by
  have hwrites := writes_exec_write hkey hok (a := a) (m := m)
  constructor
  · intro n args' hn hkey'
    have hle := hv.sent n args' hn hkey'
    omega
  · intro n args' reply hn hkey' _
    have hle := hv.sent n args' hn hkey'
    omega
  · intro n g hn ha hgok
    -- what was seen before the write is behind now
    have hold : net.Answered n (.get g) := (got_exec_put hat).mp ha
    have hseen := hv.seen n g hn hold hgok
    exact ⟨by omega, fun heq ↦ by omega⟩

/-- A `Put` at the version of the key has not been answered, so its call has not returned. -/
theorem Versions.unanswered (hv : Versions key net) (hi : net.Inv)
    (hreq : net.req m = some (.put args)) (hkey : args.key = key)
    (hver : args.version.toNat = net.writes key) :
    (∀ reply, ¬ net.Answered m reply) ∧ net.result m = none := by
  have hfresh : ∀ reply, ¬ net.Answered m reply := by
    intro reply ha
    have hlt := hv.answered m args reply hreq hkey ha
    omega
  refine ⟨hfresh, ?_⟩
  cases hres : net.result m with
  | none => rfl
  | some res =>
      obtain ⟨reply, _, ha, _⟩ := hi.answered_of_result hres
      exact absurd ha (hfresh reply)

theorem Quiet.invoke {clerk : Nat} (hr : ∀ args, r = .put args → args.key = key →
    args.version.toNat ≤ net.writes key) : Quiet key net (net.invoke clerk r) := by
  apply Quiet.of_step (show net.step (.invoke clerk r) = some (net.invoke clerk r) from rfl) rfl
  intro clerk' args hact hkey
  simp only [Action.invoke.injEq] at hact
  exact hr args hact.2 hkey

end Net

end GoLabs.KvSrv
