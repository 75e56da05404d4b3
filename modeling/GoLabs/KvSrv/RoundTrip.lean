import GoLabs.KvSrv.Versions

/-!
# Calls that meet no loss

A Clerk call whose first attempt is executed at once and whose reply arrives takes the network from
one state between calls to the next, `Net.roundTrip`.  `Net.prepared` is the network in which a key
has been written some number of times in this way before anything else happens.
-/

open GoLabs.Reasoning

namespace GoLabs.KvSrv

theorem dispatch_get {kv : KVServer} {l : GoString} {v : StoredValue} (h : kv.m l = some v) :
    kv.dispatch (.get ⟨l⟩) = (kv, .get ⟨v.value, v.version, .ok⟩) := by
  simp [KVServer.dispatch, KVServer.get, h]

theorem dispatch_put {kv : KVServer} {l : GoString} {v : StoredValue} (h : kv.m l = some v)
    (value : GoString) :
    (kv.dispatch (.put ⟨l, value, v.version⟩)).2 = .put ⟨.ok⟩ ∧
      (kv.dispatch (.put ⟨l, value, v.version⟩)).1.m l = some ⟨value, v.version + 1⟩ := by
  simp [KVServer.dispatch, KVServer.put, KVServer.store, h]

namespace Net

def roundTrip (s : Net) (clerk : Nat) (r : Request) : Net :=
  { server := (s.server.dispatch r).1
    attempts := s.attempts ++ [⟨s.calls.length, r, some (s.server.dispatch r).2⟩]
    calls := s.calls ++
      [⟨clerk, r, false,
        .returned s.attempts.length (clerkReturn false (s.server.dispatch r).2)⟩]
    history := s.history ++
      [.invoke s.calls.length r,
       .exec s.calls.length s.attempts.length r (s.server.dispatch r).2,
       .ret s.calls.length s.attempts.length r (clerkReturn false (s.server.dispatch r).2)] }

variable {s : Net} {clerk : Nat} {r : Request} {key value : GoString} {v : Nat}

/-! ## The three steps of a round trip -/

theorem attempt_invoke (s : Net) (clerk : Nat) (r : Request) :
    (s.invoke clerk r).attempts[s.attempts.length]? = some ⟨s.calls.length, r, none⟩ := by
  simp [invoke]

theorem exec_invoke (s : Net) (clerk : Nat) (r : Request) :
    (s.invoke clerk r).step (.exec s.attempts.length) =
      some ((s.invoke clerk r).exec s.attempts.length s.calls.length r) :=
  step_iff.mpr (.exec (attempt_invoke s clerk r))

theorem withinCall_invoke (s : Net) (clerk : Nat) (r : Request) :
    (s.invoke clerk r).withinCall (.exec s.attempts.length) = true := by
  simp [withinCall, invoke]

theorem deliver_exec_invoke (s : Net) (clerk : Nat) (r : Request) :
    ((s.invoke clerk r).exec s.attempts.length s.calls.length r).step (.deliver s.calls.length) =
      some (s.roundTrip clerk r) := by
  have hcall : ((s.invoke clerk r).exec s.attempts.length s.calls.length r).calls[s.calls.length]? =
      some ⟨clerk, r, false, .calling s.attempts.length⟩ := by
    simp [exec, invoke]
  have hattempt : ((s.invoke clerk r).exec s.attempts.length s.calls.length r).attempts[
      s.attempts.length]? = some ⟨s.calls.length, r, some (s.server.dispatch r).2⟩ := by
    simp [exec, invoke]
  rw [step_iff.mpr (.deliver hcall rfl hattempt), Option.some.injEq]
  simp [deliver, exec, invoke, roundTrip]

theorem reaches_roundTrip (s : Net) (clerk : Nat) (r : Request) :
    Reaches step s (s.roundTrip clerk r) := by
  have hinvoke : s.step (.invoke clerk r) = some (s.invoke clerk r) := rfl
  have hexec := exec_invoke s clerk r
  exact (((Reaches.refl s).snoc hinvoke).snoc hexec).snoc (deliver_exec_invoke s clerk r)

/-! ## What a round trip leaves -/

theorem req_roundTrip {n : Nat} :
    (s.roundTrip clerk r).req n = if n = s.calls.length then some r else s.req n :=
  -- the calls only differ from those after `invoke` in where they stand
  calc (s.roundTrip clerk r).req n = (s.invoke clerk r).req n := by
        unfold req roundTrip invoke
        simp only [← List.getElem?_map, List.map_append, List.map_cons, List.map_nil]
    _ = _ := req_invoke

theorem result_roundTrip {n : Nat} :
    (s.roundTrip clerk r).result n =
      if n = s.calls.length then some (clerkReturn false (s.server.dispatch r).2)
      else s.result n := by
  unfold result roundTrip
  obtain hlt | rfl | hgt := Nat.lt_trichotomy n s.calls.length
  · rw [List.getElem?_append_left hlt, if_neg (by omega)]
  · simp
  · rw [if_neg (by omega), List.getElem?_eq_none_iff.mpr (by simp; omega),
      List.getElem?_eq_none_iff.mpr (by omega)]

theorem answered_roundTrip {n : Nat} {reply : Reply} :
    (s.roundTrip clerk r).Answered n reply ↔
      s.Answered n reply ∨ n = s.calls.length ∧ reply = (s.server.dispatch r).2 := by
  have hexec : ((s.invoke clerk r).exec s.attempts.length s.calls.length r).Answered n reply ↔ _ :=
    answered_exec (attempt_invoke s clerk r)
  rw [answered_invoke] at hexec
  refine Iff.trans ?_ hexec
  unfold Answered roundTrip exec invoke
  simp

/-! ## A key that has been written before -/

/-- The network after `v` `Put`s of `value`, at versions `0`, `1`, ..., that met no loss. -/
def prepared (key value : GoString) : Nat → Net
  | 0 => Net.init
  | v + 1 => (prepared key value v).roundTrip 0 (.put ⟨key, value, UInt64.ofNat v⟩)

theorem reaches_prepared (key value : GoString) (v : Nat) :
    Reaches step Net.init (prepared key value v) := by
  induction v with
  | zero => exact Reaches.refl _
  | succ v ih => exact ih.trans (reaches_roundTrip _ _ _)

/-- Between `Put`s that all met the version of the key. -/
structure Prepared (key value : GoString) (v : Nat) (net : Net) : Prop where
  writes : net.writes key = v
  versions : net.Versions key
  answers : ∀ n reply, net.Answered n reply → reply = .put ⟨.ok⟩
  returned : ∀ n r, net.req n = some r → net.result n ≠ none
  stored : 0 < v → net.server.m key = some ⟨value, UInt64.ofNat v⟩

theorem Prepared.put_ok (h : Prepared key value v s) (hi : s.Inv) :
    (s.server.put ⟨key, value, UInt64.ofNat v⟩).2.err = .ok := by
  rw [put_err_eq_ok_iff, (served_wins key hi.served).2]
  exact congrArg UInt64.ofNat h.writes.symm

theorem Prepared.roundTrip (h : Prepared key value v s) (hi : s.Inv) :
    Prepared key value (v + 1)
      (s.roundTrip clerk (.put ⟨key, value, UInt64.ofNat v⟩)) := by
  have hok := h.put_ok hi
  have hle : (UInt64.ofNat v).toNat ≤ s.writes key := by
    rw [h.writes]
    exact Nat.mod_le _ _
  generalize hargs : (⟨key, value, UInt64.ofNat v⟩ : PutArgs) = args at hok ⊢
  have hkey : args.key = key := by rw [← hargs]
  have hvalue : args.value = value := by rw [← hargs]
  have hversion : args.version = UInt64.ofNat v := by rw [← hargs]
  have hinvoke : s.step (.invoke clerk (.put args)) = some (s.invoke clerk (.put args)) := rfl
  have hexec := exec_invoke s clerk (.put args)
  have hattempt := attempt_invoke s clerk (.put args)
  have hok' : ((s.invoke clerk (.put args)).server.put args).2.err = .ok := hok
  -- of the three steps only the handler does anything to the key
  have hqi : Quiet key s (s.invoke clerk (.put args)) := by
    refine Quiet.of_step hinvoke rfl ?_
    intro c args' hact _
    simp only [Action.invoke.injEq, Request.put.injEq] at hact
    rw [← hact.2, hversion]
    exact hle
  have hqd : Quiet key _ (s.roundTrip clerk (.put args)) :=
    Quiet.of_step (deliver_exec_invoke s clerk (.put args)) rfl (by simp)
  constructor
  · rw [hqd.writes, writes_exec_write hkey hok', hqi.writes, h.writes]
  · exact ((h.versions.quiet hi hqi).exec_write hattempt hkey hok').quiet
      ((hi.step hinvoke).step hexec) hqd
  · intro n reply ha
    obtain hold | ⟨_, rfl⟩ := answered_roundTrip.mp ha
    · exact h.answers n reply hold
    · simp only [KVServer.dispatch, Reply.put.injEq]
      rw [← hok]
  · intro n r hn
    rw [req_roundTrip] at hn
    rw [result_roundTrip]
    split
    · simp
    · rename_i hne
      rw [if_neg hne] at hn
      exact h.returned n r hn
  · intro _
    rw [hqd.server, server_exec_write hkey hok', hvalue, hversion, UInt64.ofNat_add]
    rfl

theorem prepared_spec (key value : GoString) (v : Nat) :
    Prepared key value v (prepared key value v) := by
  induction v with
  | zero =>
      constructor
      · rfl
      · constructor <;> intro n <;> simp [prepared, req, Net.init]
      · intro n reply ha
        simp [prepared, Answered, Net.init] at ha
      · intro n r hn
        simp [prepared, req, Net.init] at hn
      · intro h
        omega
  | succ v ih => exact ih.roundTrip (inv_of_reaches (reaches_prepared key value v))

end Net

end GoLabs.KvSrv
