import GoLabs.KvSrv.ClerkRuns

/-!
# What the result of `Clerk.Put` says about the server

The results are read over the whole history of a run: an attempt may still be executed long after
its call has returned.
-/

open GoLabs.Reasoning

namespace GoLabs.KvSrv

/-- The attempts of call `n` that took effect at the server, in order. -/
def effects (n : Nat) (history : List Event) : List Event :=
  history.filter fun e =>
    match e with
    | .exec m _ req reply => m = n && tookEffect (req, reply)
    | _ => false

/-- The server after the requests that a history has executed. -/
def serverAfter (history : List Event) : KVServer := serve ((execLog history).map Prod.fst)

/-- The result of a `Clerk.Put` call is truthful in a history.  An attempt that took effect found
the version it names and stored its value under the next one; every other attempt left the map
alone. -/
structure PutTruthful (history : List Event) (n : Nat) : Prop where
  stored : ∀ pre e post, history = pre ++ e :: post → e ∈ effects n history →
    ∃ a args, e = .exec n a (.put args) (.put ⟨.ok⟩) ∧
      ((serverAfter pre).view args.key).version = args.version ∧
      serverAfter (pre ++ [e]) =
        (serverAfter pre).store args.key { value := args.value, version := args.version + 1 }
  unchanged : ∀ pre a req reply post, history = pre ++ .exec n a req reply :: post →
    .exec n a req reply ∉ effects n history →
    serverAfter (pre ++ [.exec n a req reply]) = serverAfter pre
  once : (effects n history).length ≤ 1
  ok : ∀ a req, .ret n a req (.put .ok) ∈ history →
    ∃ e, effects n history = [e] ∧ Precedes history e (.ret n a req (.put .ok))
  errVersion : ∀ a req, .ret n a req (.put .errVersion) ∈ history → effects n history = []

/-- What a `Put` returns is the reply to it, but for `ErrVersion` after a resend. -/
theorem clerkReturn_eq_put {retried : Bool} {reply : Reply} {err : Err}
    (h : clerkReturn retried reply = .put err) :
    reply = .put ⟨err⟩ ∧ (err = .errVersion → retried = false) ∨
      reply = .put ⟨.errVersion⟩ ∧ retried = true ∧ err = .errMaybe := by
  cases reply with
  | get r =>
      simp only [clerkReturn, clerkGet] at h
      split at h <;> cases h
  | put r =>
      obtain ⟨err'⟩ := r
      simp only [clerkReturn, clerkPut] at h
      split at h
      · rename_i hmaybe
        obtain ⟨rfl, hretried⟩ := hmaybe
        cases h
        exact .inr ⟨rfl, hretried, rfl⟩
      · rename_i hnot
        cases h
        refine .inl ⟨rfl, ?_⟩
        intro herr
        exact Bool.eq_false_iff.mpr fun hretried ↦ hnot ⟨herr, hretried⟩

theorem clerkReturn_eq_ok {retried : Bool} {reply : Reply}
    (h : clerkReturn retried reply = .put .ok) : reply = .put ⟨.ok⟩ := by
  obtain ⟨hreply, -⟩ | ⟨-, -, herr⟩ := clerkReturn_eq_put h
  · exact hreply
  · cases herr

theorem clerkReturn_eq_errVersion {retried : Bool} {reply : Reply}
    (h : clerkReturn retried reply = .put .errVersion) :
    retried = false ∧ reply = .put ⟨.errVersion⟩ := by
  obtain ⟨hreply, hfirst⟩ | ⟨-, -, herr⟩ := clerkReturn_eq_put h
  · exact ⟨hfirst rfl, hreply⟩
  · cases herr

theorem mem_effects {n : Nat} {history : List Event} {e : Event} :
    e ∈ effects n history ↔ ∃ a args, e = .exec n a (.put args) (.put ⟨.ok⟩) ∧ e ∈ history := by
  unfold effects
  rw [List.mem_filter]
  constructor
  · rintro ⟨he, hp⟩
    cases e with
    | invoke m req => simp at hp
    | ret m a req res => simp at hp
    | exec m a req reply =>
        simp only [Bool.and_eq_true, decide_eq_true_eq] at hp
        rcases hp with ⟨rfl, heff⟩
        cases req with
        | get args => simp [tookEffect] at heff
        | put args =>
            cases reply with
            | get r => simp [tookEffect] at heff
            | put r =>
                rcases r with ⟨err⟩
                simp only [tookEffect, decide_eq_true_eq] at heff
                subst heff
                exact ⟨a, args, rfl, he⟩
  · rintro ⟨a, args, rfl, he⟩
    exact ⟨he, by simp [tookEffect]⟩

theorem Served.exec {pre post : List Event} {n a : Nat} {req : Request} {reply : Reply}
    {kv : KVServer} (h : Served (execLog (pre ++ .exec n a req reply :: post)) kv) :
    reply = ((serverAfter pre).dispatch req).2 ∧
      serverAfter (pre ++ [.exec n a req reply]) = ((serverAfter pre).dispatch req).1 := by
  rw [List.append_cons, execLog_append, execLog_snoc_exec] at h
  obtain ⟨kv', hpre, hreply, -⟩ := h.left.last
  obtain rfl : kv' = serverAfter pre := hpre.eq_serve
  refine ⟨hreply, ?_⟩
  rw [serverAfter, execLog_snoc_exec, List.map_append, List.map_singleton, serve_snoc]
  rfl

/-- An attempt that was answered with `OK` has stored its value. -/
theorem stored_of_served {history pre post : List Event} {n : Nat} {e : Event} {kv : KVServer}
    (h : Served (execLog history) kv) (hsplit : history = pre ++ e :: post)
    (he : e ∈ effects n history) :
    ∃ a args, e = .exec n a (.put args) (.put ⟨.ok⟩) ∧
      ((serverAfter pre).view args.key).version = args.version ∧
      serverAfter (pre ++ [e]) = (serverAfter pre).store args.key
        { value := args.value, version := args.version + 1 } := by
  obtain ⟨a, args, rfl, -⟩ := mem_effects.mp he
  rw [hsplit] at h
  obtain ⟨hreply, hafter⟩ := h.exec
  have hok : ((serverAfter pre).put args).2.err = .ok := by
    rw [← Reply.put.inj hreply]
  have hversion := (put_err_eq_ok_iff _ _).mp hok
  refine ⟨a, args, rfl, hversion.symm, ?_⟩
  rw [hafter, hversion]
  exact put_store_of_ok hok

theorem unchanged_of_served {history pre post : List Event} {n a : Nat} {req : Request}
    {reply : Reply} {kv : KVServer} (h : Served (execLog history) kv)
    (hsplit : history = pre ++ .exec n a req reply :: post)
    (he : .exec n a req reply ∉ effects n history) :
    serverAfter (pre ++ [.exec n a req reply]) = serverAfter pre := by
  have hmem : Event.exec n a req reply ∈ history := by simp [hsplit]
  rw [hsplit] at h
  obtain ⟨rfl, hafter⟩ := h.exec
  rw [hafter]
  cases req with
  | get args => rfl
  | put args =>
      refine put_unchanged_of_ne_ok fun hok ↦ he (mem_effects.mpr ⟨a, args, ?_, hmem⟩)
      rw [KVServer.dispatch, ← hok]

theorem wins_execLog (key : GoString) (history : List Event) :
    wins key (execLog history) = history.filterMap fun e =>
      match e with
      | .exec _ _ (.put args) (.put reply) =>
          if args.key = key ∧ reply.err = .ok then some args.version else none
      | _ => none := by
  unfold wins execLog
  rw [List.filterMap_filterMap]
  congr 1
  funext e
  cases e with
  | invoke n req => rfl
  | ret n a req res => rfl
  | exec n a req reply => cases req <;> cases reply <;> rfl

namespace Net

variable {s : Net}

/-- A reply has the shape of its request: the handlers answer in kind. -/
theorem Inv.exec_put (h : Inv s) {n a : Nat} {req : Request} {r : PutReply}
    (he : .exec n a req (.put r) ∈ s.history) : ∃ args, req = .put args := by
  have hmem : (req, Reply.put r) ∈ execLog s.history := mem_execLog.mpr ⟨n, a, he⟩
  have hreply := h.served.reply _ hmem
  rcases hreply with ⟨kv, hkv⟩
  cases req with
  | get args => simp [KVServer.dispatch] at hkv
  | put args => exact ⟨args, rfl⟩

theorem Inv.exec_req (h : Inv s) {n a b : Nat} {req req' : Request} {r r' : Reply}
    (ha : .exec n a req r ∈ s.history) (hb : .exec n b req' r' ∈ s.history) : req = req' := by
  have hca := h.attempt_call a _ ((h.exec_iff _ _ _ _).mp ha)
  have hcb := h.attempt_call b _ ((h.exec_iff _ _ _ _).mp hb)
  rcases hca with ⟨c, hc, rfl⟩
  rcases hcb with ⟨d, hd, rfl⟩
  simp only [hc, Option.some.injEq] at hd
  rw [hd]

/-- The attempts of one call all carry one version, and a version wins at most once. -/
theorem Inv.effects_length (h : Inv s)
    (hb : ∀ key, (wins key (execLog s.history)).length < 2 ^ 64) (n : Nat) :
    (effects n s.history).length ≤ 1 := by
  cases heff : effects n s.history with
  | nil => simp
  | cons e es =>
      have hhead : e ∈ effects n s.history := by rw [heff]; exact List.mem_cons_self
      have hexec := mem_effects.mp hhead
      rcases hexec with ⟨a, args, rfl, he⟩
      -- every effect of the call contributes the same version to the winners of its key
      have hversions : (effects n s.history).filterMap (fun e =>
          match e with
          | .exec _ _ (.put args') (.put reply) =>
              if args'.key = args.key ∧ reply.err = .ok then some args'.version else none
          | _ => none) = List.replicate (effects n s.history).length args.version := by
        rw [← List.map_const', ← List.filterMap_eq_map]
        apply List.filterMap_congr
        intro f hf
        have hfexec := mem_effects.mp hf
        rcases hfexec with ⟨b, args', rfl, hfe⟩
        have hsame := h.exec_req he hfe
        simp only [Request.put.injEq] at hsame
        simp [hsame]
      have hsub := List.Sublist.filterMap (fun e =>
          match e with
          | .exec _ _ (.put args') (.put reply) =>
              if args'.key = args.key ∧ reply.err = .ok then some args'.version else none
          | _ => none) (List.filter_sublist (l := s.history) (p := fun e =>
            match e with
            | .exec m _ req reply => m = n && tookEffect (req, reply)
            | _ => false))
      change List.Sublist (List.filterMap _ (effects n s.history)) _ at hsub
      rw [hversions, ← wins_execLog] at hsub
      have hnodup := hsub.nodup (h.served.wins_nodup (hb args.key))
      rw [← heff]
      exact List.nodup_replicate.mp hnodup

end Net

/-- The results of `Clerk.Put` are truthful in every run of the network, over its whole history:
an attempt that is executed after the call returned is part of it. -/
theorem put_truthful {s : Net} (h : Reaches Net.step Net.init s)
    (hb : ∀ key, (wins key (execLog s.history)).length < 2 ^ 64) (n : Nat) :
    s.server = serverAfter s.history ∧ PutTruthful s.history n := by
  have hinv := Net.inv_of_reaches h
  refine ⟨hinv.served.eq_serve, ?_, ?_, hinv.effects_length hb n, ?_, ?_⟩
  · exact fun pre e post ↦ stored_of_served hinv.served
  · exact fun pre a req reply post ↦ unchanged_of_served hinv.served
  · intro a req hret
    obtain ⟨c, hc, rfl, hpc⟩ := (hinv.ret_iff _ _ _ _).mp hret
    obtain ⟨reply, hat, hres⟩ := hinv.returned n c a _ hc hpc
    obtain rfl := clerkReturn_eq_ok hres.symm
    have hexec := (hinv.exec_iff _ _ _ _).mpr hat
    obtain ⟨args, hargs⟩ := hinv.exec_put hexec
    have hmem : Event.exec n a c.req (.put ⟨.ok⟩) ∈ effects n s.history :=
      mem_effects.mpr ⟨a, args, by rw [hargs], hexec⟩
    have hone : effects n s.history = [.exec n a c.req (.put ⟨.ok⟩)] := by
      have hlen := hinv.effects_length hb n
      cases heff : effects n s.history with
      | nil => rw [heff] at hmem; simp at hmem
      | cons e es =>
          rw [heff, List.length_cons] at hlen
          have hes : es = [] := List.length_eq_zero_iff.mp (by omega)
          rw [heff, hes, List.mem_singleton] at hmem
          rw [hes, hmem]
    obtain ⟨reply, hp⟩ := hinv.exec_before_ret n a c.req _ hret
    have hsame := (hinv.exec_iff _ _ _ _).mp hp.left
    rw [hat] at hsame
    simp only [Option.some.injEq, Attempt.mk.injEq, true_and] at hsame
    exact ⟨_, hone, by rw [hsame]; exact hp⟩
  · intro a req hret
    obtain ⟨c, hc, rfl, hpc⟩ := (hinv.ret_iff _ _ _ _).mp hret
    obtain ⟨reply, hat, hres⟩ := hinv.returned n c a _ hc hpc
    obtain ⟨hretried, rfl⟩ := clerkReturn_eq_errVersion hres.symm
    apply List.eq_nil_iff_forall_not_mem.mpr
    intro e he
    obtain ⟨b, args, rfl, hexec⟩ := mem_effects.mp he
    -- a call that was never resent has one attempt only, the one that was refused
    have hatb := (hinv.exec_iff _ _ _ _).mp hexec
    have hab : a = b := hinv.first n c a b _ _ hc hretried hat hatb rfl rfl
    subst hab
    rw [hat] at hatb
    simp at hatb

/-- Three calls of `Put` on one key: one that succeeds, one that is refused, and one whose first
reply is lost after it took effect, so that its second attempt is refused. -/
def threePuts : List Action :=
  [.invoke 0 (.put ⟨lit "k", lit "v", 0⟩), .exec 0, .deliver 0,
   .invoke 1 (.put ⟨lit "k", lit "w", 0⟩), .exec 1, .deliver 1,
   .invoke 0 (.put ⟨lit "k", lit "x", 1⟩), .exec 2, .lose 2, .resend 2, .exec 3, .deliver 2]

theorem put_truthful_threePuts :
    ∃ s, run Net.step Net.init threePuts = some s ∧
      .ret 0 0 (.put ⟨lit "k", lit "v", 0⟩) (.put .ok) ∈ s.history ∧
      .ret 1 1 (.put ⟨lit "k", lit "w", 0⟩) (.put .errVersion) ∈ s.history ∧
      .ret 2 3 (.put ⟨lit "k", lit "x", 1⟩) (.put .errMaybe) ∈ s.history ∧
      (effects 2 s.history).length = 1 ∧ s.server.m (lit "k") = some ⟨lit "x", 2⟩ ∧
      PutTruthful s.history 0 ∧ PutTruthful s.history 1 ∧ PutTruthful s.history 2 := by
  have hreach : Reaches Net.step Net.init _ := reaches_of_run (l := threePuts) rfl
  have htruthful := put_truthful hreach
    fun key ↦ lt_of_le_of_lt (wins_length_le key _) (by decide)
  exact ⟨_, rfl, by decide, by decide, by decide, by decide, by decide,
    (htruthful 0).2, (htruthful 1).2, (htruthful 2).2⟩

end GoLabs.KvSrv
