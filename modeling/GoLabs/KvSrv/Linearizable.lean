import GoLabs.Reasoning.Linearizability
import GoLabs.KvSrv.KvModel
import GoLabs.KvSrv.PutResults

/-!
# Linearizability of the key/value service

When handlers run within their `Call`, every Clerk call has a linearization point between its
invocation and its return: the attempt that took effect if there is one, and otherwise the attempt
whose reply was delivered.  Replaying the points of one key drives `KvModel` through the states of
the server.
-/

open GoLabs.Reasoning

namespace GoLabs.KvSrv

namespace Net

/-- What the runs keep in which a handler only runs while its `Call` waits. -/
structure Within (s : Net) : Prop where
  exec_before_ret : ∀ (n a b : Nat) (req req' : Request) (reply : Reply) (res : Result),
    .exec n a req reply ∈ s.history → .ret n b req' res ∈ s.history →
    Precedes s.history (.exec n a req reply) (.ret n b req' res)
  /-- Once the current attempt was told that the key is missing, no attempt has written it. -/
  noKey : ∀ (n : Nat) (c : ClerkCall) (a b : Nat) (req : Request), s.calls[n]? = some c →
    (c.pc = .calling a ∨ ∃ res, c.pc = .returned a res) →
    s.attempts[a]? = some ⟨n, req, some (.put ⟨.errNoKey⟩)⟩ →
    s.attempts[b]? ≠ some ⟨n, req, some (.put ⟨.ok⟩)⟩

theorem Within.init : Within Net.init := by
  constructor <;> simp [Net.init]

theorem Within.invoke {s : Net} (hi : Inv s) (h : Within s) (clerk : Nat) (req : Request) :
    Within (s.invoke clerk req) where
  exec_before_ret n a b req₁ req₂ reply res he hr :=
    (h.exec_before_ret n a b req₁ req₂ reply res (mem_of_mem_snoc he (by simp))
      (mem_of_mem_snoc hr (by simp))).append _
  noKey n c a b req' hc hpc hat := by
    intro hok
    have hatOld : s.attempts[a]? = some ⟨n, req', some (.put ⟨.errNoKey⟩)⟩ := by
      rcases getElem?_snoc_eq_some.mp hat with hold | ⟨-, hnew⟩
      · exact hold
      · simp at hnew
    have hokOld : s.attempts[b]? = some ⟨n, req', some (.put ⟨.ok⟩)⟩ := by
      rcases getElem?_snoc_eq_some.mp hok with hold | ⟨-, hnew⟩
      · exact hold
      · simp at hnew
    rcases getElem?_snoc_eq_some.mp hc with hold | ⟨rfl, -⟩
    · exact h.noKey n c a b req' hold hpc hatOld hokOld
    · rcases hi.attempt_call a _ hatOld with ⟨d, hd, -⟩
      have hlt : s.calls.length < s.calls.length := lt_length_of_getElem? hd
      omega

theorem Within.exec {s : Net} (hi : Inv s) (h : Within s) {a n : Nat} {req : Request}
    (hat : s.attempts[a]? = some ⟨n, req, none⟩) (hw : s.withinCall (.exec a) = true) :
    Within (s.exec a n req) := by
  -- the call that waits for attempt `a` is the call that sent it
  have hcall : ∃ c, s.calls[n]? = some c ∧ c.pc = .calling a := by
    simp only [withinCall, List.any_eq_true, decide_eq_true_eq] at hw
    rcases hw with ⟨c, hmem, hpc⟩
    rcases List.mem_iff_getElem?.mp hmem with ⟨m, hm⟩
    rcases hi.calling m c a hm hpc with ⟨r, hr⟩
    rw [hat, Option.some.injEq, Attempt.mk.injEq] at hr
    exact ⟨c, by rw [hr.1]; exact hm, hpc⟩
  rcases hcall with ⟨c, hc, hpc⟩
  refine ⟨?_, ?_⟩
  · intro m b d req₁ req₂ reply res he hr
    have hrOld := mem_of_mem_snoc hr (by simp)
    rcases List.mem_append.mp he with hold | hnew
    · exact (h.exec_before_ret m b d req₁ req₂ reply res hold hrOld).append _
    · simp only [List.mem_singleton, Event.exec.injEq] at hnew
      rcases hnew with ⟨rfl, -, -, -⟩
      rcases (hi.ret_iff _ _ _ _).mp hrOld with ⟨c', hc', -, hpc'⟩
      rw [hc, Option.some.injEq] at hc'
      rw [← hc', hpc] at hpc'
      simp at hpc'
  · intro m c' b d req' hc' hpc' hb hd
    rcases getElem?_set_eq_some.mp hb with ⟨rfl, -, hnew⟩ | ⟨hba, hbOld⟩
    · -- a handler that finds the key missing proves that nobody has written it
      simp only [Attempt.mk.injEq, Option.some.injEq] at hnew
      rcases hnew with ⟨rfl, rfl, hreply⟩
      cases req' with
      | get args => simp [KVServer.dispatch] at hreply
      | put args =>
          have hnoKey : (s.server.put args).2.err = .errNoKey := by
            simp only [KVServer.dispatch, Reply.put.injEq] at hreply
            rw [← hreply]
          have hdOld : s.attempts[d]? = some ⟨m, .put args, some (.put ⟨.ok⟩)⟩ := by
            rcases getElem?_set_eq_some.mp hd with ⟨-, -, hnew⟩ | ⟨-, hold⟩
            · simp only [Attempt.mk.injEq, Option.some.injEq, true_and] at hnew
              rw [← hnew] at hreply
              simp at hreply
            · exact hold
          have hwrote := mem_execLog.mpr ⟨m, d, (hi.exec_iff _ _ _ _).mpr hdOld⟩
          have hsome := hi.served.isSome_of_ok hwrote
          rw [put_noKey hnoKey] at hsome
          simp at hsome
    · rcases getElem?_set_eq_some.mp hd with ⟨rfl, -, hnew⟩ | ⟨-, hdOld⟩
      · -- the call waits for the attempt that just ran, not for `b`
        simp only [Attempt.mk.injEq, Option.some.injEq] at hnew
        rcases hnew with ⟨rfl, -, -⟩
        change s.calls[m]? = some c' at hc'
        rw [hc, Option.some.injEq] at hc'
        subst hc'
        rcases hpc' with hcalling | ⟨res, hret⟩
        · rw [hpc] at hcalling
          simp only [ClerkPc.calling.injEq] at hcalling
          exact hba hcalling.symm
        · rw [hpc] at hret
          simp at hret
      · exact h.noKey m c' b d req' hc' hpc' hbOld hdOld

theorem Within.lose {s : Net} (h : Within s) {n : Nat} {c : ClerkCall} : Within (s.lose n c) where
  exec_before_ret := h.exec_before_ret
  noKey m d a b req hd hpc := by
    rcases getElem?_set_eq_some.mp hd with ⟨-, -, rfl⟩ | ⟨-, hold⟩
    · simp at hpc
    · exact h.noKey m d a b req hold hpc

theorem Within.resend {s : Net} (h : Within s) {n : Nat} {c : ClerkCall} :
    Within (s.resend n c) where
  exec_before_ret := h.exec_before_ret
  noKey m d a b req hd hpc hat hok := by
    have hatOld : s.attempts[a]? = some ⟨m, req, some (.put ⟨.errNoKey⟩)⟩ := by
      rcases getElem?_snoc_eq_some.mp hat with hold | ⟨-, hnew⟩
      · exact hold
      · simp at hnew
    have hokOld : s.attempts[b]? = some ⟨m, req, some (.put ⟨.ok⟩)⟩ := by
      rcases getElem?_snoc_eq_some.mp hok with hold | ⟨-, hnew⟩
      · exact hold
      · simp at hnew
    rcases getElem?_set_eq_some.mp hd with ⟨-, -, rfl⟩ | ⟨-, hold⟩
    · simp only [ClerkPc.calling.injEq, reduceCtorEq, exists_false, or_false] at hpc
      have hlt := lt_length_of_getElem? hatOld
      omega
    · exact h.noKey m d a b req hold hpc hatOld hokOld

theorem Within.deliver {s : Net} (h : Within s) {n a : Nat} {c : ClerkCall} {reply : Reply}
    (hc : s.calls[n]? = some c) (hpc : c.pc = .calling a) : Within (s.deliver n c a reply) where
  exec_before_ret m b d req₁ req₂ r res he hr := by
    have heOld := mem_of_mem_snoc he (by simp)
    rcases List.mem_append.mp hr with hold | hnew
    · exact (h.exec_before_ret m b d req₁ req₂ r res heOld hold).append _
    · rw [List.mem_singleton] at hnew
      rw [hnew]
      exact precedes_snoc heOld _
  noKey m d b e req hd hdpc hat := by
    rcases getElem?_set_eq_some.mp hd with ⟨rfl, -, rfl⟩ | ⟨-, hold⟩
    · simp only [reduceCtorEq, ClerkPc.returned.injEq, false_or] at hdpc
      rcases hdpc with ⟨res, rfl, -⟩
      exact h.noKey m c a e req hc (.inl hpc) hat
    · exact h.noKey m d b e req hold hdpc hat

theorem within_of_reaches {s : Net} (h : Reaches (restrict Net.step withinCall) Net.init s) :
    Within s := by
  refine h.invariant Within.init ?_
  intro u act v hu hs hwu
  have hi := inv_of_reaches hu.of_restrict
  rcases restrict_eq_some.mp hs with ⟨hguard, hstep⟩
  cases step_iff.mp hstep with
  | invoke clerk req => exact hwu.invoke hi clerk req
  | exec hat => exact hwu.exec hi hat hguard
  | lose hc hpc => exact hwu.lose
  | resend hc hpc => exact hwu.resend
  | deliver hc hpc hat => exact hwu.deliver hc hpc

end Net

/-! ## Linearization points -/

/-- The attempt whose reply call `n` returned with, and its result. -/
def resultOf (history : List Event) (n : Nat) : Option (Nat × Result) :=
  history.findSome? fun e =>
    match e with
    | .ret m a _ res => if m = n then some (a, res) else none
    | _ => none

/-- The operation that an event completes, if it is the linearization point of its call.  A pending
call has a point once it took effect, and is then completed with `OK`. -/
def point (history : List Event) : Event → Option (Op Nat KvInput KvOutput)
  | .exec n a req reply =>
      match resultOf history n with
      | none => if tookEffect (req, reply) then some ⟨n, kvInput req, kvOutput (.put .ok)⟩ else none
      | some (b, res) =>
          if tookEffect (req, reply) ∨ effects n history = [] ∧ b = a ∧ res ≠ .put .errNoKey then
            some ⟨n, kvInput req, kvOutput res⟩
          else none
  | _ => none

/-- The history of the Clerk calls, without the `Put`s that returned `ErrNoKey`. -/
def clerkHistory (history : List Event) : History Nat KvInput KvOutput where
  called n inp := ∃ req, .invoke n req ∈ history ∧ inp = kvInput req ∧
    ∀ a, .ret n a req (.put .errNoKey) ∉ history
  returned n out := ∃ a req res, .ret n a req res ∈ history ∧ out = kvOutput res
  before m n := ∃ a req res req', Precedes history (.ret m a req res) (.invoke n req')

section Points

variable {s : Net}

theorem ret_unique (hi : s.Inv) {n a b : Nat} {req req' : Request} {res res' : Result}
    (h : .ret n a req res ∈ s.history) (h' : .ret n b req' res' ∈ s.history) :
    a = b ∧ req = req' ∧ res = res' := by
  rcases (hi.ret_iff _ _ _ _).mp h with ⟨c, hc, rfl, hpc⟩
  rcases (hi.ret_iff _ _ _ _).mp h' with ⟨c', hc', rfl, hpc'⟩
  rw [hc, Option.some.injEq] at hc'
  subst hc'
  rw [hpc, ClerkPc.returned.injEq] at hpc'
  exact ⟨hpc'.1, rfl, hpc'.2⟩

theorem resultOf_eq_some (hi : s.Inv) {n a : Nat} {res : Result} :
    resultOf s.history n = some (a, res) ↔ ∃ req, .ret n a req res ∈ s.history := by
  have hsound : ∀ b res', resultOf s.history n = some (b, res') →
      ∃ req, .ret n b req res' ∈ s.history := by
    intro b res' hfind
    rcases List.exists_of_findSome?_eq_some hfind with ⟨e, he, hsome⟩
    cases e with
    | invoke m req => simp at hsome
    | exec m d req reply => simp at hsome
    | ret m d req res'' =>
        simp only [Option.ite_none_right_eq_some, Option.some.injEq, Prod.mk.injEq] at hsome
        rcases hsome with ⟨rfl, rfl, rfl⟩
        exact ⟨req, he⟩
  constructor
  · exact hsound a res
  · rintro ⟨req, hret⟩
    cases hfind : resultOf s.history n with
    | none =>
        have hnone := List.findSome?_eq_none_iff.mp hfind _ hret
        simp at hnone
    | some r =>
        rcases r with ⟨b, res'⟩
        rcases hsound b res' hfind with ⟨req', hret'⟩
        have hsame := ret_unique hi hret hret'
        rw [hsame.1, hsame.2.2]

/-- The delivered attempt, and how the Clerk turned its reply into the result. -/
theorem ret_reply (hi : s.Inv) {n a : Nat} {req : Request} {res : Result}
    (h : .ret n a req res ∈ s.history) :
    ∃ c reply, s.calls[n]? = some c ∧ .exec n a req reply ∈ s.history ∧
      c.pc = .returned a res ∧ res = clerkReturn c.retried reply := by
  rcases (hi.ret_iff _ _ _ _).mp h with ⟨c, hc, rfl, hpc⟩
  rcases hi.returned n c a res hc hpc with ⟨reply, hat, hres⟩
  exact ⟨c, reply, hc, (hi.exec_iff _ _ _ _).mpr hat, hpc, hres⟩

/-- A `Put` that took effect reports `OK` or `ErrMaybe`. -/
theorem effect_result (h : Reaches (restrict Net.step Net.withinCall) Net.init s)
    {n a b : Nat} {args : PutArgs} {req : Request} {res : Result}
    (heff : .exec n a (.put args) (.put ⟨.ok⟩) ∈ s.history) (hret : .ret n b req res ∈ s.history) :
    res = .put .ok ∨ res = .put .errMaybe := by
  have hi := Net.inv_of_reaches h.of_restrict
  rcases ret_reply hi hret with ⟨c, reply, hc, hexec, hpc, hres⟩
  have hreq := hi.exec_req heff hexec
  subst hreq
  rcases hi.served.reply _ (mem_execLog.mpr ⟨n, b, hexec⟩) with ⟨kv, hkv⟩
  simp only [KVServer.dispatch] at hkv
  subst hkv
  rw [hres]
  rcases put_err_cases kv args with hok | hver | hno
  · left
    simp [clerkReturn, clerkPut, hok]
  · by_cases hretried : c.retried = true
    · right
      simp [clerkReturn, clerkPut, hver, hretried]
    · -- refused on the first attempt: then the call had no other
      have hat := (hi.exec_iff _ _ _ _).mp heff
      have hat' := (hi.exec_iff _ _ _ _).mp hexec
      have hsame : a = b := hi.first n c a b _ _ hc (by simpa using hretried) hat hat' rfl rfl
      subst hsame
      rw [hat, Option.some.injEq, Attempt.mk.injEq, Option.some.injEq, Reply.put.injEq] at hat'
      rw [← hat'.2.2] at hver
      cases hver
  · have hreply : (kv.put args).2 = ⟨.errNoKey⟩ := by
      rw [← hno]
    rw [hreply] at hexec
    have hno' := (Net.within_of_reaches h).noKey n c b a (.put args) hc (.inr ⟨res, hpc⟩)
      ((hi.exec_iff _ _ _ _).mp hexec)
    exact absurd ((hi.exec_iff _ _ _ _).mp heff) hno'

/-- An event is a point exactly if it took effect or its reply was delivered to a call without
effect. -/
theorem point_eq_some (hi : s.Inv) {e : Event} {op : Op Nat KvInput KvOutput}
    (h : point s.history e = some op) :
    ∃ a req reply, e = .exec op.id a req reply ∧ op.input = kvInput req ∧
      ((tookEffect (req, reply) = true ∧ ((resultOf s.history op.id = none ∧
          op.output = kvOutput (.put .ok)) ∨
        ∃ b req' res, .ret op.id b req' res ∈ s.history ∧ op.output = kvOutput res)) ∨
      (effects op.id s.history = [] ∧ ∃ req' res, .ret op.id a req' res ∈ s.history ∧
        op.output = kvOutput res ∧ res ≠ .put .errNoKey)) := by
  cases e with
  | invoke n req => simp [point] at h
  | ret n a req res => simp [point] at h
  | exec n a req reply =>
      simp only [point] at h
      cases hres : resultOf s.history n with
      | none =>
          simp only [hres, Option.ite_none_right_eq_some, Option.some.injEq] at h
          rcases h with ⟨heff, rfl⟩
          exact ⟨a, req, reply, rfl, rfl, .inl ⟨heff, .inl ⟨hres, rfl⟩⟩⟩
      | some r =>
          rcases r with ⟨b, res⟩
          simp only [hres, Option.ite_none_right_eq_some, Option.some.injEq] at h
          rcases h with ⟨hcond, rfl⟩
          rcases (resultOf_eq_some hi).mp hres with ⟨req', hret⟩
          refine ⟨a, req, reply, rfl, rfl, ?_⟩
          rcases hcond with heff | ⟨hnone, rfl, hne⟩
          · exact .inl ⟨heff, .inr ⟨b, req', res, hret, rfl⟩⟩
          · exact .inr ⟨hnone, req', res, hret, rfl, hne⟩

/-! ## Replaying the points of one key -/

/-- The operations of one key, as `KvModel` gets them. -/
def perKey (key : GoString) (ops : List (Op Nat KvInput KvOutput)) : List (KvInput × KvOutput) :=
  (ops.filter fun op => op.input.key = key).map fun op => (op.input, op.output)

theorem perKey_append (key : GoString) (ops ops' : List (Op Nat KvInput KvOutput)) :
    perKey key (ops ++ ops') = perKey key ops ++ perKey key ops' := by
  unfold perKey
  rw [List.filter_append, List.map_append]

theorem dispatch_unchanged {kv : KVServer} {req : Request}
    (h : tookEffect (req, (kv.dispatch req).2) = false) : (kv.dispatch req).1 = kv := by
  cases req with
  | get args => rfl
  | put args =>
      simp only [tookEffect, KVServer.dispatch, decide_eq_false_iff_not] at h
      exact put_unchanged_of_ne_ok h

/-- A `Put` that took effect, with what its call may report. -/
theorem kvRun_put_ok {kv : KVServer} {args : PutArgs} {err : Err} (hok : (kv.put args).2.err = .ok)
    (herr : err = .ok ∨ err = .errMaybe) :
    kvRun (kv.kvState args.key) [(kvInput (.put args), kvOutput (.put err))] =
      some ((kv.put args).1.kvState args.key) := by
  have hversion := (put_err_eq_ok_iff kv args).mp hok
  rw [kvRun_put_match hversion.symm herr, put_store_of_ok hok]
  simp only [KVServer.kvState, view_store_self]

/-- A `Put` that was refused for its version. -/
theorem kvRun_put_errVersion {kv : KVServer} {args : PutArgs} (retried : Bool)
    (hver : (kv.put args).2.err = .errVersion) :
    kvRun (kv.kvState args.key)
        [(kvInput (.put args), kvOutput (clerkPut retried (kv.put args).2))] =
      some ((kv.put args).1.kvState args.key) := by
  have hnot : (kv.put args).2.err ≠ .ok := by
    rw [hver]
    decide
  have hmismatch : (kv.kvState args.key).version ≠ args.version :=
    fun heq ↦ hnot ((put_err_eq_ok_iff kv args).mpr heq.symm)
  have hresult : ∃ err, clerkPut retried (kv.put args).2 = .put err ∧
      (err = .errVersion ∨ err = .errMaybe) := by
    simp only [clerkPut, hver, true_and]
    cases retried
    · exact ⟨.errVersion, by simp, .inl rfl⟩
    · exact ⟨.errMaybe, by simp, .inr rfl⟩
  obtain ⟨err, hres, herr⟩ := hresult
  rw [hres, kvRun_put_mismatch hmismatch herr, put_unchanged_of_ne_ok hnot]

/-- A `Get`: the model only looks at the value, which is `""` where there is no key. -/
theorem kvRun_get_answer (kv : KVServer) (args : GetArgs) :
    kvRun (kv.kvState args.key) [(kvInput (.get args), kvOutput (clerkGet (kv.get args)))] =
      some (kv.kvState args.key) := by
  have hvalue : ∃ version err,
      clerkGet (kv.get args) = .get (kv.kvState args.key).value version err := by
    unfold clerkGet
    obtain hok | ⟨hno, hview⟩ := get_err_cases kv args
    · rw [if_neg (by simp [hok])]
      exact ⟨_, _, by rw [get_value]; rfl⟩
    · rw [if_pos (by simp [hno])]
      exact ⟨_, _, by rw [KVServer.kvState, hview]⟩
  obtain ⟨version, err, hvalue⟩ := hvalue
  rw [hvalue]
  exact kvRun_get

/-- An executed request moves the model as it moves the server: the step of an event that is a
point is accepted, and an event that is none changes nothing. -/
theorem kvRun_point (h : Reaches (restrict Net.step Net.withinCall) Net.init s)
    {kv : KVServer} {n a : Nat} {req : Request}
    (he : .exec n a req (kv.dispatch req).2 ∈ s.history) :
    kvRun (kv.kvState req.key)
        (perKey req.key (point s.history (.exec n a req (kv.dispatch req).2)).toList) =
      some ((kv.dispatch req).1.kvState req.key) := by
  have hi := Net.inv_of_reaches h.of_restrict
  cases hp : point s.history (.exec n a req (kv.dispatch req).2) with
  | none =>
      have hno : tookEffect (req, (kv.dispatch req).2) = false := by
        by_contra hyes
        rw [Bool.not_eq_false] at hyes
        simp only [point, hyes, if_true, true_or] at hp
        split at hp <;> simp at hp
      rw [dispatch_unchanged hno]
      rfl
  | some op =>
      obtain ⟨a', req', reply', heq, hinp, hcase⟩ := point_eq_some hi hp
      simp only [Event.exec.injEq] at heq
      obtain ⟨rfl, rfl, rfl, rfl⟩ := heq
      have hone : perKey req.key [op] = [(kvInput req, op.output)] := by
        simp [perKey, hinp, kvInput_key]
      rw [Option.toList_some, hone]
      obtain ⟨heff, hout⟩ | ⟨hnone, req', res, hret, hout, hne⟩ := hcase
      · -- an effect: the version matched, and the call reports `OK` or `ErrMaybe`
        cases req with
        | get args => simp [tookEffect] at heff
        | put args =>
            simp only [tookEffect, KVServer.dispatch, decide_eq_true_eq] at heff
            have hreply : (kv.put args).2 = ⟨.ok⟩ := by rw [← heff]
            obtain ⟨-, hout⟩ | ⟨b, req', res, hret, hout⟩ := hout
            · rw [hout]
              exact kvRun_put_ok heff (.inl rfl)
            · simp only [KVServer.dispatch, hreply] at he
              rw [hout]
              obtain rfl | rfl := effect_result h he hret
              · exact kvRun_put_ok heff (.inl rfl)
              · exact kvRun_put_ok heff (.inr rfl)
      · -- no attempt of the call took effect, and this is the reply it returned with
        obtain ⟨c, reply, hc, hexec, -, hres⟩ := ret_reply hi hret
        have hsame := (hi.exec_iff _ _ _ _).mp hexec
        rw [(hi.exec_iff _ _ _ _).mp he, Option.some.injEq, Attempt.mk.injEq] at hsame
        simp only [Option.some.injEq, true_and] at hsame
        rw [← hsame.2] at hres
        cases req with
        | get args =>
            rw [hout, hres]
            exact kvRun_get_answer kv args
        | put args =>
            rw [hout, hres]
            refine kvRun_put_errVersion c.retried ?_
            obtain hok | hver | hno := put_err_cases kv args
            · have hreply : (kv.put args).2 = ⟨.ok⟩ := by rw [← hok]
              simp only [KVServer.dispatch, hreply] at he
              have hmem := mem_effects.mpr ⟨a, args, rfl, he⟩
              rw [hnone] at hmem
              cases hmem
            · exact hver
            · rw [hres] at hne
              simp [KVServer.dispatch, clerkReturn, clerkPut, hno] at hne

/-- Replaying the points of a key up to some moment leaves `KvModel` in the state of the server. -/
theorem kvRun_points (h : Reaches (restrict Net.step Net.withinCall) Net.init s)
    (key : GoString) (past : List Event) (hpast : ∀ e ∈ past, e ∈ s.history) (kv : KVServer)
    (hkv : Served (execLog past) kv) :
    kvRun kvInit (perKey key (past.filterMap (point s.history))) = some (kv.kvState key) := by
  -- along the history, with the server that the executions so far have left
  induction past using List.reverseRecOn generalizing kv with
  | nil =>
      have hinit : makeKVServer = kv := congrArg Prod.fst hkv
      rw [← hinit]
      rfl
  | append_singleton past e ih =>
      have hpast' : ∀ f ∈ past, f ∈ s.history := fun f hf ↦ hpast f (List.mem_append_left _ hf)
      have he : e ∈ s.history := hpast e (List.mem_append_right _ List.mem_cons_self)
      rw [List.filterMap_append, perKey_append, kvRun_append]
      cases e with
      | invoke n req =>
          rw [execLog_snoc_invoke] at hkv
          rw [ih hpast' kv hkv]
          rfl
      | ret n a req res =>
          rw [execLog_snoc_ret] at hkv
          rw [ih hpast' kv hkv]
          rfl
      | exec n a req reply =>
          rw [execLog_snoc_exec] at hkv
          obtain ⟨kv', hpre, hreply, rfl⟩ := hkv.last
          simp only at hreply
          subst hreply
          rw [ih hpast' kv' hpre, Option.bind_some]
          have htoList : List.filterMap (point s.history) [.exec n a req (kv'.dispatch req).2] =
              (point s.history (.exec n a req (kv'.dispatch req).2)).toList := by
            cases hp : point s.history (.exec n a req (kv'.dispatch req).2) <;> simp [hp]
          rw [htoList]
          by_cases hkey : req.key = key
          · subst hkey
            exact kvRun_point h he
          · rw [kvState_dispatch_ne hkey]
            -- an operation on another key is not in this partition
            have hempty : perKey key
                (point s.history (.exec n a req (kv'.dispatch req).2)).toList = [] := by
              cases hp : point s.history (.exec n a req (kv'.dispatch req).2) with
              | none => rfl
              | some op =>
                  rcases point_eq_some (Net.inv_of_reaches h.of_restrict) hp with
                    ⟨a', req', reply', heq, hinp, -⟩
                  simp only [Event.exec.injEq] at heq
                  simp [perKey, hinp, ← heq.2.2.1, kvInput_key, hkey]
            rw [hempty]
            rfl

theorem mem_effects_of_tookEffect {n a : Nat} {req : Request} {reply : Reply}
    (he : .exec n a req reply ∈ s.history) (heff : tookEffect (req, reply) = true) :
    Event.exec n a req reply ∈ effects n s.history :=
  List.mem_filter.mpr ⟨he, by simp [heff]⟩

theorem invoke_unique (hi : s.Inv) {n : Nat} {req req' : Request}
    (h : .invoke n req ∈ s.history) (h' : .invoke n req' ∈ s.history) : req = req' := by
  obtain ⟨c, hc, rfl⟩ := (hi.invoke_iff _ _).mp h
  obtain ⟨c', hc', rfl⟩ := (hi.invoke_iff _ _).mp h'
  rw [hc, Option.some.injEq] at hc'
  rw [hc']

/-- A call has one point. -/
theorem point_unique (hi : s.Inv) (hb : ∀ key, (wins key (execLog s.history)).length < 2 ^ 64)
    {x y : Event} {p q : Op Nat KvInput KvOutput} (hx : x ∈ s.history) (hy : y ∈ s.history)
    (hp : point s.history x = some p) (hq : point s.history y = some q) (hid : p.id = q.id) :
    x = y := by
  obtain ⟨a, req, reply, rfl, -, hcase⟩ := point_eq_some hi hp
  obtain ⟨b, req', reply', rfl, -, hcase'⟩ := point_eq_some hi hq
  have hlen := hi.effects_length hb p.id
  rw [← hid] at hy hcase' ⊢
  -- both are the effect, or both are the attempt the call returned with; the mixed cases say that
  -- the call has an effect and that it has none
  obtain ⟨heff, -⟩ | ⟨hnone, req₁, res₁, hret₁, -⟩ := hcase <;>
    obtain ⟨heff', -⟩ | ⟨hnone', req₂, res₂, hret₂, -⟩ := hcase'
  · exact eq_of_mem_of_length_le_one hlen (mem_effects_of_tookEffect hx heff)
      (mem_effects_of_tookEffect hy heff')
  · have hmem := mem_effects_of_tookEffect hx heff
    rw [hnone'] at hmem
    cases hmem
  · have hmem := mem_effects_of_tookEffect hy heff'
    rw [hnone] at hmem
    cases hmem
  · have hsame := ret_unique hi hret₁ hret₂
    have hx' := (hi.exec_iff _ _ _ _).mp hx
    rw [hsame.1, (hi.exec_iff _ _ _ _).mp hy] at hx'
    simp only [Option.some.injEq, Attempt.mk.injEq, true_and] at hx'
    rw [hsame.1, hx'.1, hx'.2]

/-- A point belongs to a call that was made and not removed. -/
theorem point_called (h : Reaches (restrict Net.step Net.withinCall) Net.init s)
    {x : Event} {p : Op Nat KvInput KvOutput} (hx : x ∈ s.history)
    (hp : point s.history x = some p) : (clerkHistory s.history).called p.id p.input := by
  have hi := Net.inv_of_reaches h.of_restrict
  obtain ⟨a, req, reply, rfl, hinp, hcase⟩ := point_eq_some hi hp
  refine ⟨req, (hi.invoke_before_exec _ _ _ _ hx).left, hinp, ?_⟩
  intro b hno
  obtain ⟨heff, -⟩ | ⟨-, req', res, hret, -, hne⟩ := hcase
  · obtain ⟨a', args, heq, -⟩ := mem_effects.mp (mem_effects_of_tookEffect hx heff)
    rw [heq] at hx
    obtain hres | hres := effect_result h hx hno <;> cases hres
  · exact hne (ret_unique hi hret hno).2.2

/-- A point carries the result of its call. -/
theorem point_returned (hi : s.Inv) {x : Event} {p : Op Nat KvInput KvOutput} {out : KvOutput}
    (hp : point s.history x = some p) (hout : (clerkHistory s.history).returned p.id out) :
    out = p.output := by
  obtain ⟨b, req', res, hret, rfl⟩ := hout
  obtain ⟨a, req, reply, rfl, hinp, hcase⟩ := point_eq_some hi hp
  obtain ⟨-, ⟨hnone, -⟩ | ⟨d, req'', res', hret', hout⟩⟩ |
    ⟨-, req'', res', hret', hout, -⟩ := hcase
  · -- the call has returned, so its result is known
    rw [(resultOf_eq_some hi).mpr ⟨req', hret⟩] at hnone
    cases hnone
  · rw [hout, (ret_unique hi hret hret').2.2]
  · rw [hout, (ret_unique hi hret hret').2.2]

/-- A completed call has a point: its effect, or else the attempt it returned with. -/
theorem exists_point (hi : s.Inv) {n : Nat} {inp : KvInput} {out : KvOutput}
    (hcalled : (clerkHistory s.history).called n inp)
    (hout : (clerkHistory s.history).returned n out) :
    ∃ x ∈ s.history, point s.history x = some ⟨n, inp, out⟩ := by
  obtain ⟨req, hinv, rfl, hkept⟩ := hcalled
  obtain ⟨a, req', res, hret, rfl⟩ := hout
  have hresult := (resultOf_eq_some hi).mpr ⟨req', hret⟩
  obtain ⟨c, reply, -, hexec, -, -⟩ := ret_reply hi hret
  have hreq : req = req' := invoke_unique hi hinv (hi.invoke_before_exec _ _ _ _ hexec).left
  subst hreq
  cases heff : effects n s.history with
  | nil =>
      have hne : res ≠ .put .errNoKey := by
        intro hres
        exact hkept a (hres ▸ hret)
      refine ⟨_, hexec, ?_⟩
      simp [point, hresult, heff, hne]
  | cons e es =>
      have hmem : e ∈ effects n s.history := by
        rw [heff]
        exact List.mem_cons_self
      obtain ⟨b, args, rfl, he⟩ := mem_effects.mp hmem
      have hsame := hi.exec_req he hexec
      refine ⟨_, he, ?_⟩
      simp [point, hresult, tookEffect, hsame]

/-- The points lie between the invocations and the returns of their calls, so they keep the order
of calls of which one had returned before the other began. -/
theorem point_precedes (h : Reaches (restrict Net.step Net.withinCall) Net.init s)
    {x y : Event} {p q : Op Nat KvInput KvOutput} (hx : x ∈ s.history) (hy : y ∈ s.history)
    (hp : point s.history x = some p) (hq : point s.history y = some q)
    (hbefore : (clerkHistory s.history).before p.id q.id) : Precedes s.history x y := by
  have hi := Net.inv_of_reaches h.of_restrict
  have hw := Net.within_of_reaches h
  obtain ⟨a, req, res, req', hbefore⟩ := hbefore
  obtain ⟨b, req₁, reply₁, rfl, -, -⟩ := point_eq_some hi hp
  obtain ⟨d, req₂, reply₂, rfl, -, -⟩ := point_eq_some hi hq
  have hlast := hw.exec_before_ret _ _ _ _ _ _ _ hx hbefore.left
  have hfirst := hi.invoke_before_exec _ _ _ _ hy
  rw [invoke_unique hi hbefore.right hfirst.left] at hbefore
  exact (hlast.trans hi.nodup hbefore).trans hi.nodup hfirst

end Points

/-- The key/value service is linearizable over a network that loses requests and replies. -/
theorem clerk_linearizable {s : Net} (h : Reaches (restrict Net.step Net.withinCall) Net.init s)
    (hb : ∀ key, (wins key (execLog s.history)).length < 2 ^ 64) :
    ∃ ops, Linearization (clerkHistory s.history) ops ∧
      ∀ key, (kvRun kvInit (perKey key ops)).isSome := by
  have hi := Net.inv_of_reaches h.of_restrict
  refine ⟨s.history.filterMap (point s.history), ?_, ?_⟩
  · apply linearization_of_points hi.nodup
    · intro x hx y hy p q hp hq hid
      exact point_unique hi hb hx hy hp hq hid
    · intro x hx p hp
      exact point_called h hx hp
    · intro x _ p out hp hout
      exact point_returned hi hp hout
    · intro n inp out hcalled hout
      exact exists_point hi hcalled hout
    · intro x hx y hy p q hp hq hbefore
      exact point_precedes h hx hy hp hq hbefore
  · -- the whole history, replayed, leads the model to where the server is
    intro key
    rw [kvRun_points h key s.history (fun e he ↦ he) s.server hi.served]
    rfl

/-- Two Clerks race on one version: the first loses the reply of its effective attempt and ends
with `ErrMaybe`, the second reads in between and is refused. -/
def raceOnVersion : List Action :=
  [.invoke 0 (.put ⟨lit "k", lit "v", 0⟩), .invoke 1 (.put ⟨lit "k", lit "w", 0⟩), .exec 0, .lose 0,
   .exec 1, .deliver 1, .invoke 1 (.get ⟨lit "k"⟩), .exec 2, .resend 0, .exec 3, .deliver 0,
   .deliver 2]

theorem clerk_linearizable_race :
    ∃ s, run (restrict Net.step Net.withinCall) Net.init raceOnVersion = some s ∧
      ∃ ops, Linearization (clerkHistory s.history) ops ∧
        ∀ key, (kvRun kvInit (perKey key ops)).isSome := by
  refine ⟨_, rfl, clerk_linearizable (reaches_of_run (l := raceOnVersion) rfl) ?_⟩
  intro key
  exact lt_of_le_of_lt (wins_length_le key _) (by decide)

end GoLabs.KvSrv
