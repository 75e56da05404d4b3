import GoLabs.KvSrv.PutResults

/-!
# A Clerk call as its caller sees it

A program that uses Clerks only depends on a few facts about a call: its request, its result once
it has returned, and which of its attempts the server has executed.  Each network action changes
them in one way, stated once here.
-/

open GoLabs.Reasoning

namespace GoLabs.KvSrv

namespace Net

def req (s : Net) (n : Nat) : Option Request := (s.calls[n]?).map ClerkCall.req

/-- The result of a call that has returned. -/
def result (s : Net) (n : Nat) : Option Result :=
  match s.calls[n]? with
  | some c =>
      match c.pc with
      | .returned _ res => some res
      | _ => none
  | none => none

/-- The server has answered an attempt of call `n` with `reply`. -/
def Answered (s : Net) (n : Nat) (reply : Reply) : Prop :=
  ∃ (a : Nat) (req : Request), s.attempts[a]? = some ⟨n, req, some reply⟩

/-- An attempt of call `n` took effect. -/
def Took (s : Net) (n : Nat) : Prop := s.Answered n (.put ⟨.ok⟩)

variable {s : Net} {n m a : Nat} {c : ClerkCall} {r : Request} {reply reply' : Reply}

theorem result_eq_some {res : Result} :
    s.result n = some res ↔ ∃ c a, s.calls[n]? = some c ∧ c.pc = .returned a res := by
  unfold result
  cases hc : s.calls[n]? with
  | none => simp
  | some c =>
      cases hpc : c.pc <;> simp [hpc]

theorem req_eq_some : s.req n = some r ↔ ∃ c, s.calls[n]? = some c ∧ c.req = r := by
  unfold req
  rw [Option.map_eq_some_iff]

theorem lt_of_req (h : s.req n = some r) : n < s.calls.length := by
  rcases req_eq_some.mp h with ⟨c, hc, -⟩
  exact lt_length_of_getElem? hc

/-! ## What each action does -/

theorem req_invoke {clerk : Nat} :
    (s.invoke clerk r).req n = if n = s.calls.length then some r else s.req n := by
  unfold req invoke
  rcases Nat.lt_trichotomy n s.calls.length with hlt | heq | hgt
  · rw [List.getElem?_append_left hlt, if_neg (by omega)]
  · subst heq
    simp
  · rw [if_neg (by omega), List.getElem?_eq_none_iff.mpr (by simp; omega),
      List.getElem?_eq_none_iff.mpr (by omega)]

theorem result_invoke {clerk : Nat} : (s.invoke clerk r).result n = s.result n := by
  unfold result invoke
  rcases Nat.lt_trichotomy n s.calls.length with hlt | heq | hgt
  · rw [List.getElem?_append_left hlt]
  · subst heq
    simp
  · rw [List.getElem?_eq_none_iff.mpr (by simp; omega), List.getElem?_eq_none_iff.mpr (by omega)]

theorem answered_invoke {clerk : Nat} :
    (s.invoke clerk r).Answered n reply ↔ s.Answered n reply := by
  unfold Answered invoke
  simp [getElem?_snoc_eq_some]

theorem answered_exec (hat : s.attempts[a]? = some ⟨m, r, none⟩) :
    (s.exec a m r).Answered n reply ↔
      s.Answered n reply ∨ n = m ∧ reply = (s.server.dispatch r).2 := by
  unfold Answered exec
  simp only [getElem?_set_eq_some, Attempt.mk.injEq, Option.some.injEq]
  constructor
  · rintro ⟨b, req, ⟨-, -, rfl, -, rfl⟩ | ⟨-, hold⟩⟩
    · exact .inr ⟨rfl, rfl⟩
    · exact .inl ⟨b, req, hold⟩
  · rintro (⟨b, req, hold⟩ | ⟨rfl, rfl⟩)
    · have hne : b ≠ a := by
        rintro rfl
        rw [hat] at hold
        simp at hold
      exact ⟨b, req, .inr ⟨hne, hold⟩⟩
    · exact ⟨a, r, .inl ⟨rfl, lt_length_of_getElem? hat, rfl, rfl, rfl⟩⟩

theorem req_set {calls : List ClerkCall} {c' : ClerkCall} (hc : calls[m]? = some c)
    (hreq : c'.req = c.req) :
    ((calls.set m c')[n]?).map ClerkCall.req = (calls[n]?).map ClerkCall.req := by
  rw [List.getElem?_set]
  by_cases hmn : m = n
  · subst hmn
    rw [if_pos rfl, if_pos (lt_length_of_getElem? hc), hc]
    simp [hreq]
  · rw [if_neg hmn]

theorem req_lose (hc : s.calls[m]? = some c) : (s.lose m c).req n = s.req n := req_set hc (by rfl)

theorem req_resend (hc : s.calls[m]? = some c) : (s.resend m c).req n = s.req n :=
  req_set hc (by rfl)

theorem req_deliver (hc : s.calls[m]? = some c) : (s.deliver m c a reply).req n = s.req n :=
  req_set hc (by rfl)

theorem result_lose (hc : s.calls[m]? = some c) (hpc : c.pc = .calling a) :
    (s.lose m c).result n = s.result n := by
  unfold result lose
  simp only [List.getElem?_set]
  by_cases hmn : m = n
  · subst hmn
    rw [if_pos rfl, if_pos (lt_length_of_getElem? hc), hc]
    simp only [hpc]
  · rw [if_neg hmn]

theorem result_resend (hc : s.calls[m]? = some c) (hpc : c.pc = .sleeping) :
    (s.resend m c).result n = s.result n := by
  unfold result resend
  simp only [List.getElem?_set]
  by_cases hmn : m = n
  · subst hmn
    rw [if_pos rfl, if_pos (lt_length_of_getElem? hc), hc]
    simp only [hpc]
  · rw [if_neg hmn]

theorem answered_resend : (s.resend m c).Answered n reply ↔ s.Answered n reply := by
  unfold Answered resend
  simp [getElem?_snoc_eq_some]

theorem result_deliver (hc : s.calls[m]? = some c) :
    (s.deliver m c a reply).result n =
      if n = m then some (clerkReturn c.retried reply) else s.result n := by
  unfold result deliver
  simp only [List.getElem?_set]
  by_cases hmn : m = n
  · subst hmn
    simp [lt_length_of_getElem? hc]
  · simp [hmn, Ne.symm hmn]

/-! ## What every action keeps -/

variable {t : Net} {act : Action}

theorem req_of_step (hs : s.step act = some t) (h : s.req n = some r) : t.req n = some r := by
  cases step_iff.mp hs with
  | invoke clerk r' =>
      have hlt := lt_of_req h
      rw [req_invoke, if_neg (by omega), h]
  | exec hat => exact h
  | lose hc hpc => rw [req_lose hc, h]
  | resend hc hpc => rw [req_resend hc, h]
  | deliver hc hpc hat => rw [req_deliver hc, h]

theorem req_before_step (hs : s.step act = some t) (h : t.req n = some r) :
    s.req n = some r ∨ n = s.calls.length ∧ ∃ clerk, act = .invoke clerk r := by
  cases step_iff.mp hs with
  | invoke clerk r' =>
      rw [req_invoke] at h
      split at h
      · rename_i hn
        rw [Option.some.injEq] at h
        exact .inr ⟨hn, clerk, by rw [h]⟩
      · exact .inl h
  | exec hat => exact .inl h
  | lose hc hpc => rw [req_lose hc] at h; exact .inl h
  | resend hc hpc => rw [req_resend hc] at h; exact .inl h
  | deliver hc hpc hat => rw [req_deliver hc] at h; exact .inl h

theorem result_of_step {res : Result} (hs : s.step act = some t) (h : s.result n = some res) :
    t.result n = some res := by
  cases step_iff.mp hs with
  | invoke clerk r' => rw [result_invoke, h]
  | exec hat => exact h
  | lose hc hpc => rw [result_lose hc hpc, h]
  | resend hc hpc => rw [result_resend hc hpc, h]
  | @deliver m a m' c r' reply hc hpc hat =>
      -- a call that has returned does not wait for a reply
      have hne : n ≠ m := by
        rintro rfl
        rcases result_eq_some.mp h with ⟨c', a', hc', hpc'⟩
        rw [hc, Option.some.injEq] at hc'
        rw [← hc', hpc] at hpc'
        simp at hpc'
      rw [result_deliver hc, if_neg hne, h]

/-! ## What a result says -/

theorem Inv.answered_req (h : Inv s) (hans : s.Answered n reply) : ∃ r, s.req n = some r := by
  rcases hans with ⟨a, req, hat⟩
  rcases h.attempt_call a _ hat with ⟨c, hc, -⟩
  exact ⟨c.req, req_eq_some.mpr ⟨c, hc, rfl⟩⟩

/-- No attempt of a call that is yet to be made has been answered. -/
theorem Inv.not_answered_next (h : Inv s) (reply : Reply) : ¬ s.Answered s.calls.length reply := by
  intro ha
  rcases h.answered_req ha with ⟨r, hr⟩
  have hlt := lt_of_req hr
  omega

theorem Inv.req_of_attempt (h : Inv s) {o : Option Reply} (hat : s.attempts[a]? = some ⟨m, r, o⟩) :
    s.req m = some r := by
  rcases h.attempt_call a _ hat with ⟨c, hc, hreq⟩
  exact req_eq_some.mpr ⟨c, hc, hreq⟩

/-- A result is the delivered reply as the Clerk presents it. -/
theorem Inv.answered_of_result (h : Inv s) {res : Result} (hres : s.result n = some res) :
    ∃ reply retried, s.Answered n reply ∧ res = clerkReturn retried reply := by
  rcases result_eq_some.mp hres with ⟨c, a, hc, hpc⟩
  rcases h.returned n c a res hc hpc with ⟨reply, hat, heq⟩
  exact ⟨reply, c.retried, ⟨a, c.req, hat⟩, heq⟩

theorem Inv.took_of_ok (h : Inv s) (hres : s.result n = some (.put .ok)) : s.Took n := by
  rcases h.answered_of_result hres with ⟨reply, retried, hans, heq⟩
  rw [clerkReturn_eq_ok heq.symm] at hans
  exact hans

/-- A `Put` refused on its first attempt has no effect to come either: it has no other attempt. -/
theorem Inv.not_took_of_errVersion (h : Inv s) (hres : s.result n = some (.put .errVersion)) :
    ¬ s.Took n := by
  rintro ⟨b, req, hok⟩
  rcases result_eq_some.mp hres with ⟨c, a, hc, hpc⟩
  rcases h.returned n c a _ hc hpc with ⟨reply, hat, heq⟩
  rcases clerkReturn_eq_errVersion heq.symm with ⟨hretried, rfl⟩
  have hab : a = b := h.first n c a b _ _ hc hretried hat hok rfl rfl
  subst hab
  rw [hat] at hok
  simp at hok

theorem Inv.answered_of_get (h : Inv s) {value : GoString} {version : Tversion}
    (hres : s.result n = some (.get value version .ok)) :
    s.Answered n (.get ⟨value, version, .ok⟩) := by
  rcases h.answered_of_result hres with ⟨reply, retried, hans, heq⟩
  cases reply with
  | put r =>
      simp only [clerkReturn, clerkPut] at heq
      split at heq <;> simp at heq
  | get r =>
      rcases r with ⟨v, w, err⟩
      simp only [clerkReturn, clerkGet] at heq
      split at heq
      · rename_i hne
        simp only [Result.get.injEq] at heq
        exact absurd heq.2.2.symm hne
      · rename_i hok
        simp only [ne_eq, not_not] at hok
        simp only [Result.get.injEq, and_true] at heq
        rw [heq.1, heq.2]
        rw [← hok]
        exact hans

/-! ## What a handler does to one key -/

theorem server_exec_write {key : GoString} {args : PutArgs} (hkey : args.key = key)
    (hok : (s.server.put args).2.err = .ok) :
    (s.exec a m (.put args)).server.m key = some ⟨args.value, args.version + 1⟩ := by
  change (s.server.put args).1.m key = _
  rw [put_store_of_ok hok, ← (put_err_eq_ok_iff s.server args).mp hok, ← hkey]
  exact Function.update_self _ _ _

theorem server_exec_other {key : GoString}
    (hother : ∀ args, r = .put args → args.key = key → (s.server.put args).2.err ≠ .ok) :
    (s.exec a m r).server.m key = s.server.m key := by
  change (s.server.dispatch r).1.m key = _
  cases r with
  | get args => rfl
  | put args =>
      change (s.server.put args).1.m key = _
      by_cases hok : (s.server.put args).2.err = .ok
      · have hkey : key ≠ args.key := fun heq ↦ hother args rfl heq.symm hok
        rw [put_store_of_ok hok]
        exact Function.update_of_ne hkey _ _
      · rw [put_unchanged_of_ne_ok hok]

theorem took_exec_write {args : PutArgs} (hat : s.attempts[a]? = some ⟨m, .put args, none⟩)
    (hok : (s.server.put args).2.err = .ok) (n : Nat) :
    (s.exec a m (.put args)).Took n ↔ s.Took n ∨ n = m := by
  unfold Took
  rw [answered_exec hat]
  have hreply : Reply.put ⟨.ok⟩ = (s.server.dispatch (.put args)).2 := by
    simp only [KVServer.dispatch, Reply.put.injEq]
    rw [← hok]
  simp [hreply]

theorem got_exec_put {args : PutArgs} (hat : s.attempts[a]? = some ⟨m, .put args, none⟩)
    {g : GetReply} : (s.exec a m (.put args)).Answered n (.get g) ↔ s.Answered n (.get g) := by
  rw [answered_exec hat]
  simp [KVServer.dispatch]

/-! ## The writes of one key -/

/-- The number of `Put`s on a key that have taken effect. -/
def writes (s : Net) (key : GoString) : Nat := (wins key (execLog s.history)).length

theorem Inv.version_toNat (h : Inv s) {key : GoString} (hb : s.writes key < 2 ^ 64) :
    (s.server.view key).version.toNat = s.writes key := by
  rw [(served_wins key h.served).2, UInt64.toNat_ofNat']
  exact Nat.mod_eq_of_lt hb

/-- Below `2 ^ 64` writes a `Put` takes effect exactly when it carries their number. -/
theorem Inv.put_ok_iff (h : Inv s) {args : PutArgs} (hb : s.writes args.key < 2 ^ 64) :
    (s.server.put args).2.err = .ok ↔ args.version.toNat = s.writes args.key := by
  rw [put_err_eq_ok_iff, ← h.version_toNat hb]
  exact UInt64.toNat_inj.symm

theorem Inv.writes_of_some (h : Inv s) {key : GoString} (hb : s.writes key < 2 ^ 64)
    {v : StoredValue} (hv : s.server.m key = some v) :
    v.version.toNat = s.writes key ∧ 0 < s.writes key := by
  have hview : s.server.view key = v := by rw [KVServer.view, hv]; rfl
  refine ⟨by rw [← hview]; exact h.version_toNat hb, ?_⟩
  have hnone := (h.served.eq_none_iff key)
  rw [hv] at hnone
  simp only [reduceCtorEq, false_iff] at hnone
  exact Nat.pos_of_ne_zero hnone

theorem writes_exec {key : GoString} :
    (s.exec a m r).writes key =
      s.writes key + (wins key [(r, (s.server.dispatch r).2)]).length := by
  unfold writes
  rw [← List.length_append, ← wins_append]
  change (wins key (execLog (s.history ++ [_]))).length = _
  rw [execLog_append]
  rfl

/-- The actions of the network other than running a handler. -/
def quiet : Action → Bool
  | .exec _ => false
  | _ => true

theorem quiet_step (hs : s.step act = some t) (hq : quiet act = true) :
    t.server = s.server ∧ (∀ key, t.writes key = s.writes key) ∧
      ∀ n reply, t.Answered n reply ↔ s.Answered n reply := by
  have hlog : ∀ e : Event, execLog [e] = [] → ∀ key,
      (wins key (execLog (s.history ++ [e]))).length = (wins key (execLog s.history)).length := by
    intro e he key
    rw [execLog_append, he, List.append_nil]
  cases step_iff.mp hs with
  | invoke clerk r' =>
      exact ⟨rfl, hlog _ rfl, fun n reply ↦ answered_invoke⟩
  | exec hat => simp [quiet] at hq
  | lose hc hpc => exact ⟨rfl, fun _ ↦ rfl, fun n reply ↦ Iff.rfl⟩
  | resend hc hpc => exact ⟨rfl, fun _ ↦ rfl, fun n reply ↦ answered_resend⟩
  | deliver hc hpc hat => exact ⟨rfl, hlog _ rfl, fun n reply ↦ Iff.rfl⟩

/-- The number of writes never goes back. -/
theorem writes_le_of_step (hs : s.step act = some t) (key : GoString) :
    s.writes key ≤ t.writes key := by
  cases hact : act with
  | exec a =>
      subst hact
      cases step_iff.mp hs with
      | exec hat =>
          rw [writes_exec]
          omega
  | _ =>
      have hq := quiet_step hs (by rw [hact]; rfl)
      rw [hq.2.1]

end Net

end GoLabs.KvSrv
