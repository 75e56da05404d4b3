import GoLabs.KvTest.LockClients

/-!
# The data under the lock

What a client of the lock test may rely on under `"l0"`, as long as no more than one client is
inside: its own `Get` and `Put`s are then the only ones that matter, and the key is empty whenever
nobody's number is there.
-/

open GoLabs.Reasoning GoLabs.KvSrv

namespace GoLabs.KvTest

/-- Nobody's number is under the key. -/
def Clean (v : View) : Prop := ∀ x, v.server.m dataKey = some x → x.value = []

/-- What a client relies on where it stands, if no other client is inside. -/
def DataStands (v : View) (p : Proc LockClient) : Prop :=
  match p.st.pc with
  | .start | .making | .create => True
  | .top | .acquiring | .unlock | .releasing | .returned _ => 0 < v.writes dataKey
  | .get => 0 < v.writes dataKey ∧ Clean v ∧ ∀ g, v.answered p.call (.get g) →
      g.err = .ok ∧ g.value = [] ∧ g.version.toNat = v.writes dataKey
  | .put ver => 0 < v.writes dataKey ∧ (v.Took p.call → v.writes dataKey = ver.toNat + 1) ∧
      (¬ v.Took p.call → v.writes dataKey = ver.toNat ∧ Clean v)
  | .sleep ver => v.writes dataKey = ver.toNat + 1
  | .clear ver => (v.Took p.call → v.writes dataKey = ver.toNat + 2 ∧ Clean v) ∧
      (¬ v.Took p.call → v.writes dataKey = ver.toNat + 1)
  | .fatal _ => False

/-- The number of this client is under the key. -/
def Dirty (v : View) (p : Proc LockClient) : Prop :=
  match p.st.pc with
  | .put _ => v.Took p.call
  | .sleep _ => True
  | .clear _ => ¬ v.Took p.call
  | _ => False

structure DataInv (s : Sys LockClient) : Prop where
  careful : Sys.Careful LockClient.program [dataKey] s
  stands : ∀ (c : Nat) (p : Proc LockClient), s.procs[c]? = some p → DataStands s.net.view p
  clean : (∀ (c : Nat) (p : Proc LockClient), s.procs[c]? = some p → ¬ Dirty s.net.view p) →
    Clean s.net.view

section Data

variable {s : Sys LockClient} {c n : Nat} {p : Proc LockClient} {st : LockClient} {v : View}
  {ver : Tversion}

theorem dataKey_mem : dataKey ∈ [dataKey] := List.mem_singleton.mpr rfl

theorem lockClient_get (hpc : st.pc = .get) :
    LockClient.program.request st = some (.get ⟨dataKey⟩) := by
  simp only [LockClient.program, LockClient.request, hpc]

theorem lockClient_put (hpc : st.pc = .put ver) :
    LockClient.program.request st = some (.put ⟨dataKey, dec st.me, ver⟩) := by
  simp only [LockClient.program, LockClient.request, hpc]

theorem lockClient_clear (hpc : st.pc = .clear ver) :
    LockClient.program.request st = some (.put ⟨dataKey, [], ver + 1⟩) := by
  simp only [LockClient.program, LockClient.request, hpc]

theorem Dirty.inside (h : Dirty v p) : p.st.pc.inside = true := by
  cases hpc : p.st.pc <;> simp_all [Dirty, LockPoint.inside]

/-- The `Put` of a client that is inside has taken effect when it has returned. -/
theorem DataInv.put_took (h : DataInv s) (hp : s.procs[c]? = some p) (hpc : p.st.pc = .put ver)
    {res : Result} (hres : s.net.result p.call = some res) : s.net.view.Took p.call := by
  have hstands := h.stands c p hp
  simp only [DataStands, hpc] at hstands
  by_contra hnot
  have hbehind : ver.toNat < s.net.writes dataKey :=
    h.careful.put_behind (h.careful.req hp (lockClient_put hpc)) dataKey_mem hres
  have hsame : s.net.writes dataKey = ver.toNat := (hstands.2.2 hnot).1
  omega

theorem toNat_succ (hb : Sys.Below [dataKey] s) (hlt : ver.toNat < s.net.writes dataKey) :
    (ver + 1).toNat = ver.toNat + 1 := by
  have hbound := hb dataKey dataKey_mem
  rw [UInt64.toNat_add, UInt64.toNat_one]
  exact Nat.mod_eq_of_lt (by omega)

theorem DataInv.clear_took (h : DataInv s) (hb : Sys.Below [dataKey] s) (hp : s.procs[c]? = some p)
    (hpc : p.st.pc = .clear ver) {res : Result} (hres : s.net.result p.call = some res) :
    s.net.view.Took p.call := by
  have hstands := h.stands c p hp
  simp only [DataStands, hpc] at hstands
  by_contra hnot
  have hbehind : (ver + 1).toNat < s.net.writes dataKey :=
    h.careful.put_behind (h.careful.req hp (lockClient_clear hpc)) dataKey_mem hres
  have hsame : s.net.writes dataKey = ver.toNat + 1 := hstands.2 hnot
  rw [toNat_succ hb (by omega)] at hbehind
  omega

/-- A `Put` that took effect did not return `ErrVersion`. -/
theorem DataInv.not_refused (h : DataInv s) {args : PutArgs}
    (hreq : s.net.req n = some (.put args)) (hkey : args.key = dataKey) {err : Err}
    (hres : s.net.result n = some (.put err)) (htook : s.net.view.Took n) :
    err = .ok ∨ err = .errMaybe := by
  obtain ⟨rfl, _⟩ | ⟨_, hnot⟩ | rfl :=
    h.careful.put_result hreq (by rw [hkey]; exact dataKey_mem) hres
  · exact .inl rfl
  · exact absurd htook hnot
  · exact .inr rfl

/-- Where a client comes to, if nobody is inside when it comes back from `Acquire`. -/
theorem DataInv.stands_enter (h : DataInv s) (hb : Sys.Below [dataKey] s)
    (hp : s.procs[c]? = some p) (hcause : Sys.Cause LockClient.program s.net p st)
    (halone : p.st.pc = .acquiring → ∀ (d : Nat) (q : Proc LockClient), s.procs[d]? = some q →
      q.st.pc.inside = false) (hfresh : ∀ reply, ¬ s.net.Answered n reply) :
    DataStands s.net.view ⟨st, n⟩ := by
  have hstands := h.stands c p hp
  have hnot : ¬ s.net.view.Took n := hfresh _
  cases hcause with
  | act _ hact =>
      obtain ⟨lk, _, hpc, rfl⟩ | ⟨_, hpc, rfl⟩ | ⟨_, hpc, rfl⟩ | ⟨_, hpc, rfl⟩ | ⟨_, hpc, rfl⟩ |
        ⟨ver, _, hpc, rfl⟩ | ⟨_, hpc, rfl⟩ | ⟨_, hpc, rfl⟩ := act_cases_lock hact <;>
        simp only [DataStands, hpc] at hstands ⊢
      · exact hstands
      · exact hstands
      · refine ⟨hstands, h.clean ?_, fun g ha ↦ absurd ha (hfresh _)⟩
        intro d q hq hdirty
        have hin := hdirty.inside
        rw [halone hpc d q hq] at hin
        cases hin
      · exact ⟨fun htook ↦ absurd htook hnot, fun _ ↦ hstands⟩
      · exact hstands
      · exact hstands
  | resume _ hres hresume =>
      cases LockClient.resumed_of_resume hresume with
      | created hpc =>
          exact Nat.lt_of_le_of_lt (Nat.zero_le _) (h.careful.put_behind (h.careful.req hp
            (show LockClient.program.request p.st = some (.put ⟨dataKey, [], 0⟩) by
              simp only [LockClient.program, LockClient.request, hpc])) dataKey_mem hres)
      | found hpc hbad =>
          simp only [DataStands, hpc] at hstands
          obtain ⟨g, ha, herr, hsame, _⟩ := h.careful.get_result hres
          obtain ⟨hok, hval, _⟩ := hstands.2.2 g ha
          have herr' := herr.symm.trans hok
          obtain hne | hne := hbad
          · exact absurd herr' hne
          · exact absurd ((hsame herr').1.symm.trans hval) hne
      | put hpc =>
          simp only [DataStands, hpc] at hstands
          obtain ⟨g, ha, _, hsame, _⟩ := h.careful.get_result hres
          obtain ⟨_, _, hversion⟩ := hstands.2.2 g ha
          rw [(hsame rfl).2] at hversion
          exact ⟨hstands.1, fun htook ↦ absurd htook hnot, fun _ ↦ ⟨hversion.symm, hstands.2.1⟩⟩
      | refused hpc herr =>
          obtain hpc | hpc := hpc
          · exact absurd (h.not_refused (h.careful.req hp (lockClient_put hpc)) rfl hres
              (h.put_took hp hpc hres)) herr
          · exact absurd (h.not_refused (h.careful.req hp (lockClient_clear hpc)) rfl hres
              (h.clear_took hb hp hpc hres)) herr
      | written hpc =>
          simp only [DataStands, hpc] at hstands
          exact hstands.2.1 (h.put_took hp hpc hres)
      | cleared hpc =>
          simp only [DataStands, hpc] at hstands
          have hwrites := (hstands.1 (h.clear_took hb hp hpc hres)).1
          show 0 < s.net.view.writes dataKey
          omega

/-- A client whose number is under the key leaves it there, or has cleared it. -/
theorem DataInv.dirty_enter (h : DataInv s) (hb : Sys.Below [dataKey] s) (hp : s.procs[c]? = some p)
    (hcause : Sys.Cause LockClient.program s.net p st) (hdirty : Dirty s.net.view p)
    (hfresh : ∀ reply, ¬ s.net.Answered n reply) : Dirty s.net.view ⟨st, n⟩ := by
  cases hcause with
  | act _ hact =>
      obtain ⟨lk, _, hpc, rfl⟩ | ⟨_, hpc, rfl⟩ | ⟨_, hpc, rfl⟩ | ⟨_, hpc, rfl⟩ | ⟨_, hpc, rfl⟩ |
        ⟨ver, _, hpc, rfl⟩ | ⟨_, hpc, rfl⟩ | ⟨_, hpc, rfl⟩ := act_cases_lock hact <;>
        simp only [Dirty, hpc] at hdirty ⊢
      exact hfresh _
  | resume _ hres hresume =>
      cases LockClient.resumed_of_resume hresume with
      | created hpc => simp only [Dirty, hpc] at hdirty
      | found hpc hbad => simp only [Dirty, hpc] at hdirty
      | put hpc => simp only [Dirty, hpc] at hdirty
      | written hpc => trivial
      | refused hpc herr =>
          obtain hpc | hpc := hpc
          · exact absurd (h.not_refused (h.careful.req hp (lockClient_put hpc)) rfl hres
              (h.put_took hp hpc hres)) herr
          · exact absurd (h.not_refused (h.careful.req hp (lockClient_clear hpc)) rfl hres
              (h.clear_took hb hp hpc hres)) herr
      | cleared hpc =>
          simp only [Dirty, hpc] at hdirty
          exact absurd (h.clear_took hb hp hpc hres) hdirty

theorem DataInv.timely (h : DataInv s) (hb : Sys.Below [dataKey] s) (hp : s.procs[c]? = some p)
    (hcause : Sys.Cause LockClient.program s.net p st) {args : PutArgs}
    (hreq : LockClient.program.request st = some (.put args)) :
    args.version.toNat ≤ s.net.writes args.key := by
  have hstands := h.stands c p hp
  cases hcause with
  | act _ hact =>
      obtain ⟨lk, _, hpc, rfl⟩ | ⟨_, hpc, rfl⟩ | ⟨_, hpc, rfl⟩ | ⟨_, hpc, rfl⟩ | ⟨_, hpc, rfl⟩ |
        ⟨ver, _, hpc, rfl⟩ | ⟨_, hpc, rfl⟩ | ⟨_, hpc, rfl⟩ := act_cases_lock hact <;>
        simp only [LockClient.program, LockClient.request, Option.some.injEq, Request.put.injEq,
          reduceCtorEq] at hreq
      · subst hreq
        exact Nat.zero_le _
      · subst hreq
        simp only [DataStands, hpc] at hstands
        change s.net.writes dataKey = _ at hstands
        show (ver + 1).toNat ≤ s.net.writes dataKey
        rw [toNat_succ hb (by omega)]
        omega
  | resume _ hres hresume =>
      cases LockClient.resumed_of_resume hresume with
      | put hpc =>
          simp only [LockClient.program, LockClient.request, Option.some.injEq,
            Request.put.injEq] at hreq
          subst hreq
          simp only [DataStands, hpc] at hstands
          obtain ⟨g, ha, _, hsame, _⟩ := h.careful.get_result hres
          obtain ⟨_, _, hversion⟩ := hstands.2.2 g ha
          rw [(hsame rfl).2] at hversion
          exact hversion.le
      | _ => simp [LockClient.program, LockClient.request] at hreq

theorem DataInv.enter (h : DataInv s) (hb : Sys.Below [dataKey] s) (hp : s.procs[c]? = some p)
    (hcause : Sys.Cause LockClient.program s.net p st)
    (halone : p.st.pc = .acquiring → ∀ (d : Nat) (q : Proc LockClient), s.procs[d]? = some q →
      q.st.pc.inside = false) : DataInv (s.enter LockClient.program c st) := by
  have hm := Sys.moved_enter hp hcause
  have hfresh := h.careful.inv.not_answered_next
  refine ⟨h.careful.moved hm fun args hreq _ ↦ h.timely hb hp hcause hreq, ?_, ?_⟩
  · intro d q hq
    rw [hm.view]
    obtain ⟨rfl, rfl⟩ | ⟨_, hold⟩ := hm.cases hq
    · exact h.stands_enter hb hp hcause halone hfresh
    · exact h.stands d q hold
  · rw [hm.view]
    intro hnone
    refine h.clean fun d q hq hdirty ↦ ?_
    by_cases hdc : d = c
    · subst hdc
      rw [hp, Option.some.injEq] at hq
      subst hq
      exact hnone d _ hm.self (h.dirty_enter hb hp hcause hdirty hfresh)
    · exact hnone d q ((hm.other d hdc).trans hq) hdirty

/-- A handler that does not write the key changes nothing for the clients. -/
theorem DataInv.answers (h : DataInv s) (hb : Sys.Below [dataKey] s) {m : Nat} {r : Request}
    (ha : s.net.Answers [dataKey] m r v) (hp : s.procs[c]? = some p) :
    DataStands v p ∧ (Dirty v p ↔ Dirty s.net.view p) := by
  have hwrites : v.writes dataKey = s.net.view.writes dataKey := ha.writes dataKey dataKey_mem
  have hserver : v.server.m dataKey = s.net.view.server.m dataKey := ha.server dataKey dataKey_mem
  have hstands := h.stands c p hp
  unfold DataStands Dirty Clean at *
  cases hpc : p.st.pc with
  | get =>
      simp only [hpc, hwrites, hserver] at hstands ⊢
      refine ⟨⟨hstands.1, hstands.2.1, fun g hg ↦ ?_⟩, trivial⟩
      obtain hold | rfl := h.careful.got_answers hp (lockClient_get hpc) ha hg
      · exact hstands.2.2 g hold
      · obtain ⟨x, hx⟩ := h.careful.inv.present hstands.1
        have hversion := (h.careful.inv.writes_of_some (hb dataKey dataKey_mem) hx).1
        simp only [KVServer.get, hx]
        exact ⟨trivial, hstands.2.1 x hx, hversion⟩
  | put ver =>
      have htook : v.Took p.call ↔ s.net.view.Took p.call :=
        h.careful.took_answers hp (lockClient_put hpc) dataKey_mem ha
      simp only [hpc, htook, hwrites, hserver] at hstands ⊢
      exact ⟨hstands, trivial⟩
  | clear ver =>
      have htook : v.Took p.call ↔ s.net.view.Took p.call :=
        h.careful.took_answers hp (lockClient_clear hpc) dataKey_mem ha
      simp only [hpc, htook, hwrites, hserver] at hstands ⊢
      exact ⟨hstands, trivial⟩
  | _ => simp_all only [and_self]

/-- A client that is not inside does not mind a write. -/
theorem DataStands.outside {v' : View} (h : DataStands v p) (hout : p.st.pc.inside = false)
    (hle : v.writes dataKey ≤ v'.writes dataKey) : DataStands v' p := by
  unfold DataStands at h ⊢
  cases hpc : p.st.pc <;> simp_all [LockPoint.inside] <;> omega

theorem inside_of_writes_pos (h : DataStands v p) (hzero : v.writes dataKey = 0) :
    p.st.pc = .start ∨ p.st.pc = .making ∨ p.st.pc = .create := by
  unfold DataStands at h
  cases hpc : p.st.pc with
  | clear ver =>
      simp only [hpc, hzero] at h
      by_cases htook : v.Took p.call
      · exact absurd (h.1 htook).1 (by omega)
      · exact absurd (h.2 htook) (by omega)
  | _ => simp_all

/-- The `Put` of client `c` takes effect, while no other client is inside with it. -/
theorem DataInv.writes (h : DataInv s)
    (hunique : ∀ (c d : Nat) (p q : Proc LockClient), s.procs[c]? = some p →
      s.procs[d]? = some q → p.st.pc.inside = true → q.st.pc.inside = true → c = d)
    (hp : s.procs[c]? = some p) {args : PutArgs}
    (hreq : LockClient.program.request p.st = some (.put args))
    (hversion : args.version.toNat = s.net.writes args.key)
    (hfresh : ∀ reply, ¬ s.net.Answered p.call reply) (hw : s.net.Writes p.call args v) :
    (∀ (d : Nat) (q : Proc LockClient), s.procs[d]? = some q → DataStands v q) ∧
      ((∀ (d : Nat) (q : Proc LockClient), s.procs[d]? = some q → ¬ Dirty v q) → Clean v) := by
  have hstands := h.stands c p hp
  have hnot : ¬ s.net.view.Took p.call := hfresh _
  have hothers : p.st.pc.inside = true → args.key = dataKey → DataStands v p →
      ∀ (d : Nat) (q : Proc LockClient), s.procs[d]? = some q → DataStands v q := by
    intro hin hkey hself d q hq
    by_cases hdc : d = c
    · subst hdc
      rw [hp, Option.some.injEq] at hq
      exact hq ▸ hself
    · refine (h.stands d q hq).outside ?_ ?_
      · exact Bool.eq_false_iff.mpr fun hin' ↦ hdc (hunique d c q p hq hp hin' hin)
      · have hwritten := hw.written
        rw [hkey] at hwritten
        exact hwritten ▸ Nat.le_succ _
  cases hpc : p.st.pc with
  | create =>
      simp only [LockClient.program, LockClient.request, hpc, Option.some.injEq,
        Request.put.injEq] at hreq
      subst hreq
      -- nobody has got any further yet
      have hzero : s.net.view.writes dataKey = 0 := hversion.symm
      refine ⟨?_, fun _ ↦ ?_⟩
      · intro d q hq
        obtain hq' | hq' | hq' := inside_of_writes_pos (h.stands d q hq) hzero <;>
          simp only [DataStands, hq']
      · intro x hx
        rw [hw.stored, Option.some.injEq] at hx
        rw [← hx]
  | put ver =>
      rw [lockClient_put hpc, Option.some.injEq, Request.put.injEq] at hreq
      subst hreq
      simp only [DataStands, hpc] at hstands
      have hin : p.st.pc.inside = true := by rw [hpc]; rfl
      have hwritten : v.writes dataKey = s.net.writes dataKey + 1 := hw.written
      refine ⟨hothers hin rfl ?_, fun hclean ↦ ?_⟩
      · simp only [DataStands, hpc]
        refine ⟨by omega, fun _ ↦ ?_, fun hno ↦ absurd (Sys.took_self hw) hno⟩
        rw [hwritten, ← hversion]
      · refine absurd ?_ (hclean c p hp)
        simp only [Dirty, hpc]
        exact Sys.took_self hw
  | clear ver =>
      rw [lockClient_clear hpc, Option.some.injEq, Request.put.injEq] at hreq
      subst hreq
      simp only [DataStands, hpc] at hstands
      have hin : p.st.pc.inside = true := by rw [hpc]; rfl
      have hwritten : v.writes dataKey = s.net.writes dataKey + 1 := hw.written
      have hold : s.net.writes dataKey = ver.toNat + 1 := hstands.2 hnot
      have hclean : Clean v := by
        intro x hx
        rw [hw.stored, Option.some.injEq] at hx
        rw [← hx]
      refine ⟨hothers hin rfl ?_, fun _ ↦ hclean⟩
      simp only [DataStands, hpc]
      exact ⟨fun _ ↦ ⟨by omega, hclean⟩, fun hno ↦ absurd (Sys.took_self hw) hno⟩
  | _ => simp [LockClient.program, LockClient.request, hpc] at hreq

/-- A step of the network, with no more than one client inside. -/
theorem DataInv.net (h : DataInv s) (hb : Sys.Below [dataKey] s)
    (hunique : ∀ (c d : Nat) (p q : Proc LockClient), s.procs[c]? = some p →
      s.procs[d]? = some q → p.st.pc.inside = true → q.st.pc.inside = true → c = d)
    {action : Action} {net : Net} (hf : foreign dataKey action = true)
    (hs : s.net.step action = some net) : DataInv { s with net } := by
  have hforeign : ∀ key ∈ [dataKey], foreign key action = true := by
    intro key hkey
    rw [List.mem_singleton.mp hkey]
    exact hf
  obtain ⟨hcareful, heffect⟩ := h.careful.net hb hforeign hs
  cases heffect with
  | quiet hview =>
      have hstands := h.stands
      have hclean := h.clean
      rw [← hview] at hstands hclean
      exact ⟨hcareful, hstands, hclean⟩
  | answers ha =>
      refine ⟨hcareful, fun c p hp ↦ (h.answers hb ha hp).1, fun hnone ↦ ?_⟩
      have hclean := h.clean fun c p hp hdirty ↦ hnone c p hp ((h.answers hb ha hp).2.mpr hdirty)
      intro x hx
      exact hclean x ((ha.server dataKey dataKey_mem).symm.trans hx)
  | writes hp hreq hkey hversion hfresh hw =>
      obtain ⟨hstands, hclean⟩ := h.writes hunique hp hreq hversion hfresh hw
      exact ⟨hcareful, hstands, hclean⟩

end Data

end GoLabs.KvTest
