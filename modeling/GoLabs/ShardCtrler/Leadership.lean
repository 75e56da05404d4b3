import GoLabs.ShardCtrler.Lock

/-!
# Leadership is exclusive

Where a handle stands says what the key holds (`Stands`): its own id is there from the moment its
`Put` in `AcquireLeadership` takes effect until its `Put` in `ReleaseLeadership` does, and at no
other time.  So a handle that is unsure of its `Put` can decide by looking for its id.
-/

open GoLabs.Reasoning GoLabs.KvSrv

namespace GoLabs.ShardCtrler

variable {l : GoString} {lk lk' : Lock}

/-! ## What the key holds -/

/-- What follows about the key, which holds `x`, from where a handle stands. -/
def Stands (l : GoString) (v : View) (p : Proc Lock) (x : StoredValue) : Prop :=
  match p.st.pc with
  | .idle | .released _ | .get | .sleeping => x.value ≠ p.st.id
  | .put ver =>
      (v.Took p.call → x = ⟨p.st.id, ver + 1⟩) ∧
      (¬ v.Took p.call → x.value ≠ p.st.id ∧ (ver.toNat = v.writes l → x.value = lit ""))
  | .check ver =>
      (x.value = p.st.id → x.version = ver + 1) ∧
      ∀ r, v.answered p.call (.get r) → r.err = .ok ∧
        (r.value = p.st.id ↔ x.value = p.st.id) ∧ (r.value = p.st.id → r.version = x.version)
  | .held => x = ⟨p.st.id, p.st.ver⟩
  | .relGet =>
      x = ⟨p.st.id, p.st.ver⟩ ∧
      ∀ r, v.answered p.call (.get r) → r.err = .ok ∧ r.version = p.st.ver
  | .relPut ver =>
      (v.Took p.call → x.value ≠ p.st.id) ∧ (¬ v.Took p.call → x = ⟨p.st.id, ver⟩)

/-- The key holds `""` or the id of a handle, and the handles stand accordingly. -/
def leading (l : GoString) (ids : List GoString) : Sys.Outline Lock Unit where
  shared _ v := ∃ x, v.server.m l = some x ∧ (x.value = lit "" ∨ x.value ∈ ids)
  stands _ v i p := ids[i]? = some p.st.id ∧ ∀ x, v.server.m l = some x → Stands l v p x

abbrev Exclusive (l : GoString) (ids : List GoString) (s : Sys Lock) : Prop :=
  (leading l ids).Holds (program l) [l] () s

section Steps

variable {ids : List GoString} {s : Sys Lock} {v v' : View} {p : Proc Lock} {x : StoredValue}
  {i n : Nat}

theorem key_mem (l : GoString) : l ∈ [l] := List.mem_singleton.mpr rfl

theorem Exclusive.id_mem (h : Exclusive l ids s) (hp : s.procs[i]? = some p) : p.st.id ∈ ids :=
  List.mem_of_getElem? (h.stands i p hp).1

theorem Exclusive.id_inj (h : Exclusive l ids s) (hids : ids.Nodup) {j : Nat} {q : Proc Lock}
    (hp : s.procs[i]? = some p) (hq : s.procs[j]? = some q) (hid : p.st.id = q.st.id) : i = j := by
  have hi := (h.stands i p hp).1
  have hj := (h.stands j q hq).1
  exact (List.getElem?_inj (lt_length_of_getElem? hi) hids).mp (by rw [hi, hj, hid])

/-- A handle that makes a new call. -/
theorem stands_act {call : LockCall} (h : Stands l v p x) (hact : p.st.act call = some lk')
    (hfresh : ∀ reply, ¬ v.answered n reply) : Stands l v ⟨lk', n⟩ x := by
  obtain ⟨hpc, rfl⟩ | ⟨hpc, rfl⟩ := act_cases hact
  · have hne : x.value ≠ p.st.id := by
      unfold Stands at h
      obtain hpc | ⟨err, hpc⟩ | hpc := hpc <;> simpa only [hpc] using h
    exact hne
  · unfold Stands at h
    simp only [hpc] at h
    exact ⟨h, fun r ha ↦ absurd ha (hfresh _)⟩

theorem Exclusive.stands_resume (h : Exclusive l ids s) (hb : Sys.Below [l] s) {res : Result}
    (hp : s.procs[i]? = some p) (hx : s.net.server.m l = some x)
    (hres : s.net.result p.call = some res) (hresumed : Resumed p.st res lk')
    (hfresh : ∀ reply, ¬ s.net.Answered n reply) : Stands l s.net.view ⟨lk', n⟩ x := by
  have hstands := (h.stands i p hp).2 x hx
  have hnot : ¬ s.net.view.Took n := hfresh _
  have hreq : ∀ r, p.st.request l = some r → s.net.req p.call = some r :=
    fun r hr ↦ h.careful.req hp hr
  unfold Stands at hstands
  cases hresumed with
  | again hpc herr => simpa only [Stands, hpc] using hstands
  | @free ver hpc =>
      simp only [hpc] at hstands
      obtain ⟨g, ha, hok, hsame, _⟩ := h.careful.get_result hres
      obtain ⟨hvalue, hversion⟩ := hsame rfl
      have hseen := (h.careful.versions l (key_mem l)).seen _ g
        (hreq (.get ⟨l⟩) (by simp [Lock.request, hpc])) ha hok
      refine ⟨fun htook ↦ absurd htook hnot, fun _ ↦ ⟨hstands, fun hcur ↦ ?_⟩⟩
      have hm := hseen.2 (by rw [hversion]; exact hcur)
      rw [hx, Option.some.injEq] at hm
      rw [hm]
      exact hvalue
  | taken hpc hval => simpa only [Stands, hpc] using hstands
  | acquired hpc =>
      simp only [hpc] at hstands
      exact hstands.1 (h.careful.inv.took_of_ok hres)
  | maybe hpc =>
      simp only [hpc] at hstands
      refine ⟨?_, fun r ha ↦ absurd ha (hfresh _)⟩
      intro hown
      by_cases htook : s.net.view.Took p.call
      · rw [hstands.1 htook]
      · exact absurd hown (hstands.2 htook).1
  | @refused ver err hpc hok hmaybe =>
      simp only [hpc] at hstands
      have hput := hreq (.put ⟨l, p.st.id, ver⟩) (by simp [Lock.request, hpc])
      obtain ⟨rfl, _⟩ | ⟨_, hnot⟩ | rfl := h.careful.put_result hput (key_mem l) hres
      · exact absurd rfl hok
      · exact (hstands.2 hnot).1
      · exact absurd rfl hmaybe
  | recovered hpc =>
      simp only [hpc] at hstands
      obtain ⟨g, ha, _, hsame, _⟩ := h.careful.get_result hres
      obtain ⟨hvalue, hversion⟩ := hsame rfl
      obtain ⟨_, hown, hver⟩ := hstands.2 g ha
      show x = _
      rw [← hversion, hver hvalue, ← hown.mp hvalue]
  | @lost ver ver' val err hpc hno =>
      simp only [hpc] at hstands
      obtain ⟨g, ha, rfl, hsame, _⟩ := h.careful.get_result hres
      obtain ⟨hok, hown, _⟩ := hstands.2 g ha
      exact fun hvalue ↦ hno ⟨hok, (hsame hok).1.symm.trans (hown.mpr hvalue)⟩
  | @seen val ver err hpc =>
      simp only [hpc] at hstands
      obtain ⟨g, ha, rfl, hsame, _⟩ := h.careful.get_result hres
      obtain ⟨hok, hversion⟩ := hstands.2 g ha
      refine ⟨fun htook ↦ absurd htook hnot, fun _ ↦ ?_⟩
      rw [hstands.1, ← hversion, (hsame hok).2]
  | @released ver err err' hpc herr =>
      simp only [hpc] at hstands
      have hput := hreq (.put ⟨l, lit "", ver⟩) (by simp [Lock.request, hpc])
      -- had it not taken effect, the key would still be at its version
      by_cases htook : s.net.view.Took p.call
      · exact hstands.1 htook
      · have hbehind : ver.toNat < s.net.writes l := h.careful.put_behind hput (key_mem l) hres
        have hver := (h.careful.inv.writes_of_some (hb l (key_mem l)) hx).1
        rw [hstands.2 htook] at hver
        simp only at hver
        omega

/-- The server has answered without writing the key. -/
theorem Exclusive.stands_answers (h : Exclusive l ids s) {m : Nat} {r : Request}
    (hp : s.procs[i]? = some p) (hx : s.net.server.m l = some x)
    (ha : s.net.Answers [l] m r v) : Stands l v p x := by
  have hstands := (h.stands i p hp).2 x hx
  have hwrites : v.writes l = s.net.view.writes l := ha.writes l (key_mem l)
  have htook : ∀ args, p.st.request l = some (.put args) → args.key = l →
      (v.Took p.call ↔ s.net.view.Took p.call) := fun args hr hkey ↦
    h.careful.took_answers hp hr (by rw [hkey]; exact key_mem l) ha
  -- a `Get` is answered with what is stored now
  have hgot : p.st.request l = some (.get ⟨l⟩) → ∀ g, v.answered p.call (.get g) →
      s.net.view.answered p.call (.get g) ∨ g = ⟨x.value, x.version, .ok⟩ := by
    intro hr g hg
    refine (h.careful.got_answers hp hr ha hg).imp id fun heq ↦ ?_
    rw [heq, KVServer.get, hx]
  unfold Stands at hstands ⊢
  cases hpc : p.st.pc with
  | idle => simpa only [hpc] using hstands
  | get => simpa only [hpc] using hstands
  | sleeping => simpa only [hpc] using hstands
  | released err => simpa only [hpc] using hstands
  | held => simpa only [hpc] using hstands
  | put ver =>
      simp only [hpc] at hstands ⊢
      rw [htook ⟨l, p.st.id, ver⟩ (by simp [Lock.request, hpc]) rfl, hwrites]
      exact hstands
  | check ver =>
      simp only [hpc] at hstands ⊢
      refine ⟨hstands.1, ?_⟩
      intro g hg
      obtain hold | rfl := hgot (by simp [Lock.request, hpc]) g hg
      · exact hstands.2 g hold
      · exact ⟨rfl, Iff.rfl, fun _ ↦ rfl⟩
  | relGet =>
      simp only [hpc] at hstands ⊢
      refine ⟨hstands.1, ?_⟩
      intro g hg
      obtain hold | rfl := hgot (by simp [Lock.request, hpc]) g hg
      · exact hstands.2 g hold
      · refine ⟨rfl, ?_⟩
        show x.version = _
        rw [hstands.1]
  | relPut ver =>
      simp only [hpc] at hstands ⊢
      rw [htook ⟨l, lit "", ver⟩ (by simp [Lock.request, hpc]) rfl]
      exact hstands

/-- Another handle has written the key, which neither held the id of this one nor holds it now. -/
theorem Stands.write_other (h : Stands l v p x) {x' : StoredValue} (hx : x.value ≠ p.st.id)
    (hx' : x'.value ≠ p.st.id)
    (htook : ∀ r, p.st.request l = some r → (v'.Took p.call ↔ v.Took p.call))
    (hgot : ∀ g, v'.answered p.call (.get g) → v.answered p.call (.get g))
    (hbehind : ∀ ver, p.st.pc = .put ver → ver.toNat ≠ v'.writes l) : Stands l v' p x' := by
  unfold Stands at h ⊢
  cases hpc : p.st.pc with
  | idle => exact hx'
  | get => exact hx'
  | sleeping => exact hx'
  | released err => exact hx'
  | held =>
      simp only [hpc] at h
      exact absurd (by rw [h]) hx
  | put ver =>
      simp only [hpc] at h ⊢
      rw [htook (.put ⟨l, p.st.id, ver⟩) (by simp [Lock.request, hpc])]
      refine ⟨fun hyes ↦ absurd (by rw [h.1 hyes]) hx, fun _ ↦ ⟨hx', ?_⟩⟩
      intro hcur
      exact absurd hcur (hbehind ver hpc)
  | check ver =>
      simp only [hpc] at h ⊢
      refine ⟨fun hown ↦ absurd hown hx', ?_⟩
      intro g ha
      obtain ⟨hok, hown, _⟩ := h.2 g (hgot g ha)
      have hne : g.value ≠ p.st.id := fun heq ↦ hx (hown.mp heq)
      exact ⟨hok, iff_of_false hne hx', fun heq ↦ absurd heq hne⟩
  | relGet =>
      simp only [hpc] at h
      exact absurd (by rw [h.1]) hx
  | relPut ver =>
      simp only [hpc] at h ⊢
      rw [htook (.put ⟨l, lit "", ver⟩) (by simp [Lock.request, hpc])]
      exact ⟨fun _ ↦ hx', fun hno ↦ absurd (by rw [h.2 hno]) hx⟩

/-- A handle whose `Put` is about to take effect: what the key holds, and what it will hold. -/
theorem Exclusive.write (h : Exclusive l ids s) {args : PutArgs} (hp : s.procs[i]? = some p)
    (hx : s.net.server.m l = some x) (hreq : p.st.request l = some (.put args))
    (hversion : args.version.toNat = s.net.writes args.key)
    (hfresh : ∀ reply, ¬ s.net.Answered p.call reply) :
    args.key = l ∧ ((x.value = lit "" ∧ p.st.pc = .put args.version ∧ args.value = p.st.id) ∨
      (x.value = p.st.id ∧ p.st.pc = .relPut args.version ∧ args.value = lit "")) := by
  have hstands := (h.stands i p hp).2 x hx
  unfold Stands at hstands
  obtain ⟨hpc, hargs⟩ | ⟨hpc, hargs⟩ := request_put hreq
  · simp only [hpc] at hstands
    have hkey : args.key = l := by rw [hargs]
    rw [hkey] at hversion
    exact ⟨hkey, .inl ⟨(hstands.2 (hfresh _)).2 hversion, hpc, by rw [hargs]⟩⟩
  · simp only [hpc] at hstands
    exact ⟨by rw [hargs], .inr ⟨by rw [hstands.2 (hfresh _)], hpc, by rw [hargs]⟩⟩

theorem Exclusive.stands_writes (h : Exclusive l ids s) (hids : ids.Nodup) (hne : lit "" ∉ ids)
    {j : Nat} {q : Proc Lock} {args : PutArgs} (hp : s.procs[i]? = some p)
    (hreq : p.st.request l = some (.put args))
    (hversion : args.version.toNat = s.net.writes args.key)
    (hfresh : ∀ reply, ¬ s.net.Answered p.call reply) (hw : s.net.Writes p.call args v)
    (hx : s.net.server.m l = some x) (hq : s.procs[j]? = some q) :
    Stands l v q ⟨args.value, args.version + 1⟩ := by
  obtain ⟨hkey, hwrite⟩ := h.write hp hx hreq hversion hfresh
  have hpne : lit "" ≠ p.st.id := fun heq ↦ hne (heq ▸ h.id_mem hp)
  have hqne : lit "" ≠ q.st.id := fun heq ↦ hne (heq ▸ h.id_mem hq)
  by_cases hij : i = j
  · subst hij
    rw [hp, Option.some.injEq] at hq
    subst hq
    have htook := Sys.took_self hw
    unfold Stands
    obtain ⟨_, hpc, hvalue⟩ | ⟨_, hpc, hvalue⟩ := hwrite
    · -- it has taken the leadership
      simp only [hpc, hvalue]
      exact ⟨fun _ ↦ trivial, fun hno ↦ absurd htook hno⟩
    · -- it has given it up
      simp only [hpc, hvalue]
      exact ⟨fun _ ↦ hpne, fun hno ↦ absurd htook hno⟩
  · have hids' : p.st.id ≠ q.st.id := fun heq ↦ hij (h.id_inj hids hp hq heq)
    refine ((h.stands j q hq).2 x hx).write_other ?_ ?_ ?_ ?_ ?_
    · obtain ⟨hfree, _⟩ | ⟨hown, _⟩ := hwrite
      · rw [hfree]
        exact hqne
      · rw [hown]
        exact hids'
    · obtain ⟨_, _, hvalue⟩ | ⟨_, _, hvalue⟩ := hwrite <;> rw [hvalue]
      · exact hids'
      · exact hqne
    · intro r hr
      exact h.careful.took_writes hp hreq hq hr hij hw
    · intro g ha
      exact (Sys.got_writes hw).mp ha
    · intro ver hpc hcur
      -- the version another handle has read is behind the key now
      have hsent : ver.toNat ≤ s.net.writes l := (h.careful.versions l (key_mem l)).sent q.call
        ⟨l, q.st.id, ver⟩ (h.careful.req hq (by simp [program, Lock.request, hpc])) rfl
      have hwritten := hw.written
      rw [hkey] at hwritten
      omega

end Steps

/-- Inside `AcquireLeadership`, after its `Put` took effect. -/
def AfterPut (l : GoString) (net : Net) (p : Proc Lock) : Prop :=
  ∃ ver, (p.st.pc = .put ver ∨ p.st.pc = .check ver) ∧
    (Request.put ⟨l, p.st.id, ver⟩, Reply.put ⟨.ok⟩) ∈ execLog net.history

/-- Inside `ReleaseLeadership`. -/
def Releasing (p : Proc Lock) : Prop := p.st.pc = .relGet ∨ ∃ ver, p.st.pc = .relPut ver

/-- Between `s` and `t` handle `i` has returned from `AcquireLeadership`. -/
def Led (l : GoString) (s : Sys Lock) (i : Nat) (t : Sys Lock) : Prop :=
  ∃ u p, Reaches (Sys.step (program l) l) s u ∧ Reaches (Sys.step (program l) l) u t ∧
    u.procs[i]? = some p ∧ p.st.pc = .held

/-- From `s` on, handle `i` stays inside `AcquireLeadership` after its `Put` until it returns as the
leader. -/
def LeavesAsHolder (l : GoString) (s : Sys Lock) (i : Nat) : Prop :=
  ∀ t, Reaches (Sys.step (program l) l) s t → t.net.writes l < 2 ^ 64 →
    (∃ p, t.procs[i]? = some p ∧ AfterPut l t.net p) ∨ Led l s i t

/-- Handle `i` is past the `Get` that found the lock free, and its id is at the key. -/
def Taking (l : GoString) (s : Sys Lock) (i : Nat) : Prop :=
  ∃ p v ver, s.procs[i]? = some p ∧ (p.st.pc = .put ver ∨ p.st.pc = .check ver) ∧
    s.net.server.m l = some v ∧ v.value = p.st.id

section Runs

variable {ids : List GoString} {s t : Sys Lock} {act : SysAction LockCall} {v : Nat}

theorem id_of_cause {net : Net} {p : Proc Lock} (h : Sys.Cause (program l) net p lk) :
    lk.id = p.st.id := by
  cases h with
  | act _ hact => obtain ⟨_, rfl⟩ | ⟨_, rfl⟩ := act_cases hact <;> rfl
  | resume _ _ hresume => exact (resumed_of_resume hresume).id

theorem leading_proved (l : GoString) (hids : ids.Nodup) (hne : lit "" ∉ ids) :
    (leading l ids).Proved (program l) [l] where
  timely h _ hp hcause hreq hkey :=
    (program_writesBack l).timely h.careful (key_mem l) hp hcause hreq (List.mem_singleton.mp hkey)
  moves {_ s i n p lk} h hb hp hcause hfresh := by
    obtain ⟨hid, hstands⟩ := h.stands i p hp
    refine ⟨hid.trans (congrArg some (id_of_cause hcause).symm), fun x hx ↦ ?_⟩
    cases hcause with
    | act _ hact => exact stands_act (hstands x hx) hact hfresh
    | resume _ hres hresume =>
        exact Exclusive.stands_resume h hb hp hx hres (resumed_of_resume hresume) hfresh
  answers {_ s m r v} h _ ha := by
    have hserver := ha.server l (key_mem l)
    obtain ⟨x, hx, hvalue⟩ := h.shared
    refine ⟨⟨x, hserver.trans hx, hvalue⟩, fun i p hp ↦ ⟨(h.stands i p hp).1, fun y hy ↦ ?_⟩⟩
    exact Exclusive.stands_answers h hp (hserver.symm.trans hy) ha
  writes {_ s i p args v} h _ hp hreq _ hversion hfresh hw _ := by
    obtain ⟨x, hx, _⟩ := h.shared
    obtain ⟨hkey, hwrite⟩ := Exclusive.write h hp hx hreq hversion hfresh
    have hstored := hw.stored
    rw [hkey] at hstored
    refine ⟨(), ⟨_, hstored, ?_⟩, fun j q hq ↦ ⟨(h.stands j q hq).1, fun y hy ↦ ?_⟩⟩
    · obtain ⟨_, _, hvalue⟩ | ⟨_, _, hvalue⟩ := hwrite
      · exact .inr (by rw [hvalue]; exact Exclusive.id_mem h hp)
      · exact .inl hvalue
    · rw [hstored, Option.some.injEq] at hy
      subst hy
      exact Exclusive.stands_writes h hids hne hp hreq hversion hfresh hw hx hq

theorem Exclusive.start (hv : 0 < v) (hne : lit "" ∉ ids) :
    Exclusive l ids (leadership l v ids) := by
  have hstored := (Net.prepared_spec l (lit "") v).stored hv
  refine ⟨Sys.Careful.start_prepared ?_, ⟨_, hstored, .inl rfl⟩, ?_⟩
  · intro lk hlk
    obtain ⟨id, _, rfl⟩ := List.mem_map.mp hlk
    rfl
  · intro i p hp
    simp only [leadership, Sys.start, List.map_map, List.getElem?_map, Option.map_eq_some_iff] at hp
    obtain ⟨id, hid, rfl⟩ := hp
    refine ⟨hid, fun x hx ↦ ?_⟩
    rw [show x = _ from Option.some.inj (hx.symm.trans hstored)]
    intro heq
    have hempty : lit "" = id := heq
    exact hne (hempty ▸ List.mem_of_getElem? hid)

theorem exclusive_of_reaches (hids : ids.Nodup) (hne : lit "" ∉ ids) (hv : 0 < v)
    (h : Reaches (Sys.step (program l) l) (leadership l v ids) s) (hb : s.net.writes l < 2 ^ 64) :
    Exclusive l ids s := by
  obtain ⟨_, hs⟩ := (leading_proved l hids hne).reaches ⟨(), Exclusive.start hv hne⟩
    (Sys.reaches_apart h) (by simpa [Sys.Below] using hb)
  exact hs

/-- A handle cannot miss that its `Put` took effect when its call returns. -/
theorem Exclusive.taking_enter (h : Exclusive l ids s) {i : Nat} {p : Proc Lock} {x : StoredValue}
    {ver : Tversion} (hp : s.procs[i]? = some p) (hpc : p.st.pc = .put ver ∨ p.st.pc = .check ver)
    (hx : s.net.server.m l = some x) (hown : x.value = p.st.id)
    (hcause : Sys.Cause (program l) s.net p lk) :
    (∃ ver', (lk.pc = .put ver' ∨ lk.pc = .check ver') ∧ x.value = lk.id) ∨ lk.pc = .held := by
  have hstands := (h.stands i p hp).2 x hx
  cases hcause with
  | act hreq _ => obtain hpc | hpc := hpc <;> simp [program, Lock.request, hpc] at hreq
  | resume hreq hres hresume =>
      have hreq' := h.careful.req hp hreq
      unfold Stands at hstands
      cases resumed_of_resume hresume with
      | acquired _ => exact .inr rfl
      | recovered _ => exact .inr rfl
      | @maybe ver' _ => exact .inl ⟨ver', .inr rfl, hown⟩
      | @refused ver' err hpc' hok hmaybe =>
          simp only [hpc'] at hstands
          have hput : s.net.req p.call = some (.put ⟨l, p.st.id, ver'⟩) :=
            h.careful.req hp (by simp [program, Lock.request, hpc'])
          obtain ⟨rfl, _⟩ | ⟨_, hnot⟩ | rfl := h.careful.put_result hput (key_mem l) hres
          · exact absurd rfl hok
          · exact absurd hown (hstands.2 hnot).1
          · exact absurd rfl hmaybe
      | @lost ver' _ val err hpc' hnot =>
          simp only [hpc'] at hstands
          obtain ⟨g, ha, rfl, hsame, _⟩ := h.careful.get_result hres
          obtain ⟨hok, hiff, _⟩ := hstands.2 g ha
          exact absurd ⟨hok, (hsame hok).1.symm.trans (hiff.mpr hown)⟩ hnot
      | again hpc' _ => simp [hpc'] at hpc
      | free hpc' => simp [hpc'] at hpc
      | taken hpc' _ => simp [hpc'] at hpc
      | seen hpc' => simp [hpc'] at hpc
      | released hpc' _ => simp [hpc'] at hpc

/-- From there on it stays inside `AcquireLeadership` with its id at the key until it returns. -/
theorem Exclusive.taking_step (h : Exclusive l ids s) (hids : ids.Nodup) (hne : lit "" ∉ ids)
    (hb : Sys.Below [l] s) {i : Nat} (htaking : Taking l s i)
    (hs : s.step (program l) l act = some t) :
    Taking l t i ∨ ∃ p, t.procs[i]? = some p ∧ p.st.pc = .held := by
  obtain ⟨p, x, ver, hp, hpc, hx, hown⟩ := htaking
  have henter : ∀ {j : Nat} {q : Proc Lock} {lk : Lock}, s.procs[j]? = some q →
      Sys.Cause (program l) s.net q lk → Taking l (s.enter (program l) j lk) i ∨
        ∃ p, (s.enter (program l) j lk).procs[i]? = some p ∧ p.st.pc = .held := by
    intro j q lk hq hcause
    have hm := Sys.moved_enter hq hcause
    have hsame : (s.enter (program l) j lk).net.server.m l = some x := by
      rw [← hx]
      exact congrArg (fun v : View => v.server.m l) hm.view
    by_cases hji : i = j
    · subst hji
      rw [hp, Option.some.injEq] at hq
      subst hq
      obtain ⟨ver', hpc', hown'⟩ | hheld := h.taking_enter hp hpc hx hown hcause
      · exact .inl ⟨_, x, ver', hm.self, hpc', hsame, hown'⟩
      · exact .inr ⟨_, hm.self, hheld⟩
    · exact .inl ⟨p, x, ver, (hm.other i hji).trans hp, hpc, hsame, hown⟩
  cases Sys.step_cases hs with
  | act hq hcause => exact henter hq hcause
  | resume hq hcause => exact henter hq hcause
  | @net action net hf hnet =>
      have hstored : net.server.m l = some x := by
        cases (h.careful.net hb (by simpa using hf) hnet).2 with
        | quiet hview => exact (congrArg (fun v : View => v.server.m l) hview).trans hx
        | answers ha => exact (ha.server l (key_mem l)).trans hx
        | writes hq hreq _ hversion hfresh _ =>
            -- only the owner of the id at the key could write, and it is not releasing
            obtain ⟨_, ⟨hfree, _⟩ | ⟨hother, hpc', _⟩⟩ := h.write hq hx hreq hversion hfresh
            · exact absurd (hown.symm.trans hfree ▸ h.id_mem hp) hne
            · have hij := h.id_inj hids hp hq (hown.symm.trans hother)
              subst hij
              rw [hp, Option.some.injEq] at hq
              subst hq
              simp [hpc'] at hpc
      exact .inl ⟨p, x, ver, hp, hpc, hstored, hown⟩

theorem Exclusive.afterPut (h : Exclusive l ids s) {i : Nat} (htaking : Taking l s i) :
    ∃ p, s.procs[i]? = some p ∧ AfterPut l s.net p := by
  obtain ⟨p, v, ver, hp, hpc, hv, hown⟩ := htaking
  have hstands := (h.stands i p hp).2 v hv
  have hversion : v.version = ver + 1 := by
    unfold Stands at hstands
    obtain hpc | hpc := hpc
    · simp only [hpc] at hstands
      by_cases htook : s.net.view.Took p.call
      · rw [hstands.1 htook]
      · exact absurd hown (hstands.2 htook).1
    · simp only [hpc] at hstands
      exact hstands.1 hown
  obtain ⟨version, hmem, hver⟩ := h.careful.inv.served.written_by hv
  have heq : version = ver := by
    rw [hver] at hversion
    exact (UInt64.add_left_inj 1).mp hversion
  refine ⟨p, hp, ver, hpc, ?_⟩
  rw [← hown, ← heq]
  exact hmem

theorem handles_length (h : Reaches (Sys.step (program l) l) (leadership l v ids) s) :
    s.procs.length = ids.length := by
  rw [Sys.procs_length_of_reaches h]
  simp [leadership, Sys.start]

/-- Every id is that of a handle. -/
theorem Exclusive.exists_owner (h : Exclusive l ids s) (hlen : s.procs.length = ids.length)
    {id : GoString} (hid : id ∈ ids) :
    ∃ (i : Nat) (p : Proc Lock), s.procs[i]? = some p ∧ p.st.id = id := by
  obtain ⟨i, hi⟩ := List.mem_iff_getElem?.mp hid
  have hlt : i < s.procs.length := hlen ▸ lt_length_of_getElem? hi
  have hp := List.getElem?_eq_getElem hlt
  refine ⟨i, _, hp, ?_⟩
  have hsame := (h.stands i _ hp).1
  rw [hi, Option.some.injEq] at hsame
  exact hsame.symm

/-- A handle whose `Put` took effect can only leave `AcquireLeadership` as the leader. -/
theorem leavesAsHolder (hids : ids.Nodup) (hne : lit "" ∉ ids) (hv : 0 < v)
    (h : Reaches (Sys.step (program l) l) (leadership l v ids) s) {i : Nat}
    (htaking : Taking l s i) : LeavesAsHolder l s i := by
  intro t hst hb
  have hrun : Taking l t i ∨ Led l s i t := by
    refine hst.invariant_below (B := fun s ↦ s.net.writes l < 2 ^ 64)
      (I := fun t ↦ Taking l t i ∨ Led l s i t) ?_ (.inl htaking) ?_ hb
    · intro u a w hs hw
      have hle := Sys.writes_mono hs l
      omega
    · intro u a w hu hs hw hbefore
      have hle := Sys.writes_mono hs l
      have hbelow : Sys.Below [l] u := by
        intro k hk
        rw [List.mem_singleton.mp hk]
        omega
      obtain hnow | ⟨x, q, hsx, hxu, hq, hheld⟩ := hbefore
      · have hx := exclusive_of_reaches hids hne hv (h.trans hu) (by omega)
        obtain hstill | ⟨q, hq, hheld⟩ := hx.taking_step hids hne hbelow hnow hs
        · exact .inl hstill
        · exact .inr ⟨w, q, hu.snoc hs, Reaches.refl w, hq, hheld⟩
      · exact .inr ⟨x, q, hsx, hxu.snoc hs, hq, hheld⟩
  obtain hnow | hled := hrun
  · exact .inl ((exclusive_of_reaches hids hne hv (h.trans hst) hb).afterPut hnow)
  · exact .inr hled

end Runs

/-- As long as fewer than `2 ^ 64` `Put`s on the key have succeeded, the key holds `""` or the id of
exactly one handle.  That handle leads, at the version that the key has; or its `Put` in
`AcquireLeadership` took effect, and it will not leave `AcquireLeadership` but as the leader; or it
is inside `ReleaseLeadership`.  At most one handle leads. -/
theorem leadership_exclusive {l : GoString} {v : Nat} {ids : List GoString} {s : Sys Lock}
    (hids : ids.Nodup) (hne : lit "" ∉ ids) (hv : 0 < v)
    (h : Reaches (Sys.step (program l) l) (leadership l v ids) s)
    (hb : s.net.writes l < 2 ^ 64) :
    (∃ stored, s.net.server.m l = some stored ∧
      (stored.value = lit "" ∨
        ∃ (i : Nat) (p : Proc Lock), s.procs[i]? = some p ∧ p.st.id = stored.value ∧
          (∀ (j : Nat) (q : Proc Lock), s.procs[j]? = some q → q.st.id = stored.value → j = i) ∧
          (p.st.pc = .held ∧ p.st.ver = stored.version ∨
            AfterPut l s.net p ∧ LeavesAsHolder l s i ∨ Releasing p))) ∧
    ∀ (i j : Nat) (p q : Proc Lock), s.procs[i]? = some p → s.procs[j]? = some q →
      p.st.pc = .held → q.st.pc = .held → i = j := by
  have hx := exclusive_of_reaches hids hne hv h hb
  obtain ⟨stored, hstored, howned⟩ := hx.shared
  constructor
  · refine ⟨stored, hstored, ?_⟩
    obtain hfree | hmem := howned
    · exact .inl hfree
    · right
      -- a value that is not empty is the id of a handle
      obtain ⟨i, p, hi, hown⟩ := hx.exists_owner (handles_length h) hmem
      refine ⟨i, p, hi, hown, ?_, ?_⟩
      · intro j q hq hother
        exact (hx.id_inj hids hi hq (hown.trans hother.symm)).symm
      · have hstands := (hx.stands i p hi).2 stored hstored
        have htaking : ∀ ver, p.st.pc = .put ver ∨ p.st.pc = .check ver → Taking l s i :=
          fun ver hpc ↦ ⟨p, stored, ver, hi, hpc, hstored, hown.symm⟩
        have hafter : Taking l s i → AfterPut l s.net p := by
          intro ht
          obtain ⟨q, hq, hafter⟩ := hx.afterPut ht
          rw [hi, Option.some.injEq] at hq
          exact hq ▸ hafter
        unfold Stands at hstands
        -- where that handle may stand; elsewhere its id is not stored
        cases hpc : p.st.pc with
        | idle => simp [hpc, hown] at hstands
        | get => simp [hpc, hown] at hstands
        | sleeping => simp [hpc, hown] at hstands
        | released err => simp [hpc, hown] at hstands
        | held =>
            simp only [hpc] at hstands
            exact .inl ⟨rfl, by rw [hstands]⟩
        | put ver =>
            have ht := htaking ver (.inl hpc)
            exact .inr (.inl ⟨hafter ht, leavesAsHolder hids hne hv h ht⟩)
        | check ver =>
            have ht := htaking ver (.inr hpc)
            exact .inr (.inl ⟨hafter ht, leavesAsHolder hids hne hv h ht⟩)
        | relGet => exact .inr (.inr (.inl hpc))
        | relPut ver => exact .inr (.inr (.inr ⟨ver, hpc⟩))
  · intro i j p q hp hq hpheld hqheld
    have hpown := (hx.stands i p hp).2 stored hstored
    have hqown := (hx.stands j q hq).2 stored hstored
    simp only [Stands, hpheld] at hpown
    simp only [Stands, hqheld] at hqown
    rw [hpown, StoredValue.mk.injEq] at hqown
    exact hx.id_inj hids hp hq hqown.1

/-- The reply to the `Put` of the first handle is lost; the handle finds out that it leads, and the
second handle finds the lock taken. -/
def recoveredPut : List (SysAction LockCall) :=
  [.act 0 .acquireLeadership, .net (.exec 1), .net (.deliver 1), .resume 0, .net (.exec 2),
   .net (.lose 2), .net (.resend 2), .net (.exec 3), .net (.deliver 2), .resume 0,
   .act 1 .acquireLeadership, .net (.exec 4), .net (.exec 5), .net (.deliver 3), .resume 0,
   .net (.deliver 4), .resume 1]

theorem recoveredPut_runs :
    (run (Sys.step (program (lit "l")) (lit "l")) (leadership (lit "l") 1 [lit "a", lit "b"])
      recoveredPut).isSome = true := by
  decide

theorem leadership_exclusive_recoveredPut :
    ∃ s, run (Sys.step (program (lit "l")) (lit "l")) (leadership (lit "l") 1 [lit "a", lit "b"])
        recoveredPut = some s ∧
      s.procs.map (fun p => (p.st.pc, p.st.ver)) = [(.held, 2), (.sleeping, 0)] ∧
      ∀ (j : Nat) (q : Proc Lock), s.procs[j]? = some q → q.st.pc = .held → 0 = j := by
  refine ⟨_, (Option.some_get recoveredPut_runs).symm, by decide, ?_⟩
  intro j q hq hheld
  have hfirst : ((run (Sys.step (program (lit "l")) (lit "l"))
      (leadership (lit "l") 1 [lit "a", lit "b"]) recoveredPut).get recoveredPut_runs).procs[0]? =
      some ⟨⟨lit "a", 2, .held⟩, 5⟩ := by decide
  exact (leadership_exclusive (by decide) (by decide) (by decide) (reaches_get recoveredPut_runs)
    (by decide)).2 0 j _ q hfirst hq rfl hheld

end GoLabs.ShardCtrler
