import GoLabs.KvSrv.Lock

/-!
# Mutual exclusion of the lock

Versions only grow, so a `Put` to the key of the lock can only take effect before any attempt of it
has been answered, and then a handle still waits for it.  A handle *owns* the lock from the moment
its `tryAcquire` takes effect to the moment its `Release` does; the stored value is `"1"` all that
time, so no other `tryAcquire` can take effect.  The network may run handlers late.
-/

open GoLabs.Reasoning

namespace GoLabs.KvSrv

namespace LockSys

/-- Handle `p` owns the lock at version `w`. -/
def Owns (v : View) (p : Proc Handle) (w : Tversion) : Prop :=
  (p.st.held = true ∧ w = p.st.version) ∨
    (p.st.pc = .tryPut ∧ v.Took p.call ∧ w = p.st.version + 1) ∨
    (p.st.pc = .release ∧ ¬ v.Took p.call ∧ w = p.st.version)

structure HandleInv (l : GoString) (v : View) (p : Proc Handle) : Prop where
  make : p.st.pc = .makeGet ∨ p.st.pc = .makePut → p.st.version = 0
  tryPut : p.st.pc = .tryPut → p.st.version.toNat = v.writes l →
    ∀ x, v.server.m l = some x → x.value ≠ lit "1"
  held_pc : p.st.held = true → p.st.pc = .idle ∨ p.st.pc = .sleeping ∨ p.st.pc = .tryGet
  /-- A client that calls `Acquire` again while it holds the lock only ever reads `"1"`. -/
  held_get : ∀ r, p.st.held = true → p.st.pc = .tryGet → v.answered p.call (.get r) →
    r.value = lit "1"

/-- `g` is the last handle that has owned the lock, with the version at which it did. -/
def exclusion (l : GoString) : Sys.Outline Handle (Option (Nat × Tversion)) where
  shared g v := ∀ i w, g = some (i, w) → v.server.m l = some ⟨lit "1", w⟩
  stands g v i p := HandleInv l v p ∧ ∀ w, Owns v p w → g = some (i, w)

abbrev Exclusive (l : GoString) (g : Option (Nat × Tversion)) (s : LockSys) : Prop :=
  (exclusion l).Holds (Handle.program l) [l] g s

variable {l : GoString} {g : Option (Nat × Tversion)} {s : LockSys} {v : View} {i j n : Nat}
  {p q : Proc Handle} {w w' : Tversion}

theorem key_mem (l : GoString) : l ∈ [l] := List.mem_singleton.mpr rfl

theorem Exclusive.stored (h : Exclusive l g s) (hp : s.procs[i]? = some p)
    (how : Owns s.net.view p w) : s.net.server.m l = some ⟨lit "1", w⟩ :=
  h.shared i w ((h.stands i p hp).2 w how)

theorem Exclusive.unique (h : Exclusive l g s) (hp : s.procs[i]? = some p)
    (hq : s.procs[j]? = some q) (how : Owns s.net.view p w) (how' : Owns s.net.view q w') :
    i = j := by
  have hi := (h.stands i p hp).2 w how
  rw [(h.stands j q hq).2 w' how', Option.some.injEq, Prod.mk.injEq] at hi
  exact hi.1.symm

theorem Exclusive.held_unique (hx : Exclusive l g s) {h k : Handle} (hh : s.handles[i]? = some h)
    (hk : s.handles[j]? = some k) (hheld : h.held = true) (hkeld : k.held = true) : i = j := by
  obtain ⟨n, hp⟩ := handles_eq_some.mp hh
  obtain ⟨m, hq⟩ := handles_eq_some.mp hk
  exact hx.unique hp hq (.inl ⟨hheld, rfl⟩) (.inl ⟨hkeld, rfl⟩)

/-! ## Steps that run no handler -/

/-- A handle that is not held and has no lock `Put` under way owns nothing. -/
theorem Owns.elim (how : Owns v p w) (hheld : p.st.held ≠ true)
    (hpc : p.st.pc ≠ .tryPut ∧ p.st.pc ≠ .release) : False := by
  obtain ⟨hh, -⟩ | ⟨hn, -⟩ | ⟨hn, -⟩ := how
  · exact hheld hh
  · exact hpc.1 hn
  · exact hpc.2 hn

/-- Between two calls a handle has nothing to keep but what it holds. -/
theorem HandleInv.resting (hpc : p.st.pc = .idle ∨ p.st.pc = .sleeping) :
    HandleInv l v p ∧ ∀ w, Owns v p w → p.st.held = true ∧ w = p.st.version := by
  obtain ⟨⟨version, held, pc⟩, n⟩ := p
  obtain rfl | rfl := hpc <;> simp [Owns] <;> exact ⟨by simp, by simp, by simp, by simp⟩

/-- Where a method resumes, its handle is fine and owns nothing new. -/
theorem Exclusive.resumed (hx : Exclusive l g s) {h : Handle} {res : Result}
    (hp : s.procs[i]? = some p) (hres : s.net.result p.call = some res) (hr : Resumes p.st res h)
    (hfresh : ∀ reply, ¬ s.net.Answered n reply) :
    HandleInv l s.net.view ⟨h, n⟩ ∧ ∀ w, Owns s.net.view ⟨h, n⟩ w → Owns s.net.view p w := by
  have hfine := (hx.stands i p hp).1
  have hfree : p.st.pc = .makeGet ∨ p.st.pc = .makePut ∨ p.st.pc = .tryPut ∨ p.st.pc = .release →
      p.st.held ≠ true := by
    intro hpc hheld
    obtain hidle | hsleep | hget := hfine.held_pc hheld <;> simp_all
  -- six of the ways to resume end the method, where only what is held has to be owned before
  have hrest : ∀ k : Handle, k.pc = .idle ∨ k.pc = .sleeping →
      (k.held = true → Owns s.net.view p k.version) →
      HandleInv l s.net.view ⟨k, n⟩ ∧ ∀ w, Owns s.net.view ⟨k, n⟩ w → Owns s.net.view p w := by
    intro k hpc hheld
    have hk : HandleInv l s.net.view ⟨k, n⟩ ∧
        ∀ w, Owns s.net.view ⟨k, n⟩ w → k.held = true ∧ w = k.version := HandleInv.resting hpc
    refine ⟨hk.1, ?_⟩
    intro w how
    obtain ⟨hyes, rfl⟩ := hk.2 w how
    exact hheld hyes
  cases hr with
  | makeExists hpc herr => exact hrest _ (.inl rfl) fun hheld ↦ absurd hheld (hfree (.inl hpc))
  | makeMissing hpc =>
      have hheld := hfree (.inl hpc)
      have hzero := hfine.make (.inl hpc)
      refine ⟨⟨fun _ ↦ hzero, by simp, by simp [hheld], by simp⟩, ?_⟩
      exact fun w how ↦ (how.elim hheld (by simp)).elim
  | made hpc => exact hrest _ (.inl rfl) fun hheld ↦ absurd hheld (hfree (.inr (.inl hpc)))
  | taken hpc hno => exact hrest _ (.inr rfl) fun hheld ↦ .inl ⟨hheld, rfl⟩
  | @tries val version hpc hval =>
      have ha := hx.careful.inv.answered_of_get hres
      have hseen := (hx.careful.versions l (key_mem l)).seen _ _
        (hx.careful.req hp (by simp [Handle.program, Handle.request, hpc])) ha rfl
      -- a client that already holds the lock would have read "1"
      have hheld : p.st.held ≠ true := fun hheld ↦ hval (hfine.held_get _ hheld hpc ha)
      refine ⟨⟨by simp, ?_, by simp [hheld], by simp⟩, ?_⟩
      · intro _ hv x hm
        rw [show s.net.view.server.m l = _ from hseen.2 hv, Option.some.injEq] at hm
        rw [← hm]
        exact hval
      · rintro w (⟨hh, -⟩ | ⟨-, htook, -⟩ | ⟨hpc', -⟩)
        · exact absurd hh hheld
        · -- its `Put` has just been sent
          exact absurd htook (hfresh _)
        · cases hpc'
  | acquired hpc =>
      exact hrest _ (.inl rfl) fun _ ↦ .inr (.inl ⟨hpc, hx.careful.inv.took_of_ok hres, rfl⟩)
  | failed hpc herr =>
      exact hrest _ (.inr rfl) fun hheld ↦ absurd hheld (hfree (.inr (.inr (.inl hpc))))
  | released hpc =>
      exact hrest _ (.inl rfl) fun hheld ↦ absurd hheld (hfree (.inr (.inr (.inr hpc))))

/-- So is a handle whose method is called. -/
theorem called {h : Handle} {call : LockCall} (hact : p.st.act call = some h)
    (hfresh : ∀ reply, ¬ s.net.Answered n reply) :
    HandleInv l s.net.view ⟨h, n⟩ ∧ ∀ w, Owns s.net.view ⟨h, n⟩ w → Owns s.net.view p w := by
  have htry : HandleInv l s.net.view ⟨p.st.tryAcquire, n⟩ ∧
      ∀ w, Owns s.net.view ⟨p.st.tryAcquire, n⟩ w → Owns s.net.view p w := by
    refine ⟨⟨by simp [Handle.tryAcquire], by simp [Handle.tryAcquire], by simp [Handle.tryAcquire],
      fun r _ _ ha ↦ absurd ha (hfresh _)⟩, ?_⟩
    rintro w (hheld | ⟨hpc, -⟩ | ⟨hpc, -⟩)
    · exact .inl hheld
    · cases hpc
    · cases hpc
  obtain ⟨-, -, rfl⟩ | ⟨-, -, rfl⟩ | ⟨-, -, hheld, rfl⟩ := Handle.act_cases hact
  · exact htry
  · exact htry
  · refine ⟨⟨by simp [Handle.release], by simp [Handle.release], by simp [Handle.release],
      by simp [Handle.release]⟩, ?_⟩
    rintro w (⟨hh, -⟩ | ⟨hpc, -⟩ | ⟨-, -, rfl⟩)
    · cases hh
    · cases hpc
    · exact .inl ⟨hheld, rfl⟩

/-- No `Put` is sent ahead of the versions of the key. -/
theorem Exclusive.timely (hx : Exclusive l g s) (hb : Sys.Below [l] s) {h : Handle}
    {args : PutArgs} (hp : s.procs[i]? = some p)
    (hcause : Sys.Cause (Handle.program l) s.net p h)
    (hreq : h.request l = some (.put args)) : args.version.toNat ≤ s.net.writes args.key := by
  obtain ⟨hkey, hversion, hput⟩ := Handle.request_put hreq
  rw [hkey, hversion]
  cases hcause with
  | act _ hact =>
      obtain ⟨-, -, rfl⟩ | ⟨-, -, rfl⟩ | ⟨-, -, hheld, rfl⟩ := Handle.act_cases hact
      · simp [Handle.tryAcquire] at hput
      · simp [Handle.tryAcquire] at hput
      · -- the lock is held at the version of the key
        have hstored := hx.stored hp (.inl ⟨hheld, rfl⟩)
        exact (hx.careful.inv.writes_of_some (hb l (key_mem l)) hstored).1.le
  | resume hreq' hres hresume =>
      cases Handle.resumes hresume with
      | makeMissing hpc =>
          show p.st.version.toNat ≤ _
          rw [(hx.stands i p hp).1.make (.inl hpc)]
          exact Nat.zero_le _
      | tries hpc hval =>
          exact ((hx.careful.versions l (key_mem l)).seen _ _
            (hx.careful.req hp (by simp [Handle.program, Handle.request, hpc]))
            (hx.careful.inv.answered_of_get hres) rfl).1
      | makeExists hpc herr => simp at hput
      | made hpc => simp at hput
      | taken hpc hno => simp at hput
      | acquired hpc => simp at hput
      | failed hpc herr => simp at hput
      | released hpc => simp at hput

/-! ## Running a handler -/

/-- A handler that does not write the key of the lock. -/
theorem Exclusive.answers (hx : Exclusive l g s) {m : Nat} {r : Request}
    (ha : s.net.Answers [l] m r v) (hp : s.procs[i]? = some p) :
    HandleInv l v p ∧ ∀ w, Owns v p w → Owns s.net.view p w := by
  obtain ⟨hfine, -⟩ := hx.stands i p hp
  have hwrites : v.writes l = s.net.view.writes l := ha.writes l (key_mem l)
  have hserver : v.server.m l = s.net.view.server.m l := ha.server l (key_mem l)
  have htook : ∀ value, p.st.request l = some (.put ⟨l, value, p.st.version⟩) →
      (v.Took p.call ↔ s.net.view.Took p.call) :=
    fun value hr ↦ hx.careful.took_answers hp hr (key_mem l) ha
  refine ⟨⟨hfine.make, ?_, hfine.held_pc, ?_⟩, ?_⟩
  · rw [hwrites, hserver]
    exact hfine.tryPut
  · intro reply hheld hpc hgot
    have hreq : (Handle.program l).request p.st = some (.get ⟨l⟩) := by
      simp [Handle.program, Handle.request, hpc]
    obtain hold | rfl := hx.careful.got_answers hp hreq ha hgot
    · exact hfine.held_get reply hheld hpc hold
    · rw [KVServer.get, hx.stored hp (.inl ⟨hheld, rfl⟩)]
  · rintro w (hheld | ⟨hpc, hn, hv⟩ | ⟨hpc, hn, hv⟩)
    · exact .inl hheld
    · exact .inr (.inl ⟨hpc, (htook (lit "1") (by simp [Handle.request, hpc])).mp hn, hv⟩)
    · exact .inr (.inr ⟨hpc, mt (htook (lit "0") (by simp [Handle.request, hpc])).mpr hn, hv⟩)

/-- When a `Put` of the lock can take effect, nobody owns the lock but a handle that releases it
with this `Put`. -/
theorem Exclusive.owns_before_write (hx : Exclusive l g s) (hb : Sys.Below [l] s) {args : PutArgs}
    (hp : s.procs[i]? = some p) (hr : p.st.request l = some (.put args))
    (hfresh : ∀ reply, ¬ s.net.Answered p.call reply)
    (hversion : args.version.toNat = s.net.writes args.key) (hq : s.procs[j]? = some q)
    (how : Owns s.net.view q w) : j = i ∧ p.st.pc = .release := by
  have hstored := hx.stored hq how
  have hone := (hx.careful.inv.writes_of_some (hb l (key_mem l)) hstored).2
  obtain ⟨hkey, hargs, hput⟩ := Handle.request_put hr
  rw [hkey, hargs] at hversion
  obtain ⟨hpc, -⟩ | ⟨hpc, -⟩ | ⟨hpc, -⟩ := hput
  · -- it asks for version 0, but the key of an owned lock has been written
    rw [(hx.stands i p hp).1.make (.inr hpc)] at hversion
    simp only [UInt64.toNat_zero] at hversion
    omega
  · -- it has read that the lock is free
    exact absurd rfl ((hx.stands i p hp).1.tryPut hpc hversion _ hstored)
  · exact ⟨hx.unique hq hp how (.inr (.inr ⟨hpc, hfresh _, rfl⟩)), hpc⟩

/-- After it, nobody owns the lock but a handle whose `tryAcquire` this was. -/
theorem Exclusive.owns_after_write (hx : Exclusive l g s) (hb : Sys.Below [l] s) {args : PutArgs}
    (hp : s.procs[i]? = some p) (hr : p.st.request l = some (.put args))
    (hfresh : ∀ reply, ¬ s.net.Answered p.call reply)
    (hversion : args.version.toNat = s.net.writes args.key) (hw : s.net.Writes p.call args v)
    (hq : s.procs[j]? = some q) (how : Owns v q w) :
    j = i ∧ p.st.pc = .tryPut ∧ w = p.st.version + 1 := by
  have hbefore : ∀ w, Owns s.net.view q w → j = i ∧ p.st.pc = .release := fun w ↦
    hx.owns_before_write hb hp hr hfresh hversion hq
  have hsame : j = i → q = p := by
    intro hji
    rw [hji, hp, Option.some.injEq] at hq
    exact hq.symm
  obtain ⟨hheld, rfl⟩ | ⟨hpc, hn, rfl⟩ | ⟨hpc, hn, rfl⟩ := how
  · -- a holder would have been the writer, but a holder sends no `Put`
    obtain ⟨hji, hpc⟩ := hbefore _ (.inl ⟨hheld, rfl⟩)
    obtain rfl := hsame hji
    obtain hno | hno | hno := (hx.stands j q hq).1.held_pc hheld <;> rw [hpc] at hno <;> cases hno
  · by_cases hji : j = i
    · obtain rfl := hsame hji
      exact ⟨hji, hpc, rfl⟩
    · have hreq : (Handle.program l).request q.st = some (.put ⟨l, lit "1", q.st.version⟩) := by
        simp [Handle.program, Handle.request, hpc]
      have hold := (hx.careful.took_writes hp hr hq hreq (Ne.symm hji) hw).mp hn
      exact absurd (hbefore _ (.inr (.inl ⟨hpc, hold, rfl⟩))).1 hji
  · -- the release that takes effect gives the lock up
    have hold : ¬ s.net.view.Took q.call := fun ht ↦ hn ((hw.answered _ _).mpr (.inl ht))
    obtain rfl := hsame (hbefore _ (.inr (.inr ⟨hpc, hold, rfl⟩))).1
    exact absurd (Sys.took_self hw) hn

theorem exclusion_proved (l : GoString) : (exclusion l).Proved (Handle.program l) [l] where
  timely h hb hp hcause hreq _ := Exclusive.timely h hb hp hcause hreq
  moves {g s i n p st} h _ hp hcause hfresh := by
    have hmoved : HandleInv l s.net.view ⟨st, n⟩ ∧
        ∀ w, Owns s.net.view ⟨st, n⟩ w → Owns s.net.view p w := by
      cases hcause with
      | act _ hact => exact called hact hfresh
      | resume _ hres hresume => exact Exclusive.resumed h hp hres (Handle.resumes hresume) hfresh
    exact ⟨hmoved.1, fun w how ↦ (h.stands i p hp).2 w (hmoved.2 w how)⟩
  answers {g s m r v} h _ ha := by
    refine ⟨fun i w hg ↦ (ha.server l (key_mem l)).trans (h.shared i w hg), fun i p hp ↦ ?_⟩
    obtain ⟨hfine, howns⟩ := Exclusive.answers h ha hp
    exact ⟨hfine, fun w how ↦ (h.stands i p hp).2 w (howns w how)⟩
  writes {g s i p args v} h hb hp hreq _ hversion hfresh hw _ := by
    obtain ⟨hkey, hargs, hput⟩ := Handle.request_put hreq
    have hwritten := hw.written
    have hstored := hw.stored
    rw [hkey] at hwritten hstored
    refine ⟨if p.st.pc = .tryPut then some (i, p.st.version + 1) else none, ?_, fun j q hq ↦ ?_⟩
    · intro i' w hg
      rw [Option.ite_none_right_eq_some, Option.some.injEq, Prod.mk.injEq] at hg
      obtain ⟨hpc, rfl, rfl⟩ := hg
      obtain ⟨hpc', -⟩ | ⟨-, hvalue⟩ | ⟨hpc', -⟩ := hput
      · rw [hpc] at hpc'
        cases hpc'
      · rw [hstored, hargs, hvalue]
      · rw [hpc] at hpc'
        cases hpc'
    · have hfine := (h.stands j q hq).1
      refine ⟨⟨hfine.make, ?_, hfine.held_pc, ?_⟩, ?_⟩
      · -- the version of an earlier `Get` is behind the key now
        intro hpc hcur
        have hsent : q.st.version.toNat ≤ s.net.writes l :=
          (h.careful.versions l (key_mem l)).sent q.call ⟨l, lit "1", q.st.version⟩
            (h.careful.req hq (by simp [Handle.program, Handle.request, hpc])) rfl
        omega
      · exact fun r hheld hpc ha ↦ hfine.held_get r hheld hpc ((Sys.got_writes hw).mp ha)
      · intro w how
        obtain ⟨rfl, hpc, rfl⟩ :=
          Exclusive.owns_after_write h hb hp hreq hfresh hversion hw hq how
        rw [if_pos hpc]

/-! ## Every run -/

theorem Exclusive.makeLock (h : Exclusive l g s) : Exclusive l g (s.makeLock l) := by
  refine h.moved (Sys.moved_spawn _) (by simp [Handle.program, Handle.request, Handle.made]) ?_
  refine ⟨⟨fun _ ↦ rfl, by simp [Handle.made], by simp [Handle.made], by simp [Handle.made]⟩, ?_⟩
  exact fun w how ↦ (how.elim (by simp [Handle.made]) (by simp [Handle.made])).elim

theorem exclusive_init : Exclusive l none LockSys.init := by
  have hcareful : Sys.Careful (Handle.program l) [l] (Sys.start Net.init []) :=
    Sys.Careful.start_init (by simp) (by simp)
  exact ⟨hcareful, by simp [exclusion], by simp [LockSys.init]⟩

theorem exclusive_of_reaches (h : Reaches (step l) LockSys.init s) (hb : s.net.writes l < 2 ^ 64) :
    ∃ g, Exclusive l g s := by
  have hbelow : ∀ {u : LockSys}, u.net.writes l < 2 ^ 64 → Sys.Below [l] u := by
    intro u hu k hk
    rw [List.mem_singleton.mp hk]
    exact hu
  refine h.invariant_below (B := fun s ↦ s.net.writes l < 2 ^ 64)
    (I := fun s ↦ ∃ g, Exclusive l g s) ?_ ⟨_, exclusive_init⟩ ?_ hb
  · intro u a v hs hv
    exact lt_of_le_of_lt (writes_le_of_step hs l) hv
  · rintro u a v - hs hv ⟨g, hg⟩
    have hu := lt_of_le_of_lt (writes_le_of_step hs l) hv
    obtain rfl | ⟨a, ha⟩ := sys_of_step hs
    · exact ⟨g, hg.makeLock⟩
    · exact (exclusion_proved l).step hg (hbelow hu) (hbelow hv) (Sys.apart_singleton ha)

end LockSys

/-- At most one handle is between the return of its `Acquire` and the start of its following
`Release`, and while one is, the key holds `"1"` at the version of that handle. -/
theorem lock_mutual_exclusion {l : GoString} {s : LockSys}
    (h : Reaches (LockSys.step l) LockSys.init s) (hb : s.net.writes l < 2 ^ 64) :
    (∀ (i j : Nat) (h k : Handle), s.handles[i]? = some h → s.handles[j]? = some k →
      h.held = true → k.held = true → i = j) ∧
    ∀ (i : Nat) (h : Handle), s.handles[i]? = some h → h.held = true →
      s.net.server.m l = some ⟨lit "1", h.version⟩ := by
  obtain ⟨g, hx⟩ := LockSys.exclusive_of_reaches h hb
  refine ⟨fun i j h k hh hk hheld hkeld ↦ hx.held_unique hh hk hheld hkeld, ?_⟩
  intro i h hh hheld
  obtain ⟨n, hp⟩ := LockSys.handles_eq_some.mp hh
  exact hx.stored hp (.inl ⟨hheld, rfl⟩)

/-- One handle makes the lock and acquires it while a second handle is being made. -/
def acquireOnce : List LockAction :=
  [.makeLock, .net (.exec 0), .net (.deliver 0), .resume 0, .net (.exec 1), .net (.deliver 1),
   .resume 0, .makeLock, .acquire 0, .net (.exec 3), .net (.deliver 3), .resume 0, .net (.exec 4),
   .net (.deliver 4), .resume 0, .net (.exec 2), .net (.deliver 2), .resume 1]

theorem lock_mutual_exclusion_acquireOnce :
    ∃ s, run (LockSys.step (lit "l")) LockSys.init acquireOnce = some s ∧
      (s.handles.map Handle.held = [true, false]) ∧
      s.net.server.m (lit "l") = some ⟨lit "1", 2⟩ := by
  refine ⟨_, rfl, rfl, ?_⟩
  exact (lock_mutual_exclusion (reaches_of_run (l := acquireOnce) rfl) (by decide)).2 0
    ⟨2, true, .idle⟩ rfl rfl

end GoLabs.KvSrv
