import GoLabs.Reasoning.Json
import GoLabs.KvTest.ConcurrentPuts

/-!
# Programs that are alone on their key

The loop of `TestUnreliableNet` of `kvsrv1/kvsrv_test.go` and `PutAtLeastOnce` of
`kvtest1/kvtest.go`.  Both are one process that is the only one to put to its key, over a network
that loses and delays.  Whatever its `Put` returns, the process then knows what the key holds:
`ErrMaybe` means that the `Put` has taken effect.
-/

open GoLabs.Reasoning GoLabs.KvSrv

namespace GoLabs.KvTest

/-! ## `TestUnreliableNet` -/

/-- The calls of `t.Fatalf`. -/
inductive NetFatal where
  | json (why : Fatalf)
  /-- `"Put shouldn't have happen more than once %v"` -/
  | again (err : Err)
  /-- `"Wrong version %d expect %d"` -/
  | wrongVersion (ver : Tversion) (expect : Nat)
  /-- `"Wrong value %d expect %d"` -/
  | wrongValue (v expect : Nat)
  /-- `"Clerk.Put never returned ErrMaybe"` -/
  | neverMaybe
  deriving DecidableEq, Repr

inductive NetPc where
  | start
  /-- In `PutJson` of `i` at version `try`. -/
  | put (try_ i : Nat)
  | get (try_ : Nat)
  /-- At the call of `ts.CheckPorcupine`. -/
  | checkPorcupine
  | fatal (why : NetFatal)
  deriving DecidableEq, Repr

/-- A run of `TestUnreliableNet` up to its call of `ts.CheckPorcupine`.  That call and the deferred
`ts.Cleanup`, which fails after 120 seconds, are not part of it. -/
structure NetTest where
  retried : Bool
  pc : NetPc
  deriving DecidableEq, Repr

namespace NetTest

variable (J : Codec Nat) (ntry : Nat)

/-- The head of the outer loop, and the code after it up to `ts.CheckPorcupine`. -/
def next (c : NetTest) (try_ : Nat) : NetTest :=
  if try_ < ntry then { c with pc := .put try_ 0 }
  else if !c.retried then { c with pc := .fatal .neverMaybe }
  else { c with pc := .checkPorcupine }

def request (c : NetTest) : Option Request :=
  match c.pc with
  | .put try_ i => some (.put ⟨key, J.marshal i, UInt64.ofNat try_⟩)
  | .get _ => some (.get ⟨key⟩)
  | .start | .checkPorcupine | .fatal _ => none

def resume (c : NetTest) (res : Result) : Option NetTest :=
  match c.pc, res with
  | .put try_ i, .put err =>
      if err ≠ .errMaybe then
        if i > 0 ∧ err ≠ .errVersion then some { c with pc := .fatal (.again err) }
        else some { c with pc := .get try_ }
      -- try put again; it should fail with ErrVersion
      else some { retried := true, pc := .put try_ (i + 1) }
  | .get try_, .get val ver err =>
      match getJson J key 0 val ver err with
      | .error why => some { c with pc := .fatal (.json why) }
      | .ok (v, ver) =>
          if ver ≠ UInt64.ofNat (try_ + 1) then
            some { c with pc := .fatal (.wrongVersion ver (try_ + 1)) }
          else if v ≠ 0 then some { c with pc := .fatal (.wrongValue v 0) }
          else some (c.next ntry (try_ + 1))
  | _, _ => none

/-- The test begins. -/
def act (c : NetTest) (_ : Unit) : Option NetTest :=
  match c.pc with
  | .start => some (c.next ntry 0)
  | _ => none

def program : Program NetTest Unit :=
  { request := request J, resume := resume J ntry, act := act ntry }

def step : Sys NetTest → SysAction Unit → Option (Sys NetTest) :=
  restrict (Sys.step (program J ntry) key) (Sys.apart [key])

def begin : Sys NetTest := Sys.start Net.init [{ retried := false, pc := .start }]

end NetTest

/-- The key holds `value`, after `n` writes. -/
def Held (v : View) (value : GoString) (n : Nat) : Prop :=
  v.writes key = n ∧ v.server.m key = some ⟨value, UInt64.ofNat n⟩

/-- Where the test stands. -/
def NetStands (J : Codec Nat) (ntry : Nat) (v : View) (p : Proc NetTest) : Prop :=
  match p.st.pc with
  | .start => v.writes key = 0
  | .put try_ 0 => try_ < ntry ∧ (v.Took p.call → Held v (J.marshal 0) (try_ + 1)) ∧
      (¬ v.Took p.call → v.writes key = try_)
  -- the first `Put` has returned `ErrMaybe`
  | .put try_ (_ + 1) => try_ < ntry ∧ Held v (J.marshal 0) (try_ + 1) ∧ ¬ v.Took p.call
  | .get try_ => try_ < ntry ∧ Held v (J.marshal 0) (try_ + 1) ∧
      ∀ g, v.answered p.call (.get g) → g = ⟨J.marshal 0, UInt64.ofNat (try_ + 1), .ok⟩
  | .checkPorcupine => v.writes key = ntry
  | .fatal why => why = .neverMaybe ∧ v.writes key = ntry

def netOutline (J : Codec Nat) (ntry : Nat) : Sys.Outline NetTest Unit where
  shared _ v := v.writes key ≤ ntry
  stands _ v i p := i = 0 ∧ NetStands J ntry v p

section NetTest

variable {J : Codec Nat} {ntry : Nat} {s : Sys NetTest} {c : NetTest} {p : Proc NetTest} {v : View}
  {i n : Nat}

theorem netTest_put {try_ k : Nat} (hpc : c.pc = .put try_ k) :
    (NetTest.program J ntry).request c = some (.put ⟨key, J.marshal k, UInt64.ofNat try_⟩) := by
  simp only [NetTest.program, NetTest.request, hpc]

theorem netTest_get {try_ : Nat} (hpc : c.pc = .get try_) :
    (NetTest.program J ntry).request c = some (.get ⟨key⟩) := by
  simp only [NetTest.program, NetTest.request, hpc]

/-- What the code after a Clerk call does. -/
inductive NetTest.Resumed (J : Codec Nat) (ntry : Nat) (c : NetTest) : Result → NetTest → Prop where
  | again {try_ k : Nat} {err : Err} (hpc : c.pc = .put try_ (k + 1)) (hmaybe : err ≠ .errMaybe)
      (hver : err ≠ .errVersion) : Resumed J ntry c (.put err) { c with pc := .fatal (.again err) }
  | read {try_ k : Nat} {err : Err} (hpc : c.pc = .put try_ k) (hmaybe : err ≠ .errMaybe) :
      Resumed J ntry c (.put err) { c with pc := .get try_ }
  | maybe {try_ k : Nat} (hpc : c.pc = .put try_ k) :
      Resumed J ntry c (.put .errMaybe) { retried := true, pc := .put try_ (k + 1) }
  | fatal {try_ : Nat} {val : GoString} {ver : Tversion} {err : Err} {why : NetFatal}
      (hpc : c.pc = .get try_)
      (hbad : err ≠ .ok ∨ ver ≠ UInt64.ofNat (try_ + 1) ∨ J.unmarshal val ≠ some 0) :
      Resumed J ntry c (.get val ver err) { c with pc := .fatal why }
  | next {try_ : Nat} {val : GoString} {ver : Tversion} {err : Err} (hpc : c.pc = .get try_) :
      Resumed J ntry c (.get val ver err) (c.next ntry (try_ + 1))

theorem NetTest.resumed_of_resume {c' : NetTest} {res : Result}
    (h : c.resume J ntry res = some c') : NetTest.Resumed J ntry c res c' := by
  unfold NetTest.resume at h
  split at h
  · rename_i try_ k err hpc
    split at h
    · rename_i hmaybe
      split at h <;> cases h
      · rename_i hagain
        obtain ⟨m, rfl⟩ := Nat.exists_eq_succ_of_ne_zero (Nat.pos_iff_ne_zero.mp hagain.1)
        exact .again hpc hmaybe hagain.2
      · exact .read hpc hmaybe
    · rename_i hmaybe
      cases h
      rw [not_not.mp hmaybe]
      exact .maybe hpc
  · rename_i try_ val ver err hpc
    unfold getJson at h
    by_cases hok : err = .ok
    · rw [if_pos hok] at h
      cases hval : J.unmarshal val with
      | none =>
          rw [hval] at h
          cases h
          exact .fatal hpc (.inr (.inr (by simp [hval])))
      | some w =>
          rw [hval] at h
          simp only at h
          split at h
          · rename_i hver
            cases h
            exact .fatal hpc (.inr (.inl hver))
          · split at h <;> cases h
            · rename_i hw
              exact .fatal hpc (.inr (.inr (by simpa [hval] using hw)))
            · exact .next hpc
    · rw [if_neg hok] at h
      cases h
      exact .fatal hpc (.inl hok)
  · cases h

theorem NetStands.writes_le (h : NetStands J ntry v p) : v.writes key ≤ ntry := by
  unfold NetStands at h
  split at h
  · omega
  · obtain ⟨hlt, hyes, hno⟩ := h
    by_cases htook : v.Took p.call
    · have hheld := (hyes htook).1
      omega
    · have hold := hno htook
      omega
  · have hheld := h.2.1.1
    omega
  · have hheld := h.2.1.1
    omega
  · omega
  · omega

theorem netTest_next {try_ : Nat} (hle : try_ ≤ ntry) (hw : v.writes key = try_)
    (hfresh : ¬ v.Took n) : NetStands J ntry v ⟨c.next ntry try_, n⟩ := by
  unfold NetTest.next
  split
  · rename_i hlt
    exact ⟨hlt, fun htook ↦ absurd htook hfresh, fun _ ↦ hw⟩
  · split
    · exact ⟨rfl, by omega⟩
    · show v.writes key = ntry
      omega

/-- A `Put` of the test that has returned: the key holds what the first `Put` of this try has
written, and a second `Put` was refused. -/
theorem netTest_returned (hn : ntry < 2 ^ 64)
    (h : (netOutline J ntry).Holds (NetTest.program J ntry) [key] () s) (hp : s.procs[i]? = some p)
    {try_ k : Nat} (hpc : p.st.pc = .put try_ k) {err : Err}
    (hres : s.net.result p.call = some (.put err)) :
    try_ < ntry ∧ Held s.net.view (J.marshal 0) (try_ + 1) ∧
      (0 < k → err = .errVersion ∨ err = .errMaybe) := by
  have hstands := (h.stands i p hp).2
  have hkey : key ∈ [key] := List.mem_singleton.mpr rfl
  have hreq := h.careful.req hp (netTest_put hpc)
  have hbehind := h.careful.put_behind hreq hkey hres
  unfold NetStands at hstands
  cases k with
  | zero =>
      simp only [hpc] at hstands
      obtain ⟨hlt, hyes, hno⟩ := hstands
      simp only [UInt64.toNat_ofNat', Nat.mod_eq_of_lt (Nat.lt_trans hlt hn)] at hbehind
      have htook : s.net.view.Took p.call := by
        by_contra hnot
        have hsame : s.net.writes key = try_ := hno hnot
        omega
      exact ⟨hlt, hyes htook, fun hpos ↦ absurd hpos (Nat.lt_irrefl 0)⟩
  | succ k =>
      simp only [hpc] at hstands
      obtain ⟨hlt, hheld, hnot⟩ := hstands
      refine ⟨hlt, hheld, fun _ ↦ ?_⟩
      obtain ⟨rfl, htook⟩ | ⟨rfl, _⟩ | rfl := h.careful.put_result hreq hkey hres
      · exact absurd htook hnot
      · exact .inl rfl
      · exact .inr rfl

theorem netTest_timely (h : (netOutline J ntry).Holds (NetTest.program J ntry) [key] () s)
    (hn : ntry < 2 ^ 64) (hp : s.procs[i]? = some p)
    (hcause : Sys.Cause (NetTest.program J ntry) s.net p c) {try_ k : Nat}
    (hpc : c.pc = .put try_ k) : try_ ≤ s.net.writes key := by
  have hstands := (h.stands i p hp).2
  have hnext : ∀ (c' : NetTest) (t : Nat), (c'.next ntry t).pc = .put try_ k → try_ = t := by
    intro c' t hnext
    unfold NetTest.next at hnext
    split at hnext
    · exact (NetPc.put.inj hnext).1.symm
    · split at hnext <;> cases hnext
  cases hcause with
  | act _ hact =>
      simp only [NetTest.program, NetTest.act] at hact
      split at hact
      · cases hact
        rw [hnext _ _ hpc]
        exact Nat.zero_le _
      · cases hact
  | resume _ hres hresume =>
      cases NetTest.resumed_of_resume hresume with
      | maybe hpc' =>
          obtain ⟨rfl, -⟩ := NetPc.put.inj hpc
          have hheld := (netTest_returned hn h hp hpc' hres).2.1.1
          change s.net.writes key = _ at hheld
          omega
      | @next t val ver err hpc' =>
          rw [hnext _ _ hpc]
          simp only [NetStands, hpc'] at hstands
          exact hstands.2.1.1.ge
      | again hpc' hmaybe hver => cases hpc
      | read hpc' hmaybe => cases hpc
      | fatal hpc' hbad => cases hpc

theorem netTest_moves (h : (netOutline J ntry).Holds (NetTest.program J ntry) [key] () s)
    (hn : ntry < 2 ^ 64) (hp : s.procs[i]? = some p)
    (hcause : Sys.Cause (NetTest.program J ntry) s.net p c)
    (hfresh : ∀ reply, ¬ s.net.Answered n reply) : NetStands J ntry s.net.view ⟨c, n⟩ := by
  have hstands := (h.stands i p hp).2
  cases hcause with
  | act _ hact =>
      simp only [NetTest.program, NetTest.act] at hact
      split at hact
      · rename_i hpc
        cases hact
        simp only [NetStands, hpc] at hstands
        exact netTest_next (Nat.zero_le _) hstands (hfresh _)
      · cases hact
  | resume _ hres hresume =>
      cases NetTest.resumed_of_resume hresume with
      | again hpc hmaybe hver =>
          obtain rfl | rfl := (netTest_returned hn h hp hpc hres).2.2 (Nat.succ_pos _)
          · exact absurd rfl hver
          · exact absurd rfl hmaybe
      | read hpc hmaybe =>
          obtain ⟨hlt, hheld, _⟩ := netTest_returned hn h hp hpc hres
          exact ⟨hlt, hheld, fun g ha ↦ absurd ha (hfresh _)⟩
      | maybe hpc =>
          obtain ⟨hlt, hheld, _⟩ := netTest_returned hn h hp hpc hres
          exact ⟨hlt, hheld, hfresh _⟩
      | fatal hpc hbad =>
          simp only [NetStands, hpc] at hstands
          obtain ⟨g, ha, herr, hsame, _⟩ := h.careful.get_result hres
          have hg := hstands.2.2 g ha
          subst hg
          obtain rfl := herr
          obtain ⟨rfl, rfl⟩ := hsame rfl
          obtain hbad | hbad | hbad := hbad
          · exact absurd rfl hbad
          · exact absurd rfl hbad
          · exact absurd (J.round 0) hbad
      | next hpc =>
          simp only [NetStands, hpc] at hstands
          exact netTest_next hstands.1 hstands.2.1.1 (hfresh _)

theorem netTest_writes (h : (netOutline J ntry).Holds (NetTest.program J ntry) [key] () s)
    (hn : ntry < 2 ^ 64) (hp : s.procs[i]? = some p) {args : PutArgs}
    (hreq : (NetTest.program J ntry).request p.st = some (.put args))
    (hversion : args.version.toNat = s.net.writes args.key)
    (hfresh : ∀ reply, ¬ s.net.Answered p.call reply) (hw : s.net.Writes p.call args v) :
    NetStands J ntry v p := by
  have hstands := (h.stands i p hp).2
  cases hpc : p.st.pc with
  | put try_ k =>
      rw [netTest_put hpc, Option.some.injEq, Request.put.injEq] at hreq
      subst hreq
      unfold NetStands at hstands ⊢
      cases k with
      | zero =>
          simp only [hpc] at hstands ⊢
          have hold : s.net.writes key = try_ := hstands.2.2 (hfresh _)
          refine ⟨hstands.1, fun _ ↦ ⟨?_, ?_⟩, fun hnot ↦ absurd (Sys.took_self hw) hnot⟩
          · rw [hw.written, hold]
          · rw [hw.stored, UInt64.ofNat_add]
            rfl
      | succ k =>
          simp only [hpc] at hstands
          have hheld : s.net.writes key = try_ + 1 := hstands.2.1.1
          simp only [UInt64.toNat_ofNat', Nat.mod_eq_of_lt (Nat.lt_trans hstands.1 hn)] at hversion
          omega
  | _ => simp [NetTest.program, NetTest.request, hpc] at hreq

theorem netOutline_proved (J : Codec Nat) {ntry : Nat} (hn : ntry < 2 ^ 64) :
    (netOutline J ntry).Proved (NetTest.program J ntry) [key] where
  timely {_ s i p c args} h _ hp hcause hreq hkey := by
    obtain ⟨k, try_, hpc, rfl⟩ : ∃ k try_, c.pc = .put try_ k ∧
        args = ⟨key, J.marshal k, UInt64.ofNat try_⟩ := by
      cases hpc : c.pc with
      | put try_ k =>
          rw [netTest_put hpc, Option.some.injEq, Request.put.injEq] at hreq
          exact ⟨k, try_, rfl, hreq.symm⟩
      | _ => simp [NetTest.program, NetTest.request, hpc] at hreq
    exact (Nat.mod_le _ _).trans (netTest_timely h hn hp hcause hpc)
  moves h _ hp hcause hfresh := ⟨(h.stands _ _ hp).1, netTest_moves h hn hp hcause hfresh⟩
  answers {_ s m r v} h _ ha := by
    have hkey : key ∈ [key] := List.mem_singleton.mpr rfl
    have hwrites : v.writes key = s.net.view.writes key := ha.writes key hkey
    have hserver : v.server.m key = s.net.view.server.m key := ha.server key hkey
    refine ⟨hwrites.trans_le h.shared, fun i p hp ↦ ⟨(h.stands i p hp).1, ?_⟩⟩
    have hstands := (h.stands i p hp).2
    unfold NetStands Held at hstands ⊢
    cases hpc : p.st.pc with
    | put try_ k =>
        have htook := h.careful.took_answers hp (netTest_put hpc) hkey ha
        cases k with
        | zero =>
            simp only [hpc, htook, hwrites, hserver] at hstands ⊢
            exact hstands
        | succ k =>
            simp only [hpc, htook, hwrites, hserver] at hstands ⊢
            exact hstands
    | get try_ =>
        simp only [hpc, hwrites, hserver] at hstands ⊢
        refine ⟨hstands.1, hstands.2.1, ?_⟩
        intro g hg
        obtain hold | rfl := h.careful.got_answers hp (netTest_get hpc) ha hg
        · exact hstands.2.2 g hold
        · have hstored : s.net.server.m key = _ := hstands.2.1.2
          simp only [KVServer.get, hstored]
    | start => simpa only [hpc, hwrites] using hstands
    | checkPorcupine => simpa only [hpc, hwrites] using hstands
    | fatal why => simpa only [hpc, hwrites] using hstands
  writes {_ s i p args v} h _ hp hreq _ hversion hfresh hw _ := by
    have hstands := netTest_writes h hn hp hreq hversion hfresh hw
    refine ⟨(), hstands.writes_le, fun j q hq ↦ ?_⟩
    -- there is one process only
    obtain rfl := (h.stands i p hp).1
    obtain rfl := (h.stands j q hq).1
    rw [hp, Option.some.injEq] at hq
    subst hq
    exact ⟨rfl, hstands⟩

theorem netOutline_begin (J : Codec Nat) (ntry : Nat) :
    (netOutline J ntry).Holds (NetTest.program J ntry) [key] () NetTest.begin := by
  refine ⟨Sys.Careful.start_init (List.cons_ne_nil _ _) ?_, Nat.zero_le _, ?_⟩
  · intro c hc
    rw [List.mem_singleton.mp hc]
    rfl
  · intro i p hp
    obtain ⟨hi, hp⟩ := List.getElem?_eq_some_iff.mp hp
    have hi0 : i = 0 := by simpa [NetTest.begin, Sys.start] using hi
    subst hi0
    rw [← hp]
    exact ⟨rfl, rfl⟩

end NetTest

/-- Alone on its key, `TestUnreliableNet` gets to `ts.CheckPorcupine`, unless the network never made
a `Put` return `ErrMaybe`.  After an `ErrMaybe` the `Put` has taken effect once, no `Put` returns
`ErrNoKey`, and at the end the key has been written once per try. -/
theorem unreliableNet_loop {J : Codec Nat} {ntry : Nat} (hn : ntry + 1 < 2 ^ 64) {s : Sys NetTest}
    (h : Reaches (NetTest.step J ntry) NetTest.begin s) {p : Proc NetTest}
    (hp : s.procs[0]? = some p) :
    (∀ why, p.st.pc = .fatal why → why = .neverMaybe) ∧
      (∀ try_ i, p.st.pc = .put try_ (i + 1) → s.net.writes key = try_ + 1 ∧
        s.net.server.m key = some ⟨J.marshal 0, UInt64.ofNat (try_ + 1)⟩) ∧
      (∀ try_ i err, p.st.pc = .put try_ i → s.net.result p.call = some (.put err) →
        err ≠ .errNoKey) ∧
      (p.st.pc = .checkPorcupine → s.net.writes key = ntry) := by
  have hbound : ∀ g s, (netOutline J ntry).Holds (NetTest.program J ntry) [key] g s →
      ∀ k ∈ [key], s.net.writes k + 1 < 2 ^ 64 := by
    intro _ s hs k hk
    have hle : s.net.writes key ≤ ntry := hs.shared
    rw [List.mem_singleton.mp hk]
    omega
  obtain ⟨_, hs⟩ := (netOutline_proved J (Nat.lt_of_succ_lt hn)).reaches_bounded
    ⟨_, netOutline_begin J ntry⟩ hbound h
  have hstands := (hs.stands 0 p hp).2
  refine ⟨?_, ?_, ?_, ?_⟩
  · intro why hpc
    simp only [NetStands, hpc] at hstands
    exact hstands.1
  · intro try_ i hpc
    simp only [NetStands, hpc] at hstands
    exact hstands.2.1
  · intro try_ i err hpc hres
    have hreq := hs.careful.req hp (netTest_put hpc)
    obtain ⟨rfl, -⟩ | ⟨rfl, -⟩ | rfl :=
      hs.careful.put_result hreq (List.mem_singleton.mpr rfl) hres <;> decide
  · intro hpc
    simp only [NetStands, hpc] at hstands
    exact hstands

/-- The reply to the only `Put` is lost; the test puts again and is refused. -/
def oneTry : List (SysAction Unit) :=
  [.act 0 (), .net (.exec 0), .net (.lose 0), .net (.resend 0), .net (.exec 1), .net (.deliver 0),
   .resume 0, .net (.exec 2), .net (.deliver 1), .resume 0, .net (.exec 3), .net (.deliver 2),
   .resume 0]

theorem oneTry_runs :
    (run (NetTest.step Format.number.codec 1) NetTest.begin oneTry).isSome = true := by
  decide +kernel

theorem unreliableNet_loop_oneTry :
    ∃ s p, run (NetTest.step Format.number.codec 1) NetTest.begin oneTry = some s ∧
      s.procs[0]? = some p ∧ p.st.pc = .checkPorcupine ∧ s.net.writes key = 1 := by
  have hproc : ((run (NetTest.step Format.number.codec 1) NetTest.begin oneTry).get
      oneTry_runs).procs[0]?.map (fun p => p.st.pc) = some .checkPorcupine := by
    decide +kernel
  obtain ⟨p, hp, hpc⟩ := Option.map_eq_some_iff.mp hproc
  exact ⟨_, p, (Option.some_get oneTry_runs).symm, hp, hpc,
    (unreliableNet_loop (by decide) (reaches_get oneTry_runs) hp).2.2.2 hpc⟩

/-! ## `PutAtLeastOnce` -/

inductive OncePc where
  | start (ver : Tversion)
  | put (ver : Tversion)
  | returned (ver : Tversion)
  deriving DecidableEq, Repr

/-- A run of `PutAtLeastOnce`.  `maybes` is not read by it: it counts the `Put`s that returned
`ErrMaybe`. -/
structure Once where
  maybes : Nat
  pc : OncePc
  deriving DecidableEq, Repr

namespace Once

variable (k value : GoString)

def request (c : Once) : Option Request :=
  match c.pc with
  | .put ver => some (.put ⟨k, value, ver⟩)
  | .start _ | .returned _ => none

def resume (c : Once) (res : Result) : Option Once :=
  match c.pc, res with
  | .put ver, .put err =>
      if err = .ok then some { c with pc := .returned ver }
      else some { maybes := if err = .errMaybe then c.maybes + 1 else c.maybes,
                  pc := .put (ver + 1) }
  | _, _ => none

def act (c : Once) (_ : Unit) : Option Once :=
  match c.pc with
  | .start ver => some { c with pc := .put ver }
  | _ => none

def program : Program Once Unit := { request := request k value, resume := resume, act := act }

def step : Sys Once → SysAction Unit → Option (Sys Once) :=
  restrict (Sys.step (program k value) k) (Sys.apart [k])

/-- The key has been written `v` times when the call begins. -/
def begin (old : GoString) (v : Nat) (ver : Tversion) : Sys Once :=
  Sys.start (Net.prepared k old v) [{ maybes := 0, pc := .start ver }]

end Once

/-- The calls of `ts.Fatalf` in `CheckGet`. -/
inductive GetFatal where
  /-- `"CheckGet err %v"` -/
  | err (err : Err)
  /-- `"Get(%v): expected:\n%v %v\nreceived:\n%v %v"` -/
  | received (key value val : GoString) (version ver : Tversion)
  deriving DecidableEq, Repr

/-- `CheckGet` after its `Get`.  The version is compared with itself. -/
def checkGet (key value : GoString) (version : Tversion) (val : GoString) (ver : Tversion)
    (err : Err) : Except GetFatal Unit :=
  if err ≠ .ok then .error (.err err)
  else if val ≠ value ∨ ver ≠ ver then .error (.received key value val version ver)
  else .ok ()

/-- The key holds the value, written at version `ver`. -/
def StoredAt (k value : GoString) (v : View) (ver : Tversion) : Prop :=
  v.writes k = ver.toNat + 1 ∧ v.server.m k = some ⟨value, ver + 1⟩

def OnceStands (k value : GoString) (v₀ : Nat) (v : View) (p : Proc Once) : Prop :=
  match p.st.pc with
  | .start ver => ver.toNat ≤ v₀ ∧ v.writes k = v₀
  | .put ver => ver.toNat ≤ v₀ + p.st.maybes ∧
      (v.Took p.call → v₀ ≤ ver.toNat ∧ StoredAt k value v ver) ∧
      (¬ v.Took p.call → v.writes k = max v₀ ver.toNat)
  | .returned ver => v₀ ≤ ver.toNat ∧ ver.toNat ≤ v₀ + p.st.maybes ∧ StoredAt k value v ver

def onceOutline (k value : GoString) (v₀ : Nat) : Sys.Outline Once Unit where
  shared _ _ := True
  stands _ v i p := i = 0 ∧ OnceStands k value v₀ v p

section Once

variable {k value old : GoString} {v₀ : Nat} {s t : Sys Once} {c : Once} {p : Proc Once} {v : View}
  {i n : Nat}

theorem once_put {ver : Tversion} (hpc : c.pc = .put ver) :
    (Once.program k value).request c = some (.put ⟨k, value, ver⟩) := by
  simp only [Once.program, Once.request, hpc]

/-- A process that moves on begins its first `Put`, returns, or has passed the version. -/
theorem once_cause (h : (onceOutline k value v₀).Holds (Once.program k value) [k] () s)
    (hb : Sys.Below [k] s) (hp : s.procs[i]? = some p)
    (hcause : Sys.Cause (Once.program k value) s.net p c) :
    (∃ ver, c.pc = .put ver ∧ ver.toNat ≤ v₀ + c.maybes ∧ s.net.writes k = max v₀ ver.toNat) ∨
      ∃ ver, c.pc = .returned ver ∧ v₀ ≤ ver.toNat ∧ ver.toNat ≤ v₀ + c.maybes ∧
        StoredAt k value s.net.view ver := by
  have hstands := (h.stands i p hp).2
  have hkey : k ∈ [k] := List.mem_singleton.mpr rfl
  cases hcause with
  | act _ hact =>
      simp only [Once.program, Once.act] at hact
      split at hact
      · rename_i ver hpc
        cases hact
        simp only [OnceStands, hpc] at hstands
        refine .inl ⟨ver, rfl, by omega, ?_⟩
        rw [Nat.max_eq_left hstands.1]
        exact hstands.2
      · cases hact
  | resume _ hres hresume =>
      simp only [Once.program, Once.resume] at hresume
      split at hresume
      · rename_i ver err hpc
        simp only [OnceStands, hpc] at hstands
        obtain ⟨hle, hyes, hno⟩ := hstands
        have hreq := h.careful.req hp (once_put hpc)
        have hbehind : ver.toNat < s.net.writes k := h.careful.put_behind hreq hkey hres
        have hbound := hb k hkey
        have hsucc : (ver + 1).toNat = ver.toNat + 1 := by
          rw [UInt64.toNat_add, UInt64.toNat_one]
          exact Nat.mod_eq_of_lt (by omega)
        have hsame : ¬ s.net.Took p.call → s.net.writes k = max v₀ ver.toNat := hno
        -- `OK` returns; `ErrVersion` and `ErrMaybe` go on with the next version
        obtain ⟨rfl, htook⟩ | ⟨rfl, hnot⟩ | rfl := h.careful.put_result hreq hkey hres
        · cases hresume
          exact .inr ⟨ver, rfl, (hyes htook).1, hle, (hyes htook).2⟩
        · cases hresume
          have hw := hsame hnot
          exact .inl ⟨ver + 1, rfl, by simp only [reduceCtorEq, if_false]; omega, by omega⟩
        · cases hresume
          refine .inl ⟨ver + 1, rfl, by simp only [if_true]; omega, ?_⟩
          -- after `ErrMaybe` the value may have been written at this version or not
          by_cases htook : s.net.Took p.call
          · obtain ⟨hge, hw, _⟩ := hyes htook
            change s.net.writes k = _ at hw
            omega
          · have hw := hsame htook
            omega
      · cases hresume

theorem once_writes (h : (onceOutline k value v₀).Holds (Once.program k value) [k] () s)
    (hp : s.procs[i]? = some p) {args : PutArgs}
    (hreq : (Once.program k value).request p.st = some (.put args))
    (hversion : args.version.toNat = s.net.writes args.key)
    (hfresh : ∀ reply, ¬ s.net.Answered p.call reply) (hw : s.net.Writes p.call args v) :
    OnceStands k value v₀ v p := by
  have hstands := (h.stands i p hp).2
  cases hpc : p.st.pc with
  | put ver =>
      rw [once_put hpc, Option.some.injEq, Request.put.injEq] at hreq
      subst hreq
      unfold OnceStands at hstands ⊢
      simp only [hpc] at hstands ⊢
      obtain ⟨hle, _, hno⟩ := hstands
      have hold : s.net.writes k = max v₀ ver.toNat := hno (hfresh _)
      simp only at hversion
      refine ⟨hle, fun _ ↦ ⟨by omega, ?_, hw.stored⟩, fun hnot ↦ absurd (Sys.took_self hw) hnot⟩
      rw [hw.written, ← hversion]
  | _ => simp [Once.program, Once.request, hpc] at hreq

theorem onceOutline_proved (k value : GoString) (v₀ : Nat) :
    (onceOutline k value v₀).Proved (Once.program k value) [k] where
  timely {_ s i p c args} h hb hp hcause hreq _ := by
    obtain ⟨ver, hpc, _, hw⟩ | ⟨ver, hpc, _⟩ := once_cause h hb hp hcause
    · rw [once_put hpc, Option.some.injEq, Request.put.injEq] at hreq
      subst hreq
      show ver.toNat ≤ s.net.writes k
      omega
    · simp [Once.program, Once.request, hpc] at hreq
  moves {_ s i n p c} h hb hp hcause hfresh := by
    refine ⟨(h.stands i p hp).1, ?_⟩
    unfold OnceStands
    obtain ⟨ver, hpc, hle, hw⟩ | ⟨ver, hpc, hreturned⟩ := once_cause h hb hp hcause
    · simp only [hpc]
      exact ⟨hle, fun htook ↦ absurd htook (hfresh _), fun _ ↦ hw⟩
    · simp only [hpc]
      exact hreturned
  answers {_ s m r v} h _ ha := by
    have hkey : k ∈ [k] := List.mem_singleton.mpr rfl
    have hwrites : v.writes k = s.net.view.writes k := ha.writes k hkey
    have hserver : v.server.m k = s.net.view.server.m k := ha.server k hkey
    refine ⟨trivial, fun i p hp ↦ ⟨(h.stands i p hp).1, ?_⟩⟩
    have hstands := (h.stands i p hp).2
    unfold OnceStands StoredAt at hstands ⊢
    cases hpc : p.st.pc with
    | put ver =>
        have htook := h.careful.took_answers hp (once_put hpc) hkey ha
        simp only [hpc, htook, hwrites, hserver] at hstands ⊢
        exact hstands
    | start ver => simpa only [hpc, hwrites] using hstands
    | returned ver => simpa only [hpc, hwrites, hserver] using hstands
  writes {_ s i p args v} h _ hp hreq _ hversion hfresh hw _ := by
    refine ⟨(), trivial, fun j q hq ↦ ?_⟩
    -- there is one process only
    obtain rfl := (h.stands i p hp).1
    obtain rfl := (h.stands j q hq).1
    rw [hp, Option.some.injEq] at hq
    subst hq
    exact ⟨rfl, once_writes h hp hreq hversion hfresh hw⟩

theorem onceOutline_begin {ver : Tversion} (hle : ver.toNat ≤ v₀) :
    (onceOutline k value v₀).Holds (Once.program k value) [k] () (Once.begin k old v₀ ver) := by
  have hspec := Net.prepared_spec k old v₀
  refine ⟨Sys.Careful.start_prepared ?_, trivial, ?_⟩
  · intro c hc
    rw [List.mem_singleton.mp hc]
    rfl
  · intro i p hp
    obtain ⟨hi, hp⟩ := List.getElem?_eq_some_iff.mp hp
    have hi0 : i = 0 := by simpa [Once.begin, Sys.start] using hi
    subst hi0
    rw [← hp]
    exact ⟨rfl, hle, hspec.writes⟩

theorem once_returned {ver : Tversion} (hle : ver.toNat ≤ v₀)
    (h : Reaches (Once.step k value) (Once.begin k old v₀ ver) s) (hb : Sys.Below [k] s)
    (hp : s.procs[0]? = some p) {ret : Tversion} (hret : p.st.pc = .returned ret) :
    s.net.Inv ∧ v₀ ≤ ret.toNat ∧ ret.toNat ≤ v₀ + p.st.maybes ∧
      StoredAt k value s.net.view ret := by
  obtain ⟨_, hs⟩ := (onceOutline_proved k value v₀).reaches ⟨_, onceOutline_begin hle⟩ h hb
  have hstands := (hs.stands 0 p hp).2
  simp only [OnceStands, hret] at hstands
  exact ⟨hs.careful.inv, hstands⟩

theorem once_stays (hp : s.procs[0]? = some p) {ret : Tversion} (hret : p.st.pc = .returned ret)
    (h : Reaches (Once.step k value) s t) : t.procs[0]? = some p := by
  have hstuck : ∀ (net : Net) (c : Once), ¬ Sys.Cause (Once.program k value) net p c := by
    intro net c hcause
    cases hcause with
    | act _ hact => simp [Once.program, Once.act, hret] at hact
    | resume hreq _ _ => simp [Once.program, Once.request, hret] at hreq
  exact Sys.stays hp hstuck h.of_restrict

end Once

/-- A `PutAtLeastOnce` that is alone on its key and does not begin ahead of it has, when it returns
`ret`, left its value in the key at version `ret + 1`.  It has written the key once, and once more
for each `ErrMaybe` at most.  A `CheckGet` made later passes whatever version it asks for, so also
with `ret`, which the key does not have. -/
theorem putAtLeastOnce_stores {k value old : GoString} {v₀ : Nat} {ver ret : Tversion}
    {s : Sys Once} {p : Proc Once} (hle : ver.toNat ≤ v₀)
    (h : Reaches (Once.step k value) (Once.begin k old v₀ ver) s) (hb : Sys.Below [k] s)
    (hp : s.procs[0]? = some p) (hret : p.st.pc = .returned ret) :
    s.net.server.m k = some ⟨value, ret + 1⟩ ∧ v₀ < s.net.writes k ∧
      s.net.writes k ≤ v₀ + 1 + p.st.maybes ∧
      ∀ t n val ver' err, Reaches (Once.step k value) s t → Sys.Below [k] t →
        s.net.calls.length ≤ n → t.net.req n = some (.get ⟨k⟩) →
        t.net.result n = some (.get val ver' err) →
        ver' = ret + 1 ∧ ∀ version, checkGet k value version val ver' err = .ok () := by
  obtain ⟨hi, hge, hmay, hwrites, hstored⟩ := once_returned hle h hb hp hret
  change s.net.writes k = _ at hwrites
  refine ⟨hstored, by omega, by omega, ?_⟩
  intro t n val ver' err ht hbt hn hreq hres
  obtain ⟨hit, _⟩ := once_returned hle (h.trans ht) hbt (once_stays hp hret ht) hret
  obtain ⟨reply, retried, ha, heq⟩ := hit.answered_of_result hres
  -- the `Get` is executed in a state `u` after `s`, where the key is as it was
  obtain ⟨u, hsu, hut, rfl⟩ := Sys.answered_between ht hi hn hreq ha
  obtain ⟨_, _, _, _, hu⟩ := once_returned hle (h.trans hsu)
    (Sys.Outline.below_of_reaches hut hbt) (once_stays hp hret hsu) hret
  change u.net.server.m k = _ at hu
  simp only [clerkReturn, KVServer.dispatch, KVServer.get, hu, clerkGet, ne_eq, not_true_eq_false,
    if_false, Result.get.injEq] at heq
  obtain ⟨rfl, rfl, rfl⟩ := heq
  refine ⟨rfl, fun version ↦ ?_⟩
  simp [checkGet]

/-- The key has been written once.  The first `Put` is refused, the second takes effect but its
reply is lost, the third takes effect. -/
def twiceWritten : List (SysAction Unit) :=
  [.act 0 (), .net (.exec 1), .net (.deliver 1), .resume 0, .net (.exec 2), .net (.lose 2),
   .net (.resend 2), .net (.exec 3), .net (.deliver 2), .resume 0, .net (.exec 4),
   .net (.deliver 3), .resume 0]

theorem twiceWritten_runs :
    (run (Once.step key [50]) (Once.begin key [49] 1 0) twiceWritten).isSome = true := by
  decide +kernel

theorem putAtLeastOnce_stores_twiceWritten :
    ∃ s p, run (Once.step key [50]) (Once.begin key [49] 1 0) twiceWritten = some s ∧
      s.procs[0]? = some p ∧ p.st.pc = .returned 2 ∧ s.net.server.m key = some ⟨[50], 2 + 1⟩ ∧
      s.net.writes key ≤ 1 + 1 + p.st.maybes := by
  have hproc : ((run (Once.step key [50]) (Once.begin key [49] 1 0) twiceWritten).get
      twiceWritten_runs).procs[0]?.map (fun p => p.st.pc) = some (.returned 2) := by
    decide +kernel
  have hb : Sys.Below [key] ((run (Once.step key [50]) (Once.begin key [49] 1 0) twiceWritten).get
      twiceWritten_runs) := by
    intro k hk
    obtain rfl := List.mem_singleton.mp hk
    decide +kernel
  obtain ⟨p, hp, hpc⟩ := Option.map_eq_some_iff.mp hproc
  obtain ⟨hstored, _, hle, _⟩ := putAtLeastOnce_stores (by decide)
    (reaches_get twiceWritten_runs) hb hp hpc
  exact ⟨_, p, (Option.some_get twiceWritten_runs).symm, hp, hpc, hstored, hle⟩

end GoLabs.KvTest
