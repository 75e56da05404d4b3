import Mathlib.Algebra.GroupWithZero.Nat
import Mathlib.Algebra.Order.BigOperators.Group.Finset
import GoLabs.Reasoning.Json
import GoLabs.KvTest.ConcurrentPuts

/-!
# Puts and versions agree

`CheckPutConcurrent` of `kvtest1/kvtest.go` compares the version of a key with what the clients have
counted.  The number of writes lies between the `Put`s that returned `OK` and those that returned
`OK` or `ErrMaybe`, and on a network that loses nothing it is the number of `OK`s.
-/

open GoLabs.Reasoning GoLabs.KvSrv

namespace GoLabs.KvTest

/-- The loop over the results. -/
def addUp (rs : List ClntRes) (res : ClntRes) : ClntRes :=
  rs.foldl (fun res r => ⟨res.nok + r.nok, res.nmaybe + r.nmaybe⟩) res

/-- `CheckPutConcurrent` after its `Get`. -/
def checkPutConcurrent (J : Codec EntryV) (reliable : Bool) (key : GoString) (rs : List ClntRes)
    (res : ClntRes) (val : GoString) (ver : Tversion) (err : Err) : Except Fatalf ClntRes := do
  let (_, ver0) ← getJson J key (-1) val ver err
  let res := addUp rs res
  if !reliable && ver0 > UInt64.ofNat (res.nok + res.nmaybe) then .error (.wrongPuts ver0 res)
  if reliable && ver0 ≠ UInt64.ofNat res.nok then .error (.wrongPuts ver0 res)
  return res

theorem addUp_eq (rs : List ClntRes) (res : ClntRes) :
    addUp rs res =
      ⟨res.nok + (rs.map ClntRes.nok).sum, res.nmaybe + (rs.map ClntRes.nmaybe).sum⟩ := by
  induction rs generalizing res with
  | nil => simp [addUp]
  | cons r rs ih =>
      change addUp rs _ = _
      rw [ih]
      simp only [List.map_cons, List.sum_cons, ClntRes.mk.injEq]
      omega

theorem checkPutConcurrent_unreliable {J : Codec EntryV} {key val : GoString} {rs : List ClntRes}
    {ver : Tversion} {err : Err} {e : EntryV}
    (hjson : getJson J key (-1) val ver err = .ok (e, ver))
    (hle : ver.toNat ≤ (rs.map ClntRes.nok).sum + (rs.map ClntRes.nmaybe).sum)
    (hint : (rs.map ClntRes.nok).sum + (rs.map ClntRes.nmaybe).sum < 2 ^ 64) :
    checkPutConcurrent J false key rs ⟨0, 0⟩ val ver err =
      .ok ⟨(rs.map ClntRes.nok).sum, (rs.map ClntRes.nmaybe).sum⟩ := by
  have hnot : ¬ ver > UInt64.ofNat ((rs.map ClntRes.nok).sum + (rs.map ClntRes.nmaybe).sum) := by
    rw [gt_iff_lt, UInt64.lt_iff_toNat_lt, UInt64.toNat_ofNat', Nat.mod_eq_of_lt hint]
    omega
  simp [checkPutConcurrent, hjson, addUp_eq, hnot, bind, Except.bind, pure, Except.pure,
    -UInt64.ofNat_add]

theorem checkPutConcurrent_reliable {J : Codec EntryV} {key val : GoString} {rs : List ClntRes}
    {ver : Tversion} {err : Err} {e : EntryV}
    (hjson : getJson J key (-1) val ver err = .ok (e, ver))
    (heq : ver = UInt64.ofNat (rs.map ClntRes.nok).sum) :
    checkPutConcurrent J true key rs ⟨0, 0⟩ val ver err =
      .ok ⟨(rs.map ClntRes.nok).sum, (rs.map ClntRes.nmaybe).sum⟩ := by
  simp [checkPutConcurrent, hjson, addUp_eq, ← heq, bind, Except.bind, pure, Except.pure]

/-! ## When all clients have returned -/

variable {T : PutTest} {nclnt : Nat} {s t u : Sys Putter} {rs : List ClntRes} {w : Nat → Nat}

theorem outline_start (T : PutTest) (nclnt : Nat) :
    (outline T nclnt).Holds T.program T.ka (fun _ => 0) (PutTest.start nclnt) := by
  have hcalled : ∀ (i : Nat) (p : Proc Putter), (PutTest.start nclnt).procs[i]? = some p →
      i < nclnt ∧ p.st = Putter.called i := by
    intro i p hp
    simp only [PutTest.start, Sys.start, List.map_map, List.getElem?_map,
      Option.map_eq_some_iff] at hp
    obtain ⟨me, hme, rfl⟩ := hp
    obtain ⟨hlt, rfl⟩ := List.getElem?_eq_some_iff.mp hme
    exact ⟨by simpa using hlt, by simp⟩
  refine ⟨Sys.Careful.start_init T.keyed ?_, ⟨?_, ?_⟩, ?_⟩
  · intro c hc
    obtain ⟨me, _, rfl⟩ := List.mem_map.mp hc
    rfl
  · rw [Finset.sum_const_zero]
    exact (Finset.sum_eq_zero fun _ _ ↦ rfl).symm
  · intro key _ x hx
    cases hx
  · intro i p hp
    obtain ⟨hi, hst⟩ := hcalled i p hp
    refine ⟨hi, by rw [hst]; rfl, fun key _ ↦ by rw [hst]; exact Nat.zero_le _, ?_⟩
    simp only [PutStands, hst, Putter.called, Credits]
    omega

theorem outline_of_reaches (h : Reaches T.step (PutTest.start nclnt) s) (hb : Sys.Below T.ka s) :
    ∃ w, (outline T nclnt).Holds T.program T.ka w s :=
  (outline_proved T nclnt).reaches ⟨_, outline_start T nclnt⟩ h hb

theorem putters_length (h : Reaches T.step (PutTest.start nclnt) s) : s.procs.length = nclnt := by
  rw [Sys.procs_length_of_reaches h.of_restrict]
  simp [PutTest.start, Sys.start]

/-- A client that has returned does nothing more. -/
theorem returned_stays (hreturned : s.procs.map (fun p => p.st.pc) = rs.map PutPc.returned)
    (h : Reaches T.step s t) : t.procs.map (fun p => p.st.pc) = rs.map PutPc.returned := by
  refine h.invariant (I := fun t ↦ t.procs.map (fun p => p.st.pc) = rs.map PutPc.returned)
    hreturned ?_
  intro u a v _ hs hu
  have hstuck : ∀ (i : Nat) (p : Proc Putter) (c : Putter), u.procs[i]? = some p →
      ¬ Sys.Cause T.program u.net p c := by
    intro i p c hp hcause
    have hmem : p.st.pc ∈ rs.map PutPc.returned := by
      rw [← hu]
      exact List.mem_map_of_mem (List.mem_of_getElem? hp)
    obtain ⟨r, _, hpc⟩ := List.mem_map.mp hmem
    cases hcause with
    | act _ hact =>
        have htop := (putter_act_cases hact).1
        rw [← hpc] at htop
        cases htop
    | resume hreq _ _ => simp [PutTest.program, PutTest.request, ← hpc] at hreq
  cases Sys.step_cases (restrict_eq_some.mp hs).2 with
  | act hp hcause => exact absurd hcause (hstuck _ _ _ hp)
  | resume hp hcause => exact absurd hcause (hstuck _ _ _ hp)
  | net hf hnet => exact hu

theorem sum_map_eq_range (f : ClntRes → Nat) (rs : List ClntRes) :
    (rs.map f).sum = ∑ i ∈ Finset.range rs.length, (rs[i]?.map f).getD 0 := by
  induction rs using List.reverseRecOn with
  | nil => simp
  | append_singleton rs r ih =>
      rw [List.map_append, List.sum_append, ih, List.length_append, List.length_singleton,
        Finset.sum_range_succ]
      congr 1
      · refine Finset.sum_congr rfl fun i hi ↦ ?_
        rw [List.getElem?_append_left (Finset.mem_range.mp hi)]
      · simp

/-- The credits of all clients together. -/
theorem total_credits (h : (outline T nclnt).Holds T.program T.ka w s)
    (hlen : s.procs.length = nclnt)
    (hreturned : s.procs.map (fun p => p.st.pc) = rs.map PutPc.returned) :
    (rs.map ClntRes.nok).sum ≤ ∑ key ∈ T.ka.toFinset, s.net.writes key ∧
      ∑ key ∈ T.ka.toFinset, s.net.writes key ≤
        (rs.map ClntRes.nok).sum + (rs.map ClntRes.nmaybe).sum := by
  have hrs : rs.length = nclnt := by
    have heq := congrArg List.length hreturned
    simpa [hlen] using heq.symm
  have hcredits : ∀ i ∈ Finset.range nclnt, (rs[i]?.map ClntRes.nok).getD 0 ≤ w i ∧
      w i ≤ (rs[i]?.map ClntRes.nok).getD 0 + (rs[i]?.map ClntRes.nmaybe).getD 0 := by
    intro i hi
    rw [Finset.mem_range] at hi
    have hp := List.getElem?_eq_getElem (l := s.procs) (i := i) (by omega)
    have hr := List.getElem?_eq_getElem (l := rs) (i := i) (by omega)
    have hpc : (s.procs[i]).st.pc = .returned rs[i] := by
      have hboth := congrArg (fun l : List PutPc => l[i]?) hreturned
      simpa [hp, hr] using hboth
    obtain ⟨_, _, _, hstands⟩ := h.stands i _ hp
    simp only [PutStands, hpc] at hstands
    obtain ⟨hres, hcredits⟩ := hstands
    rw [← hres] at hcredits
    simpa [hr, Credits] using hcredits
  have hsum : ∑ i ∈ Finset.range nclnt, w i = ∑ key ∈ T.ka.toFinset, s.net.writes key := h.shared.1
  rw [← hsum, sum_map_eq_range, sum_map_eq_range, hrs, ← Finset.sum_add_distrib]
  exact ⟨Finset.sum_le_sum fun i hi ↦ (hcredits i hi).1,
    Finset.sum_le_sum fun i hi ↦ (hcredits i hi).2⟩

/-- What a `Get` that is executed in state `u` returns, as `CheckPutConcurrent` reads it. -/
theorem getJson_of_get (h : (outline T nclnt).Holds T.program T.ka w u) (hb : Sys.Below T.ka u)
    {key : GoString} (hkey : key ∈ T.ka) (hpos : 0 < u.net.writes key) {val : GoString}
    {ver : Tversion} {err : Err} (hres : clerkGet (u.net.server.get ⟨key⟩) = .get val ver err) :
    ver.toNat = u.net.writes key ∧ ∃ e, getJson T.J key (-1) val ver err = .ok (e, ver) := by
  obtain ⟨x, hx⟩ := h.careful.inv.present hpos
  obtain ⟨e, he⟩ := h.shared.2 key hkey x hx
  have hwrites := (h.careful.inv.writes_of_some (hb key hkey) hx).1
  simp only [KVServer.get, hx, clerkGet, ne_eq, not_true_eq_false, if_false,
    Result.get.injEq] at hres
  obtain ⟨rfl, rfl, rfl⟩ := hres
  refine ⟨hwrites, e, ?_⟩
  rw [getJson, if_pos rfl, he, T.J.round]

/-- A Clerk call of the test itself, after the clients have returned. -/
theorem get_between (h : Reaches T.step (PutTest.start nclnt) s) (ht : Reaches T.step s t)
    (hb : Sys.Below T.ka t) {n : Nat} (hn : s.net.calls.length ≤ n) {key val : GoString}
    {ver : Tversion} {err : Err} (hreq : t.net.req n = some (.get ⟨key⟩))
    (hres : t.net.result n = some (.get val ver err)) :
    ∃ u, Reaches T.step s u ∧ Reaches T.step u t ∧
      clerkGet (u.net.server.get ⟨key⟩) = .get val ver err := by
  obtain ⟨w, hw⟩ := outline_of_reaches h (Sys.Outline.below_of_reaches ht hb)
  obtain ⟨w', hw'⟩ := outline_of_reaches (h.trans ht) hb
  obtain ⟨reply, retried, ha, heq⟩ := hw'.careful.inv.answered_of_result hres
  obtain ⟨u, hu, hut, rfl⟩ := Sys.answered_between ht hw.careful.inv hn hreq ha
  exact ⟨u, hu, hut, heq.symm⟩

/-- However many clients race on the keys and whatever the network loses or delays, no client ever
calls `ts.Fatalf` or panics, and a client that finds its own version after an `OK` finds its own
entry. -/
theorem onePut_never_fatal (h : Reaches T.step (PutTest.start nclnt) s) (hb : Sys.Below T.ka s)
    {i : Nat} {p : Proc Putter} (hp : s.procs[i]? = some p) :
    (∀ why, p.st.pc ≠ .fatal why) ∧ p.st.pc ≠ .panicked ∧
      ∀ key ver val err, p.st.pc = .get key ver .ok →
        s.net.result p.call = some (.get val (ver + 1) err) →
        T.J.unmarshal val = some ⟨i, ver⟩ := by
  obtain ⟨w, hw⟩ := outline_of_reaches h hb
  obtain ⟨_, hme, _, hstands⟩ := hw.stands i p hp
  refine ⟨?_, ?_, ?_⟩
  · intro why hpc
    simp only [PutStands, hpc] at hstands
  · intro hpc
    simp only [PutStands, hpc] at hstands
  · intro key ver val err hpc hres
    obtain ⟨_, hle, e, he, hown⟩ := read_seen hw hp hpc hres
    simp only [PutStands, hpc] at hstands
    obtain ⟨hkey, _, hlt, _⟩ := hstands
    have hbound := hb key hkey
    change ver.toNat < s.net.writes key at hlt
    rw [he, hown rfl ?_, hme]
    rw [UInt64.toNat_add, UInt64.toNat_one]
    exact Nat.mod_eq_of_lt (by omega)

/-- `{"Id":0,"V":1}` -/
def entryJson : Codec EntryV :=
  ((Format.object (lit "Id") (lit "V") .number .number).map (fun p => ⟨p.1, UInt64.ofNat p.2⟩)
    (fun e => (e.id, e.v.toNat)) fun _ ↦ by simp).codec

def twoOnOne : PutTest :=
  { J := entryJson, ka := [lit "k"], randomkeys := false, keyed := List.cons_ne_nil _ _ }

/-- Client 0 writes the key, but the reply is lost and it is told `ErrMaybe`.  Client 1 is refused,
reads and writes. -/
def racing : List (SysAction PutSignal) :=
  [.act 0 (.default 0), .act 1 (.default 0), .net (.exec 0), .net (.lose 0), .net (.exec 1),
   .net (.resend 0), .net (.exec 2), .net (.deliver 0), .resume 0, .net (.exec 3),
   .net (.deliver 2), .resume 0, .net (.deliver 1), .resume 1, .net (.exec 4), .net (.deliver 3),
   .resume 1, .net (.exec 5), .net (.deliver 4), .resume 1, .net (.exec 6), .net (.deliver 5)]

theorem racing_runs : (run twoOnOne.step (PutTest.start 2) racing).isSome = true := by
  decide +kernel

def raced : Sys Putter := (run twoOnOne.step (PutTest.start 2) racing).get racing_runs

theorem onePut_never_fatal_racing :
    ∃ p, raced.procs[1]? = some p ∧ p.st.pc = .get (lit "k") 1 .ok ∧
      raced.net.result p.call = some (.get (entryJson.marshal ⟨1, 1⟩) (1 + 1) .ok) ∧
      (∀ why, p.st.pc ≠ .fatal why) ∧
      entryJson.unmarshal (entryJson.marshal ⟨1, 1⟩) = some ⟨1, 1⟩ := by
  have hb : Sys.Below twoOnOne.ka raced := by
    intro key hkey
    obtain rfl := List.mem_singleton.mp hkey
    decide +kernel
  have hproc : raced.procs[1]?.map (fun p => (p.st.pc, p.call)) =
      some (.get (lit "k") 1 .ok, 5) := by
    decide +kernel
  have hres : raced.net.result 5 = some (.get (entryJson.marshal ⟨1, 1⟩) (1 + 1) .ok) := by
    decide +kernel
  obtain ⟨p, hp, hpair⟩ := Option.map_eq_some_iff.mp hproc
  obtain ⟨hpc, hcall⟩ := Prod.mk.inj hpair
  rw [← hcall] at hres
  obtain ⟨hnever, _, hown⟩ := onePut_never_fatal (reaches_get racing_runs) hb hp
  exact ⟨p, hp, hpc, hres, hnever, hown _ _ _ _ hpc hres⟩

/-- When all clients have returned, and ever after, the keys together have been written at least as
often as `Put` returned `OK` and at most as often as it returned `OK` or `ErrMaybe`.  So
`CheckPutConcurrent` passes on every key that exists by then. -/
theorem puts_accounted (h : Reaches T.step (PutTest.start nclnt) s)
    (hreturned : s.procs.map (fun p => p.st.pc) = rs.map PutPc.returned)
    (ht : Reaches T.step s t) (hb : Sys.Below T.ka t)
    (hint : (rs.map ClntRes.nok).sum + (rs.map ClntRes.nmaybe).sum < 2 ^ 64) :
    (rs.map ClntRes.nok).sum ≤ ∑ key ∈ T.ka.toFinset, t.net.writes key ∧
      ∑ key ∈ T.ka.toFinset, t.net.writes key ≤
        (rs.map ClntRes.nok).sum + (rs.map ClntRes.nmaybe).sum ∧
      ∀ n key val ver err, key ∈ T.ka → s.net.server.m key ≠ none → s.net.calls.length ≤ n →
        t.net.req n = some (.get ⟨key⟩) → t.net.result n = some (.get val ver err) →
        checkPutConcurrent T.J false key rs ⟨0, 0⟩ val ver err =
          .ok ⟨(rs.map ClntRes.nok).sum, (rs.map ClntRes.nmaybe).sum⟩ := by
  have htotal : ∀ u, Reaches T.step s u → Sys.Below T.ka u → ∃ w,
      (outline T nclnt).Holds T.program T.ka w u ∧
      (rs.map ClntRes.nok).sum ≤ ∑ key ∈ T.ka.toFinset, u.net.writes key ∧
      ∑ key ∈ T.ka.toFinset, u.net.writes key ≤
        (rs.map ClntRes.nok).sum + (rs.map ClntRes.nmaybe).sum := by
    intro u hu hbu
    obtain ⟨w, hw⟩ := outline_of_reaches (h.trans hu) hbu
    exact ⟨w, hw, total_credits hw (putters_length (h.trans hu)) (returned_stays hreturned hu)⟩
  obtain ⟨_, _, hlow, hhigh⟩ := htotal t ht hb
  refine ⟨hlow, hhigh, ?_⟩
  intro n key val ver err hkey hsome hn hreq hres
  obtain ⟨u, hsu, hut, hget⟩ := get_between h ht hb hn hreq hres
  have hbu := Sys.Outline.below_of_reaches hut hb
  obtain ⟨w, hw, _, hle⟩ := htotal u hsu hbu
  have hpos : 0 < u.net.writes key := by
    obtain ⟨x, hx⟩ := Option.ne_none_iff_exists'.mp hsome
    obtain ⟨_, hs, _⟩ := htotal s (Reaches.refl s) (Sys.Outline.below_of_reaches ht hb)
    have hspos := (hs.careful.inv.writes_of_some
      (Sys.Outline.below_of_reaches ht hb key hkey) hx).2
    exact Nat.lt_of_lt_of_le hspos (Sys.writes_mono_reaches hsu key)
  obtain ⟨hver, e, hjson⟩ := getJson_of_get hw hbu hkey hpos hget
  have hone : u.net.writes key ≤ ∑ key ∈ T.ka.toFinset, u.net.writes key :=
    Finset.single_le_sum (f := fun key ↦ u.net.writes key) (fun _ _ ↦ Nat.zero_le _)
      (List.mem_toFinset.mpr hkey)
  exact checkPutConcurrent_unreliable hjson (by omega) hint

/-- Both clients go on to return, and the test reads the key. -/
def checked : List (SysAction PutSignal) :=
  [.net (.invoke 2 (.get ⟨lit "k"⟩)), .net (.exec 7), .net (.deliver 6)]

def returning : List (SysAction PutSignal) := racing ++ [.resume 1, .act 0 .done, .act 1 .done]

theorem returning_runs : (run twoOnOne.step (PutTest.start 2) returning).isSome = true := by
  decide +kernel

theorem checked_runs : (run twoOnOne.step
    ((run twoOnOne.step (PutTest.start 2) returning).get returning_runs)
    checked).isSome = true := by
  decide +kernel

theorem puts_accounted_returning :
    ∃ s t, run twoOnOne.step (PutTest.start 2) returning = some s ∧
      s.procs.map (fun p => p.st.pc) = [⟨0, 1⟩, ⟨1, 0⟩].map PutPc.returned ∧
      run twoOnOne.step s checked = some t ∧
      (1 ≤ ∑ key ∈ twoOnOne.ka.toFinset, t.net.writes key ∧
        ∑ key ∈ twoOnOne.ka.toFinset, t.net.writes key ≤ 2) ∧
      checkPutConcurrent entryJson false (lit "k") [⟨0, 1⟩, ⟨1, 0⟩] ⟨0, 0⟩
        (entryJson.marshal ⟨1, 1⟩) 2 .ok = .ok ⟨1, 1⟩ := by
  have hb : Sys.Below twoOnOne.ka ((run twoOnOne.step
      ((run twoOnOne.step (PutTest.start 2) returning).get returning_runs) checked).get
        checked_runs) := by
    intro key hkey
    obtain rfl := List.mem_singleton.mp hkey
    decide +kernel
  have hreturned : ((run twoOnOne.step (PutTest.start 2) returning).get returning_runs).procs.map
      (fun p => p.st.pc) = [⟨0, 1⟩, ⟨1, 0⟩].map PutPc.returned := by
    decide +kernel
  obtain ⟨hlow, hhigh, hcheck⟩ := puts_accounted (reaches_get returning_runs) hreturned
    (reaches_get checked_runs) hb (by decide)
  exact ⟨_, _, (Option.some_get returning_runs).symm, hreturned,
    (Option.some_get checked_runs).symm,
    ⟨hlow, hhigh⟩, hcheck 6 (lit "k") _ _ _ (List.mem_singleton.mpr rfl) (by decide +kernel)
    (by decide +kernel) (by decide +kernel) (by decide +kernel)⟩

/-! ## A network that loses nothing -/

/-- No `Call` returns false. -/
def lossless (_ : Sys Putter) : SysAction PutSignal → Bool
  | .net (.lose _) => false
  | _ => true

/-- No call has been sent twice. -/
def Firm (net : Net) : Prop :=
  ∀ (n : Nat) (c : ClerkCall), net.calls[n]? = some c → c.retried = false ∧ c.pc ≠ .sleeping

theorem Firm.step {net net' : Net} {action : Action} (h : Firm net)
    (hs : net.step action = some net') (hlose : ∀ n, action ≠ .lose n) : Firm net' := by
  intro n c hc
  cases Net.step_iff.mp hs with
  | invoke clerk r =>
      obtain hold | ⟨_, rfl⟩ := getElem?_snoc_eq_some.mp hc
      · exact h n c hold
      · exact ⟨rfl, by simp⟩
  | exec hat => exact h n c hc
  | @lose m a c' hc' hpc => exact absurd rfl (hlose m)
  | resend hc' hpc => exact absurd hpc (h _ _ hc').2
  | @deliver m a m' c' r reply hc' hpc hat =>
      obtain ⟨_, _, rfl⟩ | ⟨_, hold⟩ := getElem?_set_eq_some.mp hc
      · exact ⟨(h m c' hc').1, by simp⟩
      · exact h n c hold

/-- Without a resend there is no `ErrMaybe`. -/
theorem Firm.not_maybe {net : Net} (h : Firm net) (hi : net.Inv) (n : Nat) :
    net.result n ≠ some (.put .errMaybe) := by
  intro hres
  obtain ⟨c, a, hc, hpc⟩ := Net.result_eq_some.mp hres
  obtain ⟨reply, hat, heq⟩ := hi.returned n c a _ hc hpc
  obtain ⟨rfl, -⟩ | ⟨-, hretried, -⟩ := clerkReturn_eq_put heq.symm
  · -- the server itself never says so
    obtain ⟨args, hargs⟩ := hi.exec_put ((hi.exec_iff _ _ _ _).mpr hat)
    obtain ⟨kv, hkv⟩ := hi.served.reply _
      (mem_execLog.mpr ⟨n, a, (hi.exec_iff _ _ _ _).mpr hat⟩)
    rw [hargs] at hkv
    simp only [KVServer.dispatch, Reply.put.injEq] at hkv
    obtain hcode | hcode | hcode := put_err_cases kv args <;> rw [← hkv] at hcode <;> cases hcode
  · rw [(h n c hc).1] at hretried
    cases hretried

/-- No client has been told `ErrMaybe`. -/
structure Certain (s : Sys Putter) : Prop where
  inv : s.net.Inv
  firm : Firm s.net
  counted : ∀ (i : Nat) (p : Proc Putter), s.procs[i]? = some p →
    p.st.res.nmaybe = 0 ∧ ∀ key ver, p.st.pc ≠ .get key ver .errMaybe

theorem certain_of_cause {net : Net} {p : Proc Putter} {c : Putter} (hi : net.Inv) (hf : Firm net)
    (h : p.st.res.nmaybe = 0 ∧ ∀ key ver, p.st.pc ≠ .get key ver .errMaybe)
    (hcause : Sys.Cause T.program net p c) :
    c.res.nmaybe = 0 ∧ ∀ key ver, c.pc ≠ .get key ver .errMaybe := by
  cases hcause with
  | act _ hact =>
      obtain ⟨_, ⟨key, _, rfl⟩ | rfl⟩ := putter_act_cases hact
      · exact ⟨h.1, by simp⟩
      · exact ⟨h.1, by simp⟩
  | resume _ hres hresume =>
      cases onePut_of_resume hresume with
      | read hpc herr =>
          refine ⟨h.1, ?_⟩
          rintro key' ver' hpc'
          simp only [PutPc.get.injEq] at hpc'
          rw [hpc'.2.2] at hres
          exact hf.not_maybe hi _ hres
      | @ended key val ver ver' err hpc herr =>
          refine ⟨?_, by simp [Putter.ended]⟩
          obtain rfl | rfl := herr
          · exact h.1
          · exact absurd hpc (h.2 key ver)
      | wrongError hpc hne => exact ⟨h.1, by simp⟩
      | failed hpc hbad => exact ⟨h.1, by simp⟩
      | wrongValue hpc he hne => exact ⟨h.1, by simp⟩
      | again hpc hok hmaybe => exact ⟨h.1, by simp⟩

theorem certain_of_reaches (h : Reaches (restrict T.step lossless) (PutTest.start nclnt) s) :
    Certain s := by
  refine h.invariant (I := Certain) ⟨Net.Inv.init, ?_, ?_⟩ ?_
  · intro n c hc
    simp [PutTest.start, Sys.start, Net.init] at hc
  · intro i p hp
    obtain ⟨st, hst, rfl⟩ := List.mem_map.mp (List.mem_of_getElem? hp)
    obtain ⟨me, _, rfl⟩ := List.mem_map.mp hst
    exact ⟨rfl, by simp [Putter.called]⟩
  · intro u act v _ hs hu
    obtain ⟨hlossless, hstep⟩ := restrict_eq_some.mp hs
    have henter : ∀ {i : Nat} {p : Proc Putter} {c : Putter}, u.procs[i]? = some p →
        Sys.Cause T.program u.net p c → Certain (u.enter T.program i c) := by
      intro i p c hp hcause
      refine ⟨?_, ?_, ?_⟩
      · rw [Sys.net_enter]
        split
        · exact hu.inv.invoke i _
        · exact hu.inv
      · rw [Sys.net_enter]
        split
        · exact hu.firm.step (Net.step_invoke u.net i _) (by simp)
        · exact hu.firm
      · intro j q hq
        obtain ⟨rfl, rfl⟩ | ⟨_, hold⟩ := (Sys.moved_enter hp hcause).cases hq
        · exact certain_of_cause hu.inv hu.firm (hu.counted j p hp) hcause
        · exact hu.counted j q hold
    cases Sys.step_cases (restrict_eq_some.mp hstep).2 with
    | act hp hcause => exact henter hp hcause
    | resume hp hcause => exact henter hp hcause
    | net hf hnet =>
        refine ⟨hu.inv.step hnet, hu.firm.step hnet ?_, hu.counted⟩
        rintro n rfl
        simp [lossless] at hlossless

/-- On a network that loses nothing the versions of the keys add up to the `Put`s that returned
`OK`, no client counts an `ErrMaybe`, and with one key `CheckPutConcurrent` passes as soon as one
`Put` has succeeded. -/
theorem puts_exact_reliable (h : Reaches (restrict T.step lossless) (PutTest.start nclnt) s)
    (hreturned : s.procs.map (fun p => p.st.pc) = rs.map PutPc.returned)
    (ht : Reaches T.step s t) (hb : Sys.Below T.ka t) :
    (rs.map ClntRes.nmaybe).sum = 0 ∧
      ∑ key ∈ T.ka.toFinset, t.net.writes key = (rs.map ClntRes.nok).sum ∧
      ∀ n key val ver err, T.ka = [key] → 0 < (rs.map ClntRes.nok).sum → s.net.calls.length ≤ n →
        t.net.req n = some (.get ⟨key⟩) → t.net.result n = some (.get val ver err) →
        checkPutConcurrent T.J true key rs ⟨0, 0⟩ val ver err =
          .ok ⟨(rs.map ClntRes.nok).sum, 0⟩ := by
  have hs := h.of_restrict
  have hmaybe : (rs.map ClntRes.nmaybe).sum = 0 := by
    obtain ⟨w, hw⟩ := outline_of_reaches hs (Sys.Outline.below_of_reaches ht hb)
    refine List.sum_eq_zero fun k hk ↦ ?_
    obtain ⟨r, hr, rfl⟩ := List.mem_map.mp hk
    -- a result is that of some client
    have hmem : PutPc.returned r ∈ s.procs.map fun p => p.st.pc := by
      rw [hreturned]
      exact List.mem_map_of_mem hr
    obtain ⟨p, hp, hpc⟩ := List.mem_map.mp hmem
    obtain ⟨i, hi⟩ := List.mem_iff_getElem?.mp hp
    obtain ⟨_, _, _, hstands⟩ := hw.stands i p hi
    simp only [PutStands, hpc] at hstands
    rw [hstands.1]
    exact ((certain_of_reaches h).counted i p hi).1
  have htotal : ∀ u, Reaches T.step s u → Sys.Below T.ka u → ∃ w,
      (outline T nclnt).Holds T.program T.ka w u ∧
      ∑ key ∈ T.ka.toFinset, u.net.writes key = (rs.map ClntRes.nok).sum := by
    intro u hu hbu
    obtain ⟨w, hw⟩ := outline_of_reaches (hs.trans hu) hbu
    have hbounds := total_credits hw (putters_length (hs.trans hu)) (returned_stays hreturned hu)
    exact ⟨w, hw, by omega⟩
  obtain ⟨_, _, hsum⟩ := htotal t ht hb
  refine ⟨hmaybe, hsum, ?_⟩
  intro n key val ver err hka hpos hn hreq hres
  obtain ⟨u, hsu, hut, hget⟩ := get_between hs ht hb hn hreq hres
  have hbu := Sys.Outline.below_of_reaches hut hb
  obtain ⟨w, hw, hsumu⟩ := htotal u hsu hbu
  have hwrites : u.net.writes key = (rs.map ClntRes.nok).sum := by simpa [hka] using hsumu
  obtain ⟨hver, e, hjson⟩ := getJson_of_get hw hbu (by simp [hka]) (by omega) hget
  rw [checkPutConcurrent_reliable hjson, hmaybe]
  rw [← hwrites, ← hver, UInt64.ofNat_toNat]

/-- One client puts once, reads its entry and returns. -/
def undisturbed : List (SysAction PutSignal) :=
  [.act 0 (.default 0), .net (.exec 0), .net (.deliver 0), .resume 0, .net (.exec 1),
   .net (.deliver 1), .resume 0, .act 0 .done]

theorem undisturbed_runs :
    (run (restrict twoOnOne.step lossless) (PutTest.start 1) undisturbed).isSome = true := by
  decide +kernel

/-- The test reads the key. -/
def undisturbedGet : List (SysAction PutSignal) :=
  [.net (.invoke 1 (.get ⟨lit "k"⟩)), .net (.exec 2), .net (.deliver 2)]

theorem undisturbedGet_runs : (run twoOnOne.step ((run (restrict twoOnOne.step lossless)
    (PutTest.start 1) undisturbed).get undisturbed_runs) undisturbedGet).isSome = true := by
  decide +kernel

theorem puts_exact_reliable_undisturbed :
    ∃ s t, run (restrict twoOnOne.step lossless) (PutTest.start 1) undisturbed = some s ∧
      s.procs.map (fun p => p.st.pc) = [⟨1, 0⟩].map PutPc.returned ∧
      run twoOnOne.step s undisturbedGet = some t ∧
      ∑ key ∈ twoOnOne.ka.toFinset, t.net.writes key = 1 ∧
      t.net.result 2 = some (.get (entryJson.marshal ⟨0, 0⟩) 1 .ok) ∧
      checkPutConcurrent entryJson true (lit "k") [⟨1, 0⟩] ⟨0, 0⟩ (entryJson.marshal ⟨0, 0⟩) 1 .ok =
        .ok ⟨1, 0⟩ := by
  have hb : Sys.Below twoOnOne.ka ((run twoOnOne.step ((run (restrict twoOnOne.step lossless)
      (PutTest.start 1) undisturbed).get undisturbed_runs) undisturbedGet).get
        undisturbedGet_runs) := by
    intro key hkey
    obtain rfl := List.mem_singleton.mp hkey
    decide +kernel
  have hreturned : ((run (restrict twoOnOne.step lossless) (PutTest.start 1)
      undisturbed).get undisturbed_runs).procs.map (fun p => p.st.pc) =
        [⟨1, 0⟩].map PutPc.returned := by
    decide +kernel
  have hres : ((run twoOnOne.step ((run (restrict twoOnOne.step lossless) (PutTest.start 1)
      undisturbed).get undisturbed_runs) undisturbedGet).get undisturbedGet_runs).net.result 2 =
        some (.get (entryJson.marshal ⟨0, 0⟩) 1 .ok) := by
    decide +kernel
  obtain ⟨-, hsum, hcheck⟩ := puts_exact_reliable (reaches_get undisturbed_runs) hreturned
    (reaches_get undisturbedGet_runs) hb
  exact ⟨_, _, (Option.some_get undisturbed_runs).symm, hreturned,
    (Option.some_get undisturbedGet_runs).symm, hsum, hres,
    hcheck 2 (lit "k") _ _ _ rfl (by decide) (by decide +kernel) (by decide +kernel) hres⟩

end GoLabs.KvTest
