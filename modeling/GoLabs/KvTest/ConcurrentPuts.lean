import Mathlib.Algebra.BigOperators.Group.Finset.Basic
import GoLabs.KvSrv.Outline
import GoLabs.KvTest.Appends

/-!
# Clients that race to put

`OneClientPut` and `OnePut` of `kvtest1/kvtest.go`.  A client puts to one of its keys with the
version that it believes to be current, at first 0, and then reads the key; it goes on with the
version that it read.  A refused `Put` is tried again, one that returned `ErrMaybe` is not.

Many clients do this on the same keys, over a network that loses and delays.  Every write of a key
is the work of one client (`Credits`), and a client knows the number of its own writes up to the
`Put`s that returned `ErrMaybe`.
-/

open GoLabs.Reasoning GoLabs.KvSrv

namespace GoLabs.KvTest

structure EntryV where
  id : Nat
  v : Tversion
  deriving DecidableEq, Repr

/-- The calls of `ts.Fatalf`. -/
inductive Fatalf where
  /-- `"%d: Get %q err %v"` -/
  | get (me : Int) (key : GoString) (err : Err)
  /-- `"Unmarshal err %v"` -/
  | unmarshal (ver : Tversion)
  /-- `"Wrong error %v"` -/
  | wrongError (err : Err)
  /-- `"Wrong value %v"` -/
  | wrongValue (e : EntryV)
  /-- `"Wrong number of puts: server %d clnts %v"` -/
  | wrongPuts (ver : Tversion) (res : ClntRes)
  deriving DecidableEq, Repr

/-- `GetJson` after its `Get`. -/
def getJson {α : Type} (J : Codec α) (key : GoString) (me : Int) (val : GoString) (ver : Tversion)
    (err : Err) : Except Fatalf (α × Tversion) :=
  if err = .ok then
    match J.unmarshal val with
    | some a => .ok (a, ver)
    | none => .error (.unmarshal ver)
  else .error (.get me key err)

/-- Where a client stands. -/
inductive PutPc where
  /-- At the `select`. -/
  | top
  /-- In `PutJson` at this version. -/
  | put (key : GoString) (ver : Tversion)
  /-- In `GetJson`, after a `Put` at `ver` that returned `err`. -/
  | get (key : GoString) (ver : Tversion) (err : Err)
  | returned (res : ClntRes)
  | fatal (why : Fatalf)
  /-- There is no key to choose. -/
  | panicked
  deriving DecidableEq, Repr

/-- A run of `OneClientPut`. -/
structure Putter where
  me : Nat
  verm : GoString → Tversion
  res : ClntRes
  pc : PutPc

inductive PutSignal where
  /-- Go on; the number is what `rand.Int` returns, if it is called. -/
  | default (rand : Nat)
  | done
  deriving DecidableEq, Repr

/-- What the clients of one test share. -/
structure PutTest where
  J : Codec EntryV
  ka : List GoString
  randomkeys : Bool
  keyed : ka ≠ []

namespace Putter

def called (me : Nat) : Putter := { me, verm := fun _ => 0, res := ⟨0, 0⟩, pc := .top }

/-- `OnePut` returns `ver`, and whether its last `Put` returned `OK`. -/
def ended (c : Putter) (key : GoString) (ver : Tversion) (ok : Bool) : Putter :=
  { c with
    verm := Function.update c.verm key ver
    res := if ok then ⟨c.res.nok + 1, c.res.nmaybe⟩ else ⟨c.res.nok, c.res.nmaybe + 1⟩
    pc := .top }

end Putter

namespace PutTest

def pick (T : PutTest) (rand : Nat) : Option GoString :=
  if T.randomkeys then T.ka[rand % T.ka.length]? else T.ka[0]?

def request (T : PutTest) (c : Putter) : Option Request :=
  match c.pc with
  | .put key ver => some (.put ⟨key, T.J.marshal ⟨c.me, ver⟩, ver⟩)
  | .get key _ _ => some (.get ⟨key⟩)
  | .top | .returned _ | .fatal _ | .panicked => none

def resume (T : PutTest) (c : Putter) (res : Result) : Option Putter :=
  match c.pc, res with
  | .put key ver, .put err =>
      if ¬ (err = .ok ∨ err = .errVersion ∨ err = .errMaybe) then
        some { c with pc := .fatal (.wrongError err) }
      else some { c with pc := .get key ver err }
  | .get key ver err, .get val ver' err' =>
      match getJson T.J key c.me val ver' err' with
      | .error why => some { c with pc := .fatal why }
      | .ok (e, ver0) =>
          -- my put?
          if (err = .ok ∧ ver0 = ver + 1) ∧ e.id ≠ c.me ∧ e.v ≠ ver then
            some { c with pc := .fatal (.wrongValue e) }
          else if err = .ok ∨ err = .errMaybe then some (c.ended key ver0 (err = .ok))
          else some { c with pc := .put key ver0 }
  | _, _ => none

def act (T : PutTest) (c : Putter) (signal : PutSignal) : Option Putter :=
  match signal, c.pc with
  | .default rand, .top =>
      match T.pick rand with
      | some key => some { c with pc := .put key (c.verm key) }
      | none => some { c with pc := .panicked }
  | .done, .top => some { c with pc := .returned c.res }
  | _, _ => none

def program (T : PutTest) : Program Putter PutSignal :=
  { request := T.request, resume := T.resume, act := T.act }

/-- The clients share the server with anybody who does not put to their keys. -/
def step (T : PutTest) : Sys Putter → SysAction PutSignal → Option (Sys Putter) :=
  restrict (Sys.step T.program (T.ka.head T.keyed)) (Sys.apart T.ka)

/-- `nclnt` clients and a server without keys. -/
def start (nclnt : Nat) : Sys Putter :=
  Sys.start Net.init ((List.range nclnt).map Putter.called)

end PutTest

/-! ## The code between two calls -/

variable {T : PutTest} {c c' : Putter}

theorem pick_mem {rand : Nat} {key : GoString} (h : T.pick rand = some key) : key ∈ T.ka := by
  unfold PutTest.pick at h
  split at h <;> exact List.mem_of_getElem? h

theorem pick_ne_none (T : PutTest) (rand : Nat) : T.pick rand ≠ none := by
  have hpos : 0 < T.ka.length := List.length_pos_of_ne_nil T.keyed
  have hmod := Nat.mod_lt rand hpos
  unfold PutTest.pick
  split
  · rw [List.getElem?_eq_getElem hmod]
    simp
  · rw [List.getElem?_eq_getElem hpos]
    simp

theorem putter_act_cases {signal : PutSignal} (h : T.act c signal = some c') :
    c.pc = .top ∧ ((∃ key ∈ T.ka, c' = { c with pc := .put key (c.verm key) }) ∨
      c' = { c with pc := .returned c.res }) := by
  unfold PutTest.act at h
  split at h
  · rename_i rand hpc
    split at h
    · rename_i key hkey
      cases h
      exact ⟨hpc, .inl ⟨key, pick_mem hkey, rfl⟩⟩
    · rename_i hnone
      exact absurd hnone (pick_ne_none T rand)
  · rename_i hpc
    cases h
    exact ⟨hpc, .inr rfl⟩
  · cases h

theorem request_put {key : GoString} {ver : Tversion} (hpc : c.pc = .put key ver) :
    T.program.request c = some (.put ⟨key, T.J.marshal ⟨c.me, ver⟩, ver⟩) := by
  simp only [PutTest.program, PutTest.request, hpc]

theorem request_get {key : GoString} {ver : Tversion} {err : Err} (hpc : c.pc = .get key ver err) :
    T.program.request c = some (.get ⟨key⟩) := by
  simp only [PutTest.program, PutTest.request, hpc]

/-- What the code after a Clerk call does. -/
inductive OnePut (T : PutTest) (c : Putter) : Result → Putter → Prop where
  | wrongError {key : GoString} {ver : Tversion} {err : Err} (hpc : c.pc = .put key ver)
      (hne : ¬ (err = .ok ∨ err = .errVersion ∨ err = .errMaybe)) :
      OnePut T c (.put err) { c with pc := .fatal (.wrongError err) }
  | read {key : GoString} {ver : Tversion} {err : Err} (hpc : c.pc = .put key ver)
      (herr : err = .ok ∨ err = .errVersion ∨ err = .errMaybe) :
      OnePut T c (.put err) { c with pc := .get key ver err }
  | failed {key val : GoString} {ver ver' : Tversion} {err err' : Err} {why : Fatalf}
      (hpc : c.pc = .get key ver err) (hbad : err' ≠ .ok ∨ T.J.unmarshal val = none) :
      OnePut T c (.get val ver' err') { c with pc := .fatal why }
  | wrongValue {key val : GoString} {ver : Tversion} {e : EntryV} (hpc : c.pc = .get key ver .ok)
      (he : T.J.unmarshal val = some e) (hne : e ≠ ⟨c.me, ver⟩) :
      OnePut T c (.get val (ver + 1) .ok) { c with pc := .fatal (.wrongValue e) }
  | ended {key val : GoString} {ver ver' : Tversion} {err : Err} (hpc : c.pc = .get key ver err)
      (herr : err = .ok ∨ err = .errMaybe) :
      OnePut T c (.get val ver' .ok) (c.ended key ver' (err = .ok))
  | again {key val : GoString} {ver ver' : Tversion} {err : Err} (hpc : c.pc = .get key ver err)
      (hok : err ≠ .ok) (hmaybe : err ≠ .errMaybe) :
      OnePut T c (.get val ver' .ok) { c with pc := .put key ver' }

theorem onePut_of_resume {res : Result} (h : T.resume c res = some c') : OnePut T c res c' := by
  unfold PutTest.resume at h
  split at h
  · rename_i key ver err hpc
    split at h <;> cases h
    · rename_i hne
      exact .wrongError hpc hne
    · rename_i herr
      exact .read hpc (not_not.mp herr)
  · rename_i key ver err val ver' err' hpc
    unfold getJson at h
    by_cases hok : err' = .ok
    · subst hok
      rw [if_pos rfl] at h
      cases he : T.J.unmarshal val with
      | none =>
          rw [he] at h
          cases h
          exact .failed hpc (.inr he)
      | some e =>
          rw [he] at h
          simp only at h
          split at h
          · rename_i hwrong
            obtain ⟨⟨rfl, rfl⟩, hid, -⟩ := hwrong
            cases h
            exact .wrongValue hpc he (by rintro rfl; exact hid rfl)
          · split at h <;> cases h
            · rename_i herr
              exact .ended hpc herr
            · rename_i herr
              rw [not_or] at herr
              exact .again hpc herr.1 herr.2
    · rw [if_neg hok] at h
      cases h
      exact .failed hpc (.inl hok)
  · cases h

/-! ## Who wrote how often -/

theorem sum_bump {ι : Type} [DecidableEq ι] {S : Finset ι} {f g : ι → Nat} {i : ι} (hi : i ∈ S)
    (hself : g i = f i + 1) (hother : ∀ j ∈ S, j ≠ i → g j = f j) :
    ∑ j ∈ S, g j = ∑ j ∈ S, f j + 1 := by
  have hrest : ∑ j ∈ S.erase i, g j = ∑ j ∈ S.erase i, f j :=
    Finset.sum_congr rfl fun j hj ↦
      hother j (Finset.mem_of_mem_erase hj) (Finset.ne_of_mem_erase hj)
  rw [← Finset.add_sum_erase S g hi, ← Finset.add_sum_erase S f hi, hself, hrest]
  omega

/-- Between the `Put`s that succeeded and those that may have. -/
def Credits (w : Nat) (res : ClntRes) : Prop := res.nok ≤ w ∧ w ≤ res.nok + res.nmaybe

/-- What a client may have written when its `Put` has returned `err`. -/
def CreditsAfter (w : Nat) (res : ClntRes) : Err → Prop
  | .ok => Credits w ⟨res.nok + 1, res.nmaybe⟩
  | .errMaybe => Credits w ⟨res.nok, res.nmaybe + 1⟩
  | .errVersion => Credits w res
  | _ => False

theorem creditsAfter_of_put {w : Nat} {res : ClntRes} {err : Err} {took : Prop}
    (hyes : took → Credits w ⟨res.nok + 1, res.nmaybe⟩) (hno : ¬ took → Credits w res)
    (herr : (err = .ok ∧ took) ∨ (err = .errVersion ∧ ¬ took) ∨ err = .errMaybe) :
    CreditsAfter w res err := by
  obtain ⟨rfl, htook⟩ | ⟨rfl, hnot⟩ | rfl := herr
  · exact hyes htook
  · exact hno hnot
  · show Credits w ⟨res.nok, res.nmaybe + 1⟩
    by_cases htook : took
    · have hcredits := hyes htook
      simp only [Credits] at hcredits ⊢
      omega
    · have hcredits := hno htook
      simp only [Credits] at hcredits ⊢
      omega

/-- As long as nobody else has written after the `Put` at `ver`, the entry is that of client
`me`. -/
def Own (T : PutTest) (v : View) (me : Nat) (key : GoString) (ver : Tversion) : Prop :=
  v.writes key = ver.toNat + 1 → ∃ x, v.server.m key = some x ∧ x.value = T.J.marshal ⟨me, ver⟩

/-- Where a client stands.  `w` is the number of its writes. -/
def PutStands (T : PutTest) (w : Nat) (v : View) (p : Proc Putter) : Prop :=
  match p.st.pc with
  | .top => Credits w p.st.res
  | .returned res => res = p.st.res ∧ Credits w p.st.res
  | .put key ver =>
      key ∈ T.ka ∧ (¬ v.Took p.call → Credits w p.st.res) ∧
      (v.Took p.call → Credits w ⟨p.st.res.nok + 1, p.st.res.nmaybe⟩ ∧ Own T v p.st.me key ver)
  | .get key ver err =>
      key ∈ T.ka ∧ CreditsAfter w p.st.res err ∧ ver.toNat < v.writes key ∧
      (err = .ok → Own T v p.st.me key ver) ∧
      ∀ g, v.answered p.call (.get g) → g.err = .ok ∧ ∃ e, g.value = T.J.marshal e ∧
        (err = .ok → g.version.toNat = ver.toNat + 1 → e = ⟨p.st.me, ver⟩)
  | .fatal _ | .panicked => False

/-- `w i` is the number of writes of client `i`. -/
def outline (T : PutTest) (nclnt : Nat) : Sys.Outline Putter (Nat → Nat) where
  shared w v :=
    ∑ i ∈ Finset.range nclnt, w i = ∑ key ∈ T.ka.toFinset, v.writes key ∧
    ∀ key ∈ T.ka, ∀ x, v.server.m key = some x → ∃ e, x.value = T.J.marshal e
  stands w v i p :=
    i < nclnt ∧ p.st.me = i ∧ (∀ key ∈ T.ka, (p.st.verm key).toNat ≤ v.writes key) ∧
    PutStands T (w i) v p

section Proved

variable {nclnt : Nat} {w : Nat → Nat} {s : Sys Putter} {i j n : Nat} {p q : Proc Putter} {v : View}

/-- What a client has read when it goes on. -/
theorem read_seen (h : (outline T nclnt).Holds T.program T.ka w s) (hp : s.procs[i]? = some p)
    {key val : GoString} {ver ver' : Tversion} {err err' : Err} (hpc : p.st.pc = .get key ver err)
    (hres : s.net.result p.call = some (.get val ver' err')) :
    err' = .ok ∧ ver'.toNat ≤ s.net.writes key ∧ ∃ e, T.J.unmarshal val = some e ∧
      (err = .ok → ver'.toNat = ver.toNat + 1 → e = ⟨p.st.me, ver⟩) := by
  obtain ⟨_, _, _, hstands⟩ := h.stands i p hp
  simp only [PutStands, hpc] at hstands
  obtain ⟨hkey, _, _, _, hans⟩ := hstands
  obtain ⟨g, ha, herr, hsame, _⟩ := h.careful.get_result hres
  obtain ⟨hok, e, hval, hown⟩ := hans g ha
  have herr' : err' = .ok := by rw [← herr, hok]
  obtain ⟨hvalue, hversion⟩ := hsame herr'
  have hreq := h.careful.req hp (request_get hpc)
  have hseen := ((h.careful.versions key hkey).seen _ g hreq ha hok).1
  rw [hversion] at hseen hown
  refine ⟨herr', hseen, e, ?_, hown⟩
  rw [← hvalue, hval, T.J.round]

theorem onePut_timely (h : (outline T nclnt).Holds T.program T.ka w s) (hp : s.procs[i]? = some p)
    (hcause : Sys.Cause T.program s.net p c) {args : PutArgs}
    (hreq : T.request c = some (.put args)) (hkey : args.key ∈ T.ka) :
    args.version.toNat ≤ s.net.writes args.key := by
  obtain ⟨_, _, hverm, _⟩ := h.stands i p hp
  cases hcause with
  | act _ hact =>
      obtain ⟨_, ⟨key, hkey, rfl⟩ | rfl⟩ := putter_act_cases hact
      · simp only [PutTest.request, Option.some.injEq, Request.put.injEq] at hreq
        subst hreq
        exact hverm key hkey
      · simp [PutTest.request] at hreq
  | resume _ hres hresume =>
      cases onePut_of_resume hresume with
      | again hpc hok hmaybe =>
          simp only [PutTest.request, Option.some.injEq, Request.put.injEq] at hreq
          subst hreq
          exact (read_seen h hp hpc hres).2.1
      | _ => simp [PutTest.request, Putter.ended] at hreq

theorem onePut_moves (h : (outline T nclnt).Holds T.program T.ka w s) (hb : Sys.Below T.ka s)
    (hp : s.procs[i]? = some p) (hcause : Sys.Cause T.program s.net p c)
    (hfresh : ∀ reply, ¬ s.net.Answered n reply) :
    (outline T nclnt).stands w s.net.view i ⟨c, n⟩ := by
  obtain ⟨hi, hme, hverm, hstands⟩ := h.stands i p hp
  have hnot : ¬ s.net.view.Took n := hfresh _
  cases hcause with
  | act _ hact =>
      obtain ⟨hpc, ⟨key, hkey, rfl⟩ | rfl⟩ := putter_act_cases hact
      · simp only [PutStands, hpc] at hstands
        exact ⟨hi, hme, hverm, hkey, fun _ ↦ hstands, fun htook ↦ absurd htook hnot⟩
      · simp only [PutStands, hpc] at hstands
        exact ⟨hi, hme, hverm, rfl, hstands⟩
  | resume _ hres hresume =>
      cases onePut_of_resume hresume with
      | @wrongError key ver err hpc hne =>
          simp only [PutStands, hpc] at hstands
          have hreq := h.careful.req hp (request_put hpc)
          obtain ⟨herr, _⟩ | ⟨herr, _⟩ | herr := h.careful.put_result hreq hstands.1 hres
          · exact absurd (.inl herr) hne
          · exact absurd (.inr (.inl herr)) hne
          · exact absurd (.inr (.inr herr)) hne
      | @read key ver err hpc herr =>
          simp only [PutStands, hpc] at hstands
          obtain ⟨hkey, hno, hyes⟩ := hstands
          have hreq := h.careful.req hp (request_put hpc)
          refine ⟨hi, hme, hverm, hkey, ?_, h.careful.put_behind hreq hkey hres, ?_,
            fun g ha ↦ absurd ha (hfresh _)⟩
          · exact creditsAfter_of_put (fun htook ↦ (hyes htook).1) hno
              (h.careful.put_result hreq hkey hres)
          · rintro rfl
            exact (hyes (h.careful.inv.took_of_ok hres)).2
      | failed hpc hbad =>
          obtain ⟨herr, _, e, he, _⟩ := read_seen h hp hpc hres
          obtain hne | hnone := hbad
          · exact absurd herr hne
          · rw [he] at hnone
            cases hnone
      | @wrongValue key val ver e hpc he hne =>
          obtain ⟨_, hle, e', he', hown⟩ := read_seen h hp hpc hres
          simp only [PutStands, hpc] at hstands
          rw [he, Option.some.injEq] at he'
          subst he'
          -- `ver + 1` does not wrap around, since the key has that version
          have hlt := hstands.2.2.1
          have hbound := hb key hstands.1
          refine absurd (hown rfl ?_) hne
          rw [UInt64.toNat_add, UInt64.toNat_one]
          change ver.toNat < s.net.writes key at hlt
          exact Nat.mod_eq_of_lt (by omega)
      | @ended key val ver ver' err hpc herr =>
          obtain ⟨_, hle, _⟩ := read_seen h hp hpc hres
          simp only [PutStands, hpc] at hstands
          refine ⟨hi, hme, ?_, ?_⟩
          · intro k hk
            by_cases hsame : k = key
            · subst hsame
              simp only [Putter.ended, Function.update_self]
              exact hle
            · simp only [Putter.ended, Function.update_of_ne hsame]
              exact hverm k hk
          · obtain rfl | rfl := herr
            · exact hstands.2.1
            · exact hstands.2.1
      | @again key val ver ver' err hpc hok hmaybe =>
          simp only [PutStands, hpc] at hstands
          refine ⟨hi, hme, hverm, hstands.1, fun _ ↦ ?_, fun htook ↦ absurd htook hnot⟩
          have hcredits := hstands.2.1
          cases err with
          | errVersion => exact hcredits
          | ok => exact absurd rfl hok
          | errMaybe => exact absurd rfl hmaybe
          | _ => exact hcredits.elim

/-- A handler that writes none of the keys. -/
theorem onePut_answers (h : (outline T nclnt).Holds T.program T.ka w s) (hb : Sys.Below T.ka s)
    {m : Nat} {r : Request} (ha : s.net.Answers T.ka m r v) :
    (outline T nclnt).shared w v ∧
      ∀ i p, s.procs[i]? = some p → (outline T nclnt).stands w v i p := by
  obtain ⟨hsum, hreadable⟩ := h.shared
  refine ⟨⟨?_, ?_⟩, ?_⟩
  · rw [hsum]
    exact Finset.sum_congr rfl fun key hkey ↦ (ha.writes key (List.mem_toFinset.mp hkey)).symm
  · intro key hkey x hx
    rw [ha.server key hkey] at hx
    exact hreadable key hkey x hx
  · intro i p hp
    obtain ⟨hi, hme, hverm, hstands⟩ := h.stands i p hp
    refine ⟨hi, hme, fun key hkey ↦ by rw [ha.writes key hkey]; exact hverm key hkey, ?_⟩
    have hown : ∀ key ∈ T.ka, ∀ ver,
        Own T v p.st.me key ver ↔ Own T s.net.view p.st.me key ver := by
      intro key hkey ver
      unfold Own
      rw [ha.writes key hkey, ha.server key hkey]
      rfl
    unfold PutStands at hstands ⊢
    cases hpc : p.st.pc with
    | put key ver =>
        simp only [hpc] at hstands ⊢
        have hkey := hstands.1
        rw [h.careful.took_answers hp (request_put hpc) hkey ha, hown key hkey]
        exact hstands
    | get key ver err =>
        simp only [hpc] at hstands ⊢
        obtain ⟨hkey, hcredits, hlt, hmine, hans⟩ := hstands
        rw [hown key hkey, ha.writes key hkey]
        refine ⟨hkey, hcredits, hlt, hmine, ?_⟩
        intro g hg
        obtain hold | rfl := h.careful.got_answers hp (request_get hpc) ha hg
        · exact hans g hold
        · -- the key is there, with what some client has written
          have hpos : 0 < s.net.writes key := Nat.lt_of_le_of_lt (Nat.zero_le _) hlt
          obtain ⟨x, hx⟩ := h.careful.inv.present hpos
          obtain ⟨e, he⟩ := hreadable key hkey x hx
          simp only [KVServer.get, hx]
          refine ⟨trivial, e, he, ?_⟩
          intro herr hver
          have hwrites := (h.careful.inv.writes_of_some (hb key hkey) hx).1
          obtain ⟨x', hx', hvalue⟩ := hmine herr (hwrites.symm.trans hver)
          have hsame : x' = x := Option.some.inj (hx'.symm.trans hx)
          rw [hsame, he] at hvalue
          exact T.J.marshal_inj hvalue
    | top => simpa only [hpc] using hstands
    | returned res => simpa only [hpc] using hstands
    | fatal why => simp only [hpc] at hstands
    | panicked => simp only [hpc] at hstands

/-- A write of somebody else is noticed. -/
theorem Own.writes {m me : Nat} {args : PutArgs} {key : GoString} {ver : Tversion}
    (h : Own T s.net.view me key ver) (hlt : ver.toNat < s.net.writes key)
    (hw : s.net.Writes m args v) : Own T v me key ver := by
  intro heq
  by_cases hkey : key = args.key
  · subst hkey
    have hwritten := hw.written
    omega
  · rw [hw.writes key hkey] at heq
    rw [hw.server key hkey]
    exact h heq

/-- The `Put` of client `i` takes effect. -/
theorem onePut_writes (h : (outline T nclnt).Holds T.program T.ka w s) (hp : s.procs[i]? = some p)
    {args : PutArgs} (hreq : T.program.request p.st = some (.put args)) (hkey : args.key ∈ T.ka)
    (hfresh : ∀ reply, ¬ s.net.Answered p.call reply) (hw : s.net.Writes p.call args v) :
    (outline T nclnt).shared (Function.update w i (w i + 1)) v ∧ ∀ j q, s.procs[j]? = some q →
      (outline T nclnt).stands (Function.update w i (w i + 1)) v j q := by
  obtain ⟨hsum, hreadable⟩ := h.shared
  obtain ⟨hi, hme, _, hstands⟩ := h.stands i p hp
  -- only a client in `OnePut` sends a `Put`
  obtain ⟨key, ver, hpc, rfl⟩ : ∃ key ver, p.st.pc = .put key ver ∧
      args = ⟨key, T.J.marshal ⟨p.st.me, ver⟩, ver⟩ := by
    cases hpc : p.st.pc with
    | put key ver =>
        rw [request_put hpc, Option.some.injEq, Request.put.injEq] at hreq
        exact ⟨key, ver, rfl, hreq.symm⟩
    | _ => simp [PutTest.program, PutTest.request, hpc] at hreq
  have hmono : ∀ k, s.net.writes k ≤ v.writes k := by
    intro k
    by_cases hsame : k = key
    · have hwritten := hw.written
      simp only [hsame] at hwritten ⊢
      omega
    · rw [hw.writes k hsame]
  refine ⟨⟨?_, ?_⟩, ?_⟩
  · -- the write is counted for the key and for the writer
    rw [sum_bump (Finset.mem_range.mpr hi) (Function.update_self i _ w)
        fun j _ hj ↦ Function.update_of_ne hj _ w, hsum,
      sum_bump (List.mem_toFinset.mpr hkey) hw.written fun k _ hk ↦ hw.writes k hk]
    rfl
  · intro k hk x hx
    by_cases hsame : k = key
    · subst hsame
      rw [hw.stored, Option.some.injEq] at hx
      exact ⟨_, by rw [← hx]⟩
    · rw [hw.server k hsame] at hx
      exact hreadable k hk x hx
  · intro j q hq
    obtain ⟨hj, hme', hverm, hstands'⟩ := h.stands j q hq
    refine ⟨hj, hme', fun k hk ↦ (hverm k hk).trans (hmono k), ?_⟩
    by_cases hij : i = j
    · subst hij
      rw [hp, Option.some.injEq] at hq
      subst hq
      simp only [PutStands, hpc, Function.update_self] at hstands ⊢
      have hcredits := hstands.2.1 (hfresh _)
      refine ⟨hstands.1, fun hnot ↦ absurd (Sys.took_self hw) hnot, fun _ ↦ ⟨?_, ?_⟩⟩
      · simp only [Credits] at hcredits ⊢
        omega
      · intro _
        exact ⟨_, hw.stored, rfl⟩
    · -- the others have no more writes, and see no other answers
      rw [Function.update_of_ne (Ne.symm hij)]
      unfold PutStands at hstands' ⊢
      cases hqpc : q.st.pc with
      | put key' ver' =>
          simp only [hqpc] at hstands' ⊢
          obtain ⟨hkey', hno, hyes⟩ := hstands'
          rw [h.careful.took_writes hp hreq hq (request_put hqpc) hij hw]
          refine ⟨hkey', hno, fun htook ↦ ⟨(hyes htook).1, (hyes htook).2.writes ?_ hw⟩⟩
          exact (h.careful.versions key' hkey').answered _ _ _ (h.careful.req hq (request_put hqpc))
            rfl htook
      | get key' ver' err =>
          simp only [hqpc] at hstands' ⊢
          obtain ⟨hkey', hcredits, hlt, hown, hans⟩ := hstands'
          refine ⟨hkey', hcredits, Nat.lt_of_lt_of_le hlt (hmono key'),
            fun herr ↦ (hown herr).writes hlt hw, ?_⟩
          intro g hg
          exact hans g ((Sys.got_writes hw).mp hg)
      | top => simpa only [hqpc] using hstands'
      | returned res => simpa only [hqpc] using hstands'
      | fatal why => simp only [hqpc] at hstands'
      | panicked => simp only [hqpc] at hstands'

theorem outline_proved (T : PutTest) (nclnt : Nat) :
    (outline T nclnt).Proved T.program T.ka where
  timely h _ hp hcause hreq hkey := onePut_timely h hp hcause hreq hkey
  moves h hb hp hcause hfresh := onePut_moves h hb hp hcause hfresh
  answers h hb ha := onePut_answers h hb ha
  writes h _ hp hreq hkey _ hfresh hw _ := ⟨_, onePut_writes h hp hreq hkey hfresh hw⟩

end Proved

end GoLabs.KvTest
