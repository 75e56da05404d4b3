import GoLabs.Reasoning.Strings
import GoLabs.KvSrv.MutualExclusion
import GoLabs.KvTest.Appends

/-!
# Clients that hold the lock

`oneClient` of `kvsrv1/lock/lock_test.go`.  Each client makes a `Lock` on the key `"l"`.  While it
holds the lock it reads the key `"l0"`, writes its own number there and clears it again with the
next version; it calls `t.Fatalf` if it finds the key in use or if one of its `Put`s is refused.

A `LockTest` is a `LockSys` whose methods are called by such clients.  Where a client stands says
where its `Lock` may stand, and a client that is inside holds the lock.
-/

open GoLabs.Reasoning GoLabs.KvSrv

namespace GoLabs.KvTest

/-- The calls of `t.Fatalf`. -/
inductive LockFatal where
  /-- `"%d: two clients acquired lock %v"` -/
  | two (me : Nat) (val : GoString)
  /-- `"%d: get failed %v"` -/
  | getFailed (me : Nat) (err : Err)
  /-- `"%d: put failed %v"` -/
  | putFailed (me : Nat) (err : Err)
  deriving DecidableEq, Repr

inductive LockPoint where
  | start
  /-- In `MakeLock`. -/
  | making
  /-- In the first `Put`, which creates `"l0"`. -/
  | create
  /-- At the `select`. -/
  | top
  /-- In `Acquire`. -/
  | acquiring
  | get
  | put (ver : Tversion)
  | sleep (ver : Tversion)
  | clear (ver : Tversion)
  /-- Before `Release`. -/
  | unlock
  /-- In `Release`. -/
  | releasing
  | returned (res : ClntRes)
  | fatal (why : LockFatal)
  deriving DecidableEq, Repr

/-- A run of `oneClient`; `lk` is the index of its `Lock`. -/
structure LockClient where
  me : Nat
  i : Nat
  lk : Nat
  pc : LockPoint
  deriving DecidableEq, Repr

/-- What a client does between two Clerk calls of its own. -/
inductive LockSignal where
  /-- `MakeLock` is called; it makes the `Lock` with this index. -/
  | makeLock (lk : Nat)
  | made
  | done
  | acquire
  | acquired
  | wake
  | release
  | released
  deriving Repr

def lockKey : GoString := lit "l"

def dataKey : GoString := lit "l0"

namespace LockClient

def request (c : LockClient) : Option Request :=
  match c.pc with
  | .create => some (.put ⟨dataKey, [], 0⟩)
  | .get => some (.get ⟨dataKey⟩)
  | .put ver => some (.put ⟨dataKey, dec c.me, ver⟩)
  | .clear ver => some (.put ⟨dataKey, [], ver + 1⟩)
  | _ => none

def resume (c : LockClient) (res : Result) : Option LockClient :=
  match c.pc, res with
  | .create, .put _ => some { c with i := 1, pc := .top }
  | .get, .get val ver err =>
      if err = .ok then
        if val ≠ [] then some { c with pc := .fatal (.two c.me val) }
        else some { c with pc := .put ver }
      else some { c with pc := .fatal (.getFailed c.me err) }
  | .put ver, .put err =>
      if ¬ (err = .ok ∨ err = .errMaybe) then some { c with pc := .fatal (.putFailed c.me err) }
      else some { c with pc := .sleep ver }
  | .clear _, .put err =>
      if ¬ (err = .ok ∨ err = .errMaybe) then some { c with pc := .fatal (.putFailed c.me err) }
      else some { c with pc := .unlock }
  | _, _ => none

def act (c : LockClient) (signal : LockSignal) : Option LockClient :=
  match signal, c.pc with
  | .makeLock lk, .start => some { c with lk := lk, pc := .making }
  | .made, .making => some { c with pc := .create }
  | .done, .top => some { c with pc := .returned ⟨c.i, 0⟩ }
  | .acquire, .top => some { c with pc := .acquiring }
  | .acquired, .acquiring => some { c with pc := .get }
  | .wake, .sleep ver => some { c with pc := .clear ver }
  | .release, .unlock => some { c with pc := .releasing }
  | .released, .releasing => some { c with i := c.i + 1, pc := .top }
  | _, _ => none

def program : Program LockClient LockSignal := { request, resume, act }

end LockClient

structure LockTest where
  locks : LockSys
  procs : List (Proc LockClient)

inductive LockTestAction where
  | client (c : Nat) (signal : LockSignal)
  | resume (c : Nat)
  /-- A method of a `Lock` goes on after its Clerk call. -/
  | method (lk : Nat)
  /-- `Acquire` wakes up. -/
  | retry (lk : Nat)
  | net (action : Action)
  deriving Repr

namespace LockTest

def sys (s : LockTest) : Sys LockClient := ⟨s.locks.net, s.procs⟩

/-- Client `c` comes to state `st`, and makes the Clerk call that it waits for there. -/
def enter (s : LockTest) (c : Nat) (st : LockClient) : LockTest :=
  { locks := { s.locks with net := (s.sys.enter LockClient.program c st).net }
    procs := (s.sys.enter LockClient.program c st).procs }

/-- No method of the `Lock` runs. -/
def returned (s : LockSys) (lk : Nat) : Bool := s.handles[lk]?.any fun h => h.pc = .idle

/-- What a client does to its `Lock`: it calls a method, or waits until one has returned. -/
def lockPart (s : LockSys) (c : LockClient) : LockSignal → Option LockSys
  | .makeLock lk => if lk = s.handles.length then s.step lockKey .makeLock else none
  | .acquire => s.step lockKey (.acquire c.lk)
  | .release => s.step lockKey (.release c.lk)
  | .made | .acquired | .released => if returned s c.lk then some s else none
  | .done | .wake => some s

def step (s : LockTest) : LockTestAction → Option LockTest
  | .client c signal => do
      let p ← s.procs[c]?
      let st ← p.st.act signal
      let locks ← lockPart s.locks p.st signal
      some ({ s with locks }.enter c st)
  | .resume c => do
      let p ← s.procs[c]?
      let _ ← p.st.request
      let res ← s.locks.net.result p.call
      (p.st.resume res).map (s.enter c)
  | .method lk => (s.locks.step lockKey (.resume lk)).map fun locks => { s with locks }
  | .retry lk => (s.locks.step lockKey (.retry lk)).map fun locks => { s with locks }
  | .net action =>
      if foreign dataKey action then
        (s.locks.step lockKey (.net action)).map fun locks => { s with locks }
      else none

def begin (nclnt : Nat) : LockTest :=
  { locks := LockSys.init
    procs := (List.range nclnt).map fun me => ⟨⟨me, 0, 0, .start⟩, 0⟩ }

end LockTest

/-! ## The steps of the test -/

section Steps

variable {s t : LockTest} {c : Nat} {p : Proc LockClient} {st : LockClient}

/-- What each action needs and does. -/
inductive LockTest.Step (s : LockTest) : LockTestAction → LockTest → Prop where
  | client {c : Nat} {signal : LockSignal} {p : Proc LockClient} {st : LockClient} {locks : LockSys}
      (hp : s.procs[c]? = some p) (hact : p.st.act signal = some st)
      (hlocks : LockTest.lockPart s.locks p.st signal = some locks) :
      Step s (.client c signal) (LockTest.enter { s with locks } c st)
  | resume {c : Nat} {p : Proc LockClient} {r : Request} {res : Result} {st : LockClient}
      (hp : s.procs[c]? = some p) (hreq : p.st.request = some r)
      (hres : s.locks.net.result p.call = some res) (hresume : p.st.resume res = some st) :
      Step s (.resume c) (s.enter c st)
  | method {lk : Nat} {locks : LockSys} (hs : s.locks.step lockKey (.resume lk) = some locks) :
      Step s (.method lk) { s with locks }
  | retry {lk : Nat} {locks : LockSys} (hs : s.locks.step lockKey (.retry lk) = some locks) :
      Step s (.retry lk) { s with locks }
  | net {action : Action} {locks : LockSys} (hf : foreign dataKey action = true)
      (hs : s.locks.step lockKey (.net action) = some locks) : Step s (.net action) { s with locks }

theorem lockTest_step_cases {act : LockTestAction} (h : s.step act = some t) : s.Step act t := by
  cases act with
  | client c signal =>
      simp only [LockTest.step, Option.bind_eq_bind, Option.bind_eq_some_iff,
        Option.some.injEq] at h
      obtain ⟨p, hp, st, hact, locks, hlocks, rfl⟩ := h
      exact .client hp hact hlocks
  | resume c =>
      simp only [LockTest.step, Option.bind_eq_bind, Option.bind_eq_some_iff,
        Option.map_eq_some_iff] at h
      obtain ⟨p, hp, r, hreq, res, hres, st, hresume, rfl⟩ := h
      exact .resume hp hreq hres hresume
  | method lk =>
      simp only [LockTest.step, Option.map_eq_some_iff] at h
      obtain ⟨locks, hs, rfl⟩ := h
      exact .method hs
  | retry lk =>
      simp only [LockTest.step, Option.map_eq_some_iff] at h
      obtain ⟨locks, hs, rfl⟩ := h
      exact .retry hs
  | net action =>
      simp only [LockTest.step, Option.ite_none_right_eq_some, Option.map_eq_some_iff] at h
      obtain ⟨hf, locks, hs, rfl⟩ := h
      exact .net hf hs

theorem act_cases_lock {c c' : LockClient} {signal : LockSignal} (h : c.act signal = some c') :
    (∃ lk, signal = .makeLock lk ∧ c.pc = .start ∧ c' = { c with lk := lk, pc := .making }) ∨
    (signal = .made ∧ c.pc = .making ∧ c' = { c with pc := .create }) ∨
    (signal = .done ∧ c.pc = .top ∧ c' = { c with pc := .returned ⟨c.i, 0⟩ }) ∨
    (signal = .acquire ∧ c.pc = .top ∧ c' = { c with pc := .acquiring }) ∨
    (signal = .acquired ∧ c.pc = .acquiring ∧ c' = { c with pc := .get }) ∨
    (∃ ver, signal = .wake ∧ c.pc = .sleep ver ∧ c' = { c with pc := .clear ver }) ∨
    (signal = .release ∧ c.pc = .unlock ∧ c' = { c with pc := .releasing }) ∨
    (signal = .released ∧ c.pc = .releasing ∧ c' = { c with i := c.i + 1, pc := .top }) := by
  unfold LockClient.act at h
  split at h <;> cases h <;> simp_all

/-- What the code after a Clerk call does. -/
inductive LockClient.Resumed (c : LockClient) : Result → LockClient → Prop where
  | created {err : Err} (hpc : c.pc = .create) : Resumed c (.put err) { c with i := 1, pc := .top }
  | found {val : GoString} {ver : Tversion} {err : Err} {why : LockFatal} (hpc : c.pc = .get)
      (hbad : err ≠ .ok ∨ val ≠ []) : Resumed c (.get val ver err) { c with pc := .fatal why }
  | put {ver : Tversion} (hpc : c.pc = .get) : Resumed c (.get [] ver .ok) { c with pc := .put ver }
  | refused {ver : Tversion} {err : Err} {why : LockFatal}
      (hpc : c.pc = .put ver ∨ c.pc = .clear ver)
      (herr : ¬ (err = .ok ∨ err = .errMaybe)) : Resumed c (.put err) { c with pc := .fatal why }
  | written {ver : Tversion} {err : Err} (hpc : c.pc = .put ver) :
      Resumed c (.put err) { c with pc := .sleep ver }
  | cleared {ver : Tversion} {err : Err} (hpc : c.pc = .clear ver) :
      Resumed c (.put err) { c with pc := .unlock }

theorem LockClient.resumed_of_resume {c c' : LockClient} {res : Result}
    (h : c.resume res = some c') : c.Resumed res c' := by
  unfold LockClient.resume at h
  split at h
  · rename_i hpc
    cases h
    exact .created hpc
  · rename_i val ver err hpc
    split at h
    · rename_i hok
      subst hok
      split at h <;> cases h
      · rename_i hval
        exact .found hpc (.inr hval)
      · rename_i hval
        rw [not_not.mp hval]
        exact .put hpc
    · rename_i hok
      cases h
      exact .found hpc (.inl hok)
  · rename_i ver err hpc
    split at h <;> cases h
    · rename_i herr
      exact .refused (.inl hpc) herr
    · exact .written hpc
  · rename_i ver err hpc
    split at h <;> cases h
    · rename_i herr
      exact .refused (.inr hpc) herr
    · exact .cleared hpc
  · cases h

end Steps

/-! ## Clients and their locks -/

/-- Where the `Lock` of a client may stand. -/
def Fits (h : Handle) : LockPoint → Prop
  | .start => False
  | .making => h.held = false ∧ (h.pc = .idle ∨ h.pc = .makeGet ∨ h.pc = .makePut)
  | .acquiring => (h.held = true ∧ h.pc = .idle) ∨
      (h.held = false ∧ (h.pc = .sleeping ∨ h.pc = .tryGet ∨ h.pc = .tryPut))
  | .get | .put _ | .sleep _ | .clear _ | .unlock => h.held = true ∧ h.pc = .idle
  | .releasing => h.held = false ∧ (h.pc = .idle ∨ h.pc = .release)
  | .create | .top | .returned _ => h.held = false ∧ h.pc = .idle
  | .fatal _ => True

/-- A client that has called `MakeLock` has a `Lock` of its own. -/
structure Linked (handles : List Handle) (procs : List (Proc LockClient)) : Prop where
  fits : ∀ (c : Nat) (p : Proc LockClient), procs[c]? = some p → p.st.pc ≠ .start →
    ∃ h, handles[p.st.lk]? = some h ∧ Fits h p.st.pc
  own : ∀ (c d : Nat) (p q : Proc LockClient), procs[c]? = some p → procs[d]? = some q →
    p.st.pc ≠ .start → q.st.pc ≠ .start → p.st.lk = q.st.lk → c = d

/-- Between the return of `Acquire` and the call of `Release`. -/
def LockPoint.inside : LockPoint → Bool
  | .get | .put _ | .sleep _ | .clear _ | .unlock => true
  | .start | .making | .create | .top | .acquiring | .releasing | .returned _ | .fatal _ => false

section Linked

variable {handles handles' : List Handle} {procs : List (Proc LockClient)} {c d : Nat}
  {p q : Proc LockClient} {st : LockClient}

theorem fits_inside {h : Handle} {pc : LockPoint} (hfits : Fits h pc) (hin : pc.inside = true) :
    h.held = true := by
  cases pc <;> simp_all [Fits, LockPoint.inside]

/-- The methods of a `Lock` do not depend on the client. -/
theorem Fits.resumes {h h' : Handle} {pc : LockPoint} {res : Result} (hfits : Fits h pc)
    (hr : Resumes h res h') : Fits h' pc := by
  cases hr <;> cases pc <;> simp_all [Fits]

theorem Fits.retry {h : Handle} {pc : LockPoint} (hfits : Fits h pc) (hpc : h.pc = .sleeping) :
    Fits h.tryAcquire pc := by
  cases pc <;> simp_all [Fits, Handle.tryAcquire]

/-- A method of one `Lock` goes on. -/
theorem Linked.set (hl : Linked handles procs) {lk : Nat} {h h' : Handle}
    (hh : handles[lk]? = some h) (hfits : ∀ pc, Fits h pc → Fits h' pc) :
    Linked (handles.set lk h') procs := by
  refine ⟨?_, hl.own⟩
  intro c p hp hpc
  obtain ⟨k, hk, hfit⟩ := hl.fits c p hp hpc
  by_cases hlk : lk = p.st.lk
  · subst hlk
    rw [hh, Option.some.injEq] at hk
    subst hk
    exact ⟨h', List.getElem?_set_self (lt_length_of_getElem? hh), hfits _ hfit⟩
  · exact ⟨k, by rw [List.getElem?_set_ne hlk, hk], hfit⟩

/-- Client `c` goes on; the `Lock`s of the others stay as they are. -/
theorem Linked.enter (hl : Linked handles procs) {h : Handle} {n : Nat}
    (hrest : ∀ d q, procs[d]? = some q → d ≠ c → q.st.pc ≠ .start → q.st.lk ≠ st.lk ∧
      handles'[q.st.lk]? = handles[q.st.lk]?)
    (hh : handles'[st.lk]? = some h) (hfits : Fits h st.pc) :
    Linked handles' (procs.set c ⟨st, n⟩) := by
  constructor
  · intro d q hq hpc
    obtain ⟨rfl, _, rfl⟩ | ⟨hne, hold⟩ := getElem?_set_eq_some.mp hq
    · exact ⟨h, hh, hfits⟩
    · rw [(hrest d q hold hne hpc).2]
      exact hl.fits d q hold hpc
  · intro d e q q' hq hq' hpc hpc' hlk
    obtain ⟨rfl, _, rfl⟩ | ⟨hne, hold⟩ := getElem?_set_eq_some.mp hq <;>
      obtain ⟨rfl, _, rfl⟩ | ⟨hne', hold'⟩ := getElem?_set_eq_some.mp hq'
    · rfl
    · exact absurd hlk.symm (hrest e q' hold' hne' hpc').1
    · exact absurd hlk (hrest d q hold hne hpc).1
    · exact hl.own d e q q' hold hold' hpc hpc' hlk

/-- A client that has its `Lock` already goes on. -/
theorem Linked.go (hl : Linked handles procs) (hp : procs[c]? = some p) (hpc : p.st.pc ≠ .start)
    {h h' : Handle} {n : Nat} (hh : handles[p.st.lk]? = some h) (hlk : st.lk = p.st.lk)
    (hfits : Fits h' st.pc) : Linked (handles.set p.st.lk h') (procs.set c ⟨st, n⟩) := by
  refine hl.enter ?_ (h := h') ?_ hfits
  · intro d q hq hne hq'
    have hother : q.st.lk ≠ p.st.lk := fun heq ↦ hne (hl.own d c q p hq hp hq' hpc heq)
    exact ⟨by rw [hlk]; exact hother, List.getElem?_set_ne (Ne.symm hother)⟩
  · rw [hlk]
    exact List.getElem?_set_self (lt_length_of_getElem? hh)

theorem Linked.go_same (hl : Linked handles procs) (hp : procs[c]? = some p)
    (hpc : p.st.pc ≠ .start) {h : Handle} {n : Nat} (hh : handles[p.st.lk]? = some h)
    (hlk : st.lk = p.st.lk) (hfits : Fits h st.pc) : Linked handles (procs.set c ⟨st, n⟩) := by
  have hset := hl.go hp hpc hh hlk hfits (n := n)
  obtain ⟨hlt, rfl⟩ := List.getElem?_eq_some_iff.mp hh
  rwa [List.set_getElem_self] at hset

/-- At most one client is inside. -/
theorem Linked.inside_unique {s : LockSys} {g : Option (Nat × Tversion)}
    (hl : Linked s.handles procs) (hx : LockSys.Exclusive lockKey g s) (hp : procs[c]? = some p)
    (hq : procs[d]? = some q) (hin : p.st.pc.inside = true) (hin' : q.st.pc.inside = true) :
    c = d := by
  have hpc : p.st.pc ≠ .start := by
    intro heq
    rw [heq] at hin
    cases hin
  have hpc' : q.st.pc ≠ .start := by
    intro heq
    rw [heq] at hin'
    cases hin'
  obtain ⟨h, hh, hfits⟩ := hl.fits c p hp hpc
  obtain ⟨h', hh', hfits'⟩ := hl.fits d q hq hpc'
  exact hl.own c d p q hp hq hpc hpc'
    (hx.held_unique hh hh' (fits_inside hfits hin) (fits_inside hfits' hin'))

end Linked

end GoLabs.KvTest
