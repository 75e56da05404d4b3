import GoLabs.KvSrv.Outline

/-!
# Clients that append to one list

`OneClientAppend` of `kvtest1/kvtest.go`.  Each client reads the list under the key `"k"`, appends
its own next entry and writes the list back with the version that it read, again and again while the
`Put` is refused.  `GetJson` and `PutJson` are the Clerk calls around `json.Unmarshal` and
`json.Marshal`.

The counters are ints in the source.  They stay below the length of the list (`Appends.counter_le`),
so they are natural numbers here.
-/

open GoLabs.Reasoning GoLabs.KvSrv

namespace GoLabs.KvTest

/-- `entry`, which `CheckAppends` calls `EntryN`. -/
structure Entry where
  id : Nat
  n : Nat
  deriving DecidableEq, Repr

structure ClntRes where
  nok : Nat
  nmaybe : Nat
  deriving DecidableEq, Repr

/-- Where a client stands. -/
inductive AppendPc where
  /-- At the `select`. -/
  | top
  | get
  /-- In `PutJson` of this list at this version. -/
  | put (es : List Entry) (ver : Tversion)
  | returned (res : ClntRes)
  /-- `ts.Fatalf` was called. -/
  | fatal
  /-- `append` panicked, since the length of the list would not be an int. -/
  | panicked
  deriving DecidableEq, Repr

/-- A run of `OneClientAppend`.  `outcomes` is not read by it: it records how each iteration
ended. -/
structure Client where
  me : Nat
  i : Nat
  nok : Nat
  nmay : Nat
  outcomes : List Err
  pc : AppendPc
  deriving DecidableEq, Repr

/-- What the `select` of a client finds. -/
inductive Signal where
  | default
  | done
  deriving DecidableEq, Repr

def key : GoString := lit "k"

namespace Client

def called (me : Nat) : Client := { me, i := 0, nok := 0, nmay := 0, outcomes := [], pc := .top }

/-- The iteration ends, after a `Put` that returned `OK` or `ErrMaybe`. -/
def ended (c : Client) (err : Err) : Client :=
  { c with
    i := c.i + 1
    nok := if err = .ok then c.nok + 1 else c.nok
    nmay := if err = .ok then c.nmay else c.nmay + 1
    outcomes := c.outcomes ++ [err]
    pc := .top }

def request (J : Codec (List Entry)) (c : Client) : Option Request :=
  match c.pc with
  | .get => some (.get ⟨key⟩)
  | .put es ver => some (.put ⟨key, J.marshal es, ver⟩)
  | .top | .returned _ | .fatal | .panicked => none

def resume (J : Codec (List Entry)) (c : Client) (res : Result) : Option Client :=
  match c.pc, res with
  | .get, .get val ver err =>
      if err = .ok then
        match J.unmarshal val with
        | some es =>
            if es.length + 1 < 2 ^ 63 then some { c with pc := .put (es ++ [⟨c.me, c.i⟩]) ver }
            else some { c with pc := .panicked }
        | none => some { c with pc := .fatal }
      else some { c with pc := .fatal }
  | .put _ _, .put err =>
      if err = .ok then some (c.ended .ok)
      else if err = .errMaybe then some (c.ended .errMaybe)
      -- keep trying to put my i
      else some { c with pc := .get }
  | _, _ => none

def act (c : Client) (signal : Signal) : Option Client :=
  match signal, c.pc with
  | .default, .top => some { c with pc := .get }
  | .done, .top => some { c with pc := .returned ⟨c.nok, c.nmay⟩ }
  | _, _ => none

end Client

def program (J : Codec (List Entry)) : Program Client Signal :=
  { request := Client.request J, resume := Client.resume J, act := Client.act }

/-- `nclnt` clients, with the empty list under the key at version 1. -/
def appenders (J : Codec (List Entry)) (nclnt : Nat) : Sys Client :=
  Sys.start (Net.prepared key (J.marshal []) 1) ((List.range nclnt).map Client.called)

/-! ## The calls of a client -/

variable {J : Codec (List Entry)} {c c' : Client}

theorem act_cases {signal : Signal} (h : c.act signal = some c') :
    c.pc = .top ∧
      (c' = { c with pc := .get } ∨ c' = { c with pc := .returned ⟨c.nok, c.nmay⟩ }) := by
  obtain ⟨me, i, nok, nmay, outcomes, pc⟩ := c
  cases signal <;> cases pc <;> simp_all [Client.act]

/-- What the code after a Clerk call does. -/
inductive Resumed (J : Codec (List Entry)) (c : Client) : Result → Client → Prop where
  | read {val : GoString} {es : List Entry} {ver : Tversion} (hpc : c.pc = .get)
      (hes : J.unmarshal val = some es) (hint : es.length + 1 < 2 ^ 63) :
      Resumed J c (.get val ver .ok) { c with pc := .put (es ++ [⟨c.me, c.i⟩]) ver }
  | panicked {val : GoString} {es : List Entry} {ver : Tversion} (hpc : c.pc = .get)
      (hes : J.unmarshal val = some es) (hint : ¬ es.length + 1 < 2 ^ 63) :
      Resumed J c (.get val ver .ok) { c with pc := .panicked }
  | fatal {val : GoString} {ver : Tversion} {err : Err} (hpc : c.pc = .get)
      (hbad : err ≠ .ok ∨ J.unmarshal val = none) :
      Resumed J c (.get val ver err) { c with pc := .fatal }
  | ended {es : List Entry} {ver : Tversion} {err : Err} (hpc : c.pc = .put es ver)
      (herr : err = .ok ∨ err = .errMaybe) : Resumed J c (.put err) (c.ended err)
  | again {es : List Entry} {ver : Tversion} {err : Err} (hpc : c.pc = .put es ver)
      (hok : err ≠ .ok) (hmaybe : err ≠ .errMaybe) : Resumed J c (.put err) { c with pc := .get }

theorem resumed_of_resume {res : Result} (h : c.resume J res = some c') : Resumed J c res c' := by
  unfold Client.resume at h
  split at h
  · rename_i val ver err hpc
    split at h
    · rename_i herr
      subst herr
      split at h
      · rename_i es hes
        split at h <;> cases h
        · rename_i hint
          exact .read hpc hes hint
        · rename_i hint
          exact .panicked hpc hes hint
      · rename_i hes
        cases h
        exact .fatal hpc (.inr hes)
    · rename_i herr
      cases h
      exact .fatal hpc (.inl herr)
  · rename_i es ver err hpc
    split at h
    · rename_i herr
      cases h
      rw [herr]
      exact .ended hpc (.inl rfl)
    · split at h <;> cases h
      · rename_i herr
        rw [herr]
        exact .ended hpc (.inr rfl)
      · rename_i hok hmaybe
        exact .again hpc hok hmaybe
  · cases h

/-- The list is put with the version that it was read at. -/
theorem program_writesBack (J : Codec (List Entry)) : Sys.WritesBack (program J) key := by
  constructor
  · intro c signal c' args hact hreq
    obtain ⟨_, rfl | rfl⟩ := act_cases hact <;> simp [program, Client.request] at hreq
  · intro c res c' args hres hreq _
    cases resumed_of_resume hres with
    | read hpc hes hint =>
        simp only [program, Client.request, Option.some.injEq, Request.put.injEq] at hreq
        subst hreq
        exact ⟨by simp [program, Client.request, hpc], _, _, rfl⟩
    | panicked hpc hes hint => simp [program, Client.request] at hreq
    | fatal hpc hbad => simp [program, Client.request] at hreq
    | ended hpc herr => simp [program, Client.request, Client.ended] at hreq
    | again hpc hok hmaybe => simp [program, Client.request] at hreq

end GoLabs.KvTest
