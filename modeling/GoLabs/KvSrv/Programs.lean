import GoLabs.KvSrv.RoundTrip

/-!
# Programs over Clerks

A sequential program runs until its next Clerk call and resumes with the result of that call.  `Sys`
is the network with any number of processes of one program; other processes may use the same server
as long as they do not `Put` to the key of the program.  A process waits for a call of its own, and
every `Put` to the key that has not returned is one that a process waits for (`Wired`).
-/

open GoLabs.Reasoning

namespace GoLabs.KvSrv

structure Program (σ α : Type) where
  /-- The Clerk call that a process in this state waits for. -/
  request : σ → Option Request
  /-- The code after that call. -/
  resume : σ → Result → Option σ
  /-- The code of a process that waits for no call. -/
  act : σ → α → Option σ

/-- A process, with the number of the Clerk call it waits for, if it waits. -/
structure Proc (σ : Type) where
  st : σ
  call : Nat
  deriving DecidableEq, Repr

structure Sys (σ : Type) where
  net : Net
  procs : List (Proc σ)

inductive SysAction (α : Type) where
  | act (i : Nat) (a : α)
  | resume (i : Nat)
  | net (action : Action)

namespace Sys

variable {σ α : Type} {P : Program σ α} {key : GoString}

/-- Process `i` comes to state `st`, and makes the Clerk call that it waits for there. -/
def enter (P : Program σ α) (s : Sys σ) (i : Nat) (st : σ) : Sys σ :=
  match P.request st with
  | some req =>
      { net := s.net.invoke i req, procs := s.procs.set i ⟨st, s.net.calls.length⟩ }
  | none => { s with procs := s.procs.set i ⟨st, s.net.calls.length⟩ }

/-- A new process starts in state `st`. -/
def spawn (P : Program σ α) (s : Sys σ) (st : σ) : Sys σ :=
  enter P { s with procs := s.procs ++ [⟨st, s.net.calls.length⟩] } s.procs.length st

def step (P : Program σ α) (key : GoString) (s : Sys σ) : SysAction α → Option (Sys σ)
  | .act i a => do
      let p ← s.procs[i]?
      if (P.request p.st).isNone then (P.act p.st a).map (s.enter P i) else none
  | .resume i => do
      let p ← s.procs[i]?
      let _ ← P.request p.st
      let res ← s.net.result p.call
      (P.resume p.st res).map (s.enter P i)
  | .net act => if foreign key act then (s.net.step act).map fun net => { s with net } else none

/-- Why a process moves on. -/
inductive Cause (P : Program σ α) (net : Net) (p : Proc σ) (st : σ) : Prop where
  | act {a : α} (hreq : P.request p.st = none) (hact : P.act p.st a = some st)
  | resume {r : Request} {res : Result} (hreq : P.request p.st = some r)
      (hres : net.result p.call = some res) (hresume : P.resume p.st res = some st)

/-- What each action needs and does. -/
inductive Step (P : Program σ α) (key : GoString) (s : Sys σ) : SysAction α → Sys σ → Prop where
  | act {i : Nat} {a : α} {p : Proc σ} {st : σ} (hp : s.procs[i]? = some p)
      (hcause : Cause P s.net p st) : Step P key s (.act i a) (s.enter P i st)
  | resume {i : Nat} {p : Proc σ} {st : σ} (hp : s.procs[i]? = some p)
      (hcause : Cause P s.net p st) : Step P key s (.resume i) (s.enter P i st)
  | net {act : Action} {t : Net} (hf : foreign key act = true) (hs : s.net.step act = some t) :
      Step P key s (.net act) { s with net := t }

variable {s t : Sys σ} {act : SysAction α}

theorem step_act {i : Nat} {a : α} (h : s.step P key (.act i a) = some t) :
    ∃ p st, s.procs[i]? = some p ∧ P.request p.st = none ∧ P.act p.st a = some st ∧
      t = s.enter P i st := by
  simp only [step, Option.bind_eq_bind, Option.bind_eq_some_iff,
    Option.ite_none_right_eq_some, Option.map_eq_some_iff] at h
  obtain ⟨p, hp, hnone, st, hact, rfl⟩ := h
  exact ⟨p, st, hp, by simpa using hnone, hact, rfl⟩

theorem step_resume {i : Nat} (h : s.step P key (.resume i) = some t) :
    ∃ p r res st, s.procs[i]? = some p ∧ P.request p.st = some r ∧
      s.net.result p.call = some res ∧ P.resume p.st res = some st ∧ t = s.enter P i st := by
  simp only [step, Option.bind_eq_bind, Option.bind_eq_some_iff, Option.map_eq_some_iff] at h
  obtain ⟨p, hp, r, hr, res, hres, st, hresume, rfl⟩ := h
  exact ⟨p, r, res, st, hp, hr, hres, hresume, rfl⟩

theorem step_cases (h : s.step P key act = some t) : Step P key s act t := by
  cases act with
  | act i a =>
      obtain ⟨p, st, hp, hreq, hact, rfl⟩ := step_act h
      exact .act hp (.act hreq hact)
  | resume i =>
      obtain ⟨p, r, res, st, hp, hreq, hres, hresume, rfl⟩ := step_resume h
      exact .resume hp (.resume hreq hres hresume)
  | net act =>
      simp only [step, Option.ite_none_right_eq_some, Option.map_eq_some_iff] at h
      obtain ⟨hf, net, hs, rfl⟩ := h
      exact .net hf hs

theorem procs_enter (P : Program σ α) (s : Sys σ) (i : Nat) (st : σ) :
    (s.enter P i st).procs = s.procs.set i ⟨st, s.net.calls.length⟩ := by
  unfold enter
  split <;> rfl

theorem net_enter (P : Program σ α) (s : Sys σ) (i : Nat) (st : σ) :
    (s.enter P i st).net = match P.request st with
      | some req => s.net.invoke i req
      | none => s.net := by
  unfold enter
  split <;> simp_all

theorem procs_spawn (P : Program σ α) (s : Sys σ) (st : σ) :
    (s.spawn P st).procs = s.procs ++ [⟨st, s.net.calls.length⟩] := by
  rw [spawn, procs_enter, List.set_append_right _ _ (Nat.le_refl _), Nat.sub_self]
  rfl

/-! ## Moves -/

/-- A process that moves on has no call under way. -/
theorem Cause.returned {net : Net} {p : Proc σ} {st : σ} (h : Cause P net p st) {r : Request}
    (hr : P.request p.st = some r) : net.result p.call ≠ none := by
  cases h with
  | act hreq hact =>
      rw [hreq] at hr
      cases hr
  | resume hreq hres hresume => simp [hres]

/-- Process `i`, which is new or has no call under way, comes to state `st`. -/
structure Moved (P : Program σ α) (s : Sys σ) (i : Nat) (st : σ) (t : Sys σ) : Prop where
  net : t.net = match P.request st with
    | some req => s.net.invoke i req
    | none => s.net
  self : t.procs[i]? = some ⟨st, s.net.calls.length⟩
  other : ∀ j, j ≠ i → t.procs[j]? = s.procs[j]?
  free : ∀ p r, s.procs[i]? = some p → P.request p.st = some r → s.net.result p.call ≠ none

theorem moved_enter {i : Nat} {p : Proc σ} {st : σ} (hp : s.procs[i]? = some p)
    (hcause : Cause P s.net p st) : Moved P s i st (s.enter P i st) where
  net := net_enter P s i st
  self := by
    rw [procs_enter, List.getElem?_set_self (lt_length_of_getElem? hp)]
  other j hj := by
    rw [procs_enter, List.getElem?_set_ne (Ne.symm hj)]
  free q r hq hr := by
    rw [hp, Option.some.injEq] at hq
    subst hq
    exact hcause.returned hr

theorem moved_spawn (st : σ) : Moved P s s.procs.length st (s.spawn P st) where
  net := net_enter P _ _ st
  self := by
    rw [procs_spawn, List.getElem?_concat_length]
  other j hj := by
    rw [procs_spawn]
    by_cases hlt : j < s.procs.length
    · rw [List.getElem?_append_left hlt]
    · rw [List.getElem?_eq_none_iff.mpr (by simp; omega), List.getElem?_eq_none_iff.mpr (by omega)]
  free p r hp := by
    have hlt := lt_length_of_getElem? hp
    omega

/-- A move, seen by the processes. -/
theorem Moved.cases {i j : Nat} {st : σ} {q : Proc σ} (h : Moved P s i st t)
    (hq : t.procs[j]? = some q) :
    (j = i ∧ q = ⟨st, s.net.calls.length⟩) ∨ (j ≠ i ∧ s.procs[j]? = some q) := by
  by_cases hj : j = i
  · subst hj
    rw [h.self, Option.some.injEq] at hq
    exact .inl ⟨rfl, hq.symm⟩
  · rw [h.other j hj] at hq
    exact .inr ⟨hj, hq⟩

/-- A move, seen by the network. -/
theorem Moved.net_cases {i : Nat} {st : σ} (h : Moved P s i st t) :
    (P.request st = none ∧ t.net = s.net) ∨
      ∃ r, P.request st = some r ∧ t.net = s.net.invoke i r := by
  have hnet := h.net
  cases hst : P.request st with
  | none =>
      rw [hst] at hnet
      exact .inl ⟨rfl, hnet⟩
  | some r =>
      rw [hst] at hnet
      exact .inr ⟨r, rfl, hnet⟩

/-- A step of the system is a step of its network or leaves it alone. -/
theorem net_of_step (hs : s.step P key act = some t) :
    t.net = s.net ∨ ∃ action, s.net.step action = some t.net := by
  have hmoved : ∀ {i : Nat} {st : σ} {t : Sys σ}, Moved P s i st t →
      t.net = s.net ∨ ∃ action, s.net.step action = some t.net := by
    intro i st t hm
    obtain ⟨_, hnet⟩ | ⟨r, _, hnet⟩ := hm.net_cases
    · exact .inl hnet
    · exact .inr ⟨.invoke i r, congrArg some hnet.symm⟩
  cases step_cases hs with
  | act hp hcause => exact hmoved (moved_enter hp hcause)
  | resume hp hcause => exact hmoved (moved_enter hp hcause)
  | net hf hnet => exact .inr ⟨_, hnet⟩

theorem procs_length_of_step (hs : s.step P key act = some t) :
    t.procs.length = s.procs.length := by
  cases step_cases hs with
  | act hp hcause => rw [procs_enter, List.length_set]
  | resume hp hcause => rw [procs_enter, List.length_set]
  | net hf hnet => rfl

theorem procs_length_of_reaches (h : Reaches (step P key) s t) :
    t.procs.length = s.procs.length := by
  refine h.invariant (I := fun t ↦ t.procs.length = s.procs.length) rfl ?_
  intro u act v _ hs hu
  rw [procs_length_of_step hs, hu]

/-- A process that has nothing left to do stays where it is. -/
theorem stays {i : Nat} {p : Proc σ} (hp : s.procs[i]? = some p)
    (hstuck : ∀ net st, ¬ Cause P net p st) (h : Reaches (step P key) s t) :
    t.procs[i]? = some p := by
  refine h.invariant (I := fun t ↦ t.procs[i]? = some p) hp ?_
  intro u act v _ hs hu
  have henter : ∀ {j : Nat} {q : Proc σ} {st : σ}, u.procs[j]? = some q → Cause P u.net q st →
      (u.enter P j st).procs[i]? = some p := by
    intro j q st hq hcause
    have hij : i ≠ j := by
      rintro rfl
      rw [hu, Option.some.injEq] at hq
      subst hq
      exact hstuck _ _ hcause
    rw [(moved_enter hq hcause).other i hij, hu]
  cases step_cases hs with
  | act hq hcause => exact henter hq hcause
  | resume hq hcause => exact henter hq hcause
  | net hf hnet => exact hu

/-! ## Processes and their calls -/

structure Wired (P : Program σ α) (key : GoString) (s : Sys σ) : Prop where
  waits : ∀ (i : Nat) (p : Proc σ) (r : Request), s.procs[i]? = some p →
    P.request p.st = some r → s.net.req p.call = some r
  distinct : ∀ (i j : Nat) (p q : Proc σ) (r r' : Request), s.procs[i]? = some p →
    s.procs[j]? = some q → P.request p.st = some r → P.request q.st = some r' →
    p.call = q.call → i = j
  pending : ∀ (n : Nat) (args : PutArgs), s.net.req n = some (.put args) → args.key = key →
    s.net.result n = none → ∃ (i : Nat) (p : Proc σ), s.procs[i]? = some p ∧
      P.request p.st = some (.put args) ∧ p.call = n

/-- The requests after a move: those that were there, and the one of the new call. -/
theorem Moved.req {i n : Nat} {st : σ} {r : Request} (h : Moved P s i st t) :
    t.net.req n = some r ↔
      s.net.req n = some r ∨ n = s.net.calls.length ∧ P.request st = some r := by
  obtain ⟨hnone, hnet⟩ | ⟨r', hst, hnet⟩ := h.net_cases
  · rw [hnet, hnone]
    simp
  · rw [hnet, hst, Net.req_invoke]
    split
    · rename_i hn
      subst hn
      have hnew : s.net.req s.net.calls.length ≠ some r :=
        fun hr ↦ Nat.lt_irrefl _ (Net.lt_of_req hr)
      simp [hnew]
    · rename_i hn
      simp [hn]

theorem Moved.result {i n : Nat} {st : σ} (h : Moved P s i st t) :
    t.net.result n = s.net.result n := by
  obtain ⟨_, hnet⟩ | ⟨r, _, hnet⟩ := h.net_cases <;> rw [hnet]
  exact Net.result_invoke

theorem Wired.moved {i : Nat} {st : σ} (hw : Wired P key s) (hm : Moved P s i st t) :
    Wired P key t := by
  constructor
  · intro j q r hq hr
    obtain ⟨rfl, rfl⟩ | ⟨_, hold⟩ := hm.cases hq
    · exact hm.req.mpr (.inr ⟨rfl, hr⟩)
    · exact hm.req.mpr (.inl (hw.waits j q r hold hr))
  · intro j j' q q' r r' hq hq' hr hr' hcall
    obtain ⟨rfl, rfl⟩ | ⟨_, hold⟩ := hm.cases hq <;>
      obtain ⟨rfl, rfl⟩ | ⟨_, hold'⟩ := hm.cases hq'
    · rfl
    · have hlt := Net.lt_of_req (hw.waits j' q' r' hold' hr')
      simp only at hcall
      omega
    · have hlt := Net.lt_of_req (hw.waits j q r hold hr)
      simp only at hcall
      omega
    · exact hw.distinct j j' q q' r r' hold hold' hr hr' hcall
  · intro n args hn hkey hres
    rw [hm.result] at hres
    obtain hold | ⟨rfl, hst⟩ := hm.req.mp hn
    · obtain ⟨j, q, hq, hqr, rfl⟩ := hw.pending n args hold hkey hres
      have hji : j ≠ i := by
        rintro rfl
        exact hm.free q _ hq hqr hres
      exact ⟨j, q, by rw [hm.other j hji, hq], hqr, rfl⟩
    · exact ⟨i, _, hm.self, hst, rfl⟩

theorem Wired.net (hw : Wired P key s) {action : Action} {net : Net}
    (hf : foreign key action = true) (hs : s.net.step action = some net) :
    Wired P key { s with net } := by
  refine ⟨fun j q r hq hr ↦ Net.req_of_step hs (hw.waits j q r hq hr), hw.distinct, ?_⟩
  intro n args hn hkey hres
  obtain hold | ⟨_, clerk, rfl⟩ := Net.req_before_step hs hn
  · apply hw.pending n args hold hkey
    cases hr : s.net.result n with
    | none => rfl
    | some res =>
        rw [Net.result_of_step hs hr] at hres
        cases hres
  · simp [foreign, hkey] at hf

theorem Wired.step (hw : Wired P key s) (hs : s.step P key act = some t) : Wired P key t := by
  cases step_cases hs with
  | act hp hcause => exact hw.moved (moved_enter hp hcause)
  | resume hp hcause => exact hw.moved (moved_enter hp hcause)
  | net hf hnet => exact hw.net hf hnet

/-! ## Starting -/

/-- No process has made a call yet. -/
def start (net : Net) (sts : List σ) : Sys σ := { net, procs := sts.map fun st => ⟨st, 0⟩ }

theorem Wired.start {net : Net} {sts : List σ}
    (hreturned : ∀ n r, net.req n = some r → net.result n ≠ none)
    (hidle : ∀ st ∈ sts, P.request st = none) : Wired P key (Sys.start net sts) := by
  have hnone : ∀ (i : Nat) (p : Proc σ), (Sys.start net sts).procs[i]? = some p →
      P.request p.st = none := by
    intro i p hp
    obtain ⟨st, hst, rfl⟩ := List.mem_map.mp (List.mem_of_getElem? hp)
    exact hidle st hst
  constructor
  · intro i p r hp hr
    rw [hnone i p hp] at hr
    cases hr
  · intro i j p q r r' hp _ hr
    rw [hnone i p hp] at hr
    cases hr
  · intro n args hn _ hres
    exact absurd hres (hreturned n _ hn)

/-! ## Undisturbed calls -/

/-- A handler may only run while the `Call` that sent its attempt is waiting. -/
def withinCall (s : Sys σ) : SysAction α → Bool
  | .net act => s.net.withinCall act
  | _ => true

/-- A process makes a call that meets no loss, and goes on. -/
theorem reaches_call {i : Nat} {st st' : σ} {r : Request} (hi : i < s.procs.length)
    (hr : P.request st = some r)
    (hresume : P.resume st (clerkReturn false (s.net.server.dispatch r).2) = some st') :
    Reaches (restrict (step P key) withinCall) (s.enter P i st)
      (({ s with net := s.net.roundTrip i r } : Sys σ).enter P i st') := by
  have henter : s.enter P i st =
      ⟨s.net.invoke i r, s.procs.set i ⟨st, s.net.calls.length⟩⟩ := by
    unfold enter
    rw [hr]
  rw [henter]
  -- the handler runs, the reply arrives, and the process reads it
  have hexec : restrict (step P key) withinCall
      ⟨s.net.invoke i r, s.procs.set i ⟨st, s.net.calls.length⟩⟩
      (.net (.exec s.net.attempts.length)) = some
      ⟨(s.net.invoke i r).exec s.net.attempts.length s.net.calls.length r,
        s.procs.set i ⟨st, s.net.calls.length⟩⟩ := by
    rw [restrict_eq_some]
    refine ⟨Net.withinCall_invoke s.net i r, ?_⟩
    simp only [step, foreign, if_true, Net.exec_invoke, Option.map_some]
  have hdeliver : restrict (step P key) withinCall
      ⟨(s.net.invoke i r).exec s.net.attempts.length s.net.calls.length r,
        s.procs.set i ⟨st, s.net.calls.length⟩⟩
      (.net (.deliver s.net.calls.length)) = some
      ⟨s.net.roundTrip i r, s.procs.set i ⟨st, s.net.calls.length⟩⟩ := by
    rw [restrict_eq_some]
    refine ⟨rfl, ?_⟩
    simp only [step, foreign, if_true, Net.deliver_exec_invoke, Option.map_some]
  have hres : restrict (step P key) withinCall
      ⟨s.net.roundTrip i r, s.procs.set i ⟨st, s.net.calls.length⟩⟩ (.resume i) = some
      (({ s with net := s.net.roundTrip i r } : Sys σ).enter P i st') := by
    rw [restrict_eq_some]
    refine ⟨rfl, ?_⟩
    simp only [step, List.getElem?_set_self hi, Option.bind_eq_bind, Option.bind_some, hr,
      Net.result_roundTrip, if_true, hresume, Option.map_some, enter, List.set_set]
  exact (((Reaches.refl _).snoc hexec).snoc hdeliver).snoc hres

theorem reaches_act {i : Nat} {a : α} {p : Proc σ} {st : σ} (hp : s.procs[i]? = some p)
    (hreq : P.request p.st = none) (hact : P.act p.st a = some st) :
    Reaches (restrict (step P key) withinCall) s (s.enter P i st) := by
  have hs : restrict (step P key) withinCall s (.act i a) = some (s.enter P i st) := by
    rw [restrict_eq_some]
    refine ⟨rfl, ?_⟩
    simp only [step, hp, Option.bind_eq_bind, Option.bind_some, hreq, Option.isNone_none, if_true,
      hact, Option.map_some]
  exact (Reaches.refl s).snoc hs

end Sys

end GoLabs.KvSrv
