import GoLabs.KvSrv.Outline

/-!
# The lock over the key/value service

`kvsrv1/lock/lock.go`.  The methods of a `Lock` handle are a program over Clerks: they run until the
next Clerk call and resume with the result of that call.  `LockSys` is the network together with any
number of handles on one key, each made by `MakeLock` at some moment of the run and used by a
sequential client that calls `Release` only after its `Acquire` returned.  Other programs may use
the same server as long as they do not `Put` to the key of the lock.
-/

open GoLabs.Reasoning

namespace GoLabs.KvSrv

/-- Where the methods of a handle stand. -/
inductive LockPc where
  /-- In the `Get` of `MakeLock`. -/
  | makeGet
  | makePut
  /-- No method runs. -/
  | idle
  /-- In the `Get` of `tryAcquire`. -/
  | tryGet
  | tryPut
  /-- `Acquire` sleeps before its next `tryAcquire`. -/
  | sleeping
  | release
  deriving DecidableEq, Repr

/-- A `Lock`.  `held` is not read by any method: it is true from the return of `Acquire` to the
start of the following `Release`. -/
structure Handle where
  version : Tversion
  held : Bool
  pc : LockPc
  deriving DecidableEq, Repr

/-- What a handle does that waits for no Clerk call. -/
inductive LockCall where
  | acquire
  /-- `Acquire` wakes up. -/
  | retry
  | release
  deriving DecidableEq, Repr

namespace Handle

/-- `MakeLock` starts with a `Get`. -/
def made : Handle := ⟨0, false, .makeGet⟩

/-- So does `tryAcquire`. -/
def tryAcquire (h : Handle) : Handle := { h with pc := .tryGet }

def release (h : Handle) : Handle := { h with held := false, pc := .release }

/-- The Clerk call that a handle waits for. -/
def request (l : GoString) (h : Handle) : Option Request :=
  match h.pc with
  | .makeGet | .tryGet => some (.get ⟨l⟩)
  | .makePut => some (.put ⟨l, lit "0", h.version⟩)
  | .tryPut => some (.put ⟨l, lit "1", h.version⟩)
  | .release => some (.put ⟨l, lit "0", h.version⟩)
  | .idle | .sleeping => none

/-- The methods after a Clerk call returned `res`. -/
def resume (h : Handle) (res : Result) : Option Handle :=
  match h.pc, res with
  | .makeGet, .get _ _ err =>
      if err = .errNoKey then some { h with pc := .makePut } else some { h with pc := .idle }
  | .makePut, .put err =>
      -- on any other error somebody else has made the key
      some { h with version := if err = .ok then h.version + 1 else h.version, pc := .idle }
  | .tryGet, .get val version err =>
      if err ≠ .ok then some { h with pc := .sleeping }
      else if val = lit "1" then some { h with pc := .sleeping }
      else some { h with version := version, pc := .tryPut }
  | .tryPut, .put err =>
      match err with
      | .ok => some { version := h.version + 1, held := true, pc := .idle }
      | .errVersion => some { h with pc := .sleeping }
      | .errNoKey => some { h with pc := .sleeping }
      -- `ErrMaybe` counts as a failure, although the `Put` may have taken effect
      | _ => some { h with pc := .sleeping }
  -- the version moves on whatever the `Put` returned
  | .release, .put _ => some { h with version := h.version + 1, pc := .idle }
  | _, _ => none

def act (h : Handle) (call : LockCall) : Option Handle :=
  match call, h.pc with
  | .acquire, .idle => some h.tryAcquire
  | .retry, .sleeping => some h.tryAcquire
  | .release, .idle => if h.held then some h.release else none
  | _, _ => none

def program (l : GoString) : Program Handle LockCall := { request := request l, resume, act }

end Handle

/-! ## The code between two calls -/

theorem Handle.act_cases {h h' : Handle} {call : LockCall} (ha : h.act call = some h') :
    (call = .acquire ∧ h.pc = .idle ∧ h' = h.tryAcquire) ∨
    (call = .retry ∧ h.pc = .sleeping ∧ h' = h.tryAcquire) ∨
    (call = .release ∧ h.pc = .idle ∧ h.held = true ∧ h' = h.release) := by
  unfold Handle.act at ha
  split at ha
  · rename_i hpc
    cases ha
    exact .inl ⟨rfl, hpc, rfl⟩
  · rename_i hpc
    cases ha
    exact .inr (.inl ⟨rfl, hpc, rfl⟩)
  · rename_i hpc
    rw [Option.ite_none_right_eq_some, Option.some.injEq] at ha
    exact .inr (.inr ⟨rfl, hpc, ha.1, ha.2.symm⟩)
  · cases ha

/-- The ways a method resumes. -/
inductive Resumes (h : Handle) : Result → Handle → Prop where
  | makeExists {val : GoString} {version : Tversion} {err : Err}
      (hpc : h.pc = .makeGet) (herr : err ≠ .errNoKey) :
      Resumes h (.get val version err) { h with pc := .idle }
  | makeMissing {val : GoString} {version : Tversion} (hpc : h.pc = .makeGet) :
      Resumes h (.get val version .errNoKey) { h with pc := .makePut }
  | made {err : Err} (hpc : h.pc = .makePut) :
      Resumes h (.put err)
        { h with version := if err = .ok then h.version + 1 else h.version, pc := .idle }
  | taken {val : GoString} {version : Tversion} {err : Err} (hpc : h.pc = .tryGet)
      (hno : err ≠ .ok ∨ val = lit "1") :
      Resumes h (.get val version err) { h with pc := .sleeping }
  | tries {val : GoString} {version : Tversion} (hpc : h.pc = .tryGet) (hval : val ≠ lit "1") :
      Resumes h (.get val version .ok) { h with version := version, pc := .tryPut }
  | acquired (hpc : h.pc = .tryPut) :
      Resumes h (.put .ok) { version := h.version + 1, held := true, pc := .idle }
  | failed {err : Err} (hpc : h.pc = .tryPut) (herr : err ≠ .ok) :
      Resumes h (.put err) { h with pc := .sleeping }
  | released {err : Err} (hpc : h.pc = .release) :
      Resumes h (.put err) { h with version := h.version + 1, pc := .idle }

theorem Handle.resumes {h h' : Handle} {res : Result} (hr : h.resume res = some h') :
    Resumes h res h' := by
  unfold Handle.resume at hr
  split at hr
  · rename_i hpc
    split at hr <;> cases hr
    · rename_i herr
      exact herr ▸ .makeMissing hpc
    · rename_i herr
      exact .makeExists hpc herr
  · rename_i hpc
    cases hr
    exact .made hpc
  · rename_i val version err hpc
    split at hr
    · rename_i herr
      cases hr
      exact .taken hpc (.inl herr)
    · rename_i herr
      simp only [ne_eq, not_not] at herr
      subst herr
      split at hr <;> cases hr
      · rename_i hval
        exact .taken hpc (.inr hval)
      · rename_i hval
        exact .tries hpc hval
  · rename_i err hpc
    cases err <;> cases hr
    · exact .acquired hpc
    all_goals exact .failed hpc (by simp)
  · rename_i hpc
    cases hr
    exact .released hpc
  · cases hr

/-- The `Put`s of the methods. -/
theorem Handle.request_put {l : GoString} {h : Handle} {args : PutArgs}
    (hr : h.request l = some (.put args)) :
    args.key = l ∧ args.version = h.version ∧
      (h.pc = .makePut ∧ args.value = lit "0" ∨ h.pc = .tryPut ∧ args.value = lit "1" ∨
        h.pc = .release ∧ args.value = lit "0") := by
  unfold Handle.request at hr
  split at hr <;> rename_i hpc <;> cases hr <;> simp [hpc]

/-! ## Handles on one key -/

/-- The processes are the handles. -/
abbrev LockSys := Sys Handle

inductive LockAction where
  | makeLock
  | acquire (handle : Nat)
  | retry (handle : Nat)
  | release (handle : Nat)
  | resume (handle : Nat)
  | net (action : Action)
  deriving DecidableEq, Repr

namespace LockSys

def init : LockSys := { net := Net.init, procs := [] }

def handles (s : LockSys) : List Handle := s.procs.map Proc.st

def makeLock (l : GoString) (s : LockSys) : LockSys := s.spawn (Handle.program l) Handle.made

def step (l : GoString) (s : LockSys) : LockAction → Option LockSys
  | .makeLock => some (s.makeLock l)
  | .acquire i => Sys.step (Handle.program l) l s (.act i .acquire)
  | .retry i => Sys.step (Handle.program l) l s (.act i .retry)
  | .release i => Sys.step (Handle.program l) l s (.act i .release)
  | .resume i => Sys.step (Handle.program l) l s (.resume i)
  | .net act => Sys.step (Handle.program l) l s (.net act)

variable {l : GoString} {s t : LockSys} {act : LockAction}

theorem handles_eq_some {i : Nat} {h : Handle} :
    s.handles[i]? = some h ↔ ∃ n, s.procs[i]? = some ⟨h, n⟩ := by
  rw [handles, List.getElem?_map, Option.map_eq_some_iff]
  constructor
  · rintro ⟨⟨h, n⟩, hp, rfl⟩
    exact ⟨n, hp⟩
  · rintro ⟨n, hp⟩
    exact ⟨_, hp, rfl⟩

theorem handles_enter (P : Program Handle LockCall) (s : LockSys) (i : Nat) (h : Handle) :
    handles (s.enter P i h) = s.handles.set i h := by
  rw [handles, Sys.procs_enter, List.map_set]
  rfl

theorem handles_makeLock (l : GoString) (s : LockSys) :
    (s.makeLock l).handles = s.handles ++ [Handle.made] := by
  rw [makeLock, handles, Sys.procs_spawn, List.map_append]
  rfl

/-- What each action needs and does. -/
inductive Step (l : GoString) (s : LockSys) : LockAction → LockSys → Prop where
  | makeLock : Step l s .makeLock (s.makeLock l)
  | acquire {i : Nat} {p : Proc Handle} (hp : s.procs[i]? = some p) (hpc : p.st.pc = .idle)
      (hcause : Sys.Cause (Handle.program l) s.net p p.st.tryAcquire) :
      Step l s (.acquire i) (s.enter (Handle.program l) i p.st.tryAcquire)
  | retry {i : Nat} {p : Proc Handle} (hp : s.procs[i]? = some p) (hpc : p.st.pc = .sleeping)
      (hcause : Sys.Cause (Handle.program l) s.net p p.st.tryAcquire) :
      Step l s (.retry i) (s.enter (Handle.program l) i p.st.tryAcquire)
  | release {i : Nat} {p : Proc Handle} (hp : s.procs[i]? = some p) (hpc : p.st.pc = .idle)
      (hheld : p.st.held = true) (hcause : Sys.Cause (Handle.program l) s.net p p.st.release) :
      Step l s (.release i) (s.enter (Handle.program l) i p.st.release)
  | resume {i : Nat} {p : Proc Handle} {res : Result} {h : Handle} (hp : s.procs[i]? = some p)
      (hres : s.net.result p.call = some res) (hresumes : Resumes p.st res h)
      (hcause : Sys.Cause (Handle.program l) s.net p h) :
      Step l s (.resume i) (s.enter (Handle.program l) i h)
  | net {action : Action} {net : Net} (hf : foreign l action = true)
      (hs : s.net.step action = some net) : Step l s (.net action) { s with net }

theorem step_cases (hs : s.step l act = some t) : Step l s act t := by
  cases act <;> simp only [step] at hs
  case makeLock =>
    cases hs
    exact .makeLock
  case acquire i =>
    obtain ⟨p, st, hp, hreq, hact, rfl⟩ := Sys.step_act hs
    obtain ⟨_, hpc, rfl⟩ | ⟨hcall, _⟩ | ⟨hcall, _⟩ := Handle.act_cases hact
    · exact .acquire hp hpc (.act hreq hact)
    all_goals cases hcall
  case retry i =>
    obtain ⟨p, st, hp, hreq, hact, rfl⟩ := Sys.step_act hs
    obtain ⟨hcall, _⟩ | ⟨_, hpc, rfl⟩ | ⟨hcall, _⟩ := Handle.act_cases hact
    · cases hcall
    · exact .retry hp hpc (.act hreq hact)
    · cases hcall
  case release i =>
    obtain ⟨p, st, hp, hreq, hact, rfl⟩ := Sys.step_act hs
    obtain ⟨hcall, _⟩ | ⟨hcall, _⟩ | ⟨_, hpc, hheld, rfl⟩ := Handle.act_cases hact
    · cases hcall
    · cases hcall
    · exact .release hp hpc hheld (.act hreq hact)
  case resume i =>
    obtain ⟨p, r, res, h, hp, hreq, hres, hresume, rfl⟩ := Sys.step_resume hs
    exact .resume hp hres (Handle.resumes hresume) (.resume hreq hres hresume)
  case net action =>
    cases Sys.step_cases hs with
    | net hf hnet => exact .net hf hnet

/-- All steps but `makeLock` are steps of the program. -/
theorem sys_of_step (hs : s.step l act = some t) :
    t = s.makeLock l ∨ ∃ a, Sys.step (Handle.program l) l s a = some t := by
  cases act with
  | makeLock => exact .inl (Option.some.inj hs).symm
  | acquire i => exact .inr ⟨.act i .acquire, hs⟩
  | retry i => exact .inr ⟨.act i .retry, hs⟩
  | release i => exact .inr ⟨.act i .release, hs⟩
  | resume i => exact .inr ⟨.resume i, hs⟩
  | net action => exact .inr ⟨.net action, hs⟩

/-- A step moves one handle or is one of the network. -/
theorem moved_or_net (hs : s.step l act = some t) :
    (∃ i h, Sys.Moved (Handle.program l) s i h t) ∨
      ∃ action net, act = .net action ∧ s.net.step action = some net ∧ t = { s with net } := by
  cases step_cases hs with
  | makeLock => exact .inl ⟨_, _, Sys.moved_spawn _⟩
  | acquire hp hpc hcause => exact .inl ⟨_, _, Sys.moved_enter hp hcause⟩
  | retry hp hpc hcause => exact .inl ⟨_, _, Sys.moved_enter hp hcause⟩
  | release hp hpc hheld hcause => exact .inl ⟨_, _, Sys.moved_enter hp hcause⟩
  | resume hp hres hresumes hcause => exact .inl ⟨_, _, Sys.moved_enter hp hcause⟩
  | net hf hnet => exact .inr ⟨_, _, rfl, hnet, rfl⟩

theorem step_of_sys {a : SysAction LockCall} (hs : Sys.step (Handle.program l) l s a = some t) :
    ∃ act, s.step l act = some t := by
  cases a with
  | act i call =>
      cases call with
      | acquire => exact ⟨.acquire i, hs⟩
      | retry => exact ⟨.retry i, hs⟩
      | release => exact ⟨.release i, hs⟩
  | resume i => exact ⟨.resume i, hs⟩
  | net action => exact ⟨.net action, hs⟩

theorem reaches_of_sys (h : Reaches (Sys.step (Handle.program l) l) s t) :
    Reaches (step l) s t := by
  refine h.invariant (Reaches.refl s) ?_
  intro u a v _ hs hu
  obtain ⟨act, hact⟩ := step_of_sys hs
  exact hu.snoc hact

/-- A step of the locks is a step of their network or leaves it alone. -/
theorem net_of_step (hs : s.step l act = some t) :
    t.net = s.net ∨ ∃ action, s.net.step action = some t.net := by
  obtain rfl | ⟨a, ha⟩ := sys_of_step hs
  · exact .inr ⟨.invoke _ _, rfl⟩
  · exact Sys.net_of_step ha

theorem writes_le_of_step (hs : s.step l act = some t) (key : GoString) :
    s.net.writes key ≤ t.net.writes key := by
  obtain hsame | ⟨action, hnet⟩ := net_of_step hs
  · rw [hsame]
  · exact Net.writes_le_of_step hnet key

/-- The part of the network in a run of the locks is a run of the network. -/
theorem net_reaches (h : Reaches (step l) LockSys.init s) : Reaches Net.step Net.init s.net := by
  refine h.invariant (I := fun s ↦ Reaches Net.step Net.init s.net) (Reaches.refl _) ?_
  intro u act v _ hs hu
  obtain hsame | ⟨action, hnet⟩ := net_of_step hs
  · rw [hsame]
    exact hu
  · exact hu.snoc hnet

theorem wired_of_reaches (h : Reaches (step l) LockSys.init s) :
    Sys.Wired (Handle.program l) l s := by
  refine h.invariant (I := Sys.Wired (Handle.program l) l) ?_ ?_
  · constructor <;> simp [LockSys.init, Net.init, Net.req]
  · intro u act v _ hs hu
    obtain rfl | ⟨a, ha⟩ := sys_of_step hs
    · exact hu.moved (Sys.moved_spawn _)
    · exact hu.step ha

end LockSys

end GoLabs.KvSrv
