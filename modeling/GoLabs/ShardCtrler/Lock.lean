import GoLabs.KvSrv.Outline

/-!
# The leadership lock of the shard controller

`shardkv1/shardctrler/lock/lock.go`.  Any number of `Lock` handles share one key `l`, which exists
with value `""` when they start; each has its own id and its own Clerk, and calls
`ReleaseLeadership` only after its `AcquireLeadership` returned.  `MakeLock` sets neither the key
nor the id, so both are taken as set.
-/

open GoLabs.Reasoning GoLabs.KvSrv

namespace GoLabs.ShardCtrler

/-- Where the methods of a handle stand. -/
inductive LockPc where
  /-- No method has been called. -/
  | idle
  /-- `AcquireLeadership`, in the `Get` at the top of its loop. -/
  | get
  /-- `AcquireLeadership`, in the `Put` of a lock that was free at this version. -/
  | put (ver : Tversion)
  /-- `AcquireLeadership`, in the `Get` after its `Put` at this version returned `ErrMaybe`. -/
  | check (ver : Tversion)
  /-- `AcquireLeadership`, in `time.Sleep`. -/
  | sleeping
  /-- `AcquireLeadership` has returned. -/
  | held
  | relGet
  | relPut (ver : Tversion)
  /-- `ReleaseLeadership` has returned. -/
  | released (err : Err)
  deriving DecidableEq, Repr

structure Lock where
  id : GoString
  ver : Tversion
  pc : LockPc
  deriving DecidableEq, Repr

/-- What a handle does that waits for no Clerk call. -/
inductive LockCall where
  | acquireLeadership
  /-- `time.Sleep` returns. -/
  | wake
  | releaseLeadership
  deriving DecidableEq, Repr

namespace Lock

/-- The Clerk call that a handle waits for. -/
def request (l : GoString) (lk : Lock) : Option Request :=
  match lk.pc with
  | .get | .check _ | .relGet => some (.get ⟨l⟩)
  | .put ver => some (.put ⟨l, lk.id, ver⟩)
  | .relPut ver => some (.put ⟨l, lit "", ver⟩)
  | .idle | .sleeping | .held | .released _ => none

/-- The methods after that call. -/
def resume (lk : Lock) (res : Result) : Option Lock :=
  match lk.pc, res with
  | .get, .get val ver err =>
      if err = .ok then
        -- put only when lock is free
        if val = lit "" then some { lk with pc := .put ver } else some { lk with pc := .sleeping }
      else some { lk with pc := .get }
  | .put ver, .put err =>
      if err = .ok then some { lk with ver := ver + 1, pc := .held }
      else if err = .errMaybe then some { lk with pc := .check ver }
      else some { lk with pc := .sleeping }
  | .check _, .get val ver err =>
      if err = .ok ∧ val = lk.id then some { lk with ver := ver, pc := .held }
      else some { lk with pc := .sleeping }
  | .relGet, .get _ ver _ => some { lk with pc := .relPut ver }
  | .relPut _, .put err =>
      if err = .ok ∨ err = .errMaybe then some { lk with pc := .released .ok }
      else some { lk with pc := .released err }
  | _, _ => none

def act (lk : Lock) (call : LockCall) : Option Lock :=
  match call, lk.pc with
  | .acquireLeadership, .idle | .acquireLeadership, .released _ => some { lk with pc := .get }
  | .wake, .sleeping => some { lk with pc := .get }
  | .releaseLeadership, .held => some { lk with pc := .relGet }
  | _, _ => none

/-- A handle on which no method has been called. -/
def made (id : GoString) : Lock := { id, ver := 0, pc := .idle }

end Lock

def program (l : GoString) : Program Lock LockCall :=
  { request := Lock.request l, resume := Lock.resume, act := Lock.act }

/-- The lock exists at version `v`, and there is one handle for each id. -/
def leadership (l : GoString) (v : Nat) (ids : List GoString) : Sys Lock :=
  Sys.start (Net.prepared l (lit "") v) (ids.map Lock.made)

/-! ## The calls of a handle -/

variable {l : GoString} {lk lk' : Lock}

theorem act_cases {call : LockCall} (h : lk.act call = some lk') :
    ((lk.pc = .idle ∨ (∃ err, lk.pc = .released err) ∨ lk.pc = .sleeping) ∧
      lk' = { lk with pc := .get }) ∨
    (lk.pc = .held ∧ lk' = { lk with pc := .relGet }) := by
  obtain ⟨id, ver, pc⟩ := lk
  cases call <;> cases pc <;> simp_all [Lock.act]

/-- What the code after a Clerk call does. -/
inductive Resumed (lk : Lock) : Result → Lock → Prop where
  | again {val : GoString} {ver : Tversion} {err : Err} (hpc : lk.pc = .get) (herr : err ≠ .ok) :
      Resumed lk (.get val ver err) { lk with pc := .get }
  | free {ver : Tversion} (hpc : lk.pc = .get) :
      Resumed lk (.get (lit "") ver .ok) { lk with pc := .put ver }
  | taken {val : GoString} {ver : Tversion} (hpc : lk.pc = .get) (hval : val ≠ lit "") :
      Resumed lk (.get val ver .ok) { lk with pc := .sleeping }
  | acquired {ver : Tversion} (hpc : lk.pc = .put ver) :
      Resumed lk (.put .ok) { lk with ver := ver + 1, pc := .held }
  | maybe {ver : Tversion} (hpc : lk.pc = .put ver) :
      Resumed lk (.put .errMaybe) { lk with pc := .check ver }
  | refused {ver : Tversion} {err : Err} (hpc : lk.pc = .put ver) (hok : err ≠ .ok)
      (hmaybe : err ≠ .errMaybe) : Resumed lk (.put err) { lk with pc := .sleeping }
  | recovered {ver ver' : Tversion} (hpc : lk.pc = .check ver) :
      Resumed lk (.get lk.id ver' .ok) { lk with ver := ver', pc := .held }
  | lost {ver ver' : Tversion} {val : GoString} {err : Err} (hpc : lk.pc = .check ver)
      (hnot : ¬ (err = .ok ∧ val = lk.id)) :
      Resumed lk (.get val ver' err) { lk with pc := .sleeping }
  | seen {val : GoString} {ver : Tversion} {err : Err} (hpc : lk.pc = .relGet) :
      Resumed lk (.get val ver err) { lk with pc := .relPut ver }
  | released {ver : Tversion} {err err' : Err} (hpc : lk.pc = .relPut ver)
      (herr : err' = if err = .ok ∨ err = .errMaybe then .ok else err) :
      Resumed lk (.put err) { lk with pc := .released err' }

theorem resumed_of_resume {res : Result} (h : lk.resume res = some lk') : Resumed lk res lk' := by
  obtain ⟨id, ver, pc⟩ := lk
  cases pc <;> cases res <;> simp only [Lock.resume, reduceCtorEq] at h
  · split at h
    · rename_i herr
      subst herr
      split at h <;> cases h
      · rename_i hval
        subst hval
        exact .free rfl
      · rename_i hval
        exact .taken rfl hval
    · rename_i herr
      cases h
      exact .again rfl herr
  · split at h
    · rename_i herr
      subst herr
      cases h
      exact .acquired rfl
    · split at h <;> cases h
      · rename_i herr
        subst herr
        exact .maybe rfl
      · rename_i hok hmaybe
        exact .refused rfl hok hmaybe
  · split at h <;> cases h
    · rename_i hfound
      obtain ⟨rfl, rfl⟩ := hfound
      exact .recovered rfl
    · rename_i hnot
      exact .lost rfl hnot
  · cases h
    exact .seen rfl
  · split at h <;> cases h
    · rename_i hdone
      exact .released rfl (by rw [if_pos hdone])
    · rename_i hdone
      exact .released rfl (by rw [if_neg hdone])

theorem Resumed.id {res : Result} (h : Resumed lk res lk') : lk'.id = lk.id := by
  cases h <;> rfl

theorem request_put {args : PutArgs} (h : lk.request l = some (.put args)) :
    (lk.pc = .put args.version ∧ args = ⟨l, lk.id, args.version⟩) ∨
      (lk.pc = .relPut args.version ∧ args = ⟨l, lit "", args.version⟩) := by
  unfold Lock.request at h
  split at h
  all_goals simp_all
  all_goals subst h
  all_goals simp

/-- Both `Put`s carry the version that the `Get` before them returned. -/
theorem program_writesBack (l : GoString) : Sys.WritesBack (program l) l := by
  constructor
  · intro lk call lk' args hact hreq
    obtain ⟨_, rfl⟩ | ⟨_, rfl⟩ := act_cases hact <;> simp [program, Lock.request] at hreq
  · intro lk res lk' args hres hreq _
    cases resumed_of_resume hres with
    | free hpc =>
        simp only [program, Lock.request, Option.some.injEq, Request.put.injEq] at hreq
        subst hreq
        exact ⟨by simp [program, Lock.request, hpc], _, _, rfl⟩
    | seen hpc =>
        simp only [program, Lock.request, Option.some.injEq, Request.put.injEq] at hreq
        subst hreq
        exact ⟨by simp [program, Lock.request, hpc], _, _, rfl⟩
    | _ => simp [program, Lock.request] at hreq

end GoLabs.ShardCtrler
