import GoLabs.KvSrv.Clerk

/-!
# The linearizability model of one key

`KvModel` of `models1/kv.go`, the sequential specification that the tests hand to the porcupine
checker, and the operations that `kvtest1/porcupine.go` records for it.
-/

open GoLabs.Reasoning

namespace GoLabs.KvSrv

structure KvInput where
  op : UInt8
  key : GoString
  value : GoString
  version : UInt64
  deriving DecidableEq, Repr

structure KvOutput where
  value : GoString
  version : UInt64
  err : Err
  deriving DecidableEq, Repr

structure KvState where
  value : GoString
  version : UInt64
  deriving DecidableEq, Repr

def kvInit : KvState := { value := [], version := 0 }

/-- `KvModel.Step`: whether the output is allowed, and the next state.  The invalid state of an
unknown operation is `none`. -/
def kvStep (st : KvState) (inp : KvInput) (out : KvOutput) : Bool × Option KvState :=
  if inp.op = 0 then (out.value = st.value, some st)
  else if inp.op = 1 then
    if st.version = inp.version then
      (out.err = .ok || out.err = .errMaybe, some { value := inp.value, version := st.version + 1 })
    else (out.err = .errVersion || out.err = .errMaybe, some st)
  else (false, none)

/-- The state after the operations, if the model accepts every one of them. -/
def kvRun : KvState → List (KvInput × KvOutput) → Option KvState
  | st, [] => some st
  | st, (inp, out) :: ops =>
      match kvStep st inp out with
      | (true, some st') => kvRun st' ops
      | _ => none

theorem kvRun_append (st : KvState) (ops ops' : List (KvInput × KvOutput)) :
    kvRun st (ops ++ ops') = (kvRun st ops).bind (kvRun · ops') := by
  induction ops generalizing st with
  | nil => rfl
  | cons op ops ih =>
      rw [List.cons_append, kvRun, kvRun]
      split
      · exact ih _
      · rfl

/-- The input that `Get` and `Put` of `kvtest1/porcupine.go` record. -/
def kvInput : Request → KvInput
  | .get args => { op := 0, key := args.key, value := [], version := 0 }
  | .put args => { op := 1, key := args.key, value := args.value, version := args.version }

/-- The output that they record. -/
def kvOutput : Result → KvOutput
  | .get value version err => { value := value, version := version, err := err }
  | .put err => { value := [], version := 0, err := err }

theorem kvInput_key (req : Request) : (kvInput req).key = req.key := by
  cases req <;> rfl

/-- A `Put` at the current version is taken, and may report `OK` or `ErrMaybe`. -/
theorem kvRun_put_match {st : KvState} {args : PutArgs} {err : Err}
    (hv : st.version = args.version) (herr : err = .ok ∨ err = .errMaybe) :
    kvRun st [(kvInput (.put args), kvOutput (.put err))] =
      some { value := args.value, version := st.version + 1 } := by
  rcases herr with rfl | rfl <;> simp [kvRun, kvStep, kvInput, kvOutput, hv]

theorem kvRun_put_mismatch {st : KvState} {args : PutArgs} {err : Err}
    (hv : st.version ≠ args.version) (herr : err = .errVersion ∨ err = .errMaybe) :
    kvRun st [(kvInput (.put args), kvOutput (.put err))] = some st := by
  rcases herr with rfl | rfl <;> simp [kvRun, kvStep, kvInput, kvOutput, hv]

theorem kvRun_get {st : KvState} {args : GetArgs} {version : Tversion} {err : Err} :
    kvRun st [(kvInput (.get args), kvOutput (.get st.value version err))] = some st := by
  simp [kvRun, kvStep, kvInput, kvOutput]

/-- The model state that stands for the server's view of a key. -/
def KVServer.kvState (kv : KVServer) (key : GoString) : KvState :=
  { value := (kv.view key).value, version := (kv.view key).version }

theorem kvState_dispatch_ne {kv : KVServer} {req : Request} {key : GoString} (h : req.key ≠ key) :
    (kv.dispatch req).1.kvState key = kv.kvState key := by
  cases req with
  | get args => rfl
  | put args =>
      change (kv.put args).1.kvState key = _
      by_cases hok : (kv.put args).2.err = .ok
      · unfold KVServer.kvState
        have hkey : key ≠ args.key := Ne.symm h
        rw [put_store_of_ok hok, view_store_ne kv _ hkey]
      · rw [put_unchanged_of_ne_ok hok]

end GoLabs.KvSrv
