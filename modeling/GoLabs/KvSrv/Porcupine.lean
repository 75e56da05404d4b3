import Mathlib.Data.List.Sort
import GoLabs.Reasoning.GoMap
import GoLabs.Reasoning.Tables
import GoLabs.KvSrv.KvModel

/-!
# The linearizability model against the server

`KvModel.Partition` splits the recorded operations by key, and `KvModel.Step` checks each part.  Fed
with what the server does one request after another, the model follows the server's state on every
key, whatever was recorded; but it has no `ErrNoKey`, and it does not look at the version and the
error of a `Get`.
-/

open GoLabs.Reasoning

namespace GoLabs.KvSrv

/-- `porcupine.Operation`, for this model. -/
structure Operation where
  clientId : Int
  input : KvInput
  call : Int
  output : KvOutput
  ret : Int
  deriving DecidableEq, Repr

def kvPartition (it : Iteration GoString) (history : List Operation) : List (List Operation) :=
  let m := GoMap.collect ∅ (history.map fun v => (v.input.key, v))
  let keys := (it.order m.keys).insertionSort (· ≤ ·)
  keys.map fun k => (m.lookup k).getD []

def Operation.io (op : Operation) : KvInput × KvOutput := (op.input, op.output)

/-- The operations on one key, in order. -/
def keyLog (key : GoString) (ops : List Operation) : List Operation :=
  ops.filter fun op => op.input.key = key

/-- The parts are the operations on each key that occurs, one part for a key: every operation is in
one part, in its original order. -/
structure SplitByKey (ops : List Operation) (parts : List (List Operation)) (keys : List GoString) :
    Prop where
  nodup : keys.Nodup
  mem : ∀ k, k ∈ keys ↔ ∃ op ∈ ops, op.input.key = k
  parts : parts = keys.map (keyLog · ops)

theorem splitByKey_kvPartition (it : Iteration GoString) (ops : List Operation) :
    ∃ keys, SplitByKey ops (kvPartition it ops) keys := by
  unfold kvPartition
  set m := GoMap.collect ∅ (ops.map fun v => (v.input.key, v)) with hm
  have hperm : ((it.order m.keys).insertionSort (· ≤ ·)).Perm m.keys :=
    (List.perm_insertionSort _ _).trans (it.perm _)
  refine ⟨_, hperm.nodup_iff.mpr m.keys_nodup, ?_, ?_⟩
  · intro k
    rw [hperm.mem_iff]
    show k ∈ m ↔ _
    rw [hm, GoMap.mem_collect]
    simp
  · apply List.map_congr_left
    intro k _
    rw [hm, GoMap.lookup_collect]
    simp [valuesOf, keyLog, List.filter_map, Function.comp_def]

/-- `KvModel.Step` accepts every operation of every part, from `KvModel.Init`. -/
def Accepted (it : Iteration GoString) (ops : List Operation) : Prop :=
  ∀ part ∈ kvPartition it ops, (kvRun kvInit (part.map Operation.io)).isSome = true

instance {it : Iteration GoString} {ops : List Operation} : Decidable (Accepted it ops) :=
  inferInstanceAs (Decidable (∀ _ ∈ _, _))

theorem accepted_iff {it : Iteration GoString} {ops : List Operation} : Accepted it ops ↔
    ∀ key, (kvRun kvInit ((keyLog key ops).map Operation.io)).isSome = true := by
  obtain ⟨keys, hsplit⟩ := splitByKey_kvPartition it ops
  unfold Accepted
  rw [hsplit.parts]
  constructor
  · intro h key
    by_cases hkey : key ∈ keys
    · exact h _ (List.mem_map_of_mem hkey)
    · -- a key that does not occur has no operations
      have hnil : keyLog key ops = [] := by
        rw [keyLog, List.filter_eq_nil_iff]
        intro op hop heq
        exact hkey ((hsplit.mem key).mpr ⟨op, hop, by simpa using heq⟩)
      rw [hnil]
      rfl
  · intro h part hpart
    obtain ⟨key, _, rfl⟩ := List.mem_map.mp hpart
    exact h key

/-! ## The model follows the server -/

/-- The request that an input stands for. -/
def KvInput.request (inp : KvInput) : Option Request :=
  if inp.op = 0 then some (.get ⟨inp.key⟩)
  else if inp.op = 1 then some (.put ⟨inp.key, inp.value, inp.version⟩)
  else none

@[simp] theorem request_kvInput (req : Request) : (kvInput req).request = some req := by
  cases req <;> rfl

theorem request_key {inp : KvInput} {req : Request} (h : inp.request = some req) :
    req.key = inp.key := by
  unfold KvInput.request at h
  split at h
  · cases h
    rfl
  · split at h
    · cases h
      rfl
    · cases h

/-- Whether the model allows an output, in the state that stands for the server's. -/
def allows (kv : KVServer) (req : Request) (out : KvOutput) : Prop :=
  match req with
  | .get args => out.value = (kv.view args.key).value
  | .put args =>
      if args.version = (kv.view args.key).version then out.err = .ok ∨ out.err = .errMaybe
      else out.err = .errVersion ∨ out.err = .errMaybe

theorem kvStep_eq {inp : KvInput} {req : Request} (h : inp.request = some req) (kv : KVServer)
    (out : KvOutput) : ((kvStep (kv.kvState inp.key) inp out).1 = true ↔ allows kv req out) ∧
      (kvStep (kv.kvState inp.key) inp out).2 = some ((kv.dispatch req).1.kvState inp.key) := by
  unfold KvInput.request at h
  split at h
  · rename_i hop
    cases h
    unfold kvStep
    rw [if_pos hop]
    exact ⟨decide_eq_true_iff, rfl⟩
  · rename_i hget
    split at h
    · rename_i hput
      cases h
      unfold kvStep allows
      rw [if_neg hget, if_pos hput]
      show (_ ↔ _) ∧ _ = some ((kv.put _).1.kvState inp.key)
      rw [put_eq]
      by_cases hv : inp.version = (kv.view inp.key).version
      · simp [KVServer.kvState, hv]
      · simp [KVServer.kvState, hv, Ne.symm hv]
    · cases h

theorem kvRun_snoc (st : KvState) (l : List (KvInput × KvOutput)) (x : KvInput × KvOutput) :
    kvRun st (l ++ [x]) = (kvRun st l).bind fun st' =>
      if (kvStep st' x.1 x.2).1 then (kvStep st' x.1 x.2).2 else none := by
  rw [kvRun_append]
  congr 1
  funext st'
  rw [kvRun]
  obtain ⟨ok, next⟩ := kvStep st' x.1 x.2
  cases ok <;> cases next <;> rfl

theorem keyLog_snoc (key : GoString) (ops : List Operation) (op : Operation) :
    keyLog key (ops ++ [op]) = keyLog key ops ++ if op.input.key = key then [op] else [] := by
  unfold keyLog
  rw [List.filter_append]
  split <;> simp_all

/-- The operations ask for the requests, in order. -/
def Asks (ops : List Operation) (reqs : List Request) : Prop :=
  ops.map (·.input.request) = reqs.map some

theorem Asks.snoc_cases {ops : List Operation} {op : Operation} {reqs : List Request}
    (h : Asks (ops ++ [op]) reqs) : ∃ reqs' req, reqs = reqs' ++ [req] ∧ Asks ops reqs' ∧
      op.input.request = some req := by
  unfold Asks at h
  rw [List.map_append, List.map_cons, List.map_nil] at h
  obtain ⟨init, last, rfl, hinit, hlast⟩ := List.map_eq_append_iff.mp h.symm
  obtain ⟨req, rest, rfl, hreq, hrest⟩ := List.map_eq_cons_iff.mp hlast
  rw [List.map_eq_nil_iff] at hrest
  subst hrest
  exact ⟨init, req, rfl, hinit.symm, hreq.symm⟩

/-- Whatever was recorded, the model moves as the server does. -/
theorem kvRun_keyLog {ops : List Operation} {reqs : List Request} (h : Asks ops reqs)
    {key : GoString} {st : KvState}
    (hrun : kvRun kvInit ((keyLog key ops).map Operation.io) = some st) :
    st = (serve reqs).kvState key := by
  induction ops using List.reverseRecOn generalizing reqs st with
  | nil =>
      have hreqs : reqs = [] := by
        cases reqs with
        | nil => rfl
        | cons req reqs => simp [Asks] at h
      subst hreqs
      cases hrun
      rfl
  | append_singleton ops op ih =>
      obtain ⟨reqs', req, rfl, hasks, hreq⟩ := h.snoc_cases
      rw [serve_snoc]
      rw [keyLog_snoc] at hrun
      split at hrun
      · rename_i hkey
        subst hkey
        rw [List.map_append, List.map_cons, List.map_nil, kvRun_snoc] at hrun
        obtain ⟨st', hst', hstep⟩ := Option.bind_eq_some_iff.mp hrun
        rw [ih hasks hst'] at hstep
        obtain ⟨_, hnext⟩ := Option.ite_none_right_eq_some.mp hstep
        exact Option.some.inj (hnext.symm.trans (kvStep_eq hreq _ _).2)
      · rename_i hkey
        rw [List.append_nil] at hrun
        rw [ih hasks hrun, kvState_dispatch_ne]
        rwa [request_key hreq]

/-- One more operation is accepted exactly if the model allows its output. -/
theorem accepted_snoc {it : Iteration GoString} {ops : List Operation} {op : Operation}
    {reqs : List Request} {req : Request} (h : Asks ops reqs) (hreq : op.input.request = some req) :
    Accepted it (ops ++ [op]) ↔ Accepted it ops ∧ allows (serve reqs) req op.output := by
  rw [accepted_iff, accepted_iff]
  have hstep : ∀ st, kvRun kvInit ((keyLog op.input.key ops).map Operation.io) = some st →
      ((kvRun kvInit ((keyLog op.input.key (ops ++ [op])).map Operation.io)).isSome = true ↔
        allows (serve reqs) req op.output) := by
    intro st hst
    obtain ⟨hallows, hnext⟩ := kvStep_eq hreq (serve reqs) op.output
    rw [keyLog_snoc, if_pos rfl, List.map_append, List.map_cons, List.map_nil, kvRun_snoc, hst,
      Option.bind_some, kvRun_keyLog h hst, ← hallows]
    simp only [Operation.io, hnext]
    split <;> simp_all
  constructor
  · intro hall
    have hold : ∀ key, (kvRun kvInit ((keyLog key ops).map Operation.io)).isSome = true := by
      intro key
      have hkey := hall key
      rw [keyLog_snoc] at hkey
      split at hkey
      · rw [List.map_append, kvRun_append] at hkey
        cases hrun : kvRun kvInit ((keyLog key ops).map Operation.io) with
        | none => simp [hrun] at hkey
        | some st => rfl
      · rwa [List.append_nil] at hkey
    obtain ⟨st, hst⟩ := Option.isSome_iff_exists.mp (hold op.input.key)
    exact ⟨hold, (hstep st hst).mp (hall op.input.key)⟩
  · rintro ⟨hold, hallows⟩ key
    by_cases hkey : op.input.key = key
    · subst hkey
      obtain ⟨st, hst⟩ := Option.isSome_iff_exists.mp (hold op.input.key)
      exact (hstep st hst).mpr hallows
    · rw [keyLog_snoc, if_neg hkey, List.append_nil]
      exact hold key

/-! ## What the server does -/

theorem serve_eq_none_iff (reqs : List Request) (key : GoString) : (serve reqs).m key = none ↔
    ∀ args, .put args ∈ reqs → args.key = key → args.version ≠ 0 := by
  induction reqs using List.reverseRecOn with
  | nil => simp [serve, serveFrom, makeKVServer]
  | append_singleton reqs req ih =>
      rw [serve_snoc]
      cases req with
      | get args =>
          show (serve reqs).m key = none ↔ _
          simp [ih]
      | put args =>
          show ((serve reqs).put args).1.m key = none ↔ _
          by_cases hkey : args.key = key
          · subst hkey
            cases hm : (serve reqs).m args.key with
            | none =>
                -- an absent key is created by version 0 only
                have hold := ih.mp hm
                by_cases hv : args.version = 0
                · simp [KVServer.put, hm, hv, KVServer.store]
                · simp only [KVServer.put, hm, ne_eq, hv, not_false_eq_true, if_true, true_iff,
                    List.mem_append, List.mem_singleton]
                  intro args' hmem hkey'
                  obtain hin | heq := hmem
                  · exact hold args' hin hkey'
                  · cases heq
                    exact hv
            | some v =>
                have hsome : ((serve reqs).put args).1.m args.key ≠ none := by
                  by_cases hv : args.version = v.version <;>
                    simp [KVServer.put, hm, hv, KVServer.store]
                rw [hm] at ih
                simp only [reduceCtorEq, false_iff, not_forall] at ih
                obtain ⟨args', hin, hkey', hv⟩ := ih
                refine iff_of_false hsome fun hall ↦ hv ?_
                exact hall args' (List.mem_append_left _ hin) hkey'
          · have hsame : ((serve reqs).put args).1.m key = (serve reqs).m key := by
              by_cases hok : ((serve reqs).put args).2.err = .ok
              · rw [put_store_of_ok hok]
                exact Function.update_of_ne (Ne.symm hkey) _ _
              · rw [put_unchanged_of_ne_ok hok]
            rw [hsame, ih]
            constructor
            · intro hall args' hmem hkey'
              obtain hin | heq := List.mem_append.mp hmem
              · exact hall args' hin hkey'
              · cases List.mem_singleton.mp heq
                exact absurd hkey' hkey
            · intro hall args' hin
              exact hall args' (List.mem_append_left _ hin)

/-- A `Put` is on a key that was created before, or could create it. -/
def CreatesFirst (before : List Request) (req : Request) : Prop :=
  ∀ args, req = .put args → args.version ≠ 0 →
    ∃ args', .put args' ∈ before ∧ args'.key = args.key ∧ args'.version = 0

theorem createsFirst_put {reqs : List Request} {args : PutArgs} :
    CreatesFirst reqs (.put args) ↔
      args.version = ((serve reqs).view args.key).version ∨
        ((serve reqs).m args.key).isSome = true := by
  have hnone := serve_eq_none_iff reqs args.key
  unfold CreatesFirst
  cases hm : (serve reqs).m args.key with
  | none =>
      have hall := hnone.mp hm
      have hver : ((serve reqs).view args.key).version = 0 := by simp [KVServer.view, hm]
      simp only [Option.isSome_none, Bool.false_eq_true, or_false, hver]
      constructor
      · intro h
        by_contra hv
        obtain ⟨args', hin, hkey, hzero⟩ := h args rfl hv
        exact hall args' hin hkey hzero
      · intro hv args' heq hv'
        cases heq
        exact absurd hv hv'
  | some v =>
      rw [hm] at hnone
      simp only [reduceCtorEq, false_iff, not_forall] at hnone
      obtain ⟨args', hin, hkey, hv⟩ := hnone
      rw [ne_eq, not_not] at hv
      refine iff_of_true ?_ (.inr rfl)
      intro args'' heq _
      cases heq
      exact ⟨args', hin, hkey, hv⟩

/-! ## A correct server -/

/-- What `Get` and `Put` of `kvtest1/porcupine.go` record of a call that was not resent. -/
def recordOf (e : Request × Reply) : KvInput × KvOutput :=
  (kvInput e.1, kvOutput (clerkReturn false e.2))

/-- The model allows what the server answers, except `ErrNoKey` to a `Put`. -/
theorem allows_served (reqs : List Request) (req : Request) :
    allows (serve reqs) req (recordOf (req, ((serve reqs).dispatch req).2)).2 ↔
      CreatesFirst reqs req := by
  cases req with
  | get args =>
      refine iff_of_true ?_ (fun args' heq ↦ by cases heq)
      show (kvOutput (clerkGet ((serve reqs).get args))).value = _
      unfold clerkGet
      obtain hok | ⟨herr, hview⟩ := get_err_cases (serve reqs) args
      · simp [hok, kvOutput, get_value]
      · simp [herr, hview, kvOutput]
  | put args =>
      have herr : (recordOf (.put args, ((serve reqs).dispatch (.put args)).2)).2.err =
          ((serve reqs).put args).2.err := by
        simp [recordOf, KVServer.dispatch, clerkReturn, clerkPut, kvOutput]
      rw [createsFirst_put]
      unfold allows
      rw [herr, put_eq]
      by_cases hv : args.version = ((serve reqs).view args.key).version
      · simp [hv]
      · cases hm : ((serve reqs).m args.key).isSome <;> simp [hv]

theorem records_accepted (it : Iteration GoString) (reqs : List Request) (ops : List Operation)
    (h : ops.map Operation.io = (serveFrom makeKVServer reqs).2.map recordOf) :
    Asks ops reqs ∧ (Accepted it ops ↔ EachAfter CreatesFirst reqs) := by
  induction reqs using List.reverseRecOn generalizing ops with
  | nil =>
      have hops : ops = [] := by simpa [serveFrom] using h
      subst hops
      refine ⟨rfl, iff_of_true ?_ (eachAfter_nil _)⟩
      rw [accepted_iff]
      intro key
      rfl
  | append_singleton reqs req ih =>
      rw [serveFrom_snoc, List.map_append, List.map_cons, List.map_nil] at h
      obtain ⟨ops', last, rfl, hops', hlast⟩ := List.map_eq_append_iff.mp h
      obtain ⟨op, rest, rfl, hop, hrest⟩ := List.map_eq_cons_iff.mp hlast
      rw [List.map_eq_nil_iff] at hrest
      subst hrest
      obtain ⟨hasks, hacc⟩ := ih ops' hops'
      have hreq : op.input.request = some req := by
        rw [show op.input = kvInput req from congrArg Prod.fst hop, request_kvInput]
      have hout : op.output = _ := congrArg Prod.snd hop
      constructor
      · unfold Asks at hasks ⊢
        rw [List.map_append, List.map_append, hasks, List.map_cons, hreq]
        rfl
      · rw [accepted_snoc hasks hreq, hacc, eachAfter_snoc, hout, allows_served]

/-- The log of a server that works through `reqs` is split by key, and the model accepts it exactly
if no `Put` with a version other than 0 comes before the first `Put` with version 0 on its key. -/
theorem kvModel_accepts_iff (it : Iteration GoString) (reqs : List Request) (ops : List Operation)
    (h : ops.map Operation.io = (serveFrom makeKVServer reqs).2.map recordOf) :
    (∃ keys, SplitByKey ops (kvPartition it ops) keys) ∧
      (Accepted it ops ↔ EachAfter CreatesFirst reqs) :=
  ⟨splitByKey_kvPartition it ops, (records_accepted it reqs ops h).2⟩

def untimed (io : KvInput × KvOutput) : Operation :=
  { clientId := 0, input := io.1, call := 0, output := io.2, ret := 0 }

/-- Two keys, one of them written twice and then with an old version. -/
def twoKeys : List Request :=
  [.put ⟨lit "b", lit "x", 0⟩, .get ⟨lit "a"⟩, .put ⟨lit "b", lit "y", 1⟩,
   .put ⟨lit "b", lit "z", 1⟩, .get ⟨lit "b"⟩]

def twoKeysLog : List Operation := (serveFrom makeKVServer twoKeys).2.map (untimed ∘ recordOf)

theorem kvModel_accepts_iff_twoKeys :
    twoKeysLog.map (·.output.err) = [.ok, .errNoKey, .ok, .errVersion, .ok] ∧
      Accepted (.stored _) twoKeysLog ∧ EachAfter CreatesFirst twoKeys := by
  have hacc : Accepted (.stored _) twoKeysLog := by decide
  refine ⟨by decide, hacc, ?_⟩
  exact (kvModel_accepts_iff (.stored _) twoKeys twoKeysLog (by decide)).2.mp hacc

/-- The server answers `ErrNoKey`, as it should, and the model does not accept it. -/
theorem kvModel_rejects_errNoKey :
    (serveFrom makeKVServer [.put ⟨lit "a", lit "x", 1⟩]).2.map Prod.snd = [.put ⟨.errNoKey⟩] ∧
      ¬ Accepted (.stored _)
        ((serveFrom makeKVServer [.put ⟨lit "a", lit "x", 1⟩]).2.map (untimed ∘ recordOf)) := by
  decide

/-! ## A wrong server -/

/-- The recorded output is the server's reply. -/
def Matches (op : Operation) : Reply → Prop
  | .get reply =>
      op.output.value = reply.value ∧ op.output.version = reply.version ∧ op.output.err = reply.err
  | .put reply => op.output.err = reply.err

/-- The recorded outputs are the replies of the server to the same requests. -/
def Agrees (ops : List Operation) (reqs : List Request) : Prop :=
  List.Forall₂ Matches ops ((serveFrom makeKVServer reqs).2.map Prod.snd)

/-- The `Put`s on `key` that are recorded as `OK`. -/
def okPuts (key : GoString) (ops : List Operation) : Nat :=
  ops.countP fun op => op.input.op = 1 ∧ op.input.key = key ∧ op.output.err = .ok

/-- What the model does not look at: the version and the error of a `Get`, and whether the key of a
`Put` exists. -/
structure Unchecked (before : List Operation) (op : Operation) : Prop where
  get : op.input.op = 0 →
    op.output.version = UInt64.ofNat (okPuts op.input.key before) ∧
      op.output.err = if okPuts op.input.key before = 0 then .errNoKey else .ok
  put : op.input.op = 1 → op.input.version ≠ 0 →
    ∃ op' ∈ before, op'.input.op = 1 ∧ op'.input.key = op.input.key ∧ op'.input.version = 0

/-- The model accepts only operations that are requests. -/
theorem request_of_kvRun {st : KvState} {l : List (KvInput × KvOutput)}
    (h : (kvRun st l).isSome = true) {x : KvInput × KvOutput} (hx : x ∈ l) :
    ∃ req, x.1.request = some req := by
  induction l generalizing st with
  | nil => cases hx
  | cons y l ih =>
      rw [kvRun] at h
      split at h
      · rename_i st' hstep
        obtain rfl | hin := List.mem_cons.mp hx
        · unfold kvStep at hstep
          unfold KvInput.request
          split
          · exact ⟨_, rfl⟩
          · rename_i hget
            rw [if_neg hget] at hstep
            split
            · exact ⟨_, rfl⟩
            · rename_i hput
              rw [if_neg hput] at hstep
              cases hstep
        · exact ih h hin
      · cases h

theorem Accepted.asks {it : Iteration GoString} {ops : List Operation} (h : Accepted it ops) :
    ∃ reqs, Asks ops reqs := by
  have hreq : ∀ op ∈ ops, ∃ req, op.input.request = some req := by
    intro op hop
    have hmem : op ∈ keyLog op.input.key ops := List.mem_filter.mpr ⟨hop, by simp⟩
    exact request_of_kvRun (accepted_iff.mp h op.input.key) (List.mem_map_of_mem hmem)
  clear h
  induction ops with
  | nil => exact ⟨[], rfl⟩
  | cons op ops ih =>
      obtain ⟨req, hop⟩ := hreq op List.mem_cons_self
      obtain ⟨reqs, hreqs⟩ := ih fun op' hop' ↦ hreq op' (List.mem_cons_of_mem _ hop')
      refine ⟨req :: reqs, ?_⟩
      unfold Asks at hreqs ⊢
      rw [List.map_cons, List.map_cons, hop, hreqs]

theorem request_put {inp : KvInput} {args : PutArgs} : inp.request = some (.put args) ↔
    inp.op = 1 ∧ inp.key = args.key ∧ inp.value = args.value ∧ inp.version = args.version := by
  obtain ⟨key, value, version⟩ := args
  unfold KvInput.request
  split
  · rename_i hop
    simp [hop]
  · split <;> simp_all

theorem request_get {inp : KvInput} {args : GetArgs} : inp.request = some (.get args) ↔
    inp.op = 0 ∧ inp.key = args.key := by
  obtain ⟨key⟩ := args
  unfold KvInput.request
  split
  · simp_all
  · split <;> simp_all

/-- A key was created before according to the log exactly if it was according to the requests. -/
theorem Asks.createsFirst {ops : List Operation} {reqs : List Request} (h : Asks ops reqs)
    {inp : KvInput} {args : PutArgs} (hinp : inp.request = some (.put args)) :
    CreatesFirst reqs (.put args) ↔ (inp.version ≠ 0 → ∃ op' ∈ ops, op'.input.op = 1 ∧
      op'.input.key = inp.key ∧ op'.input.version = 0) := by
  obtain ⟨_, hkey, _, hversion⟩ := request_put.mp hinp
  have hmem : ∀ args', Request.put args' ∈ reqs ↔
      ∃ op ∈ ops, op.input.request = some (.put args') := by
    intro args'
    have hmap : some (Request.put args') ∈ reqs.map some ↔ .put args' ∈ reqs := by simp
    rw [← hmap, ← h, List.mem_map]
  unfold CreatesFirst
  rw [hversion, hkey]
  constructor
  · intro hfirst hv
    obtain ⟨args', hin, hkey', hzero⟩ := hfirst args rfl hv
    obtain ⟨op, hop, hreq⟩ := (hmem args').mp hin
    obtain ⟨hput, hk, _, hver⟩ := request_put.mp hreq
    exact ⟨op, hop, hput, hk.trans hkey', hver.trans hzero⟩
  · intro hfirst args' heq hv
    cases heq
    obtain ⟨op, hop, hput, hk, hzero⟩ := hfirst hv
    refine ⟨⟨op.input.key, op.input.value, op.input.version⟩, ?_, hk, hzero⟩
    exact (hmem _).mpr ⟨op, hop, request_put.mpr ⟨hput, rfl, rfl, rfl⟩⟩

theorem agrees_snoc {ops : List Operation} {op : Operation} {reqs : List Request} {req : Request} :
    Agrees (ops ++ [op]) (reqs ++ [req]) ↔
      Agrees ops reqs ∧ Matches op ((serve reqs).dispatch req).2 := by
  unfold Agrees
  rw [serveFrom_snoc, ← List.forall₂_reverse_iff]
  simp only [List.map_append, List.map_cons, List.map_nil, List.reverse_append,
    List.reverse_singleton, List.singleton_append, List.forall₂_cons, List.forall₂_reverse_iff]
  exact and_comm

theorem okPuts_snoc (key : GoString) (ops : List Operation) (op : Operation) :
    okPuts key (ops ++ [op]) = okPuts key ops +
      if op.input.op = 1 ∧ op.input.key = key ∧ op.output.err = .ok then 1 else 0 := by
  unfold okPuts
  rw [List.countP_append, List.countP_singleton]
  simp

/-- An operation that the model allows has the server's output, up to what it does not look at. -/
theorem matches_iff {ops : List Operation} {op : Operation} {reqs : List Request} {req : Request}
    (hasks : Asks ops reqs) (hreq : op.input.request = some req)
    (hallows : allows (serve reqs) req op.output) (hmaybe : op.output.err ≠ .errMaybe)
    (hcount : ∀ key, okPuts key ops = (wins key (serveFrom makeKVServer reqs).2).length) :
    Matches op ((serve reqs).dispatch req).2 ↔ Unchecked ops op := by
  have hserved := served_serve reqs
  cases req with
  | get args =>
      obtain ⟨hop, hkey⟩ := request_get.mp hreq
      have hput : op.input.op ≠ 1 := by simp [hop]
      -- the model has checked the value; version and error are left
      have hversion : ((serve reqs).get args).version = UInt64.ofNat (okPuts args.key ops) := by
        rw [get_version, (served_wins args.key hserved).2, hcount]
      have herr : ((serve reqs).get args).err =
          if okPuts args.key ops = 0 then .errNoKey else .ok := by
        rw [hcount]
        have hnone := hserved.eq_none_iff args.key
        unfold KVServer.get
        cases hm : (serve reqs).m args.key with
        | none => simp [hnone.mp hm]
        | some v =>
            have hne : (wins args.key (serveFrom makeKVServer reqs).2).length ≠ 0 := by
              intro hzero
              rw [hnone.mpr hzero] at hm
              cases hm
            simp [hne]
      show _ ∧ _ ∧ _ ↔ _
      rw [get_value, hversion, herr, ← hkey]
      constructor
      · rintro ⟨_, hver, he⟩
        exact ⟨fun _ ↦ ⟨hver, he⟩, fun h ↦ absurd h hput⟩
      · intro h
        exact ⟨hkey ▸ hallows, h.get hop⟩
  | put args =>
      obtain ⟨hop, hkey, _, hver⟩ := request_put.mp hreq
      have hget : op.input.op ≠ 0 := by simp [hop]
      -- of a `Put` only `ErrNoKey` is unchecked
      have hunchecked : Unchecked ops op ↔ CreatesFirst reqs (.put args) := by
        rw [hasks.createsFirst hreq]
        constructor
        · intro h
          exact h.put hop
        · intro h
          exact ⟨fun h0 ↦ absurd h0 hget, fun _ ↦ h⟩
      rw [hunchecked, createsFirst_put]
      show op.output.err = ((serve reqs).put args).2.err ↔ _
      rw [put_eq]
      unfold allows at hallows
      by_cases hv : args.version = ((serve reqs).view args.key).version
      · simp_all
      · cases hm : ((serve reqs).m args.key).isSome <;> simp_all

theorem okPuts_eq_wins {it : Iteration GoString} {ops : List Operation} {reqs : List Request}
    (hasks : Asks ops reqs) (hacc : Accepted it ops)
    (hmaybe : ∀ op ∈ ops, op.output.err ≠ .errMaybe) (key : GoString) :
    okPuts key ops = (wins key (serveFrom makeKVServer reqs).2).length := by
  induction ops using List.reverseRecOn generalizing reqs with
  | nil =>
      have hreqs : reqs = [] := by simpa [Asks] using hasks.symm
      subst hreqs
      rfl
  | append_singleton ops op ih =>
      obtain ⟨reqs, req, rfl, hasks', hreq⟩ := hasks.snoc_cases
      obtain ⟨hacc', hallows⟩ := (accepted_snoc hasks' hreq).mp hacc
      have hop := hmaybe op (by simp)
      rw [okPuts_snoc, ih hasks' hacc' (fun op' hop' ↦ hmaybe op' (by simp [hop'])), serveFrom_snoc,
        wins_append, List.length_append]
      congr 1
      cases req with
      | get args =>
          obtain ⟨hget, _⟩ := request_get.mp hreq
          simp [hget, wins, KVServer.dispatch]
      | put args =>
          obtain ⟨hput, hkey, _, _⟩ := request_put.mp hreq
          -- the model says `OK` exactly when the server does
          have hok : op.output.err = .ok ↔ ((serve reqs).put args).2.err = .ok := by
            rw [put_err_eq_ok_iff]
            simp only [allows, hop, or_false] at hallows
            split at hallows <;> simp_all
          simp only [wins, KVServer.dispatch, hput, hkey, hok, true_and, List.filterMap_cons,
            List.filterMap_nil]
          split <;> simp

/-- When the model accepts a log without `ErrMaybe`, the recorded outputs are what the server
answers exactly if the parts that the model does not look at are. -/
theorem kvModel_agrees_iff (it : Iteration GoString) (ops : List Operation)
    (hacc : Accepted it ops) (hmaybe : ∀ op ∈ ops, op.output.err ≠ .errMaybe) :
    ∃ reqs, Asks ops reqs ∧ (Agrees ops reqs ↔ EachAfter Unchecked ops) := by
  obtain ⟨reqs, hasks⟩ := hacc.asks
  refine ⟨reqs, hasks, ?_⟩
  induction ops using List.reverseRecOn generalizing reqs with
  | nil =>
      have hreqs : reqs = [] := by simpa [Asks] using hasks.symm
      subst hreqs
      exact iff_of_true List.Forall₂.nil (eachAfter_nil _)
  | append_singleton ops op ih =>
      obtain ⟨reqs, req, rfl, hasks', hreq⟩ := hasks.snoc_cases
      obtain ⟨hacc', hallows⟩ := (accepted_snoc hasks' hreq).mp hacc
      have hmaybe' : ∀ op' ∈ ops, op'.output.err ≠ .errMaybe :=
        fun op' hop' ↦ hmaybe op' (by simp [hop'])
      rw [agrees_snoc, eachAfter_snoc, ih hacc' hmaybe' reqs hasks',
        matches_iff hasks' hreq hallows (hmaybe op (by simp))
          (okPuts_eq_wins hasks' hacc' hmaybe')]

/-- The log of a server that works as it should. -/
theorem kvModel_agrees_iff_twoKeys :
    Accepted (.stored _) twoKeysLog ∧
      ∃ reqs, Asks twoKeysLog reqs ∧ (Agrees twoKeysLog reqs ↔ EachAfter Unchecked twoKeysLog) := by
  have hacc : Accepted (.stored _) twoKeysLog := by decide
  exact ⟨hacc, kvModel_agrees_iff (.stored _) twoKeysLog hacc (by decide)⟩

/-- A `Get` of a key that nobody wrote. -/
def inventedGet : List Operation :=
  [untimed (kvInput (.get ⟨lit "a"⟩), { value := [], version := 5, err := .ok })]

/-- The model accepts a `Get` with a version and an error that no server gave. -/
theorem kvModel_accepts_invented :
    Accepted (.stored _) inventedGet ∧ (∀ op ∈ inventedGet, op.output.err ≠ .errMaybe) ∧
      Asks inventedGet [.get ⟨lit "a"⟩] ∧
      (serveFrom makeKVServer [.get ⟨lit "a"⟩]).2.map Prod.snd = [.get ⟨[], 0, .errNoKey⟩] ∧
      ¬ Agrees inventedGet [.get ⟨lit "a"⟩] := by
  refine ⟨by decide, by decide, rfl, by decide, ?_⟩
  intro h
  cases h with
  | cons hmatch _ => exact absurd hmatch.2.1 (by decide)

end GoLabs.KvSrv
