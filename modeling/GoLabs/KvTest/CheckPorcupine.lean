import GoLabs.KvTest.Recorded

/-!
# `checkPorcupine` on the recorded operations

`checkPorcupine` of `kvtest1/porcupine.go` hands the log to the porcupine library, whose code is not
part of this repository; what it may return is a parameter here (`Checker`).  A log is linearizable
if, key by key, there is an order of the operations that `KvModel` accepts and in which no operation
stands before one that had returned when it was called.  Over a network whose ends are left alone
there is one, except that the model has no case for a `Put` that returned `ErrNoKey`.
-/

open GoLabs.KvSrv GoLabs.LabRpc GoLabs.Tester GoLabs.Reasoning

namespace GoLabs.KvTest

variable {it : Iteration GoString} {ops order : List Operation} {op : Operation}

/-- No operation stands before one that had returned when it was called. -/
def InTime (ops : List Operation) : Prop := ops.Pairwise fun a b => ¬ b.ret < a.call

/-- The parts that `KvModel.Partition` makes of the log can each be put in order. -/
def Linearizable (it : Iteration GoString) (ops : List Operation) : Prop :=
  ∀ part ∈ kvPartition it ops, ∃ order : List Operation, order.Perm part ∧ InTime order ∧
    (kvRun kvInit (order.map Operation.io)).isSome = true

/-- `porcupine.CheckResult`. -/
inductive CheckResult where
  | ok
  | illegal
  /-- The search has run out of time. -/
  | unknown
  deriving DecidableEq, Repr

/-- What `porcupine.CheckOperationsVerbose` may return at `KvModel`.  Nothing is assumed about when
it runs out of time; if it does not, its verdict is right. -/
structure Checker where
  returns : Iteration GoString → List Operation → CheckResult → Prop
  ok : ∀ it ops, returns it ops .ok → Linearizable it ops
  illegal : ∀ it ops, returns it ops .illegal → ¬ Linearizable it ops

/-- `checkPorcupine` after the search, without the visualisation.  The error is that of
`t.Fatal`. -/
def checkPorcupine (res : CheckResult) : Except GoString Unit :=
  if res = .illegal then .error (lit "history is not linearizable")
  else .ok () -- also if it timed out: "assuming history is ok"

/-- One order of the whole log gives an order of every part. -/
theorem Linearizable.of_order (hperm : order.Perm ops) (htime : InTime order)
    (hrun : ∀ key, (kvRun kvInit ((keyLog key order).map Operation.io)).isSome = true) :
    Linearizable it ops := by
  obtain ⟨keys, hsplit⟩ := splitByKey_kvPartition it ops
  intro part hpart
  rw [hsplit.parts] at hpart
  obtain ⟨key, -, rfl⟩ := List.mem_map.mp hpart
  exact ⟨keyLog key order, hperm.filter _, htime.filter _, hrun key⟩

/-- `KvModel.Step` accepts no `Put` with `ErrNoKey`, in any state. -/
theorem err_of_kvRun {st : KvState} {l : List (KvInput × KvOutput)}
    (h : (kvRun st l).isSome = true) {x : KvInput × KvOutput} (hx : x ∈ l) (hput : x.1.op = 1) :
    x.2.err ≠ .errNoKey := by
  induction l generalizing st with
  | nil => cases hx
  | cons y l ih =>
      rw [kvRun] at h
      split at h
      · rename_i st' hstep
        obtain rfl | hin := List.mem_cons.mp hx
        · intro herr
          unfold kvStep at hstep
          rw [if_neg (by rw [hput]; decide), if_pos hput, herr] at hstep
          split at hstep <;> simp at hstep
        · exact ih h hin
      · cases h

theorem Linearizable.err_ne_errNoKey (h : Linearizable it ops) (hop : op ∈ ops)
    (hput : op.input.op = 1) : op.output.err ≠ .errNoKey := by
  obtain ⟨keys, hsplit⟩ := splitByKey_kvPartition it ops
  have hpart : keyLog op.input.key ops ∈ kvPartition it ops := by
    rw [hsplit.parts]
    exact List.mem_map_of_mem ((hsplit.mem _).mpr ⟨op, hop, rfl⟩)
  obtain ⟨order, hperm, -, hrun⟩ := h _ hpart
  have hmem : op ∈ order := hperm.mem_iff.mpr (List.mem_filter.mpr ⟨hop, by simp⟩)
  exact err_of_kvRun hrun (List.mem_map_of_mem hmem) hput

/-- When every operation of a linearization was recorded as it stands there, the records lead the
model along the same path. -/
theorem keyLog_records {record : Nat → Option Operation} {l : List (Op Nat KvInput KvOutput)}
    (h : ∀ p ∈ l, ∃ op, record p.id = some op ∧ op.io = (p.input, p.output)) (key : GoString) :
    (keyLog key (l.filterMap fun p => record p.id)).map Operation.io = perKey key l := by
  induction l with
  | nil => rfl
  | cons p l ih =>
      obtain ⟨op, hop, hio⟩ := h p List.mem_cons_self
      have hkey : op.input.key = p.input.key := congrArg (fun io => io.1.key) hio
      have htail := ih fun q hq ↦ h q (List.mem_cons_of_mem _ hq)
      unfold keyLog perKey at htail ⊢
      rw [List.filterMap_cons, hop, List.filter_cons, List.filter_cons, hkey]
      split
      · rw [List.map_cons, List.map_cons, htail, hio]
      · exact htail

/-- The points of the calls, in their order. -/
theorem linearization_points {s : Net} (h : Reaches (restrict Net.step Net.withinCall) Net.init s)
    (hb : ∀ key, (wins key (execLog s.history)).length < 2 ^ 64) :
    Linearization (clerkHistory s.history) (s.history.filterMap (point s.history)) := by
  have hi := Net.inv_of_reaches h.of_restrict
  apply linearization_of_points hi.nodup
  · exact fun x hx y hy p q hp hq hid ↦ point_unique hi hb hx hy hp hq hid
  · exact fun x hx p hp ↦ point_called h hx hp
  · exact fun x _ p out hp hout ↦ point_returned hi hp hout
  · exact fun n inp out hcalled hout ↦ exists_point hi hcalled hout
  · exact fun x hx y hy p q hp hq hbefore ↦ point_precedes h hx hy hp hq hbefore

namespace Recording

variable {s : Recording} {net : Network} {n : Nat}

theorem record_eq_some : s.record n = some op ↔ ∃ start, s.spans[n]? = some (start, some op) := by
  unfold record
  rw [Option.bind_eq_some_iff]
  constructor
  · rintro ⟨⟨start, _⟩, hspan, rfl⟩
    exact ⟨start, hspan⟩
  · rintro ⟨start, hspan⟩
    exact ⟨_, hspan, rfl⟩

theorem Inv.filterMap_record (h : Inv s) : s.logged.filterMap s.record = s.oplog := by
  have hmap : (s.logged.map s.record).filterMap id = (s.oplog.map some).filterMap id := by
    rw [h.log]
  simpa [List.filterMap_map] using hmap

theorem Inv.exists_record (h : Inv s) (hn : n ∈ s.logged) :
    ∃ op ∈ s.oplog, s.record n = some op := by
  have hmem : s.record n ∈ s.oplog.map some := by
    rw [h.log]
    exact List.mem_map_of_mem hn
  obtain ⟨op, hop, heq⟩ := List.mem_map.mp hmem
  exact ⟨op, hop, heq.symm⟩

/-- A recorded operation that is not a `Put` on a missing key is a completed call of the history. -/
theorem Inv.completed (h : Inv s) (hi : s.stack.abs.Inv) (hrec : s.record n = some op)
    (hno : op.input.op = 1 → op.output.err ≠ .errNoKey) :
    (clerkHistory s.stack.history).called n op.input ∧
      (clerkHistory s.stack.history).returned n op.output := by
  obtain ⟨start, hspan⟩ := record_eq_some.mp hrec
  obtain ⟨-, a, req, res, hret, hin, hout⟩ := h.made n start op hspan
  obtain ⟨c, reply, -, hexec, -, hres⟩ := ret_reply hi hret
  refine ⟨⟨req, (hi.invoke_before_exec _ _ _ _ hexec).left, hin, ?_⟩, a, req, res, hret, hout⟩
  intro b hmissing
  obtain ⟨-, -, rfl⟩ := ret_unique hi hret hmissing
  obtain ⟨rfl, -⟩ | ⟨-, -, habs⟩ := clerkReturn_eq_put hres.symm
  · obtain ⟨args, rfl⟩ := hi.exec_put hexec
    rw [hin, hout] at hno
    exact hno rfl rfl
  · cases habs

/-- When no goroutine has a call in hand, the calls of the history are those in the log. -/
theorem Inv.logged_of_called (h : Inv s) (hi : s.stack.abs.Inv)
    (hidle : ∀ r ∈ s.recorders, r.pc.holds = none) {inp : KvInput}
    (hcalled : (clerkHistory s.stack.history).called n inp) : n ∈ s.logged := by
  obtain ⟨req, hinv, -, -⟩ := hcalled
  obtain ⟨c, hc, -⟩ := (hi.invoke_iff _ _).mp hinv
  have hlt : n < s.spans.length := by
    rw [h.length]
    exact lt_length_of_getElem? hc
  obtain hlogged | ⟨i, r, hr, hholds⟩ := h.held n hlt
  · exact hlogged
  · rw [hidle r (List.mem_of_getElem? hr)] at hholds
    cases hholds

/-- The operations in the order of their points. -/
theorem Tracked.exists_order (h : Tracked net s) (hidle : ∀ r ∈ s.recorders, r.pc.holds = none)
    (hb : ∀ key, (wins key (execLog s.stack.history)).length < 2 ^ 64)
    (hno : ∀ op ∈ s.oplog, op.input.op = 1 → op.output.err ≠ .errNoKey) :
    ∃ order : List Operation, order.Perm s.oplog ∧ InTime order ∧
      ∀ key, (kvRun kvInit ((keyLog key order).map Operation.io)).isSome = true := by
  have hi := Net.inv_of_reaches h.within.of_restrict
  have hlin := linearization_points h.within hb
  set l := s.stack.abs.history.filterMap (point s.stack.abs.history) with hl
  have hlogged : ∀ p ∈ l, p.id ∈ s.logged := fun p hp ↦
    h.inv.logged_of_called hi hidle (hlin.called p hp)
  have hrecord : ∀ n ∈ s.logged, ∃ op ∈ s.oplog, s.record n = some op ∧
      (⟨n, op.input, op.output⟩ : Op Nat KvInput KvOutput) ∈ l := by
    intro n hn
    obtain ⟨op, hop, hrec⟩ := h.inv.exists_record hn
    obtain ⟨hcalled, hreturned⟩ := h.inv.completed hi hrec (hno op hop)
    exact ⟨op, hop, hrec, hlin.complete n _ _ hcalled hreturned⟩
  have hids : (l.map Op.id).Perm s.logged := by
    rw [List.perm_ext_iff_of_nodup hlin.nodup h.inv.nodup]
    intro n
    constructor
    · intro hn
      obtain ⟨p, hp, rfl⟩ := List.mem_map.mp hn
      exact hlogged p hp
    · intro hn
      obtain ⟨op, -, -, hmem⟩ := hrecord n hn
      exact List.mem_map.mpr ⟨_, hmem, rfl⟩
  refine ⟨l.filterMap fun p => s.record p.id, ?_, ?_, ?_⟩
  · have hperm := hids.filterMap s.record
    rwa [List.filterMap_map, h.inv.filterMap_record] at hperm
  · unfold InTime
    rw [List.pairwise_filterMap, List.pairwise_iff_forall_sublist]
    intro p q hpq x hx y hy hlt
    -- the clock says that the second one had returned before the first one was called
    obtain ⟨start, hq⟩ := record_eq_some.mp hy
    obtain ⟨start', hp⟩ := record_eq_some.mp hx
    obtain ⟨rfl, -⟩ := h.inv.made _ _ _ hp
    have hbefore := h.inv.order q.id p.id start y _ hq hp hlt
    have hqp := hlin.realTime q (Precedes.right hpq) p (Precedes.left hpq) hbefore
    exact Precedes.asymm (List.Nodup.of_map _ hlin.nodup) hpq hqp
  · intro key
    rw [keyLog_records _ key, hl, kvRun_points h.within key _ (fun e he ↦ he) _ hi.served]
    · rfl
    · intro p hp
      obtain ⟨op, -, hrec, hmem⟩ := hrecord p.id (hlogged p hp)
      refine ⟨op, hrec, ?_⟩
      rw [← List.inj_on_of_nodup_map hlin.nodup hmem hp rfl]
      rfl

end Recording

/-- The records of a run can be put in order, unless some `Put` was told that its key is missing. -/
theorem Recording.linearizable_iff {net : Network} {s : Recording}
    (h : Reaches (restrict Recording.step Recording.steady) (Recording.init net) s)
    (hidle : ∀ r ∈ s.recorders, r.pc.holds = none)
    (hb : ∀ key, (wins key (execLog s.stack.history)).length < 2 ^ 64) (it : Iteration GoString) :
    Linearizable it s.oplog ↔
      ∀ op ∈ s.oplog, op.input.op = 1 → op.output.err ≠ .errNoKey := by
  constructor
  · exact fun hok op hop hput ↦ hok.err_ne_errNoKey hop hput
  · intro hno
    obtain ⟨order, hperm, htime, hrun⟩ :=
      (Recording.tracked_of_reaches h).exists_order hidle hb hno
    exact .of_order hperm htime hrun

/-- When every recorded `Get` and `Put` has returned, the log is linearizable except if some `Put`
was told that its key is missing, and `checkPorcupine` fails exactly in that case, unless the
checker runs out of time. -/
theorem checkPorcupine_fails_iff {net : Network} {s : Recording}
    (h : Reaches (restrict Recording.step Recording.steady) (Recording.init net) s)
    (hidle : ∀ r ∈ s.recorders, r.pc.holds = none)
    (hb : ∀ key, (wins key (execLog s.stack.history)).length < 2 ^ 64) (it : Iteration GoString)
    (K : Checker) {res : CheckResult} (hres : K.returns it s.oplog res) :
    (Linearizable it s.oplog ↔
        ∀ op ∈ s.oplog, op.input.op = 1 → op.output.err ≠ .errNoKey) ∧
      (checkPorcupine res = .error (lit "history is not linearizable") ↔
        res ≠ .unknown ∧ ∃ op ∈ s.oplog, op.input.op = 1 ∧ op.output.err = .errNoKey) := by
  have hiff := Recording.linearizable_iff h hidle hb it
  have hmissing : ¬ Linearizable it s.oplog ↔
      ∃ op ∈ s.oplog, op.input.op = 1 ∧ op.output.err = .errNoKey := by
    rw [hiff]
    simp
  refine ⟨hiff, ?_⟩
  rw [← hmissing]
  cases res with
  | ok => simpa [checkPorcupine] using K.ok it _ hres
  | illegal => simpa [checkPorcupine] using K.illegal it _ hres
  | unknown => simp [checkPorcupine]

/-- The reply of a recorded `Put` at this version is dropped, and the Clerk sends it again. -/
def recordedPut (version : Tversion) : List RecordAction :=
  [.stack (.perform (.reliable false)), .stack (.makeClientTo none),
   .stack (.makeClerk 0 (serverName 0 0)), .spawn 0 7, .start 0 (.put ⟨lit "k", lit "v", version⟩),
   .tick 5, .call 0 (lit "e"), .stack (.req 0 .read), .stack (.req 0 .dispatch),
   .stack (.req 0 .handlerReturn), .stack (.req 0 .receive), .stack (.req 0 .check),
   .stack (.req 0 .dropReply), .stack (.req 0 .deliver), .stack (.resend 0 []),
   .stack (.req 1 .read), .stack (.req 1 .dispatch), .stack (.req 1 .handlerReturn),
   .stack (.req 1 .receive), .stack (.req 1 .check), .stack (.req 1 .reply),
   .stack (.req 1 .deliver), .tick 2, .finish 0, .append 0]

theorem recordedPut_creates : (run (restrict Recording.step Recording.steady) (Recording.init kvNet)
    (recordedPut 0)).isSome = true := by decide

theorem recordedPut_misses : (run (restrict Recording.step Recording.steady) (Recording.init kvNet)
    (recordedPut 1)).isSome = true := by decide

/-- A checker that gives the right verdict or runs out of time. -/
def patient : Checker where
  returns it ops res := (res = .ok → Linearizable it ops) ∧ (res = .illegal → ¬ Linearizable it ops)
  ok _ _ h := h.1 rfl
  illegal _ _ h := h.2 rfl

/-- A `Put` that returned `ErrMaybe` cannot be called illegal; one that returned `ErrNoKey` can, and
then the check fails. -/
theorem checkPorcupine_fails_iff_recordedPut :
    (∃ s, run (restrict Recording.step Recording.steady) (Recording.init kvNet)
        (recordedPut 0) = some s ∧ s.oplog.map (·.output.err) = [.errMaybe] ∧
      Linearizable (.stored _) s.oplog) ∧
    ∃ s, run (restrict Recording.step Recording.steady) (Recording.init kvNet)
        (recordedPut 1) = some s ∧ s.oplog.map (·.output.err) = [.errNoKey] ∧
      patient.returns (.stored _) s.oplog .illegal ∧
      checkPorcupine .illegal = .error (lit "history is not linearizable") := by
  have hwrites : ∀ s : Recording, (execLog s.stack.history).length < 2 ^ 64 →
      ∀ key, (wins key (execLog s.stack.history)).length < 2 ^ 64 :=
    fun _ hlt key ↦ (wins_length_le key _).trans_lt hlt
  have hunknown : ∀ ops, patient.returns (.stored _) ops .unknown := fun _ ↦ ⟨by simp, by simp⟩
  constructor
  · refine ⟨_, (Option.some_get recordedPut_creates).symm, by decide, ?_⟩
    exact (checkPorcupine_fails_iff (reaches_get recordedPut_creates) (by decide)
      (hwrites _ (by decide)) _ patient (hunknown _)).1.mpr (by decide)
  · have hnot : ¬ Linearizable (.stored _) ((run (restrict Recording.step Recording.steady)
        (Recording.init kvNet) (recordedPut 1)).get recordedPut_misses).oplog := by
      rw [(checkPorcupine_fails_iff (reaches_get recordedPut_misses) (by decide)
        (hwrites _ (by decide)) _ patient (hunknown _)).1]
      decide
    have hillegal : patient.returns (.stored _) _ .illegal := ⟨by simp, fun _ ↦ hnot⟩
    refine ⟨_, (Option.some_get recordedPut_misses).symm, by decide, hillegal, ?_⟩
    exact (checkPorcupine_fails_iff (reaches_get recordedPut_misses) (by decide)
      (hwrites _ (by decide)) _ patient hillegal).2.mpr (by decide)

end GoLabs.KvTest
