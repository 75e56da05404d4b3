import GoLabs.Reasoning.GoString
import GoLabs.Raft.Applier

/-!
# Appliers that take snapshots

`newRfsrv`, `Kill`, `applierSnap` and `ingestSnap` of `raft1/server.go`, and `mksrv` of
`raft1/test.go`.  Every tenth command the loop of a server encodes the whole log and hands it to its
Raft peer.  A snapshot that comes back, on the apply channel or from the persister when the server
is started again, replaces the log and is compared with nothing.  A loop may outlive its server: it
goes on to check and store commands for the server that has taken the other's place.
-/

open GoLabs.Reasoning

namespace GoLabs.Raft

/-- What `applierSnap` reads of a message. -/
structure SnapMsg (C : Type) extends ApplyMsg C where
  snapshotValid : Bool
  /-- `none` is nil. -/
  snapshot : Option GoString
  snapshotIndex : Int
  deriving DecidableEq, Repr

inductive SnapErr (C : Type) where
  /-- `nil snapshot` -/
  | nilSnapshot
  /-- `snapshot decode error` -/
  | decode
  /-- `server %v snapshot doesn't match m.SnapshotIndex` -/
  | snapshotIndex (server : Nat)
  /-- `server %v apply out of order, expected index %v, got %v` -/
  | outOfOrder (server : Nat) (expected got : Int)
  | apply (err : ApplyErr C)
  deriving DecidableEq, Repr

/-- Where the loop of `applierSnap` stands. -/
inductive LoopPc (C : Type) where
  | start
  /-- At the `range` over the channel. -/
  | reading
  /-- About to make the snapshot of this index, with the error of the message. -/
  | snap (index : Int) (err : Option (SnapErr C))
  /-- About to report the error. -/
  | found (err : SnapErr C)
  | returned
  deriving DecidableEq, Repr

/-- An `rfsrv` and its loop.  The logs are those of the `Test` while the server is in `ts.srvs`;
when another one has taken its place only the loop reads them, for a snapshot that goes nowhere. -/
structure Loop (C : Type) where
  me : Nat
  lastApplied : Int
  /-- `rs.raft != nil` -/
  raft : Bool
  pc : LoopPc C
  /-- The logs, until the server is in `ts.srvs`. -/
  own : Option (GoMap Int C)

/-- A call of `raft.Snapshot`. -/
structure Made where
  server : Nat
  index : Int
  bytes : GoString
  deriving DecidableEq, Repr

/-- How `ingestSnap` ends. -/
inductive Ingested (C : Type) where
  /-- It has called `log.Fatalf`. -/
  | fatal (err : SnapErr C)
  /-- It has returned an error. -/
  | failed (err : SnapErr C)
  | ok (logs : GoMap Int C) (lastApplied : Int)

structure SnapSys (C : Type) where
  ts : Test C
  loops : List (Loop C)
  /-- The loop of each server of `ts.srvs`. -/
  current : List Nat
  fatal : Option (SnapErr C)
  made : List Made

inductive SnapAction (C : Type) where
  /-- The goroutine of the loop starts. -/
  | start (o : Nat)
  | deliver (o : Nat) (m : SnapMsg C)
  | snap (o : Nat)
  /-- The loop calls `log.Fatalf`. -/
  | report (o : Nat)
  /-- `Kill` of the server with this number. -/
  | kill (i : Nat)
  /-- `newRfsrv`, with the snapshot of the persister. -/
  | newRfsrv (i : Nat) (snapshot : Option GoString)
  /-- `mksrv` stores the server of this loop in `ts.srvs`. -/
  | mksrv (o : Nat)

def SnapShotInterval : Int := 10

section Source

variable {C : Type} [GoAny C]

/-- The loop of `ingestSnap` that fills the map. -/
def fillLogs (xlog : List C) : GoMap Int C :=
  xlog.zipIdx.foldl (fun logs e => logs.insert (e.2 : Int) e.1) ∅

def ingestSnap (J : Codec (Int × List C)) (me : Nat) (snapshot : Option GoString) (index : Int) :
    Ingested C :=
  match snapshot with
  | none => .fatal .nilSnapshot
  | some bytes =>
      match J.unmarshal bytes with
      | none => .fatal .decode
      | some (lastIncludedIndex, xlog) =>
          if index ≠ -1 ∧ index ≠ lastIncludedIndex then .failed (.snapshotIndex me)
          else .ok (fillLogs xlog) lastIncludedIndex

/-- The check of a command in `applierSnap`; `none` is a panic. -/
def Test.applierSnap (ts : Test C) (l : Loop C) (m : ApplyMsg C) :
    Option (Test C × Option (SnapErr C)) :=
  if m.commandIndex ≠ l.lastApplied + 1 then
    some (ts, some (.outOfOrder l.me (l.lastApplied + 1) m.commandIndex))
  else
    match ts.checkLogs l.me m with
    | none => none
    | some (ts, err, prevok) =>
        if m.commandIndex > 1 ∧ prevok = false then
          some (ts, some (.apply (.outOfOrder l.me m.commandIndex)))
        else some (ts, err.map .apply)

/-- The entries of a snapshot.  A missing one is nil. -/
def xlog (logs : GoMap Int C) (index : Int) : List C :=
  (List.range (index + 1).toNat).map fun (j : Nat) => (logs.lookup (j : Int)).getD GoAny.nil

/-- The end of the loop body. -/
def LoopPc.reportOf : Option (SnapErr C) → LoopPc C
  | none => .reading
  | some err => .found err

/-- The error that the loop has found. -/
def LoopPc.err : LoopPc C → Option (SnapErr C)
  | .snap _ err => err
  | .found err => some err
  | .start | .reading | .returned => none

namespace SnapSys

/-- `n` servers have been started for the first time, and are all in `ts.srvs`. -/
def init (n : Nat) : SnapSys C :=
  { ts := { srvs := List.replicate n ⟨∅, none⟩, maxIndex := 0 }
    loops := (List.range n).map fun me => ⟨me, 0, true, .start, none⟩
    current := List.range n
    fatal := none
    made := [] }

def setLoop (s : SnapSys C) (o : Nat) (l : Loop C) : SnapSys C :=
  { s with loops := s.loops.set o l }

/-- The loop `o`, in state `l`, ingests a snapshot. -/
def ingest (s : SnapSys C) (o : Nat) (l : Loop C) : Ingested C → SnapSys C
  | .fatal err => { s with fatal := some err }
  | .failed err => s.setLoop o { l with pc := .found err }
  | .ok logs lastApplied =>
      if l.own.isSome then s.setLoop o { l with lastApplied, own := some logs }
      else
        { s with
          ts := if s.current[l.me]? = some o then
              { s.ts with srvs := s.ts.srvs.modify l.me fun rs => { rs with logs } } else s.ts
          loops := s.loops.set o { l with lastApplied } }

/-- A message with a command is checked. -/
def apply (s : SnapSys C) (o : Nat) (l : Loop C) (m : ApplyMsg C) : Option (SnapSys C) :=
  (s.ts.applierSnap l m).map fun r =>
    { s with
      ts := r.1
      loops := s.loops.set o
        { l with
          lastApplied := m.commandIndex
          pc := if (m.commandIndex + 1).tmod SnapShotInterval = 0 then .snap m.commandIndex r.2
            else .reportOf r.2 } }

def logs (s : SnapSys C) (l : Loop C) : Option (GoMap Int C) :=
  l.own.or ((s.ts.srvs[l.me]?).map Rfsrv.logs)

/-- The snapshot is made and given to Raft, if there is one. -/
def snap (J : Codec (Int × List C)) (s : SnapSys C) (o : Nat) (l : Loop C) (index : Int)
    (err : Option (SnapErr C)) : SnapSys C :=
  { s with
    loops := s.loops.set o { l with pc := .reportOf err }
    made :=
      if l.raft then
        match s.logs l with
        | none => s.made
        | some logs => s.made ++ [⟨l.me, index, J.marshal (index, xlog logs index)⟩]
      else s.made }

/-- The goroutine of a new server is started. -/
def go (s : SnapSys C) (i : Nat) (logs : GoMap Int C) (lastApplied : Int) : SnapSys C :=
  { s with loops := s.loops ++ [⟨i, lastApplied, true, .start, some logs⟩] }

def newRfsrv (J : Codec (Int × List C)) (s : SnapSys C) (i : Nat) (snapshot : Option GoString) :
    SnapSys C :=
  if snapshot ≠ none ∧ snapshot ≠ some [] then
    match ingestSnap J i snapshot (-1) with
    | .fatal err | .failed err => { s with fatal := some err }
    | .ok logs lastApplied => s.go i logs lastApplied
  else s.go i ∅ 0

/-- `ts.srvs[srv] = s` of `mksrv`. -/
def place (s : SnapSys C) (o : Nat) (l : Loop C) (logs : GoMap Int C) : SnapSys C :=
  { s with
    ts := { s.ts with srvs := s.ts.srvs.set l.me ⟨logs, none⟩ }
    loops := s.loops.set o { l with own := none }
    current := s.current.set l.me o }

/-- `StartServer` has called `newRfsrv` for server `i`, and `mksrv` has not returned. -/
def making (s : SnapSys C) (i : Nat) : Bool := s.loops.any fun l => l.me = i ∧ l.own.isSome

/-- The process has ended when `fatal` is set. -/
def step (J : Codec (Int × List C)) (s : SnapSys C) (act : SnapAction C) : Option (SnapSys C) :=
  if s.fatal.isSome then none
  else
    match act with
    | .start o => do
        let l ← s.loops[o]?
        match l.pc with
        | .start => some (s.setLoop o { l with pc := if l.raft then .reading else .returned })
        | _ => none
    | .deliver o m => do
        let l ← s.loops[o]?
        match l.pc with
        | .reading =>
            if m.snapshotValid then
              some (s.ingest o l (ingestSnap J l.me m.snapshot m.snapshotIndex))
            else if m.commandValid then s.apply o l m.toApplyMsg
            else some s
        | _ => none
    | .snap o => do
        let l ← s.loops[o]?
        match l.pc with
        | .snap index err => some (s.snap J o l index err)
        | _ => none
    | .report o => do
        let l ← s.loops[o]?
        match l.pc with
        | .found err => some { s with fatal := some err }
        | _ => none
    | .kill i => do
        let o ← s.current[i]?
        let l ← s.loops[o]?
        some (s.setLoop o { l with raft := false })
    | .newRfsrv i snapshot => do
        let o ← s.current[i]?
        let l ← s.loops[o]?
        -- the old one is shut down first
        if l.raft ∨ s.making i then none else some (s.newRfsrv J i snapshot)
    | .mksrv o => do
        let l ← s.loops[o]?
        let logs ← l.own
        some (s.place o l logs)

/-- The snapshot was made by a server and has at least this index. -/
def fresh (s : SnapSys C) (snapshot : Option GoString) (index : Int) : Bool :=
  s.made.any fun e => snapshot = some e.bytes ∧ index ≤ e.index

/-- What is asked of Raft and the persister. -/
def kept (s : SnapSys C) : SnapAction C → Bool
  | .deliver o m =>
      s.loops[o]?.all fun l =>
        l.own.isNone ∧ (m.snapshotValid → s.fresh m.snapshot l.lastApplied)
  | .newRfsrv i snapshot =>
      if snapshot ≠ none ∧ snapshot ≠ some [] then
        s.made.any fun e => snapshot = some e.bytes ∧
          s.made.all fun e' => e'.server = i → e'.index ≤ e.index
      else s.made.all fun e => e.server ≠ i
  | _ => true

/-- No error has been reported, and none is about to be. -/
structure Quiet (s : SnapSys C) : Prop where
  fatal : s.fatal = none
  found : ∀ l ∈ s.loops, l.pc.err = none

end SnapSys

end Source

/-! ## Logs and snapshots -/

section Logs

variable {C : Type} [GoAny C]

/-- The commands are one, or have compared as equal. -/
def Same (a b : C) : Prop := a = b ∨ GoAny.eq a b = some true

theorem Same.refl (a : C) : Same a a := .inl rfl

theorem Same.symm {a b : C} (h : Same a b) : Same b a := by
  obtain rfl | heq := h
  · exact .refl a
  · exact .inr (GoAny.symm heq)

theorem Same.trans {a b c : C} (h : Same a b) (h' : Same b c) : Same a c := by
  obtain rfl | heq := h
  · exact h'
  · obtain rfl | heq' := h'
    · exact .inr heq
    · exact .inr (GoAny.trans heq heq')

/-- A log of the commands of `agreed`, without a gap, that has them up to `last`. -/
structure LogOK (agreed : Int → C) (logs : GoMap Int C) (last : Int) : Prop where
  entry : ∀ (k : Int) (c : C), logs.lookup k = some c →
    0 ≤ k ∧ (k = 0 → c = GoAny.nil) ∧ (0 < k → Same c (agreed k))
  filled : ∀ k, 0 < k → k ≤ last → ∃ c, logs.lookup k = some c
  closed : ∀ (k : Int) (c : C), 1 < k → logs.lookup k = some c → ∃ c', logs.lookup (k - 1) = some c'

/-- A snapshot of the commands of `agreed`. -/
structure SnapOK (agreed : Int → C) (index : Int) (xlog : List C) : Prop where
  pos : 0 < index
  length : (xlog.length : Int) = index + 1
  entry : ∀ (k : Nat) (c : C), xlog[k]? = some c →
    (k = 0 → c = GoAny.nil) ∧ (0 < k → Same c (agreed k))

variable {agreed : Int → C} {logs : GoMap Int C} {last index : Int} {l : List C}

omit [GoAny C] in
theorem fillLogs_snoc (l : List C) (c : C) :
    fillLogs (l ++ [c]) = (fillLogs l).insert (l.length : Int) c := by
  simp [fillLogs, List.zipIdx_append]

omit [GoAny C] in
theorem lookup_fillLogs {k : Int} {c : C} :
    (fillLogs l).lookup k = some c ↔ ∃ j : Nat, k = j ∧ l[j]? = some c := by
  induction l using List.reverseRecOn generalizing k c with
  | nil => simp [fillLogs]
  | append_singleton l x ih =>
      rw [fillLogs_snoc]
      by_cases hk : k = l.length
      · subst hk
        rw [AList.lookup_insert, Option.some.injEq]
        constructor
        · rintro rfl
          exact ⟨l.length, rfl, by simp⟩
        · rintro ⟨j, hj, hc⟩
          obtain rfl : l.length = j := by omega
          simpa using hc
      · rw [AList.lookup_insert_ne hk, ih]
        refine exists_congr fun j ↦ and_congr_right fun hj ↦ ?_
        rw [getElem?_snoc_eq_some]
        constructor
        · exact .inl
        · rintro (h | ⟨rfl, _⟩)
          · exact h
          · exact absurd hj hk

theorem LogOK.empty (agreed : Int → C) : LogOK agreed ∅ 0 := by
  refine ⟨?_, ?_, ?_⟩
  · intro k c hc
    simp at hc
  · intro k hpos hle
    omega
  · intro k c _ hc
    simp at hc

/-- The log that `ingestSnap` makes of a snapshot. -/
theorem SnapOK.log (h : SnapOK agreed index l) : LogOK agreed (fillLogs l) index := by
  have hlength := h.length
  refine ⟨?_, ?_, ?_⟩
  · intro k c hc
    obtain ⟨j, rfl, hj⟩ := lookup_fillLogs.mp hc
    obtain ⟨hnil, hsame⟩ := h.entry j c hj
    exact ⟨by omega, fun hk ↦ hnil (by omega), fun hk ↦ hsame (by omega)⟩
  · intro k hpos hle
    have hlt : k.toNat < l.length := by omega
    exact ⟨_, lookup_fillLogs.mpr ⟨k.toNat, by omega, List.getElem?_eq_getElem hlt⟩⟩
  · intro k c hk hc
    obtain ⟨j, rfl, hj⟩ := lookup_fillLogs.mp hc
    have hlt := lt_length_of_getElem? hj
    have hlt' : j - 1 < l.length := by omega
    exact ⟨_, lookup_fillLogs.mpr ⟨j - 1, by omega, List.getElem?_eq_getElem hlt'⟩⟩

/-- The snapshot that `applierSnap` makes of a log. -/
theorem LogOK.snapshot (h : LogOK agreed logs last) (hpos : 0 < index) (hle : index ≤ last) :
    SnapOK agreed index (xlog logs index) := by
  refine ⟨hpos, ?_, ?_⟩
  · simp only [xlog, List.length_map, List.length_range]
    omega
  · intro k c hc
    have hlt := lt_length_of_getElem? hc
    simp only [xlog, List.length_map, List.length_range] at hlt
    simp only [xlog, List.getElem?_map, List.getElem?_range hlt, Option.map_some,
      Option.some.injEq] at hc
    subst hc
    cases hlookup : logs.lookup (k : Int) with
    | none =>
        refine ⟨fun _ ↦ rfl, fun hk ↦ ?_⟩
        obtain ⟨c, hc⟩ := h.filled k (by omega) (by omega)
        rw [hc] at hlookup
        cases hlookup
    | some c =>
        obtain ⟨_, hnil, hsame⟩ := h.entry k c hlookup
        exact ⟨fun hk ↦ hnil (by omega), fun hk ↦ hsame (by omega)⟩

/-- Another command of `agreed` that the log does not have. -/
theorem LogOK.congr {agreed' : Int → C} (h : LogOK agreed logs last)
    (hsame : ∀ k c, logs.lookup k = some c → agreed' k = agreed k) : LogOK agreed' logs last := by
  refine ⟨?_, h.filled, h.closed⟩
  intro k c hc
  rw [hsame k c hc]
  exact h.entry k c hc

/-- The next command is stored, or one that is there already is stored again. -/
theorem LogOK.insert (h : LogOK agreed logs last) {k : Int} {c : C} (hk : 0 < k)
    (hprev : 1 < k → ∃ c', logs.lookup (k - 1) = some c') (hc : Same c (agreed k)) {last' : Int}
    (hlast : last' = last ∨ (k = last + 1 ∧ last' = k)) : LogOK agreed (logs.insert k c) last' := by
  have hlookup : ∀ {j : Int} {x : C}, logs.lookup j = some x →
      ∃ y, (logs.insert k c).lookup j = some y := by
    intro j x hx
    by_cases hj : j = k
    · exact ⟨c, by rw [hj, AList.lookup_insert]⟩
    · exact ⟨x, by rw [AList.lookup_insert_ne hj, hx]⟩
  refine ⟨?_, ?_, ?_⟩
  · intro j x hx
    by_cases hj : j = k
    · subst hj
      rw [AList.lookup_insert, Option.some.injEq] at hx
      subst hx
      exact ⟨by omega, fun hzero ↦ by omega, fun _ ↦ hc⟩
    · rw [AList.lookup_insert_ne hj] at hx
      exact h.entry j x hx
  · intro j hpos hle
    by_cases hj : j = k
    · exact ⟨c, by rw [hj, AList.lookup_insert]⟩
    · obtain ⟨x, hx⟩ := h.filled j hpos (by omega)
      exact hlookup hx
  · intro j x hj hx
    by_cases hjk : j = k
    · subst hjk
      obtain ⟨y, hy⟩ := hprev hj
      exact hlookup hy
    · rw [AList.lookup_insert_ne hjk] at hx
      obtain ⟨y, hy⟩ := h.closed j x hj hx
      exact hlookup hy

theorem SnapOK.congr {agreed' : Int → C} (h : SnapOK agreed index l)
    (hsame : ∀ k, 0 < k → k ≤ index → agreed' k = agreed k) : SnapOK agreed' index l := by
  refine ⟨h.pos, h.length, ?_⟩
  intro k c hc
  have hlt := lt_length_of_getElem? hc
  have hlength := h.length
  refine ⟨(h.entry k c hc).1, fun hk ↦ ?_⟩
  rw [hsame k (by omega) (by omega)]
  exact (h.entry k c hc).2 hk

end Logs

/-! ## One step -/

namespace SnapSys

variable {C : Type} [GoAny C] {J : Codec (Int × List C)} {s t : SnapSys C} {act : SnapAction C}
  {agreed : Int → C}

/-- What each action needs and does. -/
inductive Step (J : Codec (Int × List C)) (s : SnapSys C) : SnapAction C → SnapSys C → Prop where
  | start {o : Nat} {l : Loop C} (hl : s.loops[o]? = some l) (hpc : l.pc = .start) :
      Step J s (.start o) (s.setLoop o { l with pc := if l.raft then .reading else .returned })
  | ingest {o : Nat} {m : SnapMsg C} {l : Loop C} (hl : s.loops[o]? = some l)
      (hpc : l.pc = .reading) (hvalid : m.snapshotValid = true) :
      Step J s (.deliver o m) (s.ingest o l (ingestSnap J l.me m.snapshot m.snapshotIndex))
  | apply {o : Nat} {m : SnapMsg C} {l : Loop C} {t : SnapSys C} (hl : s.loops[o]? = some l)
      (hpc : l.pc = .reading) (hvalid : m.commandValid = true)
      (happly : s.apply o l m.toApplyMsg = some t) : Step J s (.deliver o m) t
  | ignore {o : Nat} {m : SnapMsg C} : Step J s (.deliver o m) s
  | snap {o : Nat} {l : Loop C} {index : Int} {err : Option (SnapErr C)}
      (hl : s.loops[o]? = some l) (hpc : l.pc = .snap index err) :
      Step J s (.snap o) (s.snap J o l index err)
  | report {o : Nat} {err : SnapErr C} : Step J s (.report o) { s with fatal := some err }
  | kill {i o : Nat} {l : Loop C} (ho : s.current[i]? = some o) (hl : s.loops[o]? = some l) :
      Step J s (.kill i) (s.setLoop o { l with raft := false })
  | newRfsrv {i o : Nat} {l : Loop C} {snapshot : Option GoString} (ho : s.current[i]? = some o)
      (hl : s.loops[o]? = some l) (hraft : l.raft = false) (halone : s.making i = false) :
      Step J s (.newRfsrv i snapshot) (s.newRfsrv J i snapshot)
  | mksrv {o : Nat} {l : Loop C} {logs : GoMap Int C} (hl : s.loops[o]? = some l)
      (hown : l.own = some logs) : Step J s (.mksrv o) (s.place o l logs)

theorem step_cases (h : s.step J act = some t) : s.fatal = none ∧ Step J s act t := by
  unfold step at h
  split at h
  · cases h
  · rename_i hfatal
    refine ⟨by simpa using hfatal, ?_⟩
    cases act with
    | start o =>
        simp only [Option.bind_eq_bind, Option.bind_eq_some_iff] at h
        obtain ⟨l, hl, h⟩ := h
        split at h
        · rename_i hpc
          rw [Option.some.injEq] at h
          subst h
          exact .start hl hpc
        · cases h
    | deliver o m =>
        simp only [Option.bind_eq_bind, Option.bind_eq_some_iff] at h
        obtain ⟨l, hl, h⟩ := h
        split at h
        · rename_i hpc
          split at h
          · rename_i hvalid
            rw [Option.some.injEq] at h
            subst h
            exact .ingest hl hpc hvalid
          · split at h
            · rename_i hvalid
              exact .apply hl hpc hvalid h
            · rw [Option.some.injEq] at h
              subst h
              exact .ignore
        · cases h
    | snap o =>
        simp only [Option.bind_eq_bind, Option.bind_eq_some_iff] at h
        obtain ⟨l, hl, h⟩ := h
        split at h
        · rename_i index err hpc
          rw [Option.some.injEq] at h
          subst h
          exact .snap hl hpc
        · cases h
    | report o =>
        simp only [Option.bind_eq_bind, Option.bind_eq_some_iff] at h
        obtain ⟨l, hl, h⟩ := h
        split at h
        · rw [Option.some.injEq] at h
          subst h
          exact .report
        · cases h
    | kill i =>
        simp only [Option.bind_eq_bind, Option.bind_eq_some_iff, Option.some.injEq] at h
        obtain ⟨o, ho, l, hl, rfl⟩ := h
        exact .kill ho hl
    | newRfsrv i snapshot =>
        simp only [Option.bind_eq_bind, Option.bind_eq_some_iff, Option.ite_none_left_eq_some,
          Option.some.injEq] at h
        obtain ⟨o, ho, l, hl, hnot, rfl⟩ := h
        obtain ⟨hraft, halone⟩ := not_or.mp hnot
        exact .newRfsrv ho hl (by simpa using hraft) (by simpa using halone)
    | mksrv o =>
        simp only [Option.bind_eq_bind, Option.bind_eq_some_iff, Option.some.injEq] at h
        obtain ⟨l, hl, logs, hown, rfl⟩ := h
        exact .mksrv hl hown

omit [GoAny C] in
theorem quiet_of_set {o : Nat} {l l' : Loop C} (hl : s.loops[o]? = some l)
    (hpc : l'.pc.err = none → l.pc.err = none) (hq : ∀ x ∈ s.loops.set o l', x.pc.err = none) :
    ∀ x ∈ s.loops, x.pc.err = none := by
  intro x hx
  obtain ⟨j, hj⟩ := List.getElem?_of_mem hx
  by_cases hjo : j = o
  · subst hjo
    rw [hl, Option.some.injEq] at hj
    subst hj
    exact hpc (hq l' (List.mem_set (lt_length_of_getElem? hl) l'))
  · exact hq x (List.mem_of_getElem? (getElem?_set_eq_some.mpr (.inr ⟨hjo, hj⟩)))

/-- An error that was found stays until it is reported. -/
theorem Quiet.before (hs : s.step J act = some t) (h : Quiet t) : Quiet s := by
  obtain ⟨hfatal, hstep⟩ := step_cases hs
  refine ⟨hfatal, ?_⟩
  cases hstep with
  | start hl hpc => exact quiet_of_set hl (by simp [hpc, LoopPc.err]) h.found
  | @ingest o m l hl hpc hvalid =>
      cases hin : ingestSnap J l.me m.snapshot m.snapshotIndex with
      | fatal err =>
          rw [hin] at h
          cases h.fatal
      | failed err =>
          rw [hin] at h
          exact quiet_of_set hl (by simp [hpc, LoopPc.err]) h.found
      | ok logs lastApplied =>
          rw [hin, SnapSys.ingest] at h
          split at h <;> exact quiet_of_set hl (by simp [hpc, LoopPc.err]) h.found
  | @apply o m l t hl hpc hvalid happly =>
      obtain ⟨r, hr, rfl⟩ := Option.map_eq_some_iff.mp happly
      exact quiet_of_set hl (by simp [hpc, LoopPc.err]) h.found
  | ignore => exact h.found
  | @snap o l index err hl hpc =>
      refine quiet_of_set hl ?_ h.found
      cases err <;> simp [hpc, LoopPc.err, LoopPc.reportOf]
  | report => cases h.fatal
  | kill ho hl =>
      refine quiet_of_set hl ?_ h.found
      exact id
  | @newRfsrv i o l snapshot ho hl hraft halone =>
      have hgo : ∀ {logs : GoMap Int C} {last : Int}, Quiet (s.go i logs last) →
          ∀ x ∈ s.loops, x.pc.err = none :=
        fun hq x hx ↦ hq.found x (List.mem_append_left _ hx)
      unfold newRfsrv at h
      split at h
      · split at h
        · cases h.fatal
        · cases h.fatal
        · exact hgo h
      · exact hgo h
  | mksrv hl hown =>
      refine quiet_of_set hl ?_ h.found
      exact id

end SnapSys

end GoLabs.Raft
