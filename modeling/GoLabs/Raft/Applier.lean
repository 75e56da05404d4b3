import GoLabs.Reasoning.GoMap
import GoLabs.Reasoning.Loops
import GoLabs.Reasoning.Runs
import GoLabs.Reasoning.Tables

/-!
# The check of the applied commands

The tester of `raft1` runs one applier loop for each server (`rfsrv.applier` of `raft1/server.go`),
which reads the committed commands of its Raft peer.  `checkLogs` of `raft1/test.go` compares each
of them with what any server has applied at the same index, and stores it.  `nCommitted` counts the
servers that have applied an index.

`checkLogs` holds the tester's mutex, but its caller reports the error it returns only afterwards,
with `log.Fatalf`; the other loops go on in between.
-/

open GoLabs.Reasoning

namespace GoLabs.Raft

/-- The values of an interface type.  `eq` is `==`, which panics (`none`) at some types.  It need
not be reflexive. -/
class GoAny (C : Type) where
  nil : C
  eq : C → C → Option Bool
  symm : ∀ {a b : C}, eq a b = some true → eq b a = some true
  trans : ∀ {a b c : C}, eq a b = some true → eq b c = some true → eq a c = some true

/-- What the applier reads of a message. -/
structure ApplyMsg (C : Type) where
  commandValid : Bool
  command : C
  commandIndex : Int
  deriving DecidableEq, Repr

inductive ApplyErr (C : Type) where
  /-- `commit index=%v server=%v %v != server=%v %v` -/
  | mismatch (index : Int) (server : Nat) (command : C) (other : Nat) (old : C)
  /-- `server %v apply out of order %v` -/
  | outOfOrder (server : Nat) (index : Int)
  deriving DecidableEq, Repr

structure Rfsrv (C : Type) where
  logs : GoMap Int C
  applyErr : Option (ApplyErr C)

structure Test (C : Type) where
  srvs : List (Rfsrv C)
  maxIndex : Int

/-- A failure of `nCommitted`. -/
inductive CommitErr (C : Type) where
  /-- `ts.t.Fatal(rs.applyErr)` -/
  | applyErr (err : ApplyErr C)
  /-- `committed values do not match: index %v, %v, %v` -/
  | mismatch (index : Int) (cmd cmd1 : C)
  /-- The panic of a comparison. -/
  | panicked
  deriving DecidableEq, Repr

section Source

variable {C : Type} [GoAny C]

/-- The body of the loop of `checkLogs`, for the server with the number `e.2`. -/
def compareLog (i : Nat) (m : ApplyMsg C) (err : Option (ApplyErr C)) (e : Rfsrv C × Nat) :
    Option (Option (ApplyErr C)) :=
  match e.1.logs.lookup m.commandIndex with
  | none => some err
  | some old =>
      match GoAny.eq old m.command with
      | none => none
      | some true => some err
      -- some server has already committed a different value for this entry!
      | some false => some (some (.mismatch m.commandIndex i m.command e.2 old))

/-- With the error, if there is one, and whether the server has applied the index before.  That is
an int in the source, but nobody asks for the index before the least one. -/
def Test.checkLogs (ts : Test C) (i : Nat) (m : ApplyMsg C) :
    Option (Test C × Option (ApplyErr C) × Bool) := do
  let me ← ts.srvs[i]?
  let err ← ts.srvs.zipIdx.foldlM (compareLog i m) none
  some
    ({ srvs := ts.srvs.set i { me with logs := me.logs.insert m.commandIndex m.command }
       maxIndex := if m.commandIndex > ts.maxIndex then m.commandIndex else ts.maxIndex },
     err, (me.logs.lookup (m.commandIndex - 1)).isSome)

/-- The body of the loop of `applier`, with the error that it is going to report. -/
def Test.applier (ts : Test C) (i : Nat) (m : ApplyMsg C) : Option (Test C × Option (ApplyErr C)) :=
  if m.commandValid = false then some (ts, none)
  else
    match ts.checkLogs i m with
    | none => none
    | some (ts, err, prevok) =>
        if m.commandIndex > 1 ∧ prevok = false then
          some (ts, some (.outOfOrder i m.commandIndex))
        else some (ts, err)

/-- The body of the loop of `nCommitted`. -/
def countLog (index : Int) (acc : Nat × C) (rs : Rfsrv C) : Except (CommitErr C) (Nat × C) :=
  match rs.applyErr with
  | some err => .error (.applyErr err)
  | none =>
      match rs.logs.lookup index with
      | none => .ok acc
      | some cmd1 =>
          if acc.1 > 0 then
            match GoAny.eq acc.2 cmd1 with
            | none => .error .panicked
            | some false => .error (.mismatch index acc.2 cmd1)
            | some true => .ok (acc.1 + 1, cmd1)
          else .ok (acc.1 + 1, cmd1)

def Test.nCommitted (ts : Test C) (index : Int) : Except (CommitErr C) (Nat × C) :=
  ts.srvs.foldlM (countLog index) (0, GoAny.nil)

end Source

/-! ## The applier loops -/

/-- The loops of all servers. -/
structure Appliers (C : Type) where
  ts : Test C
  /-- The error that each loop has found and not yet reported. -/
  found : List (Option (ApplyErr C))
  /-- The error that was reported.  `log.Fatalf` ends the process, so `applyErr` is never set. -/
  fatal : Option (ApplyErr C)
  /-- The messages with a command so far, with the servers that they were delivered to. -/
  delivered : List (Nat × ApplyMsg C)

inductive ApplierAction (C : Type) where
  /-- The loop of this server reads a message and checks it. -/
  | deliver (i : Nat) (m : ApplyMsg C)
  /-- The loop calls `log.Fatalf`. -/
  | report (i : Nat)

namespace Appliers

variable {C : Type} [GoAny C]

/-- `n` servers have been started. -/
def init (n : Nat) : Appliers C :=
  { ts := { srvs := List.replicate n ⟨∅, none⟩, maxIndex := 0 }
    found := List.replicate n none
    fatal := none
    delivered := [] }

def step (s : Appliers C) : ApplierAction C → Option (Appliers C)
  | .deliver i m =>
      match s.fatal, s.found[i]? with
      | none, some none =>
          (s.ts.applier i m).map fun r =>
            { s with
              ts := r.1
              found := s.found.set i r.2
              delivered := if m.commandValid then s.delivered ++ [(i, m)] else s.delivered }
      | _, _ => none
  | .report i =>
      match s.fatal, s.found[i]? with
      | none, some (some err) => some { s with fatal := some err }
      | _, _ => none

/-- No error has been reported, and none is about to be. -/
structure Quiet (s : Appliers C) : Prop where
  fatal : s.fatal = none
  found : ∀ err ∈ s.found, err = none

end Appliers

/-! ## What a check has seen -/

section Check

variable {C : Type} [GoAny C] {ts ts' : Test C} {i : Nat} {m : ApplyMsg C}

theorem compareLog_none {err : Option (ApplyErr C)} {e : Rfsrv C × Nat}
    (h : compareLog i m err e = some none) :
    err = none ∧ ∀ old, e.1.logs.lookup m.commandIndex = some old →
      GoAny.eq old m.command = some true := by
  unfold compareLog at h
  cases hold : e.1.logs.lookup m.commandIndex with
  | none =>
      simp only [hold, Option.some.injEq] at h
      exact ⟨h, by simp⟩
  | some old =>
      simp only [hold] at h
      cases heq : GoAny.eq old m.command with
      | none => simp [heq] at h
      | some same =>
          cases same with
          | false => simp [heq] at h
          | true =>
              simp only [heq, Option.some.injEq] at h
              refine ⟨h, ?_⟩
              intro old' hold'
              cases hold'
              exact heq

/-- An error that was found is not forgotten, so without one nobody had another command. -/
theorem compareLogs_none {l : List (Rfsrv C × Nat)} {err : Option (ApplyErr C)}
    (h : l.foldlM (compareLog i m) err = some none) :
    err = none ∧ ∀ e ∈ l, ∀ old, e.1.logs.lookup m.commandIndex = some old →
      GoAny.eq old m.command = some true := by
  induction l generalizing err with
  | nil => exact ⟨by simpa using h, by simp⟩
  | cons e l ih =>
      rw [List.foldlM_cons] at h
      obtain ⟨err', hfirst, hrest⟩ := Option.bind_eq_some_iff.mp h
      obtain ⟨rfl, hl⟩ := ih hrest
      obtain ⟨rfl, he⟩ := compareLog_none hfirst
      exact ⟨rfl, List.forall_mem_cons.mpr ⟨he, hl⟩⟩

/-- What the check of a command that passes has found, and how it leaves the logs. -/
structure Passed (ts : Test C) (i : Nat) (m : ApplyMsg C) (ts' : Test C) : Prop where
  agrees : ∀ rs ∈ ts.srvs, ∀ old, rs.logs.lookup m.commandIndex = some old →
    GoAny.eq old m.command = some true
  stored : ∃ me, ts.srvs[i]? = some me ∧
    (1 < m.commandIndex → ∃ prev, me.logs.lookup (m.commandIndex - 1) = some prev) ∧
    ts'.srvs = ts.srvs.set i { me with logs := me.logs.insert m.commandIndex m.command }

theorem applier_passed (h : ts.applier i m = some (ts', none)) (hvalid : m.commandValid = true) :
    Passed ts i m ts' := by
  unfold Test.applier Test.checkLogs at h
  rw [if_neg (by simp [hvalid])] at h
  cases hme : ts.srvs[i]? with
  | none => simp [hme] at h
  | some me =>
      cases hcompare : ts.srvs.zipIdx.foldlM (compareLog i m) none with
      | none => simp [hme, hcompare] at h
      | some err =>
          simp only [hme, hcompare, Option.bind_eq_bind, Option.bind_some] at h
          split at h
          · simp at h
          · rename_i horder
            simp only [Option.some.injEq, Prod.mk.injEq] at h
            obtain ⟨rfl, rfl⟩ := h
            refine ⟨?_, me, hme, ?_, rfl⟩
            · intro rs hrs
              obtain ⟨j, hj⟩ := List.getElem?_of_mem hrs
              have hmem : (rs, j) ∈ ts.srvs.zipIdx := List.mem_zipIdx_iff_getElem?.mpr hj
              exact (compareLogs_none hcompare).2 (rs, j) hmem
            · intro hlt
              have hprev : (me.logs.lookup (m.commandIndex - 1)).isSome = true := by
                by_contra hno
                exact horder ⟨hlt, by simpa using hno⟩
              exact Option.isSome_iff_exists.mp hprev

end Check

namespace Appliers

variable {C : Type} [GoAny C] {n : Nat} {s t : Appliers C} {act : ApplierAction C}

/-! ## One step -/

theorem step_cases (hs : s.step act = some t) :
    (∃ i m ts err, act = .deliver i m ∧ s.fatal = none ∧ s.found[i]? = some none ∧
      s.ts.applier i m = some (ts, err) ∧
      t = { s with
        ts := ts
        found := s.found.set i err
        delivered := if m.commandValid then s.delivered ++ [(i, m)] else s.delivered }) ∨
    ∃ i err, act = .report i ∧ s.found[i]? = some (some err) ∧
      t = { s with fatal := some err } := by
  cases act with
  | deliver i m =>
      simp only [step] at hs
      split at hs
      · rename_i hfatal hfound
        obtain ⟨⟨ts, err⟩, happly, rfl⟩ := Option.map_eq_some_iff.mp hs
        exact .inl ⟨i, m, ts, err, rfl, hfatal, hfound, happly, rfl⟩
      · cases hs
  | report i =>
      simp only [step] at hs
      split at hs
      · rename_i err hfatal hfound
        exact .inr ⟨i, err, rfl, hfound, (Option.some.inj hs).symm⟩
      · cases hs

/-- An error that was found stays until it is reported. -/
theorem Quiet.before (hs : s.step act = some t) (h : Quiet t) : Quiet s := by
  obtain ⟨i, m, ts, err, -, hfatal, hfound, -, rfl⟩ | ⟨i, err, -, -, rfl⟩ := step_cases hs
  · refine ⟨hfatal, ?_⟩
    intro err' hmem
    obtain ⟨j, hj⟩ := List.getElem?_of_mem hmem
    by_cases hji : j = i
    · subst hji
      rw [hfound] at hj
      exact (Option.some.inj hj).symm
    · refine h.found err' (List.mem_of_getElem? (i := j) ?_)
      exact getElem?_set_eq_some.mpr (.inr ⟨hji, hj⟩)
  · cases h.fatal

/-- A quiet step delivers a message that passes the check, or one without a command. -/
theorem Quiet.step_cases (hs : s.step act = some t) (h : Quiet t) :
    (t.delivered = s.delivered ∧ t.ts = s.ts) ∨
      ∃ i m, t.delivered = s.delivered ++ [(i, m)] ∧ Passed s.ts i m t.ts := by
  obtain ⟨i, m, ts, err, -, -, hfound, happly, rfl⟩ | ⟨i, err, -, -, rfl⟩ := Appliers.step_cases hs
  · have herr : err = none :=
      h.found err (List.mem_set (lt_length_of_getElem? hfound) err)
    subst herr
    cases hvalid : m.commandValid with
    | true => exact .inr ⟨i, m, rfl, applier_passed happly hvalid⟩
    | false =>
        refine .inl ⟨rfl, ?_⟩
        rw [Test.applier, if_pos hvalid, Option.some.injEq, Prod.mk.injEq] at happly
        exact happly.1.symm
  · cases h.fatal

/-! ## Whole runs -/

/-- The two messages do not disagree. -/
def Agree (e e' : Nat × ApplyMsg C) : Prop :=
  e.2.commandIndex = e'.2.commandIndex → GoAny.eq e.2.command e'.2.command = some true

/-- The index before that of the message was delivered to the same server. -/
def InOrder (before : List (Nat × ApplyMsg C)) (e : Nat × ApplyMsg C) : Prop :=
  1 < e.2.commandIndex → ∃ e' ∈ before, e'.1 = e.1 ∧ e'.2.commandIndex = e.2.commandIndex - 1

/-- The logs hold the messages that were delivered; of several with one index, the last. -/
structure Kept (s : Appliers C) : Prop where
  agree : s.delivered.Pairwise Agree
  order : EachAfter InOrder s.delivered
  logged : ∀ e ∈ s.delivered, ∃ rs cmd, s.ts.srvs[e.1]? = some rs ∧
    rs.logs.lookup e.2.commandIndex = some cmd ∧
    (cmd = e.2.command ∨ GoAny.eq e.2.command cmd = some true)
  log : ∀ (i : Nat) (rs : Rfsrv C) (k : Int) (cmd : C), s.ts.srvs[i]? = some rs →
    rs.logs.lookup k = some cmd →
      ∃ e ∈ s.delivered, e.1 = i ∧ e.2.commandIndex = k ∧ e.2.command = cmd
  noErr : ∀ rs ∈ s.ts.srvs, rs.applyErr = none

theorem Kept.init (n : Nat) : Kept (init n : Appliers C) := by
  refine ⟨.nil, eachAfter_nil _, by simp [Appliers.init], ?_, ?_⟩
  · intro i rs k cmd hrs hcmd
    have hempty := List.eq_of_mem_replicate (List.mem_of_getElem? hrs)
    subst hempty
    simp at hcmd
  · intro rs hrs
    rw [List.eq_of_mem_replicate hrs]

/-- A message that passes agrees with all that were delivered before. -/
theorem Kept.agrees {i : Nat} {m : ApplyMsg C} {ts : Test C} (h : Kept s)
    (hp : Passed s.ts i m ts) (e : Nat × ApplyMsg C) (he : e ∈ s.delivered) : Agree e (i, m) := by
  intro hindex
  obtain ⟨rs, cmd, hrs, hcmd, hlast⟩ := h.logged e he
  have heq := hp.agrees rs (List.mem_of_getElem? hrs) cmd (hindex ▸ hcmd)
  obtain rfl | hsame := hlast
  · exact heq
  · exact GoAny.trans hsame heq

theorem Kept.logged_passed {i : Nat} {m : ApplyMsg C} {ts : Test C} (h : Kept s)
    (hp : Passed s.ts i m ts) : ∀ e ∈ s.delivered ++ [(i, m)], ∃ rs cmd, ts.srvs[e.1]? = some rs ∧
      rs.logs.lookup e.2.commandIndex = some cmd ∧
      (cmd = e.2.command ∨ GoAny.eq e.2.command cmd = some true) := by
  obtain ⟨me, hme, -, hsrvs⟩ := hp.stored
  have hself : ts.srvs[i]? = some { me with logs := me.logs.insert m.commandIndex m.command } := by
    rw [hsrvs]
    exact getElem?_set_eq_some.mpr (.inl ⟨rfl, lt_length_of_getElem? hme, rfl⟩)
  intro e he
  obtain hold | hnew := List.mem_append.mp he
  · obtain ⟨rs, cmd, hrs, hcmd, hlast⟩ := h.logged e hold
    by_cases hserver : e.1 = i
    · -- the new command may have taken the place of an older one
      rw [hserver, hme, Option.some.injEq] at hrs
      subst hrs
      rw [hserver, hself]
      by_cases hindex : e.2.commandIndex = m.commandIndex
      · refine ⟨_, m.command, rfl, ?_, .inr (h.agrees hp e hold hindex)⟩
        rw [hindex, AList.lookup_insert]
      · refine ⟨_, cmd, rfl, ?_, hlast⟩
        rw [AList.lookup_insert_ne hindex]
        exact hcmd
    · refine ⟨rs, cmd, ?_, hcmd, hlast⟩
      rw [hsrvs]
      exact getElem?_set_eq_some.mpr (.inr ⟨hserver, hrs⟩)
  · rw [List.mem_singleton.mp hnew]
    exact ⟨_, m.command, hself, AList.lookup_insert _, .inl rfl⟩

theorem Kept.log_passed {i : Nat} {m : ApplyMsg C} {ts : Test C} (h : Kept s)
    (hp : Passed s.ts i m ts) (j : Nat) (rs : Rfsrv C) (k : Int) (cmd : C)
    (hrs : ts.srvs[j]? = some rs) (hcmd : rs.logs.lookup k = some cmd) :
    ∃ e ∈ s.delivered ++ [(i, m)], e.1 = j ∧ e.2.commandIndex = k ∧ e.2.command = cmd := by
  obtain ⟨me, hme, -, hsrvs⟩ := hp.stored
  rw [hsrvs] at hrs
  obtain ⟨rfl, -, rfl⟩ | ⟨-, hold⟩ := getElem?_set_eq_some.mp hrs
  · by_cases hk : k = m.commandIndex
    · subst hk
      rw [AList.lookup_insert, Option.some.injEq] at hcmd
      exact ⟨(j, m), by simp, rfl, rfl, hcmd⟩
    · rw [AList.lookup_insert_ne hk] at hcmd
      obtain ⟨e, he, hfacts⟩ := h.log j me k cmd hme hcmd
      exact ⟨e, List.mem_append_left _ he, hfacts⟩
  · obtain ⟨e, he, hfacts⟩ := h.log j rs k cmd hold hcmd
    exact ⟨e, List.mem_append_left _ he, hfacts⟩

theorem Kept.step (h : Kept s) (hs : s.step act = some t) (hq : Quiet t) : Kept t := by
  obtain ⟨hdelivered, hts⟩ | ⟨i, m, hdelivered, hp⟩ := hq.step_cases hs
  · exact ⟨hdelivered ▸ h.agree, hdelivered ▸ h.order, hdelivered ▸ hts ▸ h.logged,
      hdelivered ▸ hts ▸ h.log, hts ▸ h.noErr⟩
  · obtain ⟨me, hme, hprev, hsrvs⟩ := hp.stored
    refine ⟨?_, ?_, hdelivered ▸ h.logged_passed hp, hdelivered ▸ h.log_passed hp, ?_⟩
    · rw [hdelivered, List.pairwise_append]
      refine ⟨h.agree, List.pairwise_singleton _ _, ?_⟩
      intro e he e' he'
      rw [List.mem_singleton.mp he']
      exact h.agrees hp e he
    · rw [hdelivered, eachAfter_snoc]
      refine ⟨h.order, ?_⟩
      intro hlt
      obtain ⟨prev, hprev⟩ := hprev hlt
      obtain ⟨e, he, hserver, hindex, -⟩ := h.log i me _ prev hme hprev
      exact ⟨e, he, hserver, hindex⟩
    · rw [hsrvs]
      exact forall_mem_set h.noErr (h.noErr me (List.mem_of_getElem? hme))

theorem kept_of_reaches (h : Reaches step (init n) s) (hq : Quiet s) : Kept s :=
  h.invariant_below (fun _ _ _ hs hq ↦ hq.before hs) (Kept.init n)
    (fun _ _ _ _ hs hq hu ↦ hu.step hs hq) hq

/-! ## Counting the servers -/

instance : Std.Symm (Agree : Nat × ApplyMsg C → Nat × ApplyMsg C → Prop) :=
  ⟨fun _ _ h hindex ↦ GoAny.symm (h hindex.symm)⟩

/-- Two servers have the same command at an index. -/
theorem Kept.same_command (h : Kept s) {i j : Nat} {rs rs' : Rfsrv C} {k : Int} {cmd cmd' : C}
    (hij : i ≠ j) (hi : s.ts.srvs[i]? = some rs) (hj : s.ts.srvs[j]? = some rs')
    (hcmd : rs.logs.lookup k = some cmd) (hcmd' : rs'.logs.lookup k = some cmd') :
    GoAny.eq cmd cmd' = some true := by
  obtain ⟨e, he, rfl, rfl, rfl⟩ := h.log i rs k cmd hi hcmd
  obtain ⟨e', he', rfl, hindex, rfl⟩ := h.log j rs' _ cmd' hj hcmd'
  have hne : e ≠ e' := fun heq ↦ hij (heq ▸ rfl)
  exact h.agree.forall he he' hne hindex.symm

/-- The command that `nCommitted` compares with next is that of a server it has been at. -/
def Counted (index : Int) (done : List (Rfsrv C)) (acc : Nat × C) : Prop :=
  0 < acc.1 → ∃ (i : Nat) (rs : Rfsrv C), done[i]? = some rs ∧ rs.logs.lookup index = some acc.2

theorem Kept.countLog_ok (h : Kept s) {index : Int} {done rest : List (Rfsrv C)} {rs : Rfsrv C}
    {acc : Nat × C} (hsrvs : s.ts.srvs = done ++ rs :: rest) (hacc : Counted index done acc) :
    ∃ acc', countLog index acc rs = .ok acc' ∧ Counted index (done ++ [rs]) acc' := by
  have hget : s.ts.srvs[done.length]? = some rs := by simp [hsrvs]
  unfold countLog
  rw [h.noErr rs (List.mem_of_getElem? hget)]
  cases hcmd : rs.logs.lookup index with
  | none =>
      refine ⟨acc, rfl, ?_⟩
      intro hpos
      obtain ⟨i, rs', hi, hcmd'⟩ := hacc hpos
      exact ⟨i, rs', getElem?_append_of_some hi _, hcmd'⟩
  | some cmd1 =>
      have hlast : Counted index (done ++ [rs]) (acc.1 + 1, cmd1) := fun _ ↦
        ⟨done.length, rs, by simp, hcmd⟩
      by_cases hpos : acc.1 > 0
      · obtain ⟨i, rs', hi, hcmd'⟩ := hacc hpos
        have hlt := lt_length_of_getElem? hi
        have hi' : s.ts.srvs[i]? = some rs' := by
          rw [hsrvs]
          exact getElem?_append_of_some hi _
        -- a server before this one has the command to compare with, so the two are the same
        have heq := h.same_command (by omega) hi' hget hcmd' hcmd
        exact ⟨(acc.1 + 1, cmd1), by simp [hpos, heq], hlast⟩
      · exact ⟨(acc.1 + 1, cmd1), by simp [hpos], hlast⟩

theorem Kept.nCommitted_ok (h : Kept s) (index : Int) :
    ∃ count cmd, s.ts.nCommitted index = .ok (count, cmd) := by
  have hinit : Counted index [] ((0, GoAny.nil) : Nat × C) := fun hpos ↦ absurd hpos (by simp)
  obtain ⟨acc, hacc, -⟩ := loop_total hinit fun _ _ _ _ hsrvs hu ↦ h.countLog_ok hsrvs hu
  exact ⟨acc.1, acc.2, hacc⟩

end Appliers

/-- For any number of servers and any interleaving of their applier loops: as long as no error has
been reported, and no loop has found one that it has yet to report, no two messages that were
delivered for one index have carried different commands; each server that was delivered an index
above 1 had been delivered the one before; and `nCommitted` returns for every index. -/
theorem apply_check_sound {C : Type} [GoAny C] {n : Nat} {s : Appliers C}
    (h : Reaches Appliers.step (Appliers.init n) s) (hq : s.Quiet) :
    (∀ (p q : Nat) (e e' : Nat × ApplyMsg C), p ≠ q → s.delivered[p]? = some e →
      s.delivered[q]? = some e' → e.2.commandIndex = e'.2.commandIndex →
      GoAny.eq e.2.command e'.2.command = some true) ∧
    (∀ (before rest : List (Nat × ApplyMsg C)) (i : Nat) (m : ApplyMsg C),
      s.delivered = before ++ (i, m) :: rest → 1 < m.commandIndex →
      ∃ m', (i, m') ∈ before ∧ m'.commandIndex = m.commandIndex - 1) ∧
    ∀ index, ∃ count cmd, s.ts.nCommitted index = .ok (count, cmd) := by
  have hkept := Appliers.kept_of_reaches h hq
  refine ⟨?_, ?_, hkept.nCommitted_ok⟩
  · intro p q e e' hpq hp hq hindex
    have hpairs := List.pairwise_iff_getElem.mp hkept.agree
    obtain ⟨hplt, rfl⟩ := List.getElem?_eq_some_iff.mp hp
    obtain ⟨hqlt, rfl⟩ := List.getElem?_eq_some_iff.mp hq
    obtain hlt | hgt := Nat.lt_or_gt_of_ne hpq
    · exact hpairs p q hplt hqlt hlt hindex
    · exact GoAny.symm (hpairs q p hqlt hplt hgt hindex.symm)
  · intro before rest i m hsplit hlt
    obtain ⟨⟨j, m'⟩, hmem, rfl, hindex⟩ := hkept.order before (i, m) rest hsplit hlt
    exact ⟨m', hmem, hindex⟩

instance {α : Type} [DecidableEq α] : GoAny (Option α) where
  nil := none
  eq a b := some (decide (a = b))
  symm h := by simpa [eq_comm] using h
  trans h h' := by
    simp only [Option.some.injEq, decide_eq_true_eq] at h h' ⊢
    exact h.trans h'

/-- Two servers apply the same two commands, one of them the first one twice; another kind of
message is ignored. -/
def inStep : List (ApplierAction (Option Nat)) :=
  [.deliver 0 ⟨true, some 7, 1⟩, .deliver 1 ⟨false, none, 5⟩, .deliver 1 ⟨true, some 7, 1⟩,
   .deliver 0 ⟨true, some 8, 2⟩, .deliver 0 ⟨true, some 7, 1⟩, .deliver 1 ⟨true, some 8, 2⟩]

theorem inStep_runs : (run Appliers.step (Appliers.init 2) inStep).isSome = true := by decide

theorem apply_check_sound_inStep :
    ∃ s, run Appliers.step (Appliers.init 2) inStep = some s ∧ s.Quiet ∧
      s.delivered.length = 5 ∧ ∃ count cmd, s.ts.nCommitted 2 = .ok (count, cmd) := by
  refine ⟨_, (Option.some_get inStep_runs).symm, ?_, by decide, ?_⟩
  · exact ⟨by decide, by decide⟩
  · exact (apply_check_sound (reaches_get inStep_runs) ⟨by decide, by decide⟩).2.2 2

/-- Server 1 finds another command at index 1 than server 0. -/
def divided : List (ApplierAction (Option Nat)) :=
  [.deliver 0 ⟨true, some 7, 1⟩, .deliver 1 ⟨true, some 8, 1⟩]

theorem divided_runs : (run Appliers.step (Appliers.init 2) divided).isSome = true := by decide

/-- What `nCommitted` says before server 1 has reported the error is not an apply error. -/
theorem mismatch_before_report :
    ∃ s, run Appliers.step (Appliers.init 2) divided = some s ∧ s.fatal = none ∧
      s.delivered = [(0, ⟨true, some 7, 1⟩), (1, ⟨true, some 8, 1⟩)] ∧
      s.ts.nCommitted 1 = .error (.mismatch 1 (some 7) (some 8)) :=
  ⟨_, (Option.some_get divided_runs).symm, by decide, by decide, by decide⟩

end GoLabs.Raft
