import Mathlib.Logic.Equiv.Nat
import Mathlib.Logic.Function.Basic
import GoLabs.Reasoning.Json
import GoLabs.Raft.SnapSys

/-!
# Agreement between logs and snapshots

What `checkLogs` says is still about all servers that take snapshots, if Raft keeps its side: it
delivers only snapshots that a server has made and that are not behind the receiver, and starts a
server from one that is not behind those the server has made.  It also has to wait: `newRfsrv`
starts the loop of a server before `mksrv` stores the server in `ts.srvs`, and a command that comes
in between would go into the log of the old one.
-/

open GoLabs.Reasoning

namespace GoLabs.Raft

namespace SnapSys

variable {C : Type} [GoAny C] {J : Codec (Int × List C)} {s t : SnapSys C} {act : SnapAction C}

/-- A server that is not in `ts.srvs` yet has only what it was made from. -/
structure Pending (J : Codec (Int × List C)) (s : SnapSys C) (l : Loop C) (logs : GoMap Int C) :
    Prop where
  source : (l.lastApplied = 0 ∧ logs = ∅) ∨ ∃ e ∈ s.made, ∃ xlog,
    e.bytes = J.marshal (e.index, xlog) ∧ l.lastApplied = e.index ∧ logs = fillLogs xlog
  newest : ∀ e ∈ s.made, e.server = l.me → e.index ≤ l.lastApplied
  killed : ∃ o k, s.current[l.me]? = some o ∧ s.loops[o]? = some k ∧ k.raft = false

/-- Every log and every snapshot is one of the commands of `agreed`.  The server that has made a
snapshot has all its commands. -/
structure Agreed (J : Codec (Int × List C)) (s : SnapSys C) (agreed : Int → C) : Prop where
  size : s.ts.srvs.length = s.current.length
  loops : ∀ (o : Nat) (l : Loop C), s.loops[o]? = some l → 0 ≤ l.lastApplied ∧
    (l.raft = true → l.own = none → s.current[l.me]? = some o) ∧
    ∀ index err, l.pc = .snap index err → l.own = none ∧ l.lastApplied = index ∧ 0 < index
  current : ∀ (i o : Nat), s.current[i]? = some o → ∃ l rs, s.loops[o]? = some l ∧ l.me = i ∧
    s.ts.srvs[i]? = some rs ∧ rs.applyErr = none ∧ LogOK agreed rs.logs l.lastApplied
  made : ∀ e ∈ s.made, (∃ xlog, e.bytes = J.marshal (e.index, xlog) ∧ SnapOK agreed e.index xlog) ∧
    ∃ o l, s.current[e.server]? = some o ∧ s.loops[o]? = some l ∧ e.index ≤ l.lastApplied
  pending : ∀ (o : Nat) (l : Loop C) (logs : GoMap Int C), s.loops[o]? = some l →
    l.own = some logs → Pending J s l logs
  /-- There is one at a time for each number. -/
  alone : ∀ (o o' : Nat) (l l' : Loop C), s.loops[o]? = some l → s.loops[o']? = some l' →
    l.own.isSome → l'.own.isSome → l.me = l'.me → o = o'

theorem Agreed.init (n : Nat) (agreed : Int → C) : Agreed J (init n) agreed := by
  have hstarted : ∀ {o : Nat} {l : Loop C}, (SnapSys.init n).loops[o]? = some l →
      o < n ∧ l = ⟨o, 0, true, .start, none⟩ := by
    intro o l hl
    simp only [SnapSys.init, List.getElem?_map, Option.map_eq_some_iff,
      List.getElem?_eq_some_iff, List.length_range, List.getElem_range] at hl
    obtain ⟨_, ⟨hlt, rfl⟩, rfl⟩ := hl
    exact ⟨hlt, rfl⟩
  refine ⟨by simp [SnapSys.init], ?_, ?_, by simp [SnapSys.init], ?_, ?_⟩
  · intro o l hl
    obtain ⟨hlt, rfl⟩ := hstarted hl
    exact ⟨le_rfl, fun _ _ ↦ by simp [SnapSys.init, hlt], by simp⟩
  · intro i o ho
    simp only [SnapSys.init, List.getElem?_eq_some_iff, List.length_range, List.getElem_range] at ho
    obtain ⟨hlt, rfl⟩ := ho
    exact ⟨⟨i, 0, true, .start, none⟩, ⟨∅, none⟩, by simp [SnapSys.init, hlt], rfl,
      by simp [SnapSys.init, hlt], rfl, .empty agreed⟩
  · intro o l logs hl hown
    obtain ⟨-, rfl⟩ := hstarted hl
    cases hown
  · intro o o' l l' hl _ hown
    obtain ⟨-, rfl⟩ := hstarted hl
    cases hown

/-- A server and the loop of its own. -/
theorem Agreed.server (h : Agreed J s agreed) {i : Nat} {rs : Rfsrv C}
    (hrs : s.ts.srvs[i]? = some rs) :
    ∃ o l, s.current[i]? = some o ∧ s.loops[o]? = some l ∧ l.me = i ∧ rs.applyErr = none ∧
      LogOK agreed rs.logs l.lastApplied := by
  have hlt := lt_length_of_getElem? hrs
  rw [h.size] at hlt
  obtain ⟨l, rs', hl, hme, hrs', herr, hlog⟩ := h.current i _ (List.getElem?_eq_getElem hlt)
  rw [hrs, Option.some.injEq] at hrs'
  subst hrs'
  exact ⟨_, l, List.getElem?_eq_getElem hlt, hl, hme, herr, hlog⟩

/-- The log of a server that is not in `ts.srvs` yet. -/
theorem Agreed.pending_log (h : Agreed J s agreed) {l : Loop C} {logs : GoMap Int C}
    (hp : Pending J s l logs) : LogOK agreed logs l.lastApplied := by
  obtain ⟨hlast, rfl⟩ | ⟨e, he, xlog, hbytes, hlast, rfl⟩ := hp.source
  · rw [hlast]
    exact .empty agreed
  · obtain ⟨⟨xlog', hbytes', hsnap⟩, -⟩ := h.made e he
    obtain ⟨-, rfl⟩ := Prod.mk.inj (J.marshal_inj (hbytes.symm.trans hbytes'))
    rw [hlast]
    exact hsnap.log

/-- Loop `o` goes on. -/
theorem Agreed.update (h : Agreed J s agreed) {o : Nat} {l l' : Loop C} (hl : s.loops[o]? = some l)
    {agreed' : Int → C} {ts : Test C} (hme : l'.me = l.me) (hown : l'.own = l.own)
    (hraft : l'.raft = true → l.raft = true) (hnonneg : 0 ≤ l'.lastApplied)
    (hsnap : ∀ index err, l'.pc = .snap index err →
      l'.own = none ∧ l'.lastApplied = index ∧ 0 < index)
    (hsame : l.own.isSome → l'.lastApplied = l.lastApplied)
    (hsize : ts.srvs.length = s.ts.srvs.length)
    (hself : s.current[l.me]? = some o → l.lastApplied ≤ l'.lastApplied ∧
      ∃ rs, ts.srvs[l.me]? = some rs ∧ rs.applyErr = none ∧ LogOK agreed' rs.logs l'.lastApplied)
    (hothers : ∀ (i o' : Nat) (k : Loop C), s.current[i]? = some o' → o' ≠ o →
      s.loops[o']? = some k →
      ∃ rs, ts.srvs[i]? = some rs ∧ rs.applyErr = none ∧ LogOK agreed' rs.logs k.lastApplied)
    (hmade : ∀ e ∈ s.made, ∃ xlog, e.bytes = J.marshal (e.index, xlog) ∧
      SnapOK agreed' e.index xlog) :
    Agreed J { s with ts := ts, loops := s.loops.set o l' } agreed' := by
  have hnew : (s.loops.set o l')[o]? = some l' := List.getElem?_set_self (lt_length_of_getElem? hl)
  have hmine : ∀ i, s.current[i]? = some o → l.me = i := by
    intro i hi
    obtain ⟨k, _, hk, hkme, _⟩ := h.current i o hi
    rw [hl, Option.some.injEq] at hk
    rw [hk, hkme]
  -- each loop is a loop of before, which may have gone on
  have hbefore : ∀ {o' : Nat} {k : Loop C}, (s.loops.set o l')[o']? = some k →
      ∃ k', s.loops[o']? = some k' ∧ k.me = k'.me ∧ k.own = k'.own ∧
        (k'.own.isSome → k.lastApplied = k'.lastApplied) := by
    intro o' k hk
    obtain ⟨rfl, _, rfl⟩ | ⟨_, hold⟩ := getElem?_set_eq_some.mp hk
    · exact ⟨l, hl, hme, hown, hsame⟩
    · exact ⟨k, hold, rfl, rfl, fun _ ↦ rfl⟩
  refine ⟨hsize.trans h.size, ?_, ?_, ?_, ?_, ?_⟩
  · intro o' k hk
    obtain ⟨rfl, _, rfl⟩ | ⟨_, hold⟩ := getElem?_set_eq_some.mp hk
    · refine ⟨hnonneg, fun hr hnone ↦ ?_, hsnap⟩
      rw [hme]
      exact (h.loops o' l hl).2.1 (hraft hr) (hown ▸ hnone)
    · exact h.loops o' k hold
  · intro i o' ho'
    by_cases hoo : o' = o
    · subst hoo
      obtain rfl := hmine i ho'
      obtain ⟨_, rs, hrs, herr, hlog⟩ := hself ho'
      exact ⟨l', rs, hnew, hme, hrs, herr, hlog⟩
    · obtain ⟨k, _, hk, hkme, _⟩ := h.current i o' ho'
      obtain ⟨rs, hrs, herr, hlog⟩ := hothers i o' k ho' hoo hk
      exact ⟨k, rs, by rw [List.getElem?_set_ne (Ne.symm hoo), hk], hkme, hrs, herr, hlog⟩
  · intro e he
    refine ⟨hmade e he, ?_⟩
    obtain ⟨o', k, ho', hk, hle⟩ := (h.made e he).2
    by_cases hoo : o' = o
    · subst hoo
      rw [hl, Option.some.injEq] at hk
      subst hk
      have hle' := (hself (by rw [hmine _ ho', ho'])).1
      exact ⟨o', l', ho', hnew, hle.trans hle'⟩
    · exact ⟨o', k, ho', by rw [List.getElem?_set_ne (Ne.symm hoo), hk], hle⟩
  · intro o' k logs hk hkown
    obtain ⟨k', hk', hkme, hkown', hlast⟩ := hbefore hk
    rw [hkown] at hkown'
    obtain ⟨hsource, hnewest, o'', k'', ho'', hk'', hdead⟩ := h.pending o' k' logs hk' hkown'.symm
    have hlast := hlast (by rw [← hkown']; rfl)
    refine ⟨by rw [hlast]; exact hsource, by rw [hlast, hkme]; exact hnewest, ?_⟩
    rw [hkme]
    by_cases hoo : o'' = o
    · subst hoo
      rw [hl, Option.some.injEq] at hk''
      subst hk''
      refine ⟨o'', l', ho'', hnew, ?_⟩
      by_contra hr
      rw [hraft (by simpa using hr)] at hdead
      cases hdead
    · exact ⟨o'', k'', ho'', by rw [List.getElem?_set_ne (Ne.symm hoo), hk''], hdead⟩
  · intro o₁ o₂ k₁ k₂ hk₁ hk₂ hown₁ hown₂ hmes
    obtain ⟨k₁', hk₁', hme₁, hown₁', -⟩ := hbefore hk₁
    obtain ⟨k₂', hk₂', hme₂, hown₂', -⟩ := hbefore hk₂
    exact h.alone o₁ o₂ k₁' k₂' hk₁' hk₂' (hown₁' ▸ hown₁) (hown₂' ▸ hown₂)
      (hme₁.symm.trans (hmes.trans hme₂))

/-- The logs and the snapshots are as before. -/
theorem Agreed.goes_on (h : Agreed J s agreed) {o : Nat} {l l' : Loop C} (hl : s.loops[o]? = some l)
    (hme : l'.me = l.me) (hown : l'.own = l.own) (hraft : l'.raft = true → l.raft = true)
    (hlast : l'.lastApplied = l.lastApplied)
    (hsnap : ∀ index err, l'.pc = .snap index err → l.pc = .snap index err) :
    Agreed J (s.setLoop o l') agreed := by
  obtain ⟨hnonneg, _, hsnap'⟩ := h.loops o l hl
  refine h.update hl hme hown hraft (by rw [hlast]; exact hnonneg) ?_ (fun _ ↦ hlast) rfl ?_ ?_ ?_
  · intro index err hpc
    rw [hlast, hown]
    exact hsnap' index err (hsnap index err hpc)
  · intro ho
    obtain ⟨k, rs, hk, _, hrs, herr, hlog⟩ := h.current l.me o ho
    rw [hl, Option.some.injEq] at hk
    subst hk
    exact ⟨hlast.ge, rs, hrs, herr, hlast ▸ hlog⟩
  · intro i o' k ho' _ hk
    obtain ⟨k', rs, hk', _, hrs, herr, hlog⟩ := h.current i o' ho'
    rw [hk, Option.some.injEq] at hk'
    subst hk'
    exact ⟨rs, hrs, herr, hlog⟩
  · exact fun e he ↦ (h.made e he).1

theorem applierSnap_passed {ts ts' : Test C} {l : Loop C} {m : ApplyMsg C}
    (h : ts.applierSnap l m = some (ts', none)) (hvalid : m.commandValid = true) :
    m.commandIndex = l.lastApplied + 1 ∧ Passed ts l.me m ts' := by
  unfold Test.applierSnap at h
  split at h
  · simp at h
  · rename_i hindex
    refine ⟨not_not.mp hindex, applier_passed ?_ hvalid⟩
    unfold Test.applier
    rw [if_neg (by simp [hvalid])]
    cases hcheck : ts.checkLogs l.me m with
    | none => simp [hcheck] at h
    | some r =>
        obtain ⟨ts₁, err, prevok⟩ := r
        simp only [hcheck] at h ⊢
        split at h
        · simp at h
        · rename_i horder
          simp only [Option.some.injEq, Prod.mk.injEq, Option.map_eq_none_iff] at h
          rw [if_neg horder, h.1, h.2]

/-- A command that passes is the agreed one, or there was none yet. -/
theorem Agreed.extend (h : Agreed J s agreed) {i : Nat} {m : ApplyMsg C} {ts : Test C}
    (hpos : 0 < m.commandIndex) (hp : Passed s.ts i m ts) :
    ∃ agreed' : Int → C, Same m.command (agreed' m.commandIndex) ∧ ∀ k, agreed' k = agreed k ∨
      (k = m.commandIndex ∧ ∀ rs ∈ s.ts.srvs, rs.logs.lookup k = none) := by
  by_cases hnone : ∀ rs ∈ s.ts.srvs, rs.logs.lookup m.commandIndex = none
  · refine ⟨Function.update agreed m.commandIndex m.command, ?_, fun k ↦ ?_⟩
    · rw [Function.update_self]
      exact .refl _
    · by_cases hk : k = m.commandIndex
      · exact .inr ⟨hk, by rw [hk]; exact hnone⟩
      · exact .inl (Function.update_of_ne hk _ _)
  · refine ⟨agreed, ?_, fun _ ↦ .inl rfl⟩
    simp only [not_forall] at hnone
    obtain ⟨rs, hrs, hold⟩ := hnone
    obtain ⟨old, hold⟩ := Option.ne_none_iff_exists'.mp hold
    obtain ⟨j, hj⟩ := List.getElem?_of_mem hrs
    obtain ⟨o, l, _, _, _, _, hlog⟩ := h.server hj
    have heq : Same old m.command := .inr (hp.agrees rs hrs old hold)
    exact heq.symm.trans ((hlog.entry _ old hold).2.2 hpos)

theorem Agreed.apply (h : Agreed J s agreed) {o : Nat} {l : Loop C} {m : ApplyMsg C} {ts : Test C}
    {pc : LoopPc C} (hl : s.loops[o]? = some l) (hown : l.own = none)
    (hindex : m.commandIndex = l.lastApplied + 1) (hp : Passed s.ts l.me m ts)
    (hpc : ∀ index err, pc = .snap index err → m.commandIndex = index) :
    ∃ agreed', Agreed J { s with
      ts := ts
      loops := s.loops.set o { l with lastApplied := m.commandIndex, pc := pc } } agreed' := by
  have hpos : 0 < m.commandIndex := by
    have hnonneg := (h.loops o l hl).1
    omega
  obtain ⟨agreed', hsame, hagreed⟩ := h.extend hpos hp
  obtain ⟨me, hme, hprev, hsrvs⟩ := hp.stored
  -- what the logs and the snapshots have is agreed on as before
  have hlogs : ∀ {rs : Rfsrv C} {last : Int}, rs ∈ s.ts.srvs → LogOK agreed rs.logs last →
      LogOK agreed' rs.logs last := by
    intro rs last hrs hlog
    refine hlog.congr fun k c hc ↦ ?_
    obtain hk | ⟨_, hnone⟩ := hagreed k
    · exact hk
    · rw [hnone rs hrs] at hc
      cases hc
  have hnew : ∀ {last last' : Int}, LogOK agreed me.logs last →
      (last' = last ∨ (m.commandIndex = last + 1 ∧ last' = m.commandIndex)) →
      LogOK agreed' (me.logs.insert m.commandIndex m.command) last' :=
    fun hlog hlast ↦ (hlogs (List.mem_of_getElem? hme) hlog).insert hpos hprev hsame hlast
  have hself : ts.srvs[l.me]? =
      some { me with logs := me.logs.insert m.commandIndex m.command } := by
    rw [hsrvs]
    exact List.getElem?_set_self (lt_length_of_getElem? hme)
  refine ⟨agreed', h.update hl rfl rfl id hpos.le ?_ ?_ ?_ ?_ ?_ ?_⟩
  · intro index err heq
    have hi := hpc index err heq
    exact ⟨hown, hi, hi ▸ hpos⟩
  · simp [hown]
  · rw [hsrvs, List.length_set]
  · intro ho
    obtain ⟨k, rs, hk, _, hrs, herr, hlog⟩ := h.current l.me o ho
    rw [hl, Option.some.injEq] at hk
    rw [hme, Option.some.injEq] at hrs
    subst hk hrs
    refine ⟨?_, _, hself, herr, hnew hlog (.inr ⟨hindex, rfl⟩)⟩
    show l.lastApplied ≤ m.commandIndex
    omega
  · intro i o' k ho' hne hk
    obtain ⟨k', rs, hk', _, hrs, herr, hlog⟩ := h.current i o' ho'
    rw [hk, Option.some.injEq] at hk'
    subst hk'
    by_cases hi : i = l.me
    · -- the loop has outlived its server
      subst hi
      rw [hme, Option.some.injEq] at hrs
      subst hrs
      exact ⟨_, hself, herr, hnew hlog (.inl rfl)⟩
    · refine ⟨rs, ?_, herr, hlogs (List.mem_of_getElem? hrs) hlog⟩
      rw [hsrvs, List.getElem?_set_ne (Ne.symm hi), hrs]
  · intro e he
    obtain ⟨⟨l', hbytes, hsnap⟩, o', k, ho', hk, hle⟩ := h.made e he
    refine ⟨l', hbytes, hsnap.congr fun j hj hje ↦ ?_⟩
    obtain hsame | ⟨_, hnone⟩ := hagreed j
    · exact hsame
    · obtain ⟨k', rs, hk', _, hrs, _, hlog⟩ := h.current _ o' ho'
      rw [hk, Option.some.injEq] at hk'
      subst hk'
      obtain ⟨c, hc⟩ := hlog.filled j hj (hje.trans hle)
      rw [hnone rs (List.mem_of_getElem? hrs)] at hc
      cases hc

/-- A loop makes a snapshot of its log. -/
theorem Agreed.snap (h : Agreed J s agreed) {o : Nat} {l : Loop C} {index : Int}
    {err : Option (SnapErr C)} (hl : s.loops[o]? = some l) (hpc : l.pc = .snap index err) :
    Agreed J (s.snap J o l index err) agreed := by
  have hreport : ∀ index' err', LoopPc.reportOf err = .snap index' err' →
      l.pc = .snap index' err' := by
    cases err <;> simp [LoopPc.reportOf]
  have hgo : Agreed J (s.setLoop o { l with pc := .reportOf err }) agreed :=
    h.goes_on hl rfl rfl id rfl hreport
  obtain ⟨_, hcurrent, hsnap⟩ := h.loops o l hl
  obtain ⟨hown, hindex, hpos⟩ := hsnap index err hpc
  unfold SnapSys.snap
  by_cases hraft : l.raft = true
  · have ho := hcurrent hraft hown
    obtain ⟨k, rs, hk, _, hrs, _, hlog⟩ := h.current l.me o ho
    rw [hl, Option.some.injEq] at hk
    subst hk
    have hlogs : s.logs l = some rs.logs := by simp [SnapSys.logs, hown, hrs]
    have hset := List.getElem?_set_self (lt_length_of_getElem? hl)
      (a := { l with pc := .reportOf err })
    simp only [if_pos hraft, hlogs]
    refine ⟨hgo.size, hgo.loops, hgo.current, ?_, ?_, hgo.alone⟩
    · intro e he
      obtain hold | hnew := List.mem_append.mp he
      · exact hgo.made e hold
      · rw [List.mem_singleton.mp hnew]
        exact ⟨⟨_, rfl, hlog.snapshot hpos hindex.ge⟩, o, _, ho, hset, hindex.ge⟩
    · intro o' k logs hk hkown
      obtain ⟨hsource, hnewest, o'', k'', ho'', hk'', hdead⟩ := hgo.pending o' k logs hk hkown
      refine ⟨hsource.imp_right ?_, ?_, o'', k'', ho'', hk'', hdead⟩
      · rintro ⟨e, he, hrest⟩
        exact ⟨e, List.mem_append_left _ he, hrest⟩
      · intro e he hserver
        obtain hold | hnew := List.mem_append.mp he
        · exact hnewest e hold hserver
        · -- the server that is to be replaced has been killed
          rw [List.mem_singleton.mp hnew] at hserver
          have hsame : s.current[k.me]? = some o'' := ho''
          rw [← hserver, ho, Option.some.injEq] at hsame
          subst hsame
          rw [SnapSys.setLoop, hset, Option.some.injEq] at hk''
          rw [← hk'', hraft] at hdead
          cases hdead
  · simp only [if_neg hraft]
    exact hgo

/-- What the bytes of a snapshot that a server has made say. -/
theorem Agreed.ingestSnap_ok (h : Agreed J s agreed) {e : Made} (he : e ∈ s.made) (me : Nat)
    (index : Int) : ∃ logs, LogOK agreed logs e.index ∧
      ingestSnap J me (some e.bytes) index =
        if index ≠ -1 ∧ index ≠ e.index then .failed (.snapshotIndex me) else .ok logs e.index := by
  obtain ⟨⟨l, hbytes, hsnap⟩, _⟩ := h.made e he
  refine ⟨fillLogs l, hsnap.log, ?_⟩
  simp only [ingestSnap, hbytes, J.round]

/-- A log is replaced with one that goes at least as far. -/
theorem Agreed.replace (h : Agreed J s agreed) {o : Nat} {l : Loop C} {logs : GoMap Int C}
    {last : Int} (hl : s.loops[o]? = some l) (hown : l.own = none)
    (hpc : ∀ index err, l.pc ≠ .snap index err) (hle : l.lastApplied ≤ last)
    (hlog : LogOK agreed logs last) : Agreed J (s.ingest o l (.ok logs last)) agreed := by
  have hnonneg := (h.loops o l hl).1
  have hnosnap : ∀ index err, l.pc = .snap index err → l.own = none ∧ last = index ∧ 0 < index :=
    fun index err heq ↦ absurd heq (hpc index err)
  have hsame : l.own.isSome → last = l.lastApplied := by simp [hown]
  have hothers : ∀ (i o' : Nat) (k : Loop C), s.current[i]? = some o' → s.loops[o']? = some k →
      ∃ rs, s.ts.srvs[i]? = some rs ∧ rs.applyErr = none ∧ LogOK agreed rs.logs k.lastApplied := by
    intro i o' k ho' hk
    obtain ⟨k', rs, hk', _, hrs, herr, hlog⟩ := h.current i o' ho'
    rw [hk, Option.some.injEq] at hk'
    subst hk'
    exact ⟨rs, hrs, herr, hlog⟩
  have hnot : ¬ l.own.isSome = true := by simp [hown]
  simp only [SnapSys.ingest, if_neg hnot]
  by_cases ho : s.current[l.me]? = some o
  · simp only [if_pos ho]
    refine h.update hl rfl rfl id (hnonneg.trans hle) hnosnap hsame ?_ ?_ ?_ ?_
    · exact List.length_modify _ _ _
    · intro _
      obtain ⟨rs, hrs, herr, _⟩ := hothers l.me o l ho hl
      refine ⟨hle, { rs with logs }, ?_, herr, hlog⟩
      simp [hrs]
    · intro i o' k ho' hne hk
      obtain ⟨rs, hrs, herr, hold⟩ := hothers i o' k ho' hk
      refine ⟨rs, ?_, herr, hold⟩
      have hi : l.me ≠ i := by
        rintro rfl
        rw [ho, Option.some.injEq] at ho'
        exact hne ho'.symm
      simp [hi, hrs]
    · exact fun e he ↦ (h.made e he).1
  · simp only [if_neg ho]
    refine h.update hl rfl rfl id (hnonneg.trans hle) hnosnap hsame rfl
      (fun ho' ↦ absurd ho' ho) ?_ ?_
    · exact fun i o' k ho' _ hk ↦ hothers i o' k ho' hk
    · exact fun e he ↦ (h.made e he).1

/-- A server is made for the place of one that was killed. -/
theorem Agreed.go (h : Agreed J s agreed) {i : Nat} {logs : GoMap Int C} {last : Int}
    (halone : s.making i = false) (hnonneg : 0 ≤ last)
    (hp : Pending J s ⟨i, last, true, .start, some logs⟩ logs) :
    Agreed J (s.go i logs last) agreed := by
  -- the loops of before have their places
  have hkept : ∀ {k : Loop C} {x : GoMap Int C}, Pending J s k x →
      Pending J (s.go i logs last) k x := by
    rintro k x ⟨hsource, hnewest, o, k', ho, hk', hdead⟩
    exact ⟨hsource, hnewest, o, k', ho, getElem?_append_of_some hk' _, hdead⟩
  have hother : ∀ {o : Nat} {k : Loop C}, s.loops[o]? = some k → k.own.isSome → k.me ≠ i := by
    intro o k hk hown hme
    have hmaking : s.making i = true :=
      List.any_eq_true.mpr ⟨k, List.mem_of_getElem? hk, by simp [hme, hown]⟩
    rw [halone] at hmaking
    cases hmaking
  refine ⟨h.size, ?_, ?_, ?_, ?_, ?_⟩
  · intro o k hk
    obtain hold | ⟨rfl, rfl⟩ := getElem?_snoc_eq_some.mp hk
    · exact h.loops o k hold
    · exact ⟨hnonneg, by simp, by simp⟩
  · intro j o ho
    obtain ⟨k, rs, hk, hrest⟩ := h.current j o ho
    exact ⟨k, rs, getElem?_append_of_some hk _, hrest⟩
  · intro e he
    obtain ⟨hbytes, o, k, ho, hk, hle⟩ := h.made e he
    exact ⟨hbytes, o, k, ho, getElem?_append_of_some hk _, hle⟩
  · intro o k x hk hown
    obtain hold | ⟨rfl, rfl⟩ := getElem?_snoc_eq_some.mp hk
    · exact hkept (h.pending o k x hold hown)
    · obtain rfl := Option.some.inj hown
      exact hkept hp
  · intro o₁ o₂ k₁ k₂ hk₁ hk₂ hown₁ hown₂ hmes
    obtain hold₁ | ⟨rfl, rfl⟩ := getElem?_snoc_eq_some.mp hk₁
    · obtain hold₂ | ⟨rfl, rfl⟩ := getElem?_snoc_eq_some.mp hk₂
      · exact h.alone o₁ o₂ k₁ k₂ hold₁ hold₂ hown₁ hown₂ hmes
      · exact absurd hmes (hother hold₁ hown₁)
    · obtain hold₂ | ⟨rfl, -⟩ := getElem?_snoc_eq_some.mp hk₂
      · exact absurd hmes.symm (hother hold₂ hown₂)
      · rfl

/-- A server is stored in the place of one that was killed. -/
theorem Agreed.place (h : Agreed J s agreed) {o : Nat} {l : Loop C} {logs : GoMap Int C}
    (hl : s.loops[o]? = some l) (hown : l.own = some logs) :
    Agreed J (s.place o l logs) agreed := by
  have hp := h.pending o l logs hl hown
  obtain ⟨old, dead, hold, hdead, hraft⟩ := hp.killed
  have hlt := lt_length_of_getElem? hold
  have hset : (s.loops.set o { l with own := none })[o]? = some { l with own := none } :=
    List.getElem?_set_self (lt_length_of_getElem? hl)
  have hself : (s.current.set l.me o)[l.me]? = some o := List.getElem?_set_self hlt
  -- the other loops are as before, and no other one waits for this place
  have hrest : ∀ {o' : Nat} {k : Loop C}, (s.loops.set o { l with own := none })[o']? = some k →
      k.own.isSome → s.loops[o']? = some k ∧ k.me ≠ l.me := by
    intro o' k hk hkown
    obtain ⟨rfl, _, rfl⟩ | ⟨hne, hk'⟩ := getElem?_set_eq_some.mp hk
    · cases hkown
    · exact ⟨hk', fun hme ↦ hne (h.alone o' o k l hk' hl hkown (by rw [hown]; rfl) hme)⟩
  refine ⟨?_, ?_, ?_, ?_, ?_, ?_⟩
  · simp only [SnapSys.place, List.length_set]
    exact h.size
  · intro o' k hk
    obtain ⟨rfl, _, rfl⟩ | ⟨_, hk'⟩ := getElem?_set_eq_some.mp hk
    · obtain ⟨hnonneg, -, hsnap⟩ := h.loops o' l hl
      exact ⟨hnonneg, fun _ _ ↦ hself, fun index err hpc ↦ ⟨rfl, (hsnap index err hpc).2⟩⟩
    · obtain ⟨hnonneg, hcur, hsnap⟩ := h.loops o' k hk'
      refine ⟨hnonneg, fun hr hnone ↦ ?_, hsnap⟩
      have hcur' := hcur hr hnone
      -- the one that was killed has no Raft
      have hne : l.me ≠ k.me := by
        intro hme
        rw [← hme, hold, Option.some.injEq] at hcur'
        subst hcur'
        rw [hdead, Option.some.injEq] at hk'
        rw [← hk', hraft] at hr
        cases hr
      show (s.current.set l.me o)[k.me]? = some o'
      rw [List.getElem?_set_ne hne, hcur']
  · intro j o' ho'
    obtain ⟨rfl, _, rfl⟩ | ⟨hne, hcur⟩ := getElem?_set_eq_some.mp ho'
    · have hlog : LogOK agreed logs l.lastApplied := h.pending_log hp
      refine ⟨_, ⟨logs, none⟩, hset, rfl, ?_, rfl, hlog⟩
      exact List.getElem?_set_self (by rw [h.size]; exact hlt)
    · obtain ⟨k, rs, hk, hme, hrs, herr, hlog⟩ := h.current j o' hcur
      have hoo : o ≠ o' := by
        rintro rfl
        rw [hl, Option.some.injEq] at hk
        exact hne (hk ▸ hme).symm
      refine ⟨k, rs, ?_, hme, ?_, herr, hlog⟩
      · show (s.loops.set o { l with own := none })[o']? = some k
        rw [List.getElem?_set_ne hoo, hk]
      · show (s.ts.srvs.set l.me ⟨logs, none⟩)[j]? = some rs
        rw [List.getElem?_set_ne (Ne.symm hne), hrs]
  · intro e he
    obtain ⟨hbytes, o', k, ho', hk, hle⟩ := h.made e he
    refine ⟨hbytes, ?_⟩
    by_cases hserver : e.server = l.me
    · exact ⟨_, _, by rw [hserver]; exact hself, hset, hp.newest e he hserver⟩
    · obtain ⟨k', -, hk', hme, -⟩ := h.current _ o' ho'
      have hoo : o ≠ o' := by
        rintro rfl
        rw [hl, Option.some.injEq] at hk'
        exact hserver (hk' ▸ hme).symm
      refine ⟨o', k, ?_, ?_, hle⟩
      · show (s.current.set l.me o)[e.server]? = some o'
        rw [List.getElem?_set_ne (Ne.symm hserver), ho']
      · show (s.loops.set o { l with own := none })[o']? = some k
        rw [List.getElem?_set_ne hoo, hk]
  · intro o' k x hk hkown
    obtain ⟨hk', hne⟩ := hrest hk (by rw [hkown]; rfl)
    obtain ⟨hsource, hnewest, o'', k'', ho'', hk'', hdead'⟩ := h.pending o' k x hk' hkown
    obtain ⟨k₃, -, hk₃, hme, -⟩ := h.current _ o'' ho''
    have hoo : o ≠ o'' := by
      rintro rfl
      rw [hl, Option.some.injEq] at hk₃
      exact hne (hk₃ ▸ hme).symm
    refine ⟨hsource, hnewest, o'', k'', ?_, ?_, hdead'⟩
    · show (s.current.set l.me o)[k.me]? = some o''
      rw [List.getElem?_set_ne (Ne.symm hne), ho'']
    · show (s.loops.set o { l with own := none })[o'']? = some k''
      rw [List.getElem?_set_ne hoo, hk'']
  · intro o₁ o₂ k₁ k₂ hk₁ hk₂ hown₁ hown₂ hmes
    exact h.alone o₁ o₂ k₁ k₂ (hrest hk₁ hown₁).1 (hrest hk₂ hown₂).1 hown₁ hown₂ hmes

theorem Agreed.step (h : Agreed J s agreed) (hs : restrict (SnapSys.step J) kept s act = some t)
    (hq : Quiet t) : ∃ agreed', Agreed J t agreed' := by
  obtain ⟨hkept, hstep⟩ := restrict_eq_some.mp hs
  obtain ⟨_, hstep⟩ := step_cases hstep
  cases hstep with
  | @start o l hl hpc =>
      refine ⟨agreed, h.goes_on hl rfl rfl id rfl ?_⟩
      cases l.raft <;> simp
  | @ingest o m l hl hpc hvalid =>
      simp only [kept, hvalid, forall_const, hl, Option.all_some, fresh, List.any_eq_true,
        decide_eq_true_eq, Option.isNone_iff_eq_none] at hkept
      -- Raft delivers a snapshot that some server has made and that is not behind
      obtain ⟨hown, e, he, hbytes, hle⟩ := hkept
      obtain ⟨logs, hlog, hin⟩ := h.ingestSnap_ok he l.me m.snapshotIndex
      rw [hbytes, hin] at hq ⊢
      split at hq
      · -- the loop has found an error and is not quiet
        have hfound := hq.found _ (List.mem_set (lt_length_of_getElem? hl) _)
        cases hfound
      · rename_i hindex
        rw [if_neg hindex]
        exact ⟨agreed, h.replace hl hown (by simp [hpc]) hle hlog⟩
  | @apply o m l t hl hpc hvalid happly =>
      obtain ⟨⟨ts, err⟩, hcheck, rfl⟩ := Option.map_eq_some_iff.mp happly
      -- so has one whose `checkLogs` failed
      have herr : err = none := by
        have hfound := hq.found _ (List.mem_set (lt_length_of_getElem? hl) _)
        dsimp only at hfound
        split at hfound
        · exact hfound
        · cases err with
          | none => rfl
          | some err => cases hfound
      subst herr
      obtain ⟨hindex, hp⟩ := applierSnap_passed hcheck hvalid
      have hown : l.own = none := by
        simp only [kept, hl, Option.all_some, decide_eq_true_eq, Option.isNone_iff_eq_none] at hkept
        exact hkept.1
      refine h.apply hl hown hindex hp ?_
      intro index err
      dsimp only
      split
      · intro heq
        cases heq
        rfl
      · simp [LoopPc.reportOf]
  | ignore => exact ⟨agreed, h⟩
  | snap hl hpc => exact ⟨agreed, h.snap hl hpc⟩
  | report => cases hq.fatal
  | kill ho hl => exact ⟨agreed, h.goes_on hl rfl rfl (by simp) rfl (by simp)⟩
  | @newRfsrv i o l snapshot ho hl hraft halone =>
      refine ⟨agreed, ?_⟩
      have hkilled : ∃ o k, s.current[i]? = some o ∧ s.loops[o]? = some k ∧ k.raft = false :=
        ⟨o, l, ho, hl, hraft⟩
      unfold SnapSys.newRfsrv
      simp only [kept] at hkept
      split
      · rename_i hsome
        rw [if_pos hsome] at hkept
        simp only [List.any_eq_true, decide_eq_true_eq, List.all_eq_true] at hkept
        -- the server starts from a snapshot
        obtain ⟨e, he, rfl, hnewest⟩ := hkept
        obtain ⟨⟨xlog, hbytes, hsnap⟩, _⟩ := h.made e he
        have hin : ingestSnap J i (some e.bytes) (-1) = .ok (fillLogs xlog) e.index := by
          simp [ingestSnap, hbytes, J.round]
        rw [hin]
        exact h.go halone hsnap.pos.le
          ⟨.inr ⟨e, he, xlog, hbytes, rfl, rfl⟩, hnewest, hkilled⟩
      · rename_i hnone
        rw [if_neg hnone] at hkept
        simp only [List.all_eq_true, decide_eq_true_eq] at hkept
        -- it starts with an empty log, and has made no snapshot yet
        exact h.go halone le_rfl
          ⟨.inl ⟨rfl, rfl⟩, fun e he hserver ↦ absurd hserver (hkept e he), hkilled⟩
  | mksrv hl hown => exact ⟨agreed, h.place hl hown⟩

theorem agreed_of_reaches {n : Nat}
    (h : Reaches (restrict (SnapSys.step J) kept) (SnapSys.init n) s) (hq : Quiet s) :
    ∃ agreed, Agreed J s agreed :=
  h.invariant_below (B := Quiet) (I := fun s ↦ ∃ agreed, Agreed J s agreed)
    (fun _ _ _ hs hq ↦ hq.before (restrict_eq_some.mp hs).2)
    ⟨fun _ ↦ GoAny.nil, .init n _⟩ (fun _ _ _ _ hs hq hu ↦ hu.choose_spec.step hs hq) hq

end SnapSys

/-! ## Counting the servers -/

section Count

variable {C : Type} [GoAny C]

/-- `nCommitted` counts the servers that have the index, if they have the same command there. -/
theorem countLogs_eq {srvs : List (Rfsrv C)} {index : Int} {agreed : C}
    (hrefl : ∀ c : C, GoAny.eq c c = some true) (herr : ∀ rs ∈ srvs, rs.applyErr = none)
    (hsame : ∀ rs ∈ srvs, ∀ c, rs.logs.lookup index = some c → Same c agreed) (count : Nat)
    (cmd : C) (hcmd : 0 < count → Same cmd agreed) :
    ∃ cmd', srvs.foldlM (countLog index) (count, cmd) =
        .ok (count + srvs.countP fun rs => (rs.logs.lookup index).isSome, cmd') ∧
      (0 < count + srvs.countP (fun rs => (rs.logs.lookup index).isSome) → Same cmd' agreed) := by
  induction srvs generalizing count cmd with
  | nil => exact ⟨cmd, rfl, hcmd⟩
  | cons rs srvs ih =>
      obtain ⟨hrs, herr⟩ := List.forall_mem_cons.mp herr
      obtain ⟨hhead, hsame⟩ := List.forall_mem_cons.mp hsame
      rw [List.foldlM_cons]
      cases hlookup : rs.logs.lookup index with
      | none =>
          have hbody : countLog index (count, cmd) rs = .ok (count, cmd) := by
            simp [countLog, hrs, hlookup]
          rw [hbody, List.countP_cons_of_neg (by simp [hlookup])]
          exact ih herr hsame count cmd hcmd
      | some cmd1 =>
          have hcmd1 := hhead cmd1 hlookup
          have hbody : countLog index (count, cmd) rs = .ok (count + 1, cmd1) := by
            simp only [countLog, hrs, hlookup]
            split
            · rename_i hpos
              have heq : GoAny.eq cmd cmd1 = some true := by
                obtain rfl | heq := (hcmd hpos).trans hcmd1.symm
                · exact hrefl cmd
                · exact heq
              rw [heq]
            · rfl
          have hsum : ∀ k, count + (k + 1) = count + 1 + k := by
            intro k
            omega
          rw [List.countP_cons_of_pos (by simp [hlookup]), hsum, hbody]
          exact ih herr hsame (count + 1) cmd1 fun _ ↦ hcmd1

end Count

/-- For any number of servers that take snapshots, and any interleaving of their loops, restarts and
loops that outlive their server: if Raft keeps its side, then as long as no error has been reported
or found there is one sequence of commands that every log holds without a gap, as far as its server
has applied, and every snapshot holds up to its index.  `nCommitted` then counts the servers that
have an index and returns the command there. -/
theorem snapshots_agree {C : Type} [GoAny C] {J : Codec (Int × List C)} {n : Nat} {s : SnapSys C}
    (h : Reaches (restrict (SnapSys.step J) SnapSys.kept) (SnapSys.init n) s) (hq : s.Quiet) :
    ∃ agreed : Int → C,
      (∀ (i : Nat) (rs : Rfsrv C), s.ts.srvs[i]? = some rs → ∃ o l, s.current[i]? = some o ∧
        s.loops[o]? = some l ∧ LogOK agreed rs.logs l.lastApplied) ∧
      (∀ e ∈ s.made, ∃ xlog, J.unmarshal e.bytes = some (e.index, xlog) ∧
        SnapOK agreed e.index xlog) ∧
      ((∀ c : C, GoAny.eq c c = some true) → ∀ index, 0 < index → ∃ cmd,
        s.ts.nCommitted index =
          .ok (s.ts.srvs.countP fun rs => (rs.logs.lookup index).isSome, cmd) ∧
        ((∃ rs ∈ s.ts.srvs, (rs.logs.lookup index).isSome = true) → Same cmd (agreed index))) := by
  obtain ⟨agreed, hagreed⟩ := SnapSys.agreed_of_reaches h hq
  refine ⟨agreed, ?_, ?_, ?_⟩
  · intro i rs hrs
    obtain ⟨o, l, ho, hl, _, _, hlog⟩ := hagreed.server hrs
    exact ⟨o, l, ho, hl, hlog⟩
  · intro e he
    obtain ⟨⟨xlog, hbytes, hsnap⟩, _⟩ := hagreed.made e he
    exact ⟨xlog, by rw [hbytes, J.round], hsnap⟩
  · intro hrefl index hpos
    have hlogs : ∀ rs ∈ s.ts.srvs, rs.applyErr = none ∧
        ∀ c, rs.logs.lookup index = some c → Same c (agreed index) := by
      intro rs hrs
      obtain ⟨i, hi⟩ := List.getElem?_of_mem hrs
      obtain ⟨_, _, _, _, _, herr, hlog⟩ := hagreed.server hi
      exact ⟨herr, fun c hc ↦ (hlog.entry index c hc).2.2 hpos⟩
    obtain ⟨cmd, hcount, hcmd⟩ := countLogs_eq hrefl (fun rs hrs ↦ (hlogs rs hrs).1)
      (fun rs hrs ↦ (hlogs rs hrs).2) 0 GoAny.nil (by simp)
    simp only [Nat.zero_add] at hcount hcmd
    exact ⟨cmd, hcount, fun hsome ↦ hcmd (List.countP_pos_iff.mpr hsome)⟩

/-- A snapshot as a JSON text, in place of the one that gob makes: `{"index":1,"log":[[],[70]]}`,
where `[]` is nil. -/
def snapJson : Codec (Int × List (Option Nat)) :=
  (Format.object (lit "index") (lit "log") (Format.number.map Equiv.intEquivNat.symm
    Equiv.intEquivNat Equiv.intEquivNat.symm_apply_apply) (Format.slice
      ((Format.slice .number).map List.head? Option.toList fun c ↦ by cases c <;> rfl))).codec

/-- Server 0 makes a snapshot that server 1 ingests.  Server 0 is killed and started again from the
snapshot; the loop of the one that was killed goes on to store a command for the new one. -/
def replaced : List (SnapAction (Option Nat)) :=
  [.start 0, .start 1] ++
  ((List.range 9).map fun k => .deliver 0 ⟨⟨true, some (k + 70), k + 1⟩, false, none, 0⟩) ++
  [.deliver 1 ⟨⟨true, some 70, 1⟩, false, none, 0⟩, .snap 0,
   .deliver 1 ⟨⟨false, none, 0⟩, true,
     some (snapJson.marshal (9, none :: (List.range 9).map fun k => some (k + 70))), 9⟩,
   .kill 0, .newRfsrv 0
     (some (snapJson.marshal (9, none :: (List.range 9).map fun k => some (k + 70)))),
   .start 2, .mksrv 2,
   .deliver 0 ⟨⟨true, some 80, 10⟩, false, none, 0⟩,
   .deliver 1 ⟨⟨true, some 80, 10⟩, false, none, 0⟩]

theorem replaced_runs : (run (restrict (SnapSys.step snapJson) SnapSys.kept) (SnapSys.init 2)
    replaced).isSome = true := by
  decide +kernel

theorem snapshots_agree_replaced :
    ∃ s cmd,
      run (restrict (SnapSys.step snapJson) SnapSys.kept) (SnapSys.init 2) replaced = some s ∧
      s.loops.map (fun l => (l.me, l.lastApplied)) = [(0, 10), (1, 10), (0, 9)] ∧
      s.current = [2, 1] ∧ s.made.map (fun e => (e.server, e.index)) = [(0, 9)] ∧
      s.ts.nCommitted 10 = .ok (2, cmd) := by
  have hq : SnapSys.Quiet ((run (restrict (SnapSys.step snapJson) SnapSys.kept) (SnapSys.init 2)
      replaced).get replaced_runs) := ⟨by decide +kernel, by decide +kernel⟩
  have hcount : ((run (restrict (SnapSys.step snapJson) SnapSys.kept) (SnapSys.init 2)
      replaced).get replaced_runs).ts.srvs.countP (fun rs => (rs.logs.lookup 10).isSome) = 2 := by
    decide +kernel
  obtain ⟨_, _, _, hcommitted⟩ := snapshots_agree (reaches_get replaced_runs) hq
  obtain ⟨cmd, hok, _⟩ := hcommitted (fun c ↦ by simp [GoAny.eq]) 10 (by decide)
  rw [hcount] at hok
  exact ⟨_, cmd, (Option.some_get replaced_runs).symm, by decide +kernel, by decide +kernel,
    by decide +kernel, hok⟩

end GoLabs.Raft
