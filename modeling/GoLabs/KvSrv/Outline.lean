import GoLabs.KvSrv.Programs

/-!
# Proof outlines for programs over Clerks

A program may use several keys, and keys that do not exist yet.  All that is asked of it here is
that no `Put` is sent ahead of its key (`Outline.Proved.timely`): a `Put` that was answered is then
behind its key for good, and only a process that still waits for its `Put` can write.

A proof outline says what holds of the keys (`shared`) and what a process may rely on where it
stands (`stands`).  Both are stated over the `View` of the network, which most of its steps do not
change: what is left to prove is what a process finds when it moves on, what an answer without
effect leaves alone, and what a write does to the writer and to the others.
-/

open GoLabs.Reasoning

namespace GoLabs.KvSrv

/-- What programs depend on: the server, the number of writes of each key, and the answers to the
calls. -/
structure View where
  server : KVServer
  writes : GoString → Nat
  answered : Nat → Reply → Prop

/-- The `Put` of call `n` took effect. -/
def View.Took (v : View) (n : Nat) : Prop := v.answered n (.put ⟨.ok⟩)

namespace Net

variable {net t : Net} {keys : List GoString} {a m : Nat} {r : Request} {args : PutArgs}

def view (net : Net) : View := ⟨net.server, net.writes, net.Answered⟩

theorem step_invoke (net : Net) (clerk : Nat) (r : Request) :
    net.step (.invoke clerk r) = some (net.invoke clerk r) := rfl

theorem view_quiet {act : Action} (hs : net.step act = some t) (hq : quiet act = true) :
    t.view = net.view := by
  obtain ⟨hserver, hwrites, hans⟩ := quiet_step hs hq
  have hanswered : t.Answered = net.Answered := by
    funext n reply
    exact propext (hans n reply)
  simp only [view, hserver, funext hwrites, hanswered]

/-- The server answers call `m` without writing one of the keys. -/
structure Answers (keys : List GoString) (net : Net) (m : Nat) (r : Request) (v : View) : Prop where
  req : net.req m = some r
  answered : ∀ n reply, v.answered n reply ↔
    net.Answered n reply ∨ n = m ∧ reply = (net.server.dispatch r).2
  server : ∀ key ∈ keys, v.server.m key = net.server.m key
  writes : ∀ key ∈ keys, v.writes key = net.writes key
  refused : ∀ args, r = .put args → args.key ∈ keys → (net.server.put args).2.err ≠ .ok

/-- The `Put` of call `m` takes effect. -/
structure Writes (net : Net) (m : Nat) (args : PutArgs) (v : View) : Prop where
  answered : ∀ n reply, v.answered n reply ↔ net.Answered n reply ∨ n = m ∧ reply = .put ⟨.ok⟩
  stored : v.server.m args.key = some ⟨args.value, args.version + 1⟩
  written : v.writes args.key = net.writes args.key + 1
  server : ∀ key, key ≠ args.key → v.server.m key = net.server.m key
  writes : ∀ key, key ≠ args.key → v.writes key = net.writes key

theorem answers_exec (hi : net.Inv) (hat : net.attempts[a]? = some ⟨m, r, none⟩)
    (hother : ∀ args, r = .put args → args.key ∈ keys → (net.server.put args).2.err ≠ .ok) :
    Answers keys net m r (net.exec a m r).view where
  req := hi.req_of_attempt hat
  answered _ _ := answered_exec hat
  server key hkey := server_exec_other (a := a) (m := m)
    fun args hr heq ↦ hother args hr (by rw [heq]; exact hkey)
  writes key hkey := writes_exec_other (a := a) (m := m)
    fun args hr heq ↦ hother args hr (by rw [heq]; exact hkey)
  refused := hother

theorem writes_exec_put (hat : net.attempts[a]? = some ⟨m, .put args, none⟩)
    (hok : (net.server.put args).2.err = .ok) :
    Writes net m args (net.exec a m (.put args)).view where
  answered n reply := by
    have hreply : (net.server.dispatch (.put args)).2 = .put ⟨.ok⟩ := by
      simp only [KVServer.dispatch, Reply.put.injEq]
      rw [← hok]
    rw [← hreply]
    exact answered_exec hat
  stored := server_exec_write (a := a) (m := m) rfl hok
  written := writes_exec_write (a := a) (m := m) rfl hok
  server key hkey := by
    refine server_exec_other (a := a) (m := m) fun args' hr heq ↦ absurd heq.symm ?_
    rw [Request.put.injEq] at hr
    rw [← hr]
    exact hkey
  writes key hkey := by
    refine writes_exec_other (a := a) (m := m) fun args' hr heq ↦ absurd heq.symm ?_
    rw [Request.put.injEq] at hr
    rw [← hr]
    exact hkey

/-- A step writes a key at most once. -/
theorem writes_step_le {act : Action} (hs : net.step act = some t) (key : GoString) :
    t.writes key ≤ net.writes key + 1 := by
  by_cases hq : quiet act = true
  · rw [(quiet_step hs hq).2.1]
    exact Nat.le_succ _
  · cases step_iff.mp hs with
    | exec hat =>
        rw [writes_exec]
        exact Nat.add_le_add_left (wins_length_le key [_]) _
    | _ => simp [quiet] at hq

/-- A key that has been written is there. -/
theorem Inv.present (hi : net.Inv) {key : GoString} (hpos : 0 < net.writes key) :
    ∃ v, net.server.m key = some v := by
  cases hm : net.server.m key with
  | some v => exact ⟨v, rfl⟩
  | none =>
      have hnone := (hi.served.eq_none_iff key).mp hm
      change net.writes key = 0 at hnone
      omega

/-- A `Put` that is not ahead of its key finds the key, or creates it. -/
theorem Inv.found (hi : net.Inv) (hle : args.version.toNat ≤ net.writes args.key) :
    (net.server.put args).2.err ≠ .errNoKey := by
  intro hno
  have hnone := put_noKey hno
  have hzero : net.writes args.key = 0 := (hi.served.eq_none_iff args.key).mp hnone
  -- the version of an absent key is 0, so this `Put` would have succeeded
  have hver : args.version = 0 := UInt64.toNat_inj.mp (show _ = 0 by omega)
  have hok : (net.server.put args).2.err = .ok := by
    rw [put_err_eq_ok_iff, KVServer.view, hnone, hver]
    rfl
  rw [hno] at hok
  cases hok

end Net

namespace Sys

variable {σ α : Type} {P : Program σ α} {key : GoString} {keys : List GoString} {s t : Sys σ}
  {act : SysAction α}

/-- Nobody else `Put`s to one of the keys. -/
def apart (keys : List GoString) (_ : Sys σ) : SysAction α → Bool
  | .net act => keys.all fun key => foreign key act
  | _ => true

theorem apart_singleton (hs : s.step P key act = some t) :
    restrict (step P key) (apart [key]) s act = some t := by
  refine restrict_eq_some.mpr ⟨?_, hs⟩
  cases step_cases hs with
  | act hp hcause => rfl
  | resume hp hcause => rfl
  | net hf hnet => simp [apart, hf]

theorem reaches_apart (h : Reaches (step P key) s t) :
    Reaches (restrict (step P key) (apart [key])) s t := by
  refine h.invariant (Reaches.refl s) ?_
  intro u act v _ hs hu
  exact hu.snoc (apart_singleton hs)

/-- What holds in every run of a program that is never ahead of its keys. -/
structure Careful (P : Program σ α) (keys : List GoString) (s : Sys σ) : Prop where
  keyed : keys ≠ []
  inv : s.net.Inv
  wired : ∀ key ∈ keys, Wired P key s
  versions : ∀ key ∈ keys, s.net.Versions key
  found : ∀ n args, s.net.req n = some (.put args) → args.key ∈ keys →
    ¬ s.net.Answered n (.put ⟨.errNoKey⟩)

/-- The versions do not wrap around. -/
def Below (keys : List GoString) (s : Sys σ) : Prop := ∀ key ∈ keys, s.net.writes key < 2 ^ 64

theorem writes_mono (hs : s.step P key act = some t) (k : GoString) :
    s.net.writes k ≤ t.net.writes k := by
  obtain hsame | ⟨action, hnet⟩ := net_of_step hs
  · rw [hsame]
  · exact Net.writes_le_of_step hnet k

theorem writes_mono_reaches {guard : Sys σ → SysAction α → Bool}
    (h : Reaches (restrict (Sys.step P key) guard) s t) (k : GoString) :
    s.net.writes k ≤ t.net.writes k := by
  refine h.invariant (I := fun t ↦ s.net.writes k ≤ t.net.writes k) le_rfl ?_
  intro u a v _ hs hle
  exact hle.trans (writes_mono (restrict_eq_some.mp hs).2 k)

/-! ## What a process learns from a call -/

section Calls

variable {i j : Nat} {p q : Proc σ} {args : PutArgs} {r r' : Request} {v : View}

theorem Careful.req (h : Careful P keys s) (hp : s.procs[i]? = some p)
    (hr : P.request p.st = some r) : s.net.req p.call = some r := by
  obtain ⟨key, rest, rfl⟩ := List.exists_cons_of_ne_nil h.keyed
  exact (h.wired key (by simp)).waits i p r hp hr

theorem Careful.distinct (h : Careful P keys s) (hp : s.procs[i]? = some p)
    (hq : s.procs[j]? = some q) (hr : P.request p.st = some r) (hr' : P.request q.st = some r')
    (hcall : p.call = q.call) : i = j := by
  obtain ⟨key, rest, rfl⟩ := List.exists_cons_of_ne_nil h.keyed
  exact (h.wired key (by simp)).distinct i j p q r r' hp hq hr hr' hcall

/-- What the result of a `Put` says. -/
theorem Careful.put_result (h : Careful P keys s) {n : Nat}
    (hreq : s.net.req n = some (.put args)) (hkey : args.key ∈ keys) {err : Err}
    (hres : s.net.result n = some (.put err)) :
    (err = .ok ∧ s.net.Took n) ∨ (err = .errVersion ∧ ¬ s.net.Took n) ∨ err = .errMaybe := by
  obtain ⟨reply, retried, ha, heq⟩ := h.inv.answered_of_result hres
  obtain ⟨rfl, -⟩ | ⟨-, -, herr⟩ := clerkReturn_eq_put heq.symm
  · -- an answer is one of three codes, and `ErrNoKey` is not given here
    obtain ⟨a, req, hat⟩ := ha
    have hsame := h.inv.req_of_attempt hat
    rw [hreq, Option.some.injEq] at hsame
    subst hsame
    obtain ⟨kv, hkv⟩ := h.inv.served.reply _
      (mem_execLog.mpr ⟨n, a, (h.inv.exec_iff _ _ _ _).mpr hat⟩)
    have herr : err = (kv.put args).2.err := by
      simp only [KVServer.dispatch, Reply.put.injEq] at hkv
      rw [← hkv]
    obtain hok | hver | hno := put_err_cases kv args
    · obtain rfl := herr.trans hok
      exact .inl ⟨rfl, a, _, hat⟩
    · obtain rfl := herr.trans hver
      exact .inr (.inl ⟨rfl, h.inv.not_took_of_errVersion hres⟩)
    · obtain rfl := herr.trans hno
      exact absurd ⟨a, _, hat⟩ (h.found n args hreq hkey)
  · exact .inr (.inr herr)

/-- A returned `Put` is behind its key. -/
theorem Careful.put_behind (h : Careful P keys s) {n : Nat} {res : Result}
    (hreq : s.net.req n = some (.put args)) (hkey : args.key ∈ keys)
    (hres : s.net.result n = some res) : args.version.toNat < s.net.writes args.key := by
  obtain ⟨reply, _, ha, _⟩ := h.inv.answered_of_result hres
  exact (h.versions _ hkey).answered n args reply hreq rfl ha

/-- What a `Get` returned, the server has answered. -/
theorem Careful.get_result (h : Careful P keys s) {n : Nat} {value : GoString} {version : Tversion}
    {err : Err} (hres : s.net.result n = some (.get value version err)) :
    ∃ g, s.net.Answered n (.get g) ∧ g.err = err ∧
      (err = .ok → g.value = value ∧ g.version = version) ∧ (err ≠ .ok → version = 0) := by
  obtain ⟨reply, retried, ha, heq⟩ := h.inv.answered_of_result hres
  cases reply with
  | put reply =>
      simp only [clerkReturn, clerkPut] at heq
      split at heq <;> cases heq
  | get g =>
      refine ⟨g, ha, ?_⟩
      simp only [clerkReturn, clerkGet] at heq
      split at heq
      · rename_i hne
        simp only [Result.get.injEq] at heq
        exact ⟨heq.2.2.symm, fun hok ↦ absurd (heq.2.2.symm.trans hok) hne, fun _ ↦ heq.2.1⟩
      · rename_i hok
        simp only [ne_eq, not_not] at hok
        simp only [Result.get.injEq] at heq
        exact ⟨hok.trans heq.2.2.symm, fun _ ↦ ⟨heq.1.symm, heq.2.1.symm⟩,
          fun hne ↦ absurd heq.2.2 hne⟩

/-! What an answer or a write changes for a process that waits. -/

theorem Careful.took_answers (h : Careful P keys s) (hp : s.procs[i]? = some p)
    (hr : P.request p.st = some (.put args)) (hkey : args.key ∈ keys) {m : Nat}
    (ha : s.net.Answers keys m r v) : v.Took p.call ↔ s.net.Took p.call := by
  unfold View.Took
  rw [ha.answered]
  refine or_iff_left ?_
  rintro ⟨heq, hreply⟩
  have hreq := h.req hp hr
  rw [heq, ha.req, Option.some.injEq] at hreq
  subst hreq
  simp only [KVServer.dispatch, Reply.put.injEq] at hreply
  exact ha.refused args rfl hkey (by rw [← hreply])

theorem Careful.got_answers (h : Careful P keys s) (hp : s.procs[i]? = some p)
    (hr : P.request p.st = some (.get ⟨key⟩)) {m : Nat} (ha : s.net.Answers keys m r v)
    {g : GetReply} (hg : v.answered p.call (.get g)) :
    s.net.Answered p.call (.get g) ∨ g = s.net.server.get ⟨key⟩ := by
  rw [ha.answered] at hg
  refine hg.imp id ?_
  rintro ⟨heq, hreply⟩
  have hreq := h.req hp hr
  rw [heq, ha.req, Option.some.injEq] at hreq
  subst hreq
  simpa only [KVServer.dispatch, Reply.get.injEq] using hreply

/-- The `Put` of process `i` takes effect, not that of another. -/
theorem Careful.took_writes (h : Careful P keys s) (hp : s.procs[i]? = some p)
    (hr : P.request p.st = some (.put args)) (hq : s.procs[j]? = some q)
    (hr' : P.request q.st = some r') (hij : i ≠ j) (hw : s.net.Writes p.call args v) :
    v.Took q.call ↔ s.net.Took q.call := by
  unfold View.Took
  rw [hw.answered]
  refine or_iff_left ?_
  rintro ⟨heq, _⟩
  exact hij (h.distinct hq hp hr' hr heq).symm

theorem took_self {m : Nat} (hw : s.net.Writes m args v) : v.Took m :=
  (hw.answered m _).mpr (.inr ⟨rfl, rfl⟩)

theorem got_writes {m n : Nat} {g : GetReply} (hw : s.net.Writes m args v) :
    v.answered n (.get g) ↔ s.net.Answered n (.get g) := by
  rw [hw.answered]
  simp

end Calls

/-! ## What the steps keep -/

theorem Moved.view {i : Nat} {st : σ} (hm : Moved P s i st t) : t.net.view = s.net.view := by
  obtain ⟨_, hnet⟩ | ⟨r, _, hnet⟩ := hm.net_cases <;> rw [hnet]
  exact Net.view_quiet (Net.step_invoke s.net i r) rfl

theorem Careful.quiet {net : Net} {procs : List (Proc σ)} (h : Careful P keys s) (hi : net.Inv)
    (hw : ∀ key ∈ keys, Wired P key ⟨net, procs⟩)
    (hq : ∀ key ∈ keys, Net.Quiet key s.net net) : Careful P keys ⟨net, procs⟩ := by
  refine ⟨h.keyed, hi, hw, fun key hkey ↦ (h.versions key hkey).quiet h.inv (hq key hkey), ?_⟩
  intro n args hn hkey ha
  rw [(hq _ hkey).answered] at ha
  exact h.found n args ((hq _ hkey).req_before h.inv hn ha) hkey ha

/-- A process moves on, to a call whose `Put` is not ahead. -/
theorem Careful.moved {i : Nat} {st : σ} (h : Careful P keys s) (hm : Moved P s i st t)
    (htimely : ∀ args, P.request st = some (.put args) → args.key ∈ keys →
      args.version.toNat ≤ s.net.writes args.key) : Careful P keys t := by
  have hwired : ∀ key ∈ keys, Wired P key t := fun key hkey ↦ (h.wired key hkey).moved hm
  obtain ⟨_, hnet⟩ | ⟨r, hst, hnet⟩ := hm.net_cases <;> obtain ⟨net, procs⟩ := t <;>
    obtain rfl : net = _ := hnet
  · exact h.quiet h.inv hwired fun key _ ↦ Net.Quiet.refl _
  · refine h.quiet (h.inv.invoke i r) hwired fun key hkey ↦ Net.Quiet.invoke ?_
    rintro args rfl rfl
    exact htimely args hst hkey

/-- What a step of the network does to the keys. -/
inductive Effect (P : Program σ α) (keys : List GoString) (s : Sys σ) (v : View) : Prop where
  | quiet (hview : v = s.net.view)
  /-- The server answers without writing one of them. -/
  | answers {m : Nat} {r : Request} (ha : s.net.Answers keys m r v)
  /-- It performs a `Put` that its process still waits for. -/
  | writes {i : Nat} {p : Proc σ} {args : PutArgs} (hp : s.procs[i]? = some p)
      (hreq : P.request p.st = some (.put args)) (hkey : args.key ∈ keys)
      (hversion : args.version.toNat = s.net.writes args.key)
      (hfresh : ∀ reply, ¬ s.net.Answered p.call reply) (hw : s.net.Writes p.call args v)

theorem Careful.exec (h : Careful P keys s) (hb : Below keys s) {a m : Nat} {r : Request}
    (hat : s.net.attempts[a]? = some ⟨m, r, none⟩) :
    Careful P keys { s with net := s.net.exec a m r } ∧
      Effect P keys s (s.net.exec a m r).view := by
  have hi := h.inv
  have hs : s.net.step (.exec a) = some (s.net.exec a m r) := Net.step_iff.mpr (.exec hat)
  have hreq := hi.req_of_attempt hat
  have hwired : ∀ key ∈ keys, Wired P key { s with net := s.net.exec a m r } :=
    fun key hkey ↦ (h.wired key hkey).net rfl hs
  have hfound : ∀ n args, (s.net.exec a m r).req n = some (.put args) → args.key ∈ keys →
      ¬ (s.net.exec a m r).Answered n (.put ⟨.errNoKey⟩) := by
    intro n args hn hkey ha
    change s.net.req n = _ at hn
    obtain hold | ⟨rfl, hreply⟩ := (Net.answered_exec hat).mp ha
    · exact h.found n args hn hkey hold
    · rw [hreq, Option.some.injEq] at hn
      subst hn
      simp only [KVServer.dispatch, Reply.put.injEq] at hreply
      exact hi.found ((h.versions _ hkey).sent n args hreq rfl) (by rw [← hreply])
  by_cases hwrite : ∃ args, r = .put args ∧ args.key ∈ keys ∧ (s.net.server.put args).2.err = .ok
  · obtain ⟨args, rfl, hkey, hok⟩ := hwrite
    have hver := (hi.put_ok_iff (hb _ hkey)).mp hok
    -- it is not answered yet, so its process still waits for it
    obtain ⟨hfresh, hres⟩ := (h.versions _ hkey).unanswered hi hreq rfl hver
    obtain ⟨i, p, hp, hpr, rfl⟩ := (h.wired _ hkey).pending _ _ hreq rfl hres
    refine ⟨⟨h.keyed, hi.step hs, hwired, ?_, hfound⟩,
      .writes hp hpr hkey hver hfresh (Net.writes_exec_put hat hok)⟩
    intro key hmem
    by_cases hsame : args.key = key
    · exact (h.versions key hmem).exec_write hat hsame hok
    · refine (h.versions key hmem).exec_other hi (hb key hmem) hat ?_
      intro args' hr hkey'
      rw [Request.put.injEq] at hr
      exact absurd (hr ▸ hkey') hsame
  · have hother : ∀ args, r = .put args → args.key ∈ keys → (s.net.server.put args).2.err ≠ .ok :=
      fun args hr hkey hok ↦ hwrite ⟨args, hr, hkey, hok⟩
    refine ⟨⟨h.keyed, hi.step hs, hwired, ?_, hfound⟩, .answers (Net.answers_exec hi hat hother)⟩
    intro key hmem
    refine (h.versions key hmem).exec_other hi (hb key hmem) hat ?_
    intro args hr hkey
    exact hother args hr (by rw [hkey]; exact hmem)

theorem Careful.net {action : Action} {net : Net} (h : Careful P keys s) (hb : Below keys s)
    (hforeign : ∀ key ∈ keys, foreign key action = true) (hs : s.net.step action = some net) :
    Careful P keys { s with net } ∧ Effect P keys s net.view := by
  by_cases hq : Net.quiet action = true
  · have hwired : ∀ key ∈ keys, Wired P key { s with net } :=
      fun key hkey ↦ (h.wired key hkey).net (hforeign key hkey) hs
    refine ⟨h.quiet (h.inv.step hs) hwired ?_, .quiet (Net.view_quiet hs hq)⟩
    intro key hkey
    refine Net.Quiet.of_step hs hq ?_
    rintro clerk args rfl rfl
    have hf := hforeign _ hkey
    simp [foreign] at hf
  · cases Net.step_iff.mp hs with
    | exec hat => exact h.exec hb hat
    | _ => simp [Net.quiet] at hq

/-! ## Programs that write back -/

/-- Every `Put` to the key carries the version that the `Get` just before it returned. -/
structure WritesBack (P : Program σ α) (key : GoString) : Prop where
  act : ∀ st a st' args, P.act st a = some st' → P.request st' = some (.put args) → args.key ≠ key
  resume : ∀ st res st' args, P.resume st res = some st' → P.request st' = some (.put args) →
    args.key = key → P.request st = some (.get ⟨key⟩) ∧
      ∃ value err, res = .get value args.version err

/-- The version of a `Get` is behind the key, and that of a failed one is 0. -/
theorem WritesBack.timely (hP : WritesBack P key) (h : Careful P keys s) (hkeys : key ∈ keys)
    {i : Nat} {p : Proc σ} {st : σ} {args : PutArgs} (hp : s.procs[i]? = some p)
    (hcause : Cause P s.net p st) (hreq : P.request st = some (.put args)) (hkey : args.key = key) :
    args.version.toNat ≤ s.net.writes args.key := by
  cases hcause with
  | act _ hact => exact absurd hkey (hP.act _ _ _ _ hact hreq)
  | resume _ hres hresume =>
      obtain ⟨hget, value, err, rfl⟩ := hP.resume _ _ _ _ hresume hreq hkey
      obtain ⟨g, ha, rfl, hsame, hfailed⟩ := h.get_result hres
      by_cases hok : g.err = .ok
      · rw [hkey, ← (hsame hok).2]
        exact ((h.versions key hkeys).seen _ g (h.req hp hget) ha hok).1
      · rw [hfailed hok]
        exact Nat.zero_le _

/-! ## Outlines -/

/-- `shared` is about the keys, `stands` about a process; `γ` is what an outline remembers of the
past. -/
structure Outline (σ γ : Type) where
  shared : γ → View → Prop
  stands : γ → View → Nat → Proc σ → Prop

namespace Outline

variable {γ : Type}

structure Holds (O : Outline σ γ) (P : Program σ α) (keys : List GoString) (g : γ) (s : Sys σ) :
    Prop where
  careful : Careful P keys s
  shared : O.shared g s.net.view
  stands : ∀ i p, s.procs[i]? = some p → O.stands g s.net.view i p

/-- What has to be proved of the code between two calls, and of the handlers. -/
structure Proved (O : Outline σ γ) (P : Program σ α) (keys : List GoString) : Prop where
  /-- No `Put` is sent ahead of its key. -/
  timely : ∀ {g : γ} {s : Sys σ} {i : Nat} {p : Proc σ} {st : σ} {args : PutArgs},
    O.Holds P keys g s → Below keys s → s.procs[i]? = some p → Cause P s.net p st →
    P.request st = some (.put args) → args.key ∈ keys → args.version.toNat ≤ s.net.writes args.key
  /-- A process moves on, to a call that has no answer yet. -/
  moves : ∀ {g : γ} {s : Sys σ} {i n : Nat} {p : Proc σ} {st : σ},
    O.Holds P keys g s → Below keys s → s.procs[i]? = some p → Cause P s.net p st →
    (∀ reply, ¬ s.net.Answered n reply) → O.stands g s.net.view i ⟨st, n⟩
  answers : ∀ {g : γ} {s : Sys σ} {m : Nat} {r : Request} {v : View},
    O.Holds P keys g s → Below keys s → s.net.Answers keys m r v →
    O.shared g v ∧ ∀ i p, s.procs[i]? = some p → O.stands g v i p
  writes : ∀ {g : γ} {s : Sys σ} {i : Nat} {p : Proc σ} {args : PutArgs} {v : View},
    O.Holds P keys g s → Below keys s → s.procs[i]? = some p →
    P.request p.st = some (.put args) → args.key ∈ keys →
    args.version.toNat = s.net.writes args.key → (∀ reply, ¬ s.net.Answered p.call reply) →
    s.net.Writes p.call args v → v.writes args.key < 2 ^ 64 →
    ∃ g', O.shared g' v ∧ ∀ j q, s.procs[j]? = some q → O.stands g' v j q

variable {O : Outline σ γ} {g : γ}

theorem Holds.moved {i : Nat} {st : σ} (h : O.Holds P keys g s) (hm : Moved P s i st t)
    (htimely : ∀ args, P.request st = some (.put args) → args.key ∈ keys →
      args.version.toNat ≤ s.net.writes args.key)
    (hstands : O.stands g s.net.view i ⟨st, s.net.calls.length⟩) : O.Holds P keys g t := by
  have hview := hm.view
  refine ⟨h.careful.moved hm htimely, by rw [hview]; exact h.shared, ?_⟩
  intro j q hq
  rw [hview]
  obtain ⟨rfl, rfl⟩ | ⟨_, hold⟩ := hm.cases hq
  · exact hstands
  · exact h.stands j q hold

theorem Proved.enter (hO : O.Proved P keys) (h : O.Holds P keys g s) (hb : Below keys s) {i : Nat}
    {p : Proc σ} {st : σ} (hp : s.procs[i]? = some p) (hcause : Cause P s.net p st) :
    O.Holds P keys g (s.enter P i st) :=
  h.moved (moved_enter hp hcause) (fun _ hst hkey ↦ hO.timely h hb hp hcause hst hkey)
    (hO.moves h hb hp hcause h.careful.inv.not_answered_next)

theorem Proved.net (hO : O.Proved P keys) (h : O.Holds P keys g s) (hb : Below keys s)
    {action : Action} {net : Net} (hforeign : ∀ key ∈ keys, foreign key action = true)
    (hs : s.net.step action = some net) (hb' : Below keys { s with net }) :
    ∃ g', O.Holds P keys g' { s with net } := by
  obtain ⟨hcareful, heffect⟩ := h.careful.net hb hforeign hs
  cases heffect with
  | quiet hview => exact ⟨g, hcareful, hview ▸ h.shared, hview ▸ h.stands⟩
  | answers ha =>
      obtain ⟨hshared, hstands⟩ := hO.answers h hb ha
      exact ⟨g, hcareful, hshared, hstands⟩
  | writes hp hreq hkey hversion hfresh hw =>
      obtain ⟨g', hshared, hstands⟩ := hO.writes h hb hp hreq hkey hversion hfresh hw (hb' _ hkey)
      exact ⟨g', hcareful, hshared, hstands⟩

theorem Proved.step (hO : O.Proved P keys) (h : O.Holds P keys g s) (hb : Below keys s)
    (hb' : Below keys t) (hs : restrict (Sys.step P key) (apart keys) s act = some t) :
    ∃ g', O.Holds P keys g' t := by
  obtain ⟨hapart, hstep⟩ := restrict_eq_some.mp hs
  cases step_cases hstep with
  | act hp hcause => exact ⟨g, hO.enter h hb hp hcause⟩
  | resume hp hcause => exact ⟨g, hO.enter h hb hp hcause⟩
  | net hf hnet =>
      refine hO.net h hb ?_ hnet hb'
      simpa only [apart, List.all_eq_true] using hapart

theorem below_of_step (hs : restrict (Sys.step P key) (apart keys) s act = some t)
    (hb : Below keys t) : Below keys s :=
  fun k hk ↦ lt_of_le_of_lt (writes_mono (restrict_eq_some.mp hs).2 k) (hb k hk)

theorem below_of_reaches (h : Reaches (restrict (Sys.step P key) (apart keys)) s t)
    (hb : Below keys t) : Below keys s := by
  refine h.invariant (I := fun t ↦ Below keys t → Below keys s) id ?_ hb
  intro u a v _ hs ih hb
  exact ih (below_of_step hs hb)

/-- The rule: an outline that is proved and holds at the start holds in every run. -/
theorem Proved.reaches (hO : O.Proved P keys) {s₀ : Sys σ} (hstart : ∃ g, O.Holds P keys g s₀)
    (h : Reaches (restrict (Sys.step P key) (apart keys)) s₀ s) (hb : Below keys s) :
    ∃ g, O.Holds P keys g s := by
  refine h.invariant_below (B := Below keys) (I := fun s ↦ ∃ g, O.Holds P keys g s)
    (fun _ _ _ hs hb ↦ below_of_step hs hb) hstart ?_ hb
  rintro u a v _ hs hb ⟨g, hg⟩
  exact hO.step hg (below_of_step hs hb) hb hs

theorem writes_step_le (hs : restrict (Sys.step P key) (apart keys) s act = some t) (k : GoString) :
    t.net.writes k ≤ s.net.writes k + 1 := by
  obtain hsame | ⟨action, hnet⟩ := net_of_step (restrict_eq_some.mp hs).2
  · rw [hsame]
    exact Nat.le_succ _
  · exact Net.writes_step_le hnet k

/-- An outline that bounds the writes itself. -/
theorem Proved.reaches_bounded (hO : O.Proved P keys) {s₀ : Sys σ}
    (hstart : ∃ g, O.Holds P keys g s₀)
    (hbound : ∀ g s, O.Holds P keys g s → ∀ key ∈ keys, s.net.writes key + 1 < 2 ^ 64)
    (h : Reaches (restrict (Sys.step P key) (apart keys)) s₀ s) : ∃ g, O.Holds P keys g s := by
  refine h.invariant (I := fun s ↦ ∃ g, O.Holds P keys g s) hstart ?_
  rintro u act v _ hs ⟨g, hg⟩
  have hb := hbound g u hg
  refine hO.step hg (fun k hk ↦ Nat.lt_of_succ_lt (hb k hk)) (fun k hk ↦ ?_) hs
  exact Nat.lt_of_le_of_lt (writes_step_le hs k) (hb k hk)

end Outline

/-! ## Calls that are made later -/

section Later

variable {step : Sys σ → SysAction α → Option (Sys σ)} {n : Nat} {u v : Sys σ}

/-- Each answer to call `n` was given at some moment of a run from `s` to `t`. -/
structure Dated (step : Sys σ → SysAction α → Option (Sys σ)) (s : Sys σ) (n : Nat) (t : Sys σ) :
    Prop where
  inv : t.net.Inv
  moment : ∀ reply r, t.net.req n = some r → t.net.Answered n reply →
    ∃ u, Reaches step s u ∧ Reaches step u t ∧ reply = (u.net.server.dispatch r).2

theorem Dated.quiet {action : Action} (h : Dated step s n u) (hs : step u act = some v)
    (hstep : u.net.step action = some v.net) (hq : Net.quiet action = true) : Dated step s n v := by
  refine ⟨h.inv.step hstep, ?_⟩
  intro reply r hr ha
  rw [(Net.quiet_step hstep hq).2.2] at ha
  obtain ⟨r', hr'⟩ := h.inv.answered_req ha
  have hsame := Net.req_of_step hstep hr'
  rw [hr, Option.some.injEq] at hsame
  subst hsame
  obtain ⟨w, hw, hwu, hreply⟩ := h.moment reply r hr' ha
  exact ⟨w, hw, hwu.snoc hs, hreply⟩

theorem Dated.moved {i : Nat} {st : σ} (h : Dated step s n u) (hm : Moved P u i st v)
    (hs : step u act = some v) : Dated step s n v := by
  obtain ⟨_, hnet⟩ | ⟨r, _, hnet⟩ := hm.net_cases
  · refine ⟨by rw [hnet]; exact h.inv, ?_⟩
    intro reply r hr ha
    rw [hnet] at hr ha
    obtain ⟨w, hw, hwu, hreply⟩ := h.moment reply r hr ha
    exact ⟨w, hw, hwu.snoc hs, hreply⟩
  · refine h.quiet hs ?_ (show Net.quiet (.invoke i r) = true from rfl)
    rw [hnet]
    exact Net.step_invoke u.net i r

theorem Dated.exec {a m : Nat} {r : Request} (h : Dated step s n u) (hu : Reaches step s u)
    (hs : step u act = some { u with net := u.net.exec a m r })
    (hat : u.net.attempts[a]? = some ⟨m, r, none⟩) :
    Dated step s n { u with net := u.net.exec a m r } := by
  refine ⟨h.inv.step (Net.step_iff.mpr (.exec hat)), ?_⟩
  intro reply r' hr ha
  change u.net.req n = some r' at hr
  obtain hold | ⟨rfl, hreply⟩ := (Net.answered_exec hat).mp ha
  · obtain ⟨w, hw, hwu, hreply⟩ := h.moment reply r' hr hold
    exact ⟨w, hw, hwu.snoc hs, hreply⟩
  · have hsame := h.inv.req_of_attempt hat
    rw [hr, Option.some.injEq] at hsame
    subst hsame
    exact ⟨u, hu, (Reaches.refl u).snoc hs, hreply⟩

/-- A call that is made after `s` is executed after `s`. -/
theorem answered_between {guard : Sys σ → SysAction α → Bool} {r : Request} {reply : Reply}
    (h : Reaches (restrict (Sys.step P key) guard) s t) (hi : s.net.Inv)
    (hn : s.net.calls.length ≤ n) (hreq : t.net.req n = some r) (ha : t.net.Answered n reply) :
    ∃ u, Reaches (restrict (Sys.step P key) guard) s u ∧
      Reaches (restrict (Sys.step P key) guard) u t ∧ reply = (u.net.server.dispatch r).2 := by
  refine Dated.moment (h.invariant (I := Dated (restrict (Sys.step P key) guard) s n)
    ⟨hi, ?_⟩ ?_) reply r hreq ha
  · intro reply r hr _
    have hlt := Net.lt_of_req hr
    omega
  · intro u act v hu hs hdated
    cases step_cases (restrict_eq_some.mp hs).2 with
    | act hp hcause => exact hdated.moved (moved_enter hp hcause) hs
    | resume hp hcause => exact hdated.moved (moved_enter hp hcause) hs
    | @net action net hf hnet =>
        by_cases hq : Net.quiet action = true
        · exact hdated.quiet hs hnet hq
        · cases Net.step_iff.mp hnet with
          | exec hat => exact hdated.exec hu hs hat
          | _ => simp [Net.quiet] at hq

end Later

/-! ## Starting -/

/-- Processes that have made no call yet, on a network whose calls have all returned. -/
theorem Careful.start {net : Net} {sts : List σ} (hkeys : keys ≠ []) (hi : net.Inv)
    (hversions : ∀ key ∈ keys, net.Versions key)
    (hfound : ∀ n, ¬ net.Answered n (.put ⟨.errNoKey⟩))
    (hreturned : ∀ n r, net.req n = some r → net.result n ≠ none)
    (hidle : ∀ st ∈ sts, P.request st = none) : Careful P keys (Sys.start net sts) :=
  ⟨hkeys, hi, fun _ _ ↦ Wired.start hreturned hidle, hversions, fun n _ _ _ ↦ hfound n⟩

theorem Careful.start_prepared {value : GoString} {v : Nat} {sts : List σ}
    (hidle : ∀ st ∈ sts, P.request st = none) :
    Careful P [key] (Sys.start (Net.prepared key value v) sts) := by
  have hspec := Net.prepared_spec key value v
  refine Careful.start (List.cons_ne_nil _ _)
    (Net.inv_of_reaches (Net.reaches_prepared key value v)) ?_ ?_ hspec.returned hidle
  · intro k hk
    rw [List.mem_singleton.mp hk]
    exact hspec.versions
  · intro n ha
    cases hspec.answers n _ ha

theorem Careful.start_init {sts : List σ} (hkeys : keys ≠ [])
    (hidle : ∀ st ∈ sts, P.request st = none) : Careful P keys (Sys.start Net.init sts) := by
  refine Careful.start hkeys Net.Inv.init ?_ ?_ ?_ hidle
  · intro key _
    constructor <;> intro n <;> simp [Net.req, Net.init]
  · intro n ha
    simp [Net.Answered, Net.init] at ha
  · intro n r hn
    simp [Net.req, Net.init] at hn

end Sys

end GoLabs.KvSrv
