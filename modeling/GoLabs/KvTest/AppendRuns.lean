import GoLabs.KvTest.Appends

/-!
# No append is lost or doubled

The list under the key and its version grow together.  Where a client stands says which of its own
entries are in the list (`Stands`): those of the iterations that ended, less some that ended with
`ErrMaybe`, and the entry of the iteration it is in as soon as its `Put` has taken effect.
-/

open GoLabs.Reasoning GoLabs.KvSrv

namespace GoLabs.KvTest

/-- The numbers of the entries of client `me`, in their order. -/
def mine (me : Nat) (es : List Entry) : List Nat := (es.filter fun e => e.id = me).map Entry.n

theorem mine_snoc (me : Nat) (es : List Entry) (e : Entry) :
    mine me (es ++ [e]) = if e.id = me then mine me es ++ [e.n] else mine me es := by
  unfold mine
  rw [List.filter_append, List.map_append]
  by_cases h : e.id = me <;> simp [h]

/-- The entries of a client whose iterations so far have all ended. -/
structure Appended (ns : List Nat) (c : Client) : Prop where
  increasing : ns.Pairwise (· < ·)
  below : ∀ n ∈ ns, n < c.i
  ok : ∀ k, c.outcomes[k]? = some .ok → k ∈ ns
  oks : c.nok ≤ ns.length

/-- What a client has counted. -/
structure Counted (c : Client) : Prop where
  iterations : c.outcomes.length = c.i
  total : c.nok + c.nmay = c.i
  outcome : ∀ err ∈ c.outcomes, err = .ok ∨ err = .errMaybe
  result : ∀ res, c.pc = .returned res → res = ⟨c.nok, c.nmay⟩

/-- What follows about the list `es` under the key from where a client stands. -/
def Stands (J : Codec (List Entry)) (es : List Entry) (v : View) (p : Proc Client) : Prop :=
  match p.st.pc with
  | .get =>
      Appended (mine p.st.me es) p.st ∧ p.st.i < v.writes key ∧
      ∀ g, v.answered p.call (.get g) →
        g.err = .ok ∧ (∃ es', g.value = J.marshal es') ∧ p.st.i < g.version.toNat
  | .put es' ver =>
      es'.length < 2 ^ 63 ∧ p.st.i < ver.toNat ∧
      (v.Took p.call → Appended (mine p.st.me es) (p.st.ended .ok)) ∧
      (¬ v.Took p.call → Appended (mine p.st.me es) p.st ∧
        (ver.toNat = v.writes key → es' = es ++ [⟨p.st.me, p.st.i⟩]))
  | .top | .returned _ | .panicked => Appended (mine p.st.me es) p.st ∧ p.st.i < v.writes key
  | .fatal => False

/-- `es` is the list under the key. -/
structure Listed (J : Codec (List Entry)) (nclnt : Nat) (es : List Entry) (v : View) : Prop where
  stored : ∃ ver, v.server.m key = some ⟨J.marshal es, ver⟩
  length : es.length + 1 = v.writes key
  int : es.length < 2 ^ 63
  ids : ∀ e ∈ es, e.id < nclnt

/-- What holds of client `i`. -/
structure Appender (J : Codec (List Entry)) (nclnt : Nat) (es : List Entry) (v : View) (i : Nat)
    (p : Proc Client) : Prop where
  known : i < nclnt
  named : p.st.me = i
  counted : Counted p.st
  stands : Stands J es v p

def appending (J : Codec (List Entry)) (nclnt : Nat) : Sys.Outline Client (List Entry) :=
  { shared := Listed J nclnt, stands := Appender J nclnt }

abbrev Appends (J : Codec (List Entry)) (nclnt : Nat) (es : List Entry) (s : Sys Client) : Prop :=
  (appending J nclnt).Holds (program J) [key] es s

/-! ## Iterations -/

variable {J : Codec (List Entry)} {c c' : Client} {ns : List Nat} {es : List Entry}

/-- The entry of the current iteration is added. -/
theorem Appended.push (h : Appended ns c) (hc : Counted c) :
    Appended (ns ++ [c.i]) (c.ended .ok) := by
  constructor
  · rw [List.pairwise_append]
    refine ⟨h.increasing, List.pairwise_singleton _ _, ?_⟩
    intro n hn k hk
    rw [List.mem_singleton.mp hk]
    exact h.below n hn
  · intro n hn
    show n < c.i + 1
    obtain hold | hnew := List.mem_append.mp hn
    · have hlt := h.below n hold
      omega
    · rw [List.mem_singleton.mp hnew]
      omega
  · intro k hk
    obtain hold | ⟨hk, _⟩ := getElem?_snoc_eq_some.mp hk
    · exact List.mem_append_left _ (h.ok k hold)
    · rw [hk, hc.iterations]
      simp
  · rw [List.length_append]
    have hle := h.oks
    show c.nok + 1 ≤ _
    simpa using hle

/-- An iteration that ended with `ErrMaybe` may have added its entry. -/
theorem Appended.maybe (h : Appended ns (c.ended .ok)) : Appended ns (c.ended .errMaybe) := by
  refine ⟨h.increasing, h.below, ?_, ?_⟩
  · intro k hk
    obtain hold | ⟨_, herr⟩ := getElem?_snoc_eq_some.mp hk
    · exact h.ok k (getElem?_snoc_eq_some.mpr (.inl hold))
    · cases herr
  · have hle := h.oks
    change c.nok + 1 ≤ _ at hle
    show c.nok ≤ _
    omega

/-- Or not. -/
theorem Appended.skip (h : Appended ns c) : Appended ns (c.ended .errMaybe) := by
  refine ⟨h.increasing, ?_, ?_, h.oks⟩
  · intro n hn
    have hlt := h.below n hn
    show n < c.i + 1
    omega
  · intro k hk
    obtain hold | ⟨_, herr⟩ := getElem?_snoc_eq_some.mp hk
    · exact h.ok k hold
    · cases herr

theorem Appended.congr (h : Appended ns c) (hi : c'.i = c.i) (hnok : c'.nok = c.nok)
    (hout : c'.outcomes = c.outcomes) : Appended ns c' := by
  obtain ⟨hinc, hbelow, hok, hoks⟩ := h
  rw [← hi] at hbelow
  rw [← hout] at hok
  rw [← hnok] at hoks
  exact ⟨hinc, hbelow, hok, hoks⟩

theorem Counted.ended (h : Counted c) {err : Err} (herr : err = .ok ∨ err = .errMaybe) :
    Counted (c.ended err) := by
  have htotal := h.total
  refine ⟨?_, ?_, ?_, ?_⟩
  · show (c.outcomes ++ [err]).length = c.i + 1
    rw [List.length_append, h.iterations]
    rfl
  · show (if err = .ok then c.nok + 1 else c.nok) + (if err = .ok then c.nmay else c.nmay + 1) =
      c.i + 1
    split <;> omega
  · intro o ho
    obtain hold | hnew := List.mem_append.mp ho
    · exact h.outcome o hold
    · rw [List.mem_singleton.mp hnew]
      exact herr
  · intro res hres
    cases hres

theorem Counted.congr (h : Counted c) {pc : AppendPc} (hpc : ∀ res, pc ≠ .returned res) :
    Counted { c with pc } :=
  ⟨h.iterations, h.total, h.outcome, fun res hres ↦ absurd hres (hpc res)⟩

theorem Counted.of_cause {net : Net} {p : Proc Client} (h : Counted p.st)
    (hcause : Sys.Cause (program J) net p c) : Counted c := by
  cases hcause with
  | act _ hact =>
      obtain ⟨_, rfl | rfl⟩ := act_cases hact
      · exact h.congr (by simp)
      · exact ⟨h.iterations, h.total, h.outcome, fun res hres ↦ (AppendPc.returned.inj hres).symm⟩
  | resume _ _ hresume =>
      cases resumed_of_resume hresume with
      | read _ _ _ => exact h.congr (by simp)
      | panicked _ _ _ => exact h.congr (by simp)
      | fatal _ _ => exact h.congr (by simp)
      | ended _ herr => exact h.ended herr
      | again _ _ _ => exact h.congr (by simp)

theorem me_of_cause {net : Net} {p : Proc Client} (hcause : Sys.Cause (program J) net p c) :
    c.me = p.st.me := by
  cases hcause with
  | act _ hact => obtain ⟨_, rfl | rfl⟩ := act_cases hact <;> rfl
  | resume _ _ hresume => cases resumed_of_resume hresume <;> rfl

/-! ## Steps -/

section Steps

variable {nclnt : Nat} {s t : Sys Client} {v : View} {p : Proc Client} {i n : Nat}

theorem key_mem : key ∈ [key] := List.mem_singleton.mpr rfl

theorem request_of_get (hpc : c.pc = .get) : (program J).request c = some (.get ⟨key⟩) := by
  simp only [program, Client.request, hpc]

theorem request_of_put {es' : List Entry} {ver : Tversion} (hpc : c.pc = .put es' ver) :
    (program J).request c = some (.put ⟨key, J.marshal es', ver⟩) := by
  simp only [program, Client.request, hpc]

theorem Stands.act {signal : Signal} (h : Stands J es v p) (hact : p.st.act signal = some c)
    (hfresh : ∀ reply, ¬ v.answered n reply) : Stands J es v ⟨c, n⟩ := by
  obtain ⟨hpc, hc⟩ := act_cases hact
  unfold Stands at h
  simp only [hpc] at h
  obtain ⟨happ, hi⟩ := h
  obtain rfl | rfl := hc
  · exact ⟨happ.congr rfl rfl rfl, hi, fun g ha ↦ absurd ha (hfresh _)⟩
  · exact ⟨happ.congr rfl rfl rfl, hi⟩

theorem Appends.stands_resume (h : Appends J nclnt es s) {res : Result}
    (hp : s.procs[i]? = some p) (hres : s.net.result p.call = some res)
    (hresumed : Resumed J p.st res c) (hfresh : ∀ reply, ¬ s.net.Answered n reply) :
    Stands J es s.net.view ⟨c, n⟩ := by
  have hstands := (h.stands i p hp).stands
  have hfreshPut : ¬ s.net.view.Took n := hfresh _
  unfold Stands at hstands
  cases hresumed with
  | @read val es' ver hpc hes hint =>
      simp only [hpc] at hstands
      obtain ⟨happ, _, hans⟩ := hstands
      obtain ⟨g, ha, herr, hsame, _⟩ := h.careful.get_result hres
      obtain ⟨hvalue, hversion⟩ := hsame rfl
      have hi := (hans g ha).2.2
      rw [hversion] at hi
      refine ⟨by simpa using hint, hi, fun htook ↦ absurd htook hfreshPut, fun _ ↦ ?_⟩
      refine ⟨happ.congr rfl rfl rfl, ?_⟩
      -- the list that was read is still there
      intro hcur
      obtain ⟨ver', hstored⟩ := h.shared.stored
      have hseen := (h.careful.versions key key_mem).seen _ g
        (h.careful.req hp (request_of_get hpc)) ha herr
      have hsame := hseen.2 (by rw [hversion]; exact hcur)
      rw [show s.net.server.m key = _ from hstored, Option.some.injEq, StoredValue.mk.injEq,
        hvalue] at hsame
      rw [← hsame.1, J.round, Option.some.injEq] at hes
      rw [hes]
  | panicked hpc hes hint =>
      simp only [hpc] at hstands
      exact ⟨hstands.1.congr rfl rfl rfl, hstands.2.1⟩
  | @fatal val ver err hpc hbad =>
      simp only [hpc] at hstands
      obtain ⟨g, ha, rfl, hsame, _⟩ := h.careful.get_result hres
      obtain ⟨hok, ⟨es', hvalue⟩, _⟩ := hstands.2.2 g ha
      obtain hne | hnone := hbad
      · exact absurd hok hne
      · rw [← (hsame hok).1, hvalue, J.round] at hnone
        cases hnone
  | @ended es' ver err hpc herr =>
      simp only [hpc] at hstands
      obtain ⟨_, hi, hyes, hno⟩ := hstands
      have hbehind : ver.toNat < s.net.writes key :=
        h.careful.put_behind (h.careful.req hp (request_of_put hpc)) key_mem hres
      constructor
      · show Appended (mine p.st.me es) (p.st.ended err)
        obtain rfl | rfl := herr
        · exact hyes (h.careful.inv.took_of_ok hres)
        · by_cases htook : s.net.view.Took p.call
          · exact (hyes htook).maybe
          · exact (hno htook).1.skip
      · show p.st.i + 1 < s.net.writes key
        omega
  | @again es' ver err hpc hok hmaybe =>
      simp only [hpc] at hstands
      obtain ⟨_, hi, _, hno⟩ := hstands
      have hreq := h.careful.req hp (request_of_put hpc)
      have hbehind : ver.toNat < s.net.writes key := h.careful.put_behind hreq key_mem hres
      obtain ⟨rfl, _⟩ | ⟨_, hnot⟩ | rfl := h.careful.put_result hreq key_mem hres
      · exact absurd rfl hok
      · refine ⟨(hno hnot).1.congr rfl rfl rfl, ?_, fun g ha ↦ absurd ha (hfresh _)⟩
        show p.st.i < s.net.writes key
        omega
      · exact absurd rfl hmaybe

/-- The server has answered without writing the key. -/
theorem Appends.stands_answers (h : Appends J nclnt es s) (hb : Sys.Below [key] s)
    (hp : s.procs[i]? = some p) {m : Nat} {r : Request} (ha : s.net.Answers [key] m r v) :
    Stands J es v p := by
  have hstands := (h.stands i p hp).stands
  have hwrites : v.writes key = s.net.view.writes key := ha.writes key key_mem
  unfold Stands at hstands ⊢
  cases hpc : p.st.pc with
  | get =>
      simp only [hpc, hwrites] at hstands ⊢
      refine ⟨hstands.1, hstands.2.1, ?_⟩
      intro g hg
      obtain hold | rfl := h.careful.got_answers hp (request_of_get hpc) ha hg
      · exact hstands.2.2 g hold
      · obtain ⟨ver, hstored⟩ := h.shared.stored
        have hver := (h.careful.inv.writes_of_some (hb key key_mem) hstored).1
        simp only [KVServer.get, show s.net.server.m key = _ from hstored]
        refine ⟨trivial, ⟨es, rfl⟩, ?_⟩
        simp only at hver
        rw [hver]
        exact hstands.2.1
  | put es' ver =>
      have htook : v.Took p.call ↔ s.net.view.Took p.call :=
        h.careful.took_answers hp (request_of_put hpc) key_mem ha
      simpa only [hpc, htook, hwrites] using hstands
  | top => simpa only [hpc, hwrites] using hstands
  | returned res => simpa only [hpc, hwrites] using hstands
  | panicked => simpa only [hpc, hwrites] using hstands
  | fatal => simp only [hpc] at hstands

/-- A client whose `Put` is about to take effect is going to add exactly its next entry. -/
theorem Appends.write (h : Appends J nclnt es s) (hp : s.procs[i]? = some p) {args : PutArgs}
    (hreq : (program J).request p.st = some (.put args))
    (hversion : args.version.toNat = s.net.writes args.key)
    (hfresh : ∀ reply, ¬ s.net.Answered p.call reply) :
    p.st.pc = .put (es ++ [⟨i, p.st.i⟩]) args.version ∧ args.key = key ∧
      args.value = J.marshal (es ++ [⟨i, p.st.i⟩]) ∧ es.length + 1 < 2 ^ 63 ∧
      Appended (mine i es) p.st := by
  obtain ⟨_, hme, _, hstands⟩ := h.stands i p hp
  simp only [program, Client.request] at hreq
  unfold Stands at hstands
  cases hpc : p.st.pc with
  | put es' ver =>
      simp only [hpc, Option.some.injEq, Request.put.injEq] at hreq
      subst hreq
      simp only [hpc, hme] at hstands
      obtain ⟨hint, _, _, hno⟩ := hstands
      obtain ⟨happ, hlist⟩ := hno (hfresh _)
      have hes := hlist hversion
      subst hes
      exact ⟨rfl, rfl, rfl, by simpa using hint, happ⟩
  | _ => simp [hpc] at hreq

theorem Appends.stands_writes (h : Appends J nclnt es s) {j : Nat} {q : Proc Client}
    {args : PutArgs} (hp : s.procs[i]? = some p)
    (hreq : (program J).request p.st = some (.put args))
    (hversion : args.version.toNat = s.net.writes args.key)
    (hfresh : ∀ reply, ¬ s.net.Answered p.call reply) (hw : s.net.Writes p.call args v)
    (hq : s.procs[j]? = some q) : Stands J (es ++ [⟨i, p.st.i⟩]) v q := by
  obtain ⟨hpc, hkey, _, hint, happ⟩ := h.write hp hreq hversion hfresh
  have hwrites : v.writes key = s.net.writes key + 1 := by
    rw [← hkey]
    exact hw.written
  obtain ⟨_, hmej, hcounted, hstands⟩ := h.stands j q hq
  by_cases hij : i = j
  · -- the writer: its entry is the last one
    subst hij
    rw [hp, Option.some.injEq] at hq
    subst hq
    unfold Stands at hstands ⊢
    simp only [hpc] at hstands ⊢
    refine ⟨hstands.1, hstands.2.1, fun _ ↦ ?_, fun hno ↦ absurd (Sys.took_self hw) hno⟩
    rw [hmej, mine_snoc, if_pos rfl]
    exact happ.push hcounted
  · -- another client: its entries are as before, and a version it has read is behind
    have hmine : mine q.st.me (es ++ [⟨i, p.st.i⟩]) = mine q.st.me es := by
      rw [mine_snoc, if_neg]
      simpa only [hmej] using hij
    have hgrown : ∀ {k : Nat}, k < s.net.view.writes key → k < v.writes key := by
      intro k hk
      change k < s.net.writes key at hk
      omega
    unfold Stands at hstands ⊢
    rw [hmine]
    cases hqpc : q.st.pc with
    | get =>
        simp only [hqpc] at hstands ⊢
        exact ⟨hstands.1, hgrown hstands.2.1, fun g ha ↦ hstands.2.2 g ((Sys.got_writes hw).mp ha)⟩
    | put es' ver =>
        simp only [hqpc] at hstands ⊢
        have hsent : ver.toNat ≤ s.net.writes key := (h.careful.versions key key_mem).sent q.call _
          (h.careful.req hq (request_of_put hqpc)) rfl
        have htook : v.Took q.call ↔ s.net.view.Took q.call :=
          h.careful.took_writes hp hreq hq (request_of_put hqpc) hij hw
        rw [htook]
        obtain ⟨hlen, hi, hyes, hno⟩ := hstands
        exact ⟨hlen, hi, hyes, fun hnot ↦ ⟨(hno hnot).1, fun hcur ↦ by omega⟩⟩
    | top =>
        simp only [hqpc] at hstands ⊢
        exact ⟨hstands.1, hgrown hstands.2⟩
    | returned res =>
        simp only [hqpc] at hstands ⊢
        exact ⟨hstands.1, hgrown hstands.2⟩
    | panicked =>
        simp only [hqpc] at hstands ⊢
        exact ⟨hstands.1, hgrown hstands.2⟩
    | fatal => simp only [hqpc] at hstands

end Steps

/-! ## Runs -/

section Runs

variable {s t : Sys Client} {act : SysAction Signal} {nclnt : Nat}

theorem appending_proved (J : Codec (List Entry)) (nclnt : Nat) :
    (appending J nclnt).Proved (program J) [key] where
  timely h _ hp hcause hreq hkey :=
    (program_writesBack J).timely h.careful key_mem hp hcause hreq (List.mem_singleton.mp hkey)
  moves {es s i n p c} h _ hp hcause hfresh := by
    obtain ⟨hknown, hnamed, hcounted, hstands⟩ := h.stands i p hp
    refine ⟨hknown, (me_of_cause hcause).trans hnamed, hcounted.of_cause hcause, ?_⟩
    cases hcause with
    | act _ hact => exact hstands.act hact hfresh
    | resume _ hres hresume =>
        exact Appends.stands_resume h hp hres (resumed_of_resume hresume) hfresh
  answers {es s m r v} h hb ha := by
    obtain ⟨⟨ver, hstored⟩, hlength, hint, hids⟩ := h.shared
    refine ⟨⟨⟨ver, ?_⟩, ?_, hint, hids⟩, fun i p hp ↦ ?_⟩
    · rw [ha.server key key_mem]
      exact hstored
    · rw [ha.writes key key_mem]
      exact hlength
    · obtain ⟨hknown, hnamed, hcounted, _⟩ := h.stands i p hp
      exact ⟨hknown, hnamed, hcounted, Appends.stands_answers h hb hp ha⟩
  writes {es s i p args v} h _ hp hreq _ hversion hfresh hw _ := by
    obtain ⟨_, hkey, hvalue, hint, _⟩ := Appends.write h hp hreq hversion hfresh
    refine ⟨es ++ [⟨i, p.st.i⟩], ⟨⟨args.version + 1, ?_⟩, ?_, ?_, ?_⟩, fun j q hq ↦ ?_⟩
    · rw [← hvalue, ← hkey]
      exact hw.stored
    · have hwritten := hw.written
      have hlength : es.length + 1 = s.net.writes key := h.shared.length
      rw [hkey] at hwritten
      rw [List.length_append, List.length_singleton, hlength, hwritten]
    · simpa using hint
    · intro e he
      obtain hold | hnew := List.mem_append.mp he
      · exact h.shared.ids e hold
      · rw [List.mem_singleton.mp hnew]
        exact (h.stands i p hp).known
    · obtain ⟨hknown, hnamed, hcounted, _⟩ := h.stands j q hq
      exact ⟨hknown, hnamed, hcounted, Appends.stands_writes h hp hreq hversion hfresh hw hq⟩

theorem Appends.start (J : Codec (List Entry)) (nclnt : Nat) :
    Appends J nclnt [] (appenders J nclnt) := by
  have hspec := Net.prepared_spec key (J.marshal []) 1
  refine ⟨Sys.Careful.start_prepared ?_,
    ⟨⟨_, hspec.stored (by decide)⟩, hspec.writes.symm, by decide, by simp⟩, ?_⟩
  · intro c hc
    obtain ⟨me, _, rfl⟩ := List.mem_map.mp hc
    rfl
  · intro i p hp
    simp only [appenders, Sys.start, List.map_map, List.getElem?_map, Option.map_eq_some_iff] at hp
    obtain ⟨me, hme, rfl⟩ := hp
    obtain ⟨hi, rfl⟩ := List.getElem?_eq_some_iff.mp hme
    rw [List.length_range] at hi
    refine ⟨hi, by simp [Client.called],
      ⟨rfl, rfl, by simp [Client.called], by simp [Client.called]⟩,
      ⟨List.Pairwise.nil, by simp [mine], by simp [Client.called], Nat.zero_le _⟩, ?_⟩
    show 0 < (Net.prepared key (J.marshal []) 1).writes key
    rw [hspec.writes]
    omega

theorem Appends.writes_lt {es : List Entry} (h : Appends J nclnt es s) :
    s.net.writes key + 1 < 2 ^ 64 := by
  have hlength : es.length + 1 = s.net.writes key := h.shared.length
  have hint := h.shared.int
  omega

theorem appends_of_reaches (h : Reaches (Sys.step (program J) key) (appenders J nclnt) s) :
    ∃ es, Appends J nclnt es s := by
  refine (appending_proved J nclnt).reaches_bounded ⟨[], Appends.start J nclnt⟩ ?_
    (Sys.reaches_apart h)
  intro es u hu k hk
  rw [List.mem_singleton.mp hk]
  exact Appends.writes_lt hu

theorem procs_length (h : Reaches (Sys.step (program J) key) (appenders J nclnt) s) :
    s.procs.length = nclnt := by
  rw [Sys.procs_length_of_reaches h]
  simp [appenders, Sys.start]

/-- The counters of a client do not leave the ints. -/
theorem Appends.counter_le (h : Appends J nclnt es s) {i : Nat} {p : Proc Client}
    (hp : s.procs[i]? = some p) : p.st.i ≤ es.length := by
  have hstands := (h.stands i p hp).stands
  have hlength : es.length + 1 = s.net.view.writes key := h.shared.length
  unfold Stands at hstands
  cases hpc : p.st.pc with
  | put es' ver =>
      simp only [hpc] at hstands
      have hsent : ver.toNat ≤ s.net.view.writes key :=
        (h.careful.versions key key_mem).sent p.call _ (h.careful.req hp (request_of_put hpc)) rfl
      omega
  | get =>
      simp only [hpc] at hstands
      omega
  | top =>
      simp only [hpc] at hstands
      omega
  | returned res =>
      simp only [hpc] at hstands
      omega
  | panicked =>
      simp only [hpc] at hstands
      omega
  | fatal => simp only [hpc] at hstands

/-- No client calls `ts.Fatalf`: the key is always there, and always holds a list. -/
theorem not_fatal (h : Reaches (Sys.step (program J) key) (appenders J nclnt) s) {i : Nat}
    {p : Proc Client} (hp : s.procs[i]? = some p) : p.st.pc ≠ .fatal := by
  intro hpc
  obtain ⟨es, hes⟩ := appends_of_reaches h
  have hstands := (hes.stands i p hp).stands
  simp only [Stands, hpc] at hstands

end Runs

end GoLabs.KvTest
