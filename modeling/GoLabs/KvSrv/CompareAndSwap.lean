import GoLabs.KvSrv.Server

/-!
# Compare and swap

What the server promises to whoever writes back what they have read: the successful `Put`s on a key
count its versions, a `Get` shows the last of them, and a refused `Put` changes nothing.
-/

open GoLabs.Reasoning

namespace GoLabs.KvSrv

variable {log rest : List (Request × Reply)} {e : Request × Reply} {kv : KVServer} {key : GoString}
  {args : PutArgs}

/-- Each request of a served log was executed by the server after the requests before it. -/
theorem Served.split (h : Served (log ++ e :: rest) kv) :
    ∃ kv', Served log kv' ∧ e.2 = (kv'.dispatch e.1).2 := by
  rw [List.append_cons] at h
  obtain ⟨kv', hlog, hreply, -⟩ := h.left.last
  exact ⟨kv', hlog, hreply⟩

/-! ## The versions -/

theorem Served.wins_toNat (h : Served log kv) (hfew : (wins key log).length < 2 ^ 64) :
    (wins key log).map UInt64.toNat = List.range (wins key log).length := by
  conv_lhs => rw [(served_wins key h).1]
  rw [List.map_map]
  refine (List.map_congr_left fun i hi ↦ ?_).trans (List.map_id _)
  rw [List.mem_range] at hi
  show (UInt64.ofNat i).toNat = i
  rw [UInt64.toNat_ofNat', Nat.mod_eq_of_lt (by omega)]

theorem mem_wins (h : (Request.put args, Reply.put ⟨.ok⟩) ∈ log) :
    args.version ∈ wins args.key log := by
  refine List.mem_filterMap.mpr ⟨_, h, ?_⟩
  simp

/-- There is a version after that of a successful `Put`. -/
theorem Served.toNat_succ (h : Served log kv) (hfew : (wins args.key log).length < 2 ^ 64)
    (hmem : (Request.put args, Reply.put ⟨.ok⟩) ∈ log) :
    (args.version + 1).toNat = args.version.toNat + 1 := by
  have hrange : args.version.toNat ∈ List.range (wins args.key log).length := by
    rw [← h.wins_toNat hfew]
    exact List.mem_map_of_mem (mem_wins hmem)
  rw [List.mem_range] at hrange
  rw [UInt64.toNat_add, UInt64.toNat_one, Nat.mod_eq_of_lt (by omega)]

/-- No version is won twice. -/
theorem Served.wins_once (h : Served log kv) (hfew : (wins key log).length < 2 ^ 64) {i j : Nat}
    {args' : PutArgs} (hi : log[i]? = some (.put args, .put ⟨.ok⟩))
    (hj : log[j]? = some (.put args', .put ⟨.ok⟩)) (hkey : args.key = key) (hkey' : args'.key = key)
    (hver : args.version = args'.version) : i = j := by
  have hpairs := List.pairwise_filterMap.mp (h.wins_nodup hfew)
  rw [List.pairwise_iff_getElem] at hpairs
  obtain ⟨hilt, hi⟩ := List.getElem?_eq_some_iff.mp hi
  obtain ⟨hjlt, hj⟩ := List.getElem?_eq_some_iff.mp hj
  obtain hlt | heq | hgt := Nat.lt_trichotomy i j
  · have hne := hpairs i j hilt hjlt hlt args.version (by simp [hi, hkey]) args'.version
      (by simp [hj, hkey'])
    exact absurd hver hne
  · exact heq
  · have hne := hpairs j i hjlt hilt hgt args'.version (by simp [hj, hkey']) args.version
      (by simp [hi, hkey])
    exact absurd hver.symm hne

/-! ## The value between two successful `Put`s -/

theorem dispatch_of_not_win (req : Request) (h : wins key [(req, (kv.dispatch req).2)] = []) :
    (kv.dispatch req).1.m key = kv.m key := by
  cases req with
  | get args => rfl
  | put args =>
      change (kv.put args).1.m key = kv.m key
      by_cases hok : (kv.put args).2.err = .ok
      · have hkey : key ≠ args.key := by
          rintro rfl
          simp [wins, KVServer.dispatch, hok] at h
        rw [put_store_of_ok hok, m_store_ne kv _ hkey]
      · rw [put_unchanged_of_ne_ok hok]

/-- A key holds what the last successful `Put` on it wrote. -/
theorem Served.holds (h : Served log kv) {before between : List (Request × Reply)}
    (hlog : log = before ++ (.put args, .put ⟨.ok⟩) :: between)
    (hnone : wins args.key between = []) : kv.m args.key = some ⟨args.value, args.version + 1⟩ := by
  revert before between
  refine h.rec_snoc (P := fun log kv ↦ ∀ {before between : List (Request × Reply)},
    log = before ++ (.put args, .put ⟨.ok⟩) :: between → wins args.key between = [] →
      kv.m args.key = some ⟨args.value, args.version + 1⟩) (by simp) ?_
  intro log kv req _ ih before between hlog hnone
  -- the last request is the `Put` itself, or one of those after it
  obtain rfl | ⟨between, e, rfl⟩ := between.eq_nil_or_concat'
  · have hlast := List.append_inj_right' hlog rfl
    simp only [List.cons.injEq, Prod.mk.injEq, and_true] at hlast
    obtain ⟨rfl, hreply⟩ := hlast
    have hok : (kv.put args).2.err = .ok := by
      simp only [KVServer.dispatch, Reply.put.injEq] at hreply
      rw [hreply]
    change (kv.put args).1.m args.key = _
    rw [put_store_of_ok hok, m_store_self, ← (put_err_eq_ok_iff kv args).mp hok]
  · rw [← List.cons_append, ← List.append_assoc] at hlog
    have hlast := List.append_inj_right' hlog rfl
    simp only [List.cons.injEq, and_true] at hlast
    rw [wins_append, List.append_eq_nil_iff, ← hlast] at hnone
    rw [dispatch_of_not_win req hnone.2]
    exact ih (List.append_inj_left' hlog rfl) hnone.1

/-! ## The refused `Put`s -/

theorem refused_unchanged {reqs : List Request} {i : Nat} {reply : PutReply}
    (hi : (serveFrom makeKVServer reqs).2[i]? = some (.put args, .put reply))
    (herr : reply.err ≠ .ok) : serve (reqs.take (i + 1)) = serve (reqs.take i) := by
  have hserved := served_serve reqs
  have hreqs := map_fst_serveFrom reqs
  generalize (serveFrom makeKVServer reqs).2 = log at hi hserved hreqs
  obtain ⟨hlt, hget⟩ := List.getElem?_eq_some_iff.mp hi
  have hsplit : log = log.take i ++ (.put args, .put reply) :: log.drop (i + 1) := by
    rw [← hget, List.getElem_cons_drop, List.take_append_drop]
  rw [hsplit] at hserved
  obtain ⟨kv, hbefore, hreply⟩ := hserved.split
  have htake : reqs.take i = (log.take i).map Prod.fst := by rw [← hreqs, List.map_take]
  have hnext : reqs.take (i + 1) = reqs.take i ++ [.put args] := by
    rw [← hreqs, List.take_add_one, List.getElem?_map, hi]
    rfl
  have hkv : serve (reqs.take i) = kv := by
    rw [htake]
    exact congrArg Prod.fst hbefore
  rw [hnext, serve_snoc, hkv]
  change (kv.put args).1 = kv
  apply put_unchanged_of_ne_ok
  simp only [KVServer.dispatch, Reply.put.injEq] at hreply
  rwa [← hreply]

/-- For every sequence of requests with fewer than `2 ^ 64` successful `Put`s on each key: those on
a key carry the versions `0, 1, 2, …` in order, so that no version of a key is won twice; a `Get`
after a successful `Put` on its key, and before the next one, returns its value with the next
version; and a refused `Put` leaves the whole map as it is. -/
theorem compare_and_swap_unique (reqs : List Request)
    (hfew : ∀ key, (wins key (serveFrom makeKVServer reqs).2).length < 2 ^ 64) :
    (∀ key, (wins key (serveFrom makeKVServer reqs).2).map UInt64.toNat =
      List.range (wins key (serveFrom makeKVServer reqs).2).length) ∧
    (∀ (i j : Nat) (args args' : PutArgs),
      (serveFrom makeKVServer reqs).2[i]? = some (.put args, .put ⟨.ok⟩) →
      (serveFrom makeKVServer reqs).2[j]? = some (.put args', .put ⟨.ok⟩) →
      args.key = args'.key → args.version = args'.version → i = j) ∧
    (∀ (before between after : List (Request × Reply)) (args : PutArgs) (reply : GetReply),
      (serveFrom makeKVServer reqs).2 = before ++ (.put args, .put ⟨.ok⟩) :: between ++
        (.get ⟨args.key⟩, .get reply) :: after → wins args.key between = [] →
      reply.value = args.value ∧ reply.version.toNat = args.version.toNat + 1 ∧ reply.err = .ok) ∧
    (∀ (i : Nat) (args : PutArgs) (reply : PutReply),
      (serveFrom makeKVServer reqs).2[i]? = some (.put args, .put reply) →
      reply.err = .errVersion ∨ reply.err = .errNoKey →
      serve (reqs.take (i + 1)) = serve (reqs.take i)) := by
  have hserved := served_serve reqs
  refine ⟨fun key ↦ hserved.wins_toNat (hfew key), ?_, ?_, ?_⟩
  · intro i j args args' hi hj hkey hver
    exact hserved.wins_once (hfew args.key) hi hj rfl hkey.symm hver
  · intro before between after args reply hlog hnone
    have hmem : (Request.put args, Reply.put ⟨.ok⟩) ∈ (serveFrom makeKVServer reqs).2 := by
      rw [hlog]
      simp
    have hsucc := hserved.toNat_succ (hfew args.key) hmem
    rw [hlog] at hserved
    obtain ⟨kv, hbefore, hreply⟩ := hserved.split
    have hholds := hbefore.holds rfl hnone
    simp only [KVServer.dispatch, KVServer.get, hholds, Reply.get.injEq] at hreply
    rw [hreply]
    exact ⟨rfl, hsucc, rfl⟩
  · intro i args reply hi herr
    refine refused_unchanged hi ?_
    obtain herr | herr := herr <;> simp [herr]

/-- Two keys, with a `Put` that is too late and one that is too early. -/
def overwritten : List Request :=
  [.put ⟨lit "a", lit "x", 0⟩, .get ⟨lit "a"⟩, .put ⟨lit "a", lit "y", 0⟩,
   .put ⟨lit "b", lit "z", 3⟩, .get ⟨lit "a"⟩, .put ⟨lit "a", lit "w", 1⟩, .get ⟨lit "a"⟩]

theorem compare_and_swap_unique_overwritten :
    (∀ key, (wins key (serveFrom makeKVServer overwritten).2).length < 2 ^ 64) ∧
      (serveFrom makeKVServer overwritten).2.map Prod.snd =
        [.put ⟨.ok⟩, .get ⟨lit "x", 1, .ok⟩, .put ⟨.errVersion⟩, .put ⟨.errNoKey⟩,
         .get ⟨lit "x", 1, .ok⟩, .put ⟨.ok⟩, .get ⟨lit "w", 2, .ok⟩] ∧
      (wins (lit "a") (serveFrom makeKVServer overwritten).2).map UInt64.toNat = [0, 1] ∧
      serve (overwritten.take 4) = serve (overwritten.take 3) := by
  have hfew : ∀ key, (wins key (serveFrom makeKVServer overwritten).2).length < 2 ^ 64 := by
    intro key
    have hle := wins_length_le key (serveFrom makeKVServer overwritten).2
    have hlen : (serveFrom makeKVServer overwritten).2.length = 7 := by decide
    omega
  obtain ⟨hversions, -, -, hrefused⟩ := compare_and_swap_unique overwritten hfew
  refine ⟨hfew, by decide, ?_, ?_⟩
  · rw [hversions]
    decide
  · exact hrefused 3 ⟨lit "b", lit "z", 3⟩ ⟨.errNoKey⟩ (by decide) (by decide)

end GoLabs.KvSrv
