import Mathlib.Logic.Function.Basic
import Mathlib.Data.List.Nodup
import Mathlib.Data.List.Range
import GoLabs.KvSrv.Rpc

/-!
# The key/value server

`KVServer.get` and `KVServer.put` are the two handlers of `kvsrv1/server.go`; both hold the mutex
for their whole body, so a server execution is a sequence of handler calls.  `serve` executes such
a sequence from the empty map.  The facts the clients rest on are at the end: the versions of the
successful `Put`s on a key count `0, 1, 2, …`.
-/

open GoLabs.Reasoning

namespace GoLabs.KvSrv

/-- `type value struct` of the server's map. -/
structure StoredValue where
  value : GoString
  version : Tversion
  deriving DecidableEq, Repr

structure KVServer where
  m : GoString → Option StoredValue

def makeKVServer : KVServer := ⟨fun _ => none⟩

/-- `kv.m[key] = v`. -/
def KVServer.store (kv : KVServer) (key : GoString) (v : StoredValue) : KVServer :=
  { kv with m := Function.update kv.m key (some v) }

def KVServer.get (kv : KVServer) (args : GetArgs) : GetReply :=
  match kv.m args.key with
  | none => { value := [], version := 0, err := .errNoKey }
  | some v => { value := v.value, version := v.version, err := .ok }

def KVServer.put (kv : KVServer) (args : PutArgs) : KVServer × PutReply :=
  match kv.m args.key with
  | some v =>
      if args.version ≠ v.version then (kv, ⟨.errVersion⟩)
      else (kv.store args.key { value := args.value, version := v.version + 1 }, ⟨.ok⟩)
  | none =>
      -- a key that is made starts at version 1, as if it had been at 0
      if args.version ≠ 0 then (kv, ⟨.errNoKey⟩)
      else (kv.store args.key { value := args.value, version := 1 }, ⟨.ok⟩)

/-- One request handled by the server (`labrpc`'s `Server.dispatch`). -/
def KVServer.dispatch (kv : KVServer) : Request → KVServer × Reply
  | .get args => (kv, .get (kv.get args))
  | .put args => ((kv.put args).1, .put (kv.put args).2)

/-- A `Put` took effect exactly when the server answered it with `OK`. -/
def tookEffect : Request × Reply → Bool
  | (.put _, .put reply) => reply.err = .ok
  | _ => false

/-! ## A key as its clients see it -/

/-- The value and version of a key, with an absent key read as the empty value at version 0. -/
def KVServer.view (kv : KVServer) (key : GoString) : StoredValue :=
  (kv.m key).getD { value := [], version := 0 }

theorem m_store_self (kv : KVServer) (key : GoString) (v : StoredValue) :
    (kv.store key v).m key = some v := Function.update_self _ _ _

theorem m_store_ne (kv : KVServer) {key key' : GoString} (v : StoredValue) (h : key' ≠ key) :
    (kv.store key v).m key' = kv.m key' := Function.update_of_ne h _ _

@[simp] theorem view_store_self (kv : KVServer) (key : GoString) (v : StoredValue) :
    (kv.store key v).view key = v := by
  simp [KVServer.view, m_store_self]

theorem view_store_ne (kv : KVServer) {key key' : GoString} (v : StoredValue) (h : key' ≠ key) :
    (kv.store key v).view key' = kv.view key' := by
  simp [KVServer.view, m_store_ne kv v h]

/-- Seen through `view`, a present and an absent key follow one rule: the version must match, and
a match moves it on by one. -/
theorem put_eq (kv : KVServer) (args : PutArgs) :
    kv.put args =
      if args.version = (kv.view args.key).version then
        (kv.store args.key
          { value := args.value, version := (kv.view args.key).version + 1 }, ⟨.ok⟩)
      else (kv, ⟨if (kv.m args.key).isSome then .errVersion else .errNoKey⟩) := by
  unfold KVServer.put KVServer.view
  cases hm : kv.m args.key with
  | none => by_cases hv : args.version = 0 <;> simp [hv]
  | some v => by_cases hv : args.version = v.version <;> simp [hv]

theorem put_err_eq_ok_iff (kv : KVServer) (args : PutArgs) :
    (kv.put args).2.err = .ok ↔ args.version = (kv.view args.key).version := by
  rw [put_eq]
  split
  · simp_all
  · split <;> simp_all

/-- The handlers never answer with a code of the Clerk. -/
theorem put_err_cases (kv : KVServer) (args : PutArgs) :
    (kv.put args).2.err = .ok ∨ (kv.put args).2.err = .errVersion ∨
      (kv.put args).2.err = .errNoKey := by
  rw [put_eq]
  split
  · simp
  · split <;> simp

theorem put_noKey {kv : KVServer} {args : PutArgs} (h : (kv.put args).2.err = .errNoKey) :
    kv.m args.key = none := by
  unfold KVServer.put at h
  cases hm : kv.m args.key with
  | none => rfl
  | some v =>
      rw [hm] at h
      by_cases hv : args.version = v.version <;> simp [hv] at h

theorem put_store_of_ok {kv : KVServer} {args : PutArgs} (h : (kv.put args).2.err = .ok) :
    (kv.put args).1 =
      kv.store args.key { value := args.value, version := (kv.view args.key).version + 1 } := by
  rw [put_eq, if_pos ((put_err_eq_ok_iff kv args).mp h)]

theorem put_unchanged_of_ne_ok {kv : KVServer} {args : PutArgs} (h : (kv.put args).2.err ≠ .ok) :
    (kv.put args).1 = kv := by
  rw [put_eq, if_neg (mt (put_err_eq_ok_iff kv args).mpr h)]

theorem get_value (kv : KVServer) (args : GetArgs) :
    (kv.get args).value = (kv.view args.key).value := by
  unfold KVServer.get KVServer.view
  cases kv.m args.key <;> rfl

theorem get_version (kv : KVServer) (args : GetArgs) :
    (kv.get args).version = (kv.view args.key).version := by
  unfold KVServer.get KVServer.view
  cases kv.m args.key <;> rfl

theorem get_err_cases (kv : KVServer) (args : GetArgs) :
    (kv.get args).err = .ok ∨
      (kv.get args).err = .errNoKey ∧ kv.view args.key = { value := [], version := 0 } := by
  unfold KVServer.get KVServer.view
  cases kv.m args.key <;> simp

/-! ## Sequences of requests -/

/-- Execute the requests one after another; the log pairs each with its reply. -/
def serveFrom (kv : KVServer) (reqs : List Request) : KVServer × List (Request × Reply) :=
  reqs.foldl (fun acc req => ((acc.1.dispatch req).1, acc.2 ++ [(req, (acc.1.dispatch req).2)]))
    (kv, [])

/-- The server after `log`, every reply of which is the server's own. -/
def Served (log : List (Request × Reply)) (kv : KVServer) : Prop :=
  serveFrom makeKVServer (log.map Prod.fst) = (kv, log)

theorem served_nil : Served [] makeKVServer := rfl

theorem Served.snoc {log : List (Request × Reply)} {kv : KVServer} (h : Served log kv)
    (req : Request) : Served (log ++ [(req, (kv.dispatch req).2)]) (kv.dispatch req).1 := by
  unfold Served serveFrom at *
  rw [List.map_append, List.foldl_append, h]
  rfl

/-- The last request of a served log was executed by the server after the requests before it. -/
theorem Served.last {log : List (Request × Reply)} {e : Request × Reply} {kv : KVServer}
    (h : Served (log ++ [e]) kv) :
    ∃ kv', Served log kv' ∧ e.2 = (kv'.dispatch e.1).2 ∧ kv = (kv'.dispatch e.1).1 := by
  have hpre : Served log (serveFrom makeKVServer (log.map Prod.fst)).1 := by
    have hlog := congrArg Prod.snd h
    simp only [serveFrom, List.map_append, List.map_cons, List.map_nil, List.foldl_append,
      List.foldl_cons, List.foldl_nil] at hlog
    exact Prod.ext rfl (List.append_inj_left' hlog rfl)
  have hnext := hpre.snoc e.1
  rw [Served, List.map_append, List.map_cons, List.map_nil] at h hnext
  rw [h, Prod.mk.injEq] at hnext
  have hlast := List.append_inj_right' hnext.2 rfl
  simp only [List.cons.injEq, and_true] at hlast
  exact ⟨_, hpre, congrArg Prod.snd hlast, hnext.1⟩

/-- A predicate of executed logs is proved request by request. -/
theorem Served.rec_snoc {P : List (Request × Reply) → KVServer → Prop} (hnil : P [] makeKVServer)
    (hsnoc : ∀ log kv req, Served log kv → P log kv →
      P (log ++ [(req, (kv.dispatch req).2)]) (kv.dispatch req).1)
    {log : List (Request × Reply)} {kv : KVServer} (h : Served log kv) : P log kv := by
  induction log using List.reverseRecOn generalizing kv with
  | nil =>
      have hkv : makeKVServer = kv := congrArg Prod.fst h
      exact hkv ▸ hnil
  | append_singleton log e ih =>
      rcases h.last with ⟨kv', hpre, hreply, rfl⟩
      have hstep := hsnoc log kv' e.1 hpre (ih hpre)
      rwa [← hreply] at hstep

/-- The server after some requests. -/
def serve (reqs : List Request) : KVServer := (serveFrom makeKVServer reqs).1

theorem serveFrom_snoc (reqs : List Request) (req : Request) :
    serveFrom makeKVServer (reqs ++ [req]) = (((serve reqs).dispatch req).1,
      (serveFrom makeKVServer reqs).2 ++ [(req, ((serve reqs).dispatch req).2)]) := by
  unfold serve serveFrom
  rw [List.foldl_append]
  rfl

theorem serve_snoc (reqs : List Request) (req : Request) :
    serve (reqs ++ [req]) = ((serve reqs).dispatch req).1 := by
  rw [serve, serveFrom_snoc]

theorem map_fst_serveFrom (reqs : List Request) :
    (serveFrom makeKVServer reqs).2.map Prod.fst = reqs := by
  induction reqs using List.reverseRecOn with
  | nil => rfl
  | append_singleton reqs req ih =>
      rw [serveFrom_snoc, List.map_append, ih]
      rfl

theorem served_serve (reqs : List Request) :
    Served (serveFrom makeKVServer reqs).2 (serve reqs) := by
  unfold Served
  rw [map_fst_serveFrom]
  rfl

theorem Served.eq_serve {log : List (Request × Reply)} {kv : KVServer} (h : Served log kv) :
    kv = serve (log.map Prod.fst) := (congrArg Prod.fst h).symm

/-- The first part of a served log is one. -/
theorem Served.left {log log' : List (Request × Reply)} {kv : KVServer}
    (h : Served (log ++ log') kv) : Served log (serve (log.map Prod.fst)) := by
  induction log' using List.reverseRecOn generalizing kv with
  | nil =>
      rw [List.append_nil] at h
      rwa [← h.eq_serve]
  | append_singleton log' e ih =>
      rw [← List.append_assoc] at h
      obtain ⟨kv', hpre, -⟩ := h.last
      exact ih hpre

/-- The versions of the `Put`s on `key` that succeeded, in the order of their execution. -/
def wins (key : GoString) (log : List (Request × Reply)) : List Tversion :=
  log.filterMap fun e =>
    match e with
    | (.put args, .put reply) =>
        if args.key = key ∧ reply.err = .ok then some args.version else none
    | _ => none

theorem wins_append (key : GoString) (log log' : List (Request × Reply)) :
    wins key (log ++ log') = wins key log ++ wins key log' := by
  unfold wins
  rw [List.filterMap_append]

/-- The successful `Put`s on a key carry the versions `0, 1, 2, …`, and the key's own version is
their number. -/
theorem served_wins (key : GoString) {log : List (Request × Reply)} {kv : KVServer}
    (h : Served log kv) :
    wins key log = (List.range (wins key log).length).map UInt64.ofNat ∧
      (kv.view key).version = UInt64.ofNat (wins key log).length := by
  refine h.rec_snoc (P := fun log kv ↦
    wins key log = (List.range (wins key log).length).map UInt64.ofNat ∧
      (kv.view key).version = UInt64.ofNat (wins key log).length) ⟨rfl, rfl⟩ ?_
  clear h log kv
  rintro log kv req - ⟨hwins, hver⟩
  rw [wins_append]
  cases req with
  | get args =>
      rw [show wins key [(.get args, (kv.dispatch (.get args)).2)] = [] from rfl, List.append_nil]
      exact ⟨hwins, hver⟩
  | put args =>
      by_cases hwin : args.key = key ∧ (kv.put args).2.err = .ok
      · obtain ⟨rfl, hok⟩ := hwin
        have hone : wins args.key [(.put args, (kv.dispatch (.put args)).2)] = [args.version] := by
          simp [wins, KVServer.dispatch, hok]
        have hmatch : args.version = UInt64.ofNat (wins args.key log).length :=
          ((put_err_eq_ok_iff kv args).mp hok).trans hver
        rw [hone, List.length_append, List.length_singleton, List.range_succ, List.map_append,
          ← hwins]
        refine ⟨by rw [hmatch]; rfl, ?_⟩
        change ((kv.put args).1.view args.key).version = _
        rw [put_store_of_ok hok, view_store_self, UInt64.ofNat_add, hver]
        rfl
      · have hnone : wins key [(.put args, (kv.dispatch (.put args)).2)] = [] := by
          simp only [wins, KVServer.dispatch, List.filterMap_cons, if_neg hwin,
            List.filterMap_nil]
        rw [hnone, List.append_nil]
        refine ⟨hwins, ?_⟩
        change ((kv.put args).1.view key).version = _
        by_cases hok : (kv.put args).2.err = .ok
        · have hkey : key ≠ args.key := fun heq ↦ hwin ⟨heq.symm, hok⟩
          rw [put_store_of_ok hok, view_store_ne kv _ hkey, hver]
        · rw [put_unchanged_of_ne_ok hok, hver]

/-- A key is absent exactly as long as no `Put` on it has succeeded. -/
theorem Served.eq_none_iff (key : GoString) {log : List (Request × Reply)} {kv : KVServer}
    (h : Served log kv) : kv.m key = none ↔ (wins key log).length = 0 := by
  refine h.rec_snoc (P := fun log kv ↦ kv.m key = none ↔ (wins key log).length = 0)
    (by simp [makeKVServer, wins]) ?_
  intro log kv req _ ih
  rw [wins_append, List.length_append]
  cases req with
  | get args =>
      rw [show wins key [(.get args, (kv.dispatch (.get args)).2)] = [] from rfl]
      exact ih
  | put args =>
      change (kv.put args).1.m key = none ↔ _
      by_cases hok : (kv.put args).2.err = .ok
      · rw [put_store_of_ok hok]
        by_cases hkey : key = args.key
        · subst hkey
          have hone : wins args.key [(.put args, (kv.dispatch (.put args)).2)] =
              [args.version] := by
            simp [wins, KVServer.dispatch, hok]
          simp [m_store_self, hone]
        · have hnone : wins key [(.put args, (kv.dispatch (.put args)).2)] = [] := by
            simp [wins, KVServer.dispatch, Ne.symm hkey]
          simpa [m_store_ne kv _ hkey, hnone] using ih
      · have hnone : wins key [(.put args, (kv.dispatch (.put args)).2)] = [] := by
          simp [wins, KVServer.dispatch, hok]
        rw [put_unchanged_of_ne_ok hok, hnone]
        simpa using ih

theorem wins_length_le (key : GoString) (log : List (Request × Reply)) :
    (wins key log).length ≤ log.length := List.length_filterMap_le _ _

/-- Below `2 ^ 64` successful `Put`s on a key no two of them carry the same version. -/
theorem Served.wins_nodup {key : GoString} {log : List (Request × Reply)} {kv : KVServer}
    (h : Served log kv) (hb : (wins key log).length < 2 ^ 64) : (wins key log).Nodup := by
  rw [(served_wins key h).1]
  apply List.Nodup.map_on _ List.nodup_range
  intro i hi j hj heq
  rw [List.mem_range] at hi hj
  have hnat := congrArg UInt64.toNat heq
  rw [UInt64.toNat_ofNat', UInt64.toNat_ofNat', Nat.mod_eq_of_lt (by omega),
    Nat.mod_eq_of_lt (by omega)] at hnat
  exact hnat

/-- What a key holds, some successful `Put` has written. -/
theorem Served.written_by {log : List (Request × Reply)} {kv : KVServer} (h : Served log kv)
    {key : GoString} {v : StoredValue} (hv : kv.m key = some v) :
    ∃ version, (Request.put ⟨key, v.value, version⟩, Reply.put ⟨.ok⟩) ∈ log ∧
      v.version = version + 1 := by
  revert v
  refine h.rec_snoc (P := fun log kv ↦ ∀ {v : StoredValue}, kv.m key = some v →
    ∃ version, (Request.put ⟨key, v.value, version⟩, Reply.put ⟨.ok⟩) ∈ log ∧
      v.version = version + 1) (by simp [makeKVServer]) ?_
  intro log kv req _ ih v hv
  have hkeep : kv.m key = some v →
      ∃ version, (Request.put ⟨key, v.value, version⟩, Reply.put ⟨.ok⟩) ∈
        log ++ [(req, (kv.dispatch req).2)] ∧ v.version = version + 1 := by
    intro hold
    obtain ⟨version, hmem, hver⟩ := ih hold
    exact ⟨version, List.mem_append_left _ hmem, hver⟩
  cases req with
  | get args => exact hkeep hv
  | put args =>
      change (kv.put args).1.m key = some v at hv
      by_cases hok : (kv.put args).2.err = .ok
      · rw [put_store_of_ok hok] at hv
        by_cases hkey : key = args.key
        · subst hkey
          rw [m_store_self, Option.some.injEq] at hv
          subst hv
          have hmatch := (put_err_eq_ok_iff kv args).mp hok
          refine ⟨args.version, ?_, by rw [hmatch]⟩
          have hreply : (kv.dispatch (.put args)).2 = .put ⟨.ok⟩ := by
            simp only [KVServer.dispatch, Reply.put.injEq]
            rw [← hok]
          rw [hreply]
          simp
        · rw [m_store_ne kv _ hkey] at hv
          exact hkeep hv
      · rw [put_unchanged_of_ne_ok hok] at hv
        exact hkeep hv

/-- A key that was ever written is there for good. -/
theorem Served.isSome_of_ok {log : List (Request × Reply)} {kv : KVServer} (h : Served log kv)
    {args : PutArgs} (hmem : (Request.put args, Reply.put ⟨.ok⟩) ∈ log) :
    (kv.m args.key).isSome := by
  revert hmem
  refine h.rec_snoc (P := fun log kv ↦ (Request.put args, Reply.put ⟨.ok⟩) ∈ log →
    (kv.m args.key).isSome) (by simp) ?_
  intro log kv req _ ih hmem
  cases req with
  | get gargs =>
      rcases List.mem_append.mp hmem with hold | hnew
      · exact ih hold
      · simp at hnew
  | put pargs =>
      change ((kv.put pargs).1.m args.key).isSome
      by_cases hok : (kv.put pargs).2.err = .ok
      · rw [put_store_of_ok hok]
        by_cases hkey : args.key = pargs.key
        · rw [hkey, m_store_self]
          rfl
        · rcases List.mem_append.mp hmem with hold | hnew
          · rw [m_store_ne kv _ hkey]
            exact ih hold
          · simp only [List.mem_singleton, Prod.mk.injEq, Request.put.injEq] at hnew
            exact absurd (congrArg PutArgs.key hnew.1) hkey
      · rw [put_unchanged_of_ne_ok hok]
        rcases List.mem_append.mp hmem with hold | hnew
        · exact ih hold
        · simp only [List.mem_singleton, Prod.mk.injEq, KVServer.dispatch,
            Reply.put.injEq] at hnew
          exact absurd (by rw [← hnew.2]) hok

/-- Every reply of a served log is what a handler answered in some state. -/
theorem Served.reply {log : List (Request × Reply)} {kv : KVServer} (h : Served log kv) :
    ∀ e ∈ log, ∃ kv' : KVServer, e.2 = (kv'.dispatch e.1).2 := by
  refine h.rec_snoc (P := fun log _ ↦ ∀ e ∈ log, ∃ kv' : KVServer, e.2 = (kv'.dispatch e.1).2)
    (by simp) ?_
  intro log kv req _ ih e he
  rcases List.mem_append.mp he with hold | hnew
  · exact ih e hold
  · rw [List.mem_singleton] at hnew
    exact ⟨kv, by rw [hnew]⟩

end GoLabs.KvSrv
