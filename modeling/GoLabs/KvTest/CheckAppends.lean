import Mathlib.Algebra.Group.Int.Defs
import GoLabs.Reasoning.GoMap
import GoLabs.Reasoning.Json
import GoLabs.Reasoning.Loops
import GoLabs.KvTest.AppendRuns

/-!
# The check of the appended list

`CheckAppends` of `kvtest1/kvtest.go`, run after all clients of `OneClientAppend` have returned.  It
goes through the list once, with the next number it expects and the numbers it has missed so far for
each client, and compares both with what the clients have counted.  Its numbers are ints of 64 bits,
as in the source: on a list that the clients have not made they may be negative, and they may
overflow.
-/

open GoLabs.Reasoning GoLabs.KvSrv

namespace GoLabs.KvTest

structure EntryN where
  id : Int64
  n : Int64
  deriving DecidableEq

/-- `ClntRes`, as the check gets it. -/
structure ClntRes64 where
  nok : Int64
  nmaybe : Int64
  deriving DecidableEq

/-- The length of a slice is an int. -/
abbrev Slice (α : Type) := { l : List α // l.length < 2 ^ 63 }

def Slice.map {α β : Type} (f : α → β) (l : Slice α) : Slice β :=
  ⟨l.1.map f, (List.length_map f).trans_lt l.2⟩

/-- A call of `ts.Fatalf` in `CheckAppends`. -/
inductive Failure where
  /-- `%d: wrong expecting %v but got %v` -/
  | wrong (id expect n : Int64)
  /-- `%d appends in val != puts on server %d` -/
  | appends (len : Nat) (ver : Tversion)
  /-- `%d: skipped puts %d on server > %d maybe` -/
  | skipped (c skipped nmaybe : Int64)
  /-- `%d: %d puts on server > ok+maybe %d` -/
  | puts (c n total : Int64)
  /-- The panic of `rs[c]`. -/
  | index (c : Int64)
  deriving DecidableEq

structure Marks where
  expect : GoMap Int64 Int64
  skipped : GoMap Int64 Int64

namespace Marks

def make (nclnt : Nat) : Marks :=
  (List.range nclnt).foldl
    (fun m i => { expect := m.expect.insert (Int64.ofNat i) 0
                  skipped := m.skipped.insert (Int64.ofNat i) 0 }) ⟨∅, ∅⟩

/-- The body of the loop over the list. -/
def entry (m : Marks) (e : EntryN) : Except Failure Marks :=
  let expect := (m.expect.lookup e.id).getD 0
  if expect > e.n then .error (.wrong e.id expect e.n) -- old put?
  else if expect = e.n then .ok { m with expect := m.expect.insert e.id (expect + 1) }
  else -- missing entries because of failed put
    .ok
      { expect := m.expect.insert e.id (e.n + 1)
        skipped := m.skipped.insert e.id ((m.skipped.lookup e.id).getD 0 + (e.n - expect)) }

/-- The body of the loop over `expect`. -/
def client (m : Marks) (rs : List ClntRes64) (e : Int64 × Int64) : Except Failure Unit :=
  match (if 0 ≤ e.1 then rs[e.1.toNatClampNeg]? else none) with
  | none => .error (.index e.1)
  | some r =>
      if (m.skipped.lookup e.1).getD 0 > r.nmaybe then
        .error (.skipped e.1 ((m.skipped.lookup e.1).getD 0) r.nmaybe)
      else if e.2 > r.nok + r.nmaybe then .error (.puts e.1 e.2 (r.nok + r.nmaybe))
      else .ok ()

end Marks

def checkAppends (it : Iteration Int64) (es : Slice EntryN) (nclnt : Nat) (rs : Slice ClntRes64)
    (ver : Tversion) : Except Failure Unit := do
  let m ← es.1.foldlM Marks.entry (Marks.make nclnt)
  if Int64.ofNat es.1.length + 1 ≠ ver.toInt64 then .error (.appends es.1.length ver)
  else (m.expect.range it).forM (m.client rs.1)

/-! ## The numbers of one client -/

/-- The number after the last one. -/
def nextNumber (ns : List Int) : Int := (ns.getLast?.map (· + 1)).getD 0

theorem nextNumber_snoc (ns : List Int) (n : Int) : nextNumber (ns ++ [n]) = n + 1 := by
  simp [nextNumber]

/-- The numbers count upwards from 0, perhaps with gaps. -/
structure Ascending (ns : List Int) : Prop where
  increasing : ns.Pairwise (· < ·)
  nonneg : ∀ n ∈ ns, 0 ≤ n

theorem ascending_nil : Ascending [] := ⟨.nil, by simp⟩

section Ascending

variable {ns ns' : List Int} {n : Int}

theorem Ascending.left (h : Ascending (ns ++ ns')) : Ascending ns :=
  ⟨(List.pairwise_append.mp h.increasing).1, fun n hn ↦ h.nonneg n (List.mem_append_left _ hn)⟩

theorem Ascending.next_le (h : Ascending (ns ++ [n])) : nextNumber ns ≤ n := by
  unfold nextNumber
  cases hlast : ns.getLast? with
  | none => exact h.nonneg n (by simp)
  | some last =>
      have hlt := (List.pairwise_append.mp h.increasing).2.2 last (List.mem_of_getLast? hlast) n
        (by simp)
      simp only [Option.map_some, Option.getD_some]
      omega

theorem Ascending.below (h : Ascending ns) : ∀ n ∈ ns, n < nextNumber ns := by
  induction ns using List.reverseRecOn with
  | nil => simp
  | append_singleton ns k ih =>
      have hle := h.next_le
      intro n hn
      rw [nextNumber_snoc]
      obtain hold | hnew := List.mem_append.mp hn
      · have hlt := ih h.left n hold
        omega
      · rw [List.mem_singleton.mp hnew]
        omega

theorem Ascending.length_le (h : Ascending ns) : (ns.length : Int) ≤ nextNumber ns := by
  induction ns using List.reverseRecOn with
  | nil => simp [nextNumber]
  | append_singleton ns k ih =>
      have hle := h.next_le
      have hlen := ih h.left
      rw [nextNumber_snoc, List.length_append, List.length_singleton]
      push_cast
      omega

theorem ascending_snoc : Ascending (ns ++ [n]) ↔ Ascending ns ∧ nextNumber ns ≤ n := by
  refine ⟨fun h ↦ ⟨h.left, h.next_le⟩, ?_⟩
  rintro ⟨h, hle⟩
  have hlen := h.length_le
  constructor
  · refine List.pairwise_append.mpr ⟨h.increasing, List.pairwise_singleton _ _, ?_⟩
    intro k hk n' hn'
    have hlt := h.below k hk
    rw [List.mem_singleton.mp hn']
    omega
  · intro k hk
    obtain hold | hnew := List.mem_append.mp hk
    · exact h.nonneg k hold
    · rw [List.mem_singleton.mp hnew]
      omega

end Ascending

/-- The numbers of a client pass the check.  After the greatest int the check expects the least,
which is below any sum. -/
structure Passes (ns : List Int) (r : ClntRes64) : Prop where
  ascending : Ascending ns
  skipped : nextNumber ns ≤ ns.length + r.nmaybe.toInt
  below : nextNumber ns = 2 ^ 63 ∨
    nextNumber ns ≤ r.nok.toInt + r.nmaybe.toInt ∧ r.nok.toInt + r.nmaybe.toInt < 2 ^ 63

/-- The numbers of the entries of client `c`. -/
def numbers (c : Int) (es : List EntryN) : List Int :=
  (es.filter fun e => e.id.toInt = c).map fun e => e.n.toInt

theorem numbers_snoc (c : Int) (es : List EntryN) (e : EntryN) :
    numbers c (es ++ [e]) =
      if e.id.toInt = c then numbers c es ++ [e.n.toInt] else numbers c es := by
  unfold numbers
  rw [List.filter_append, List.map_append]
  split <;> simp_all

theorem numbers_eq_nil {c : Int} {es : List EntryN} (h : ∀ e ∈ es, e.id.toInt ≠ c) :
    numbers c es = [] := by
  unfold numbers
  rw [List.map_eq_nil_iff, List.filter_eq_nil_iff]
  intro e he
  simp [h e he]

theorem numbers_append (c : Int) (es es' : List EntryN) :
    numbers c (es ++ es') = numbers c es ++ numbers c es' := by
  unfold numbers
  rw [List.filter_append, List.map_append]

theorem numbers_lt {c : Int} {es : List EntryN} : ∀ n ∈ numbers c es, n < 2 ^ 63 := by
  intro n hn
  obtain ⟨e, -, rfl⟩ := List.mem_map.mp hn
  exact e.n.toInt_lt

theorem nextNumber_le {ns : List Int} {b : Int} (hb : 0 ≤ b) (h : ∀ n ∈ ns, n < b) :
    nextNumber ns ≤ b := by
  unfold nextNumber
  cases hlast : ns.getLast? with
  | none => exact hb
  | some n =>
      have hlt := h n (List.mem_of_getLast? hlast)
      simp only [Option.map_some, Option.getD_some]
      omega

/-! ## Ints that do not overflow -/

theorem toInt_add_of_lt {a b : Int64} (hlo : -2 ^ 63 ≤ a.toInt + b.toInt)
    (hhi : a.toInt + b.toInt < 2 ^ 63) : (a + b).toInt = a.toInt + b.toInt := by
  rw [Int64.toInt_add]
  exact Int.bmod_eq_of_le hlo hhi

theorem eq_ofNat_iff {c : Int64} {k : Nat} (hk : k < 2 ^ 63) : c = Int64.ofNat k ↔ c.toInt = k := by
  rw [← Int64.toInt_inj, Int64.toInt_ofNat_of_lt hk]

theorem ofInt_succ (n : Int64) : Int64.ofInt (n.toInt + 1) = n + 1 := by
  rw [Int64.ofInt_add, Int64.ofInt_toInt]
  rfl

/-! ## The loop over the list -/

/-- The maps after the entries `es`, whose numbers may have reached the greatest int. -/
structure Marked (es : List EntryN) (m : Marks) : Prop where
  ascending : ∀ c : Int, Ascending (numbers c es)
  expect : ∀ c : Int64,
    (m.expect.lookup c).getD 0 = Int64.ofInt (nextNumber (numbers c.toInt es))
  skipped : ∀ c : Int64, ((m.skipped.lookup c).getD 0).toInt + (numbers c.toInt es).length =
    nextNumber (numbers c.toInt es)

theorem lookup_make {nclnt : Nat} (hn : nclnt ≤ 2 ^ 63) (c : Int64) :
    (Marks.make nclnt).expect.lookup c =
      (if 0 ≤ c.toInt ∧ c.toInt < nclnt then some 0 else none) ∧
      ((Marks.make nclnt).skipped.lookup c).getD 0 = 0 := by
  unfold Marks.make
  induction nclnt with
  | zero =>
      have hno : ¬ (0 ≤ c.toInt ∧ c.toInt < (0 : Nat)) := by omega
      rw [if_neg hno]
      exact ⟨rfl, rfl⟩
  | succ k ih =>
      obtain ⟨hexpect, hskipped⟩ := ih (by omega)
      rw [List.range_succ, List.foldl_append]
      generalize (List.range k).foldl _ _ = m at hexpect hskipped
      change (m.expect.insert (Int64.ofNat k) 0).lookup c = _ ∧
        ((m.skipped.insert (Int64.ofNat k) 0).lookup c).getD 0 = 0
      by_cases hc : c = Int64.ofNat k
      · have hk := (eq_ofNat_iff (by omega)).mp hc
        rw [← hc, AList.lookup_insert, AList.lookup_insert, if_pos (by omega)]
        exact ⟨rfl, rfl⟩
      · have hk : c.toInt ≠ k := fun heq ↦ hc ((eq_ofNat_iff (by omega)).mpr heq)
        have hrange : (0 ≤ c.toInt ∧ c.toInt < (k + 1 : Nat)) ↔ 0 ≤ c.toInt ∧ c.toInt < k := by
          omega
        rw [AList.lookup_insert_ne hc, AList.lookup_insert_ne hc, hexpect]
        exact ⟨by simp only [hrange], hskipped⟩

theorem marked_make {nclnt : Nat} (hn : nclnt ≤ 2 ^ 63) : Marked [] (Marks.make nclnt) := by
  refine ⟨fun _ ↦ ascending_nil, ?_, ?_⟩
  · intro c
    rw [(lookup_make hn c).1]
    split <;> rfl
  · intro c
    rw [(lookup_make hn c).2]
    rfl

section Loop

variable {nclnt : Nat} {es : List EntryN} {m m' : Marks} {e : EntryN}

/-- The entry's client expects `next` now, and `skipped` are missing; the others are as before. -/
theorem Marked.set (h : Marked es m) (next skipped : Int64)
    (hle : nextNumber (numbers e.id.toInt es) ≤ e.n.toInt)
    (hnext : next = Int64.ofInt (e.n.toInt + 1))
    (hskipped : skipped.toInt + (numbers e.id.toInt es).length = e.n.toInt)
    (hexpect : m'.expect = m.expect.insert e.id next)
    (hself : (m'.skipped.lookup e.id).getD 0 = skipped)
    (hothers : ∀ c, c ≠ e.id → m'.skipped.lookup c = m.skipped.lookup c) :
    Marked (es ++ [e]) m' := by
  have hmine : numbers e.id.toInt (es ++ [e]) = numbers e.id.toInt es ++ [e.n.toInt] := by
    rw [numbers_snoc, if_pos rfl]
  have hrest : ∀ c : Int64, c ≠ e.id → numbers c.toInt (es ++ [e]) = numbers c.toInt es := by
    intro c hc
    rw [numbers_snoc, if_neg fun heq ↦ hc (Int64.toInt_inj.mp heq).symm]
  refine ⟨?_, ?_, ?_⟩
  · intro c
    rw [numbers_snoc]
    split
    · rename_i heq
      subst heq
      exact ascending_snoc.mpr ⟨h.ascending _, hle⟩
    · exact h.ascending c
  · intro c
    rw [hexpect]
    by_cases hc : c = e.id
    · subst hc
      rw [AList.lookup_insert, hmine, nextNumber_snoc]
      exact hnext
    · rw [AList.lookup_insert_ne hc, hrest c hc]
      exact h.expect c
  · intro c
    by_cases hc : c = e.id
    · subst hc
      rw [hself, hmine, nextNumber_snoc, List.length_append, List.length_singleton]
      push_cast
      omega
    · rw [hothers c hc, hrest c hc]
      exact h.skipped c

/-- The expected number, while it is an int. -/
theorem Marked.toInt_expect (h : Marked es m) (c : Int64)
    (hint : nextNumber (numbers c.toInt es) < 2 ^ 63) :
    ((m.expect.lookup c).getD 0).toInt = nextNumber (numbers c.toInt es) := by
  have hlen := (h.ascending c.toInt).length_le
  rw [h.expect c, Int64.toInt_ofInt]
  exact Int.bmod_eq_of_le (by omega) hint

/-- An entry that is not behind the expected number. -/
theorem Marked.entry (h : Marked es m) (hint : nextNumber (numbers e.id.toInt es) < 2 ^ 63)
    (hle : nextNumber (numbers e.id.toInt es) ≤ e.n.toInt) :
    ∃ m', m.entry e = .ok m' ∧ Marked (es ++ [e]) m' := by
  have hexpect := h.toInt_expect e.id hint
  have hskipped := h.skipped e.id
  have hlen := (h.ascending e.id.toInt).length_le
  have hlt := e.n.toInt_lt
  unfold Marks.entry
  generalize (m.expect.lookup e.id).getD 0 = expect at hexpect
  generalize hold : (m.skipped.lookup e.id).getD 0 = skipped at hskipped
  have hnot : ¬ expect > e.n := by
    rw [gt_iff_lt, Int64.lt_iff_toInt_lt]
    omega
  simp only [if_neg hnot]
  split
  · rename_i heq
    refine ⟨_, rfl, h.set (expect + 1) skipped hle ?_ ?_ rfl hold fun _ _ ↦ rfl⟩
    · rw [heq, ofInt_succ]
    · rw [← heq]
      omega
  · have hsub : (e.n - expect).toInt = e.n.toInt - expect.toInt := by
      rw [Int64.toInt_sub]
      exact Int.bmod_eq_of_le (by omega) (by omega)
    have hadd : (skipped + (e.n - expect)).toInt = skipped.toInt + (e.n.toInt - expect.toInt) := by
      rw [toInt_add_of_lt (by omega) (by omega), hsub]
    refine ⟨_, rfl,
      h.set (e.n + 1) (skipped + (e.n - expect)) hle (ofInt_succ e.n).symm ?_ rfl ?_ ?_⟩
    · rw [hadd]
      omega
    · rw [AList.lookup_insert]
      rfl
    · exact fun c hc ↦ AList.lookup_insert_ne hc

/-- The loop does not pass an entry that is behind. -/
theorem Marked.entry_ok (h : Marked es m) (hint : nextNumber (numbers e.id.toInt es) < 2 ^ 63)
    (hok : m.entry e = .ok m') : nextNumber (numbers e.id.toInt es) ≤ e.n.toInt := by
  by_contra hlt
  have hexpect := h.toInt_expect e.id hint
  unfold Marks.entry at hok
  generalize (m.expect.lookup e.id).getD 0 = expect at hexpect hok
  have hgt : expect > e.n := by
    rw [gt_iff_lt, Int64.lt_iff_toInt_lt]
    omega
  simp [hgt] at hok

/-- No client has an entry after one with the greatest int. -/
def TopLast (es : List EntryN) : Prop := ∀ c : Int, 2 ^ 63 - 1 ∉ (numbers c es).dropLast

theorem TopLast.int {done rest : List EntryN} (h : TopLast (done ++ e :: rest)) :
    nextNumber (numbers e.id.toInt done) < 2 ^ 63 := by
  have hall := h e.id.toInt
  have hcons : numbers e.id.toInt (e :: rest) = e.n.toInt :: numbers e.id.toInt rest := by
    simp [numbers]
  rw [numbers_append, hcons, List.dropLast_append_of_ne_nil (by simp)] at hall
  have hle : nextNumber (numbers e.id.toInt done) ≤ 2 ^ 63 - 1 := by
    refine nextNumber_le (by decide) fun n hn ↦ ?_
    have hlt := numbers_lt n hn
    have hne : n ≠ 2 ^ 63 - 1 := fun heq ↦ hall (heq ▸ List.mem_append_left _ hn)
    omega
  omega

theorem marked_of_foldlM (hn : nclnt ≤ 2 ^ 63) (htop : TopLast es)
    (hok : es.foldlM Marks.entry (Marks.make nclnt) = .ok m) : Marked es m := by
  refine loop_invariant (I := Marked) hok (marked_make hn) ?_
  intro done e rest m m' hes h hentry
  have hint := (hes ▸ htop).int
  obtain ⟨m'', hentry', hmarked⟩ := h.entry hint (h.entry_ok hint hentry)
  rw [hentry, Except.ok.injEq] at hentry'
  exact hentry' ▸ hmarked

theorem foldlM_marked (hn : nclnt ≤ 2 ^ 63) (htop : TopLast es)
    (hasc : ∀ c, Ascending (numbers c es)) :
    ∃ m, es.foldlM Marks.entry (Marks.make nclnt) = .ok m ∧ Marked es m := by
  refine loop_total (I := Marked) (marked_make hn) ?_
  intro done e rest m hes h
  refine h.entry (hes ▸ htop).int ?_
  -- up to this entry the numbers of its client ascend, too
  have hsplit : numbers e.id.toInt es = (numbers e.id.toInt done ++ [e.n.toInt]) ++
      numbers e.id.toInt rest := by
    simp [numbers, hes]
  have hall := hasc e.id.toInt
  rw [hsplit] at hall
  exact hall.left.next_le

/-- The clients that the loop has an expected number for, whatever the numbers are. -/
theorem keys_of_foldlM (hn : nclnt ≤ 2 ^ 63)
    (hok : es.foldlM Marks.entry (Marks.make nclnt) = .ok m) (c : Int64) :
    (m.expect.lookup c).isSome = true ↔
      (0 ≤ c.toInt ∧ c.toInt < nclnt) ∨ ∃ e ∈ es, e.id = c := by
  refine loop_invariant (I := fun done m => (m.expect.lookup c).isSome = true ↔
    (0 ≤ c.toInt ∧ c.toInt < nclnt) ∨ ∃ e ∈ done, e.id = c) hok ?_ ?_
  · rw [(lookup_make hn c).1]
    split <;> simp_all
  · intro done e rest m m' _ h hentry
    have hinsert : ∃ next, m'.expect = m.expect.insert e.id next := by
      unfold Marks.entry at hentry
      dsimp only at hentry
      split at hentry
      · cases hentry
      · split at hentry <;> cases hentry <;> exact ⟨_, rfl⟩
    obtain ⟨next, hnext⟩ := hinsert
    rw [hnext]
    by_cases hc : c = e.id
    · subst hc
      simp
    · rw [AList.lookup_insert_ne hc, h]
      simp [Ne.symm hc]

end Loop

/-! ## The loop over the clients -/

section Client

variable {nclnt : Nat} {es : List EntryN} {m : Marks} {rs : List ClntRes64}

/-- The sum of the two counters overflows only into the negative, where no number is below it. -/
theorem le_add_iff {n nok nmaybe : Int64} (hn : 0 ≤ n.toInt) (hmaybe : 0 ≤ nmaybe.toInt) :
    n ≤ nok + nmaybe ↔ n.toInt ≤ nok.toInt + nmaybe.toInt ∧ nok.toInt + nmaybe.toInt < 2 ^ 63 := by
  have hlo := nok.le_toInt
  have hhi := nok.toInt_lt
  have hhi' := nmaybe.toInt_lt
  rw [Int64.le_iff_toInt_le]
  by_cases hsmall : nok.toInt + nmaybe.toInt < 2 ^ 63
  · rw [toInt_add_of_lt (by omega) hsmall]
    exact ⟨fun h ↦ ⟨h, hsmall⟩, fun h ↦ h.1⟩
  · have hneg : (nok + nmaybe).toInt < 0 := by
      rw [Int64.toInt_add, Int.bmod_def]
      omega
    exact ⟨fun h ↦ by omega, fun h ↦ absurd h.2 hsmall⟩

theorem client_ok_iff {c n : Int64} : m.client rs (c, n) = .ok () ↔
    ∃ r, 0 ≤ c ∧ rs[c.toNatClampNeg]? = some r ∧ (m.skipped.lookup c).getD 0 ≤ r.nmaybe ∧
      n ≤ r.nok + r.nmaybe := by
  unfold Marks.client
  by_cases hpos : 0 ≤ c
  · simp only [if_pos hpos]
    cases hr : rs[c.toNatClampNeg]? with
    | none => simp
    | some r =>
        by_cases hskipped : (m.skipped.lookup c).getD 0 > r.nmaybe
        · simp [hpos, hskipped, Int64.not_le.mpr hskipped]
        · by_cases hputs : n > r.nok + r.nmaybe
          · simp [hpos, hskipped, hputs, Int64.not_le.mpr hputs]
          · simp [hpos, hskipped, hputs, Int64.not_lt.mp hskipped, Int64.not_lt.mp hputs]
  · simp [hpos]

theorem Marked.client (h : Marked es m) {c n : Int64} (hn : m.expect.lookup c = some n) :
    m.client rs (c, n) = .ok () ↔
      ∃ r, 0 ≤ c.toInt ∧ rs[c.toInt.toNat]? = some r ∧ Passes (numbers c.toInt es) r := by
  have hexpect := h.expect c
  have hskipped := h.skipped c
  have hasc := h.ascending c.toInt
  have hlen := hasc.length_le
  have htop : nextNumber (numbers c.toInt es) ≤ 2 ^ 63 := nextNumber_le (by decide) numbers_lt
  rw [hn, Option.getD_some] at hexpect
  rw [client_ok_iff]
  generalize (m.skipped.lookup c).getD 0 = skipped at hskipped
  refine exists_congr fun r ↦ and_congr Int64.le_iff_toInt_le (and_congr Iff.rfl ?_)
  rw [Int64.le_iff_toInt_le]
  by_cases hover : nextNumber (numbers c.toInt es) = 2 ^ 63
  · -- the expected number is the least int
    have hmin : n.toInt = -2 ^ 63 := by
      rw [hexpect, hover]
      rfl
    have hsum : n ≤ r.nok + r.nmaybe := by
      rw [Int64.le_iff_toInt_le, hmin]
      exact Int64.le_toInt _
    constructor
    · rintro ⟨hle, -⟩
      exact ⟨hasc, by omega, .inl hover⟩
    · intro hpass
      have hle := hpass.skipped
      exact ⟨by omega, hsum⟩
  · have hint := h.toInt_expect c (by omega)
    rw [hn, Option.getD_some] at hint
    constructor
    · rintro ⟨hle, hsum⟩
      have hsum := (le_add_iff (by omega) (by omega)).mp hsum
      exact ⟨hasc, by omega, .inr (by omega)⟩
    · intro hpass
      have hle := hpass.skipped
      have hbelow := hpass.below.resolve_left hover
      exact ⟨by omega, (le_add_iff (by omega) (by omega)).mpr (by omega)⟩

/-- The loop finds no result for a negative id. -/
theorem nonneg_of_clients {it : Iteration Int64} (hn : nclnt ≤ 2 ^ 63)
    (hm : es.foldlM Marks.entry (Marks.make nclnt) = .ok m)
    (hok : (m.expect.range it).forM (m.client rs) = .ok ()) : ∀ e ∈ es, 0 ≤ e.id.toInt := by
  intro e he
  obtain ⟨n, hlookup⟩ := Option.isSome_iff_exists.mp
    ((keys_of_foldlM hn hm e.id).mpr (.inr ⟨e, he, rfl⟩))
  obtain ⟨r, hpos, -⟩ := client_ok_iff.mp (forM_ok_iff.mp hok _ (GoMap.mem_range.mpr hlookup))
  exact Int64.le_iff_toInt_le.mp hpos

theorem Marked.clients (h : Marked es m) (it : Iteration Int64) (hn : nclnt ≤ 2 ^ 63)
    (hm : es.foldlM Marks.entry (Marks.make nclnt) = .ok m) (hrs : rs.length = nclnt)
    (hids : ∀ e ∈ es, e.id.toInt < nclnt) :
    (m.expect.range it).forM (m.client rs) = .ok () ↔
      (∀ e ∈ es, 0 ≤ e.id.toInt) ∧
      ∀ (c : Nat) (r : ClntRes64), rs[c]? = some r → Passes (numbers c es) r := by
  constructor
  · intro hok
    refine ⟨nonneg_of_clients hn hm hok, ?_⟩
    intro c r hr
    have hc := lt_length_of_getElem? hr
    have htoInt : (Int64.ofNat c).toInt = c := Int64.toInt_ofNat_of_lt (by omega)
    obtain ⟨n, hlookup⟩ := Option.isSome_iff_exists.mp
      ((keys_of_foldlM hn hm (Int64.ofNat c)).mpr (.inl (by omega)))
    obtain ⟨r', -, hr', hpasses⟩ :=
      (h.client hlookup).mp (forM_ok_iff.mp hok _ (GoMap.mem_range.mpr hlookup))
    rw [htoInt, Int.toNat_natCast, hr, Option.some.injEq] at hr'
    rw [htoInt, ← hr'] at hpasses
    exact hpasses
  · rintro ⟨hpos, hpasses⟩
    rw [forM_ok_iff]
    rintro ⟨c, n⟩ hcn
    have hlookup := GoMap.mem_range.mp hcn
    have hc : 0 ≤ c.toInt ∧ c.toInt < nclnt := by
      obtain hc | ⟨e, he, rfl⟩ := (keys_of_foldlM hn hm c).mp (by rw [hlookup]; rfl)
      · exact hc
      · exact ⟨hpos e he, hids e he⟩
    have hget := List.getElem?_eq_getElem (l := rs) (i := c.toInt.toNat) (by omega)
    have hclient := hpasses _ _ hget
    rw [Int.toNat_of_nonneg hc.1] at hclient
    exact (h.client hlookup).mpr ⟨_, hc.1, hget, hclient⟩

end Client

/-! ## The whole check -/

theorem version_iff {len : Nat} {ver : Tversion} (hlen : len < 2 ^ 63) :
    Int64.ofNat len + 1 = ver.toInt64 ↔ len + 1 = ver.toNat := by
  rw [← Int64.toBitVec_inj, ← BitVec.toNat_inj]
  change (len % 2 ^ 64 + 1) % 2 ^ 64 = ver.toNat ↔ _
  omega

theorem checkAppends_ok_iff {it : Iteration Int64} {es : Slice EntryN} {nclnt : Nat}
    {rs : Slice ClntRes64} {ver : Tversion} :
    checkAppends it es nclnt rs ver = .ok () ↔
      es.1.length + 1 = ver.toNat ∧ ∃ m, es.1.foldlM Marks.entry (Marks.make nclnt) = .ok m ∧
        (m.expect.range it).forM (m.client rs.1) = .ok () := by
  rw [← version_iff es.2]
  unfold checkAppends
  cases es.1.foldlM Marks.entry (Marks.make nclnt) with
  | error f => simp [bind, Except.bind]
  | ok m =>
      by_cases hver : Int64.ofNat es.1.length + 1 = ver.toInt64
      · simp [bind, Except.bind, hver]
      · simp [bind, Except.bind, hver]

/-- Exactly these lists pass the check, if no client has an entry after one with the greatest
int. -/
theorem checkAppends_iff (it : Iteration Int64) {es : Slice EntryN} {nclnt : Nat}
    {rs : Slice ClntRes64} {ver : Tversion} (hrs : rs.1.length = nclnt)
    (hids : ∀ e ∈ es.1, e.id.toInt < nclnt) (htop : TopLast es.1) :
    checkAppends it es nclnt rs ver = .ok () ↔
      es.1.length + 1 = ver.toNat ∧ (∀ e ∈ es.1, 0 ≤ e.id.toInt) ∧
      ∀ (c : Nat) (r : ClntRes64), rs.1[c]? = some r → Passes (numbers c es.1) r := by
  have hn : nclnt ≤ 2 ^ 63 := by
    have hsmall := rs.2
    omega
  rw [checkAppends_ok_iff]
  refine and_congr Iff.rfl ?_
  constructor
  · rintro ⟨m, hm, hok⟩
    exact ((marked_of_foldlM hn htop hm).clients it hn hm hrs hids).mp hok
  · rintro ⟨hpos, hpasses⟩
    have hasc : ∀ c, Ascending (numbers c es.1) := by
      intro c
      by_cases hc : 0 ≤ c ∧ c < nclnt
      · have hget := List.getElem?_eq_getElem (l := rs.1) (i := c.toNat) (by omega)
        have hclient := hpasses _ _ hget
        rw [Int.toNat_of_nonneg hc.1] at hclient
        exact hclient.ascending
      · -- there are no entries of anybody else
        have hnone : ∀ e ∈ es.1, e.id.toInt ≠ c := fun e he heq ↦
          hc ⟨heq ▸ hpos e he, heq ▸ hids e he⟩
        rw [numbers_eq_nil hnone]
        exact ascending_nil
    obtain ⟨m, hm, h⟩ := foldlM_marked hn htop hasc
    exact ⟨m, hm, (h.clients it hn hm hrs hids).mpr ⟨hpos, hpasses⟩⟩

/-! ## What the clients hand to the check -/

def Entry.toN (e : Entry) : EntryN := ⟨Int64.ofNat e.id, Int64.ofNat e.n⟩

def ClntRes.to64 (r : ClntRes) : ClntRes64 := ⟨Int64.ofNat r.nok, Int64.ofNat r.nmaybe⟩

theorem numbers_toN {es : List Entry} (hids : ∀ e ∈ es, e.id < 2 ^ 63)
    (hsmall : ∀ e ∈ es, e.n < 2 ^ 63) (c : Nat) :
    numbers c (es.map Entry.toN) = (mine c es).map Nat.cast := by
  unfold numbers mine
  rw [List.filter_map, List.map_map, List.map_map]
  have hfilter : es.filter ((fun e => decide (e.id.toInt = (c : Int))) ∘ Entry.toN) =
      es.filter fun e => decide (e.id = c) := by
    apply List.filter_congr
    intro e he
    change decide ((Int64.ofNat e.id).toInt = (c : Int)) = _
    rw [Int64.toInt_ofNat_of_lt (hids e he)]
    simp only [Int.natCast_inj]
  rw [hfilter]
  apply List.map_congr_left
  intro e he
  exact Int64.toInt_ofNat_of_lt (hsmall e (List.mem_of_mem_filter he))

/-- A client whose iterations have all ended passes the check. -/
theorem Appended.passes {c : Client} {ns : List Nat} (h : Appended ns c) (hc : Counted c)
    (hint : c.i < 2 ^ 63) : Passes (ns.map Nat.cast) (ClntRes.to64 ⟨c.nok, c.nmay⟩) := by
  have htotal := hc.total
  have hoks := h.oks
  have hnok : (Int64.ofNat c.nok).toInt = c.nok := Int64.toInt_ofNat_of_lt (by omega)
  have hnmay : (Int64.ofNat c.nmay).toInt = c.nmay := Int64.toInt_ofNat_of_lt (by omega)
  have hbelow : ∀ n ∈ ns.map (Nat.cast : Nat → Int), n < c.i := by
    rw [List.forall_mem_map]
    intro n hn
    have hlt := h.below n hn
    omega
  have hnext := nextNumber_le (by omega) hbelow
  refine ⟨⟨?_, ?_⟩, ?_, .inr ?_⟩
  · exact List.pairwise_map.mpr (h.increasing.imp fun hlt ↦ by omega)
  · rw [List.forall_mem_map]
    exact fun n _ ↦ Int.natCast_nonneg n
  · rw [List.length_map]
    change _ ≤ _ + (Int64.ofNat c.nmay).toInt
    omega
  · change _ ≤ (Int64.ofNat c.nok).toInt + (Int64.ofNat c.nmay).toInt ∧
      (Int64.ofNat c.nok).toInt + (Int64.ofNat c.nmay).toInt < 2 ^ 63
    omega

/-! ## After all clients have returned -/

theorem mine_append (me : Nat) (es es' : List Entry) :
    mine me (es ++ es') = mine me es ++ mine me es' := by
  unfold mine
  rw [List.filter_append, List.map_append]

theorem count_mine (c k : Nat) (es : List Entry) : (mine c es).count k = es.count ⟨c, k⟩ := by
  induction es with
  | nil => rfl
  | cons e es ih =>
      have hcons : mine c (e :: es) = mine c [e] ++ mine c es := mine_append c [e] es
      rw [hcons, List.count_append, ih, show e :: es = [e] ++ es from rfl, List.count_append]
      congr 1
      obtain ⟨id, n⟩ := e
      by_cases hid : id = c <;> by_cases hn : n = k <;> simp [mine, hid, hn]

section Returned

variable {J : Codec (List Entry)} {nclnt : Nat} {s : Sys Client} {es : List Entry}
  {rs : Slice ClntRes} {c : Nat} {p : Proc Client} {r : ClntRes}

/-- What the invariant says about a client that has returned. -/
theorem Appends.of_returned (h : Appends J nclnt es s)
    (hreturned : s.procs.map (fun p => p.st.pc) = rs.1.map AppendPc.returned)
    (hp : s.procs[c]? = some p) (hr : rs.1[c]? = some r) :
    Appended (mine c es) p.st ∧ r = ⟨p.st.nok, p.st.nmay⟩ := by
  have hpc : p.st.pc = .returned r := by
    have hboth := congrArg (fun l : List AppendPc => l[c]?) hreturned
    simpa [hp, hr] using hboth
  obtain ⟨_, hnamed, hcounted, hstands⟩ := h.stands c p hp
  unfold Stands at hstands
  simp only [hpc, hnamed] at hstands
  exact ⟨hstands.1, hcounted.result r hpc⟩

/-- There is one result for each client. -/
theorem exists_result (hreturned : s.procs.map (fun p => p.st.pc) = rs.1.map AppendPc.returned)
    (hc : c < s.procs.length) : ∃ p r, s.procs[c]? = some p ∧ rs.1[c]? = some r := by
  have hlen := congrArg List.length hreturned
  simp only [List.length_map] at hlen
  exact ⟨_, _, List.getElem?_eq_getElem hc, List.getElem?_eq_getElem (by omega)⟩

theorem Appended.count_ok {c : Client} {id k : Nat} (h : Appended (mine id es) c)
    (hk : c.outcomes[k]? = some .ok) : es.count ⟨id, k⟩ = 1 := by
  rw [← count_mine]
  exact List.count_eq_one_of_mem (h.increasing.imp fun hlt ↦ Nat.ne_of_lt hlt) (h.ok k hk)

/-- An entry that is missing is not that of an iteration that ended with `OK`. -/
theorem Appended.missing {c : Client} {id k : Nat} (h : Appended (mine id es) c) (hc : Counted c)
    (hk : k < c.i) (hmissing : ⟨id, k⟩ ∉ es) : c.outcomes[k]? = some .errMaybe := by
  rw [← hc.iterations] at hk
  have hget := List.getElem?_eq_getElem hk
  obtain hok | hmaybe := hc.outcome _ (List.getElem_mem hk)
  · rw [hok] at hget
    have hone := h.count_ok hget
    rw [List.count_eq_zero.mpr hmissing] at hone
    cases hone
  · rw [hget, hmaybe]

/-- The counters of the clients have not left the ints. -/
theorem Appends.entry_lt (h : Appends J nclnt es s) (hlen : s.procs.length = nclnt)
    (hreturned : s.procs.map (fun p => p.st.pc) = rs.1.map AppendPc.returned) :
    ∀ e ∈ es, e.n < 2 ^ 63 - 1 := by
  intro e he
  obtain ⟨p, r, hp, hr⟩ := exists_result hreturned (hlen ▸ h.shared.ids e he)
  have hmem : e.n ∈ mine e.id es := by
    simp only [mine, List.mem_map, List.mem_filter, decide_eq_true_eq]
    exact ⟨e, ⟨he, rfl⟩, rfl⟩
  have hlt := (h.of_returned hreturned hp hr).1.below _ hmem
  have hle := h.counter_le hp
  have hint := h.shared.int
  omega

theorem Appends.check (h : Appends J nclnt es s) (hprocs : s.procs.length = nclnt)
    (hreturned : s.procs.map (fun p => p.st.pc) = rs.1.map AppendPc.returned) {ver : Tversion}
    (hver : es.length + 1 = ver.toNat) (it : Iteration Int64) :
    checkAppends it (Slice.map Entry.toN ⟨es, h.shared.int⟩) nclnt (rs.map ClntRes.to64) ver =
      .ok () := by
  have hlen := congrArg List.length hreturned
  simp only [List.length_map, hprocs] at hlen
  have hsmall := rs.2
  have hid : ∀ e ∈ es, (Int64.ofNat e.id).toInt = e.id := fun e he ↦
    Int64.toInt_ofNat_of_lt (by have hlt := h.shared.ids e he; omega)
  have hentry := h.entry_lt hprocs hreturned
  have hnumbers := numbers_toN (fun e he ↦ (h.shared.ids e he).trans (hlen ▸ hsmall))
    (fun e he ↦ (hentry e he).trans (by decide))
  -- the numbers are far from the greatest int, so nothing wraps in the check
  have htop : TopLast (es.map Entry.toN) := by
    intro c hmem
    obtain ⟨e', he', hn⟩ := List.mem_map.mp (List.dropLast_subset _ hmem)
    obtain ⟨e, he, rfl⟩ := List.mem_map.mp (List.mem_of_mem_filter he')
    have hlt := hentry e he
    change (Int64.ofNat e.n).toInt = _ at hn
    rw [Int64.toInt_ofNat_of_lt (by omega)] at hn
    omega
  refine (checkAppends_iff it (by rw [Slice.map, List.length_map, hlen]) ?_ htop).mpr
    ⟨by rw [Slice.map, List.length_map, hver], ?_, ?_⟩
  · rw [Slice.map, List.forall_mem_map]
    intro e he
    have hlt := h.shared.ids e he
    change (Int64.ofNat e.id).toInt < _
    rw [hid e he]
    omega
  · rw [Slice.map, List.forall_mem_map]
    intro e he
    change 0 ≤ (Int64.ofNat e.id).toInt
    rw [hid e he]
    omega
  · intro c r64 hr64
    rw [Slice.map, List.getElem?_map] at hr64
    obtain ⟨r, hr, rfl⟩ := Option.map_eq_some_iff.mp hr64
    have hc : c < s.procs.length := by
      rw [hprocs, hlen]
      exact lt_length_of_getElem? hr
    obtain ⟨p, -, hp, -⟩ := exists_result hreturned hc
    obtain ⟨happ, rfl⟩ := h.of_returned hreturned hp hr
    rw [Slice.map, hnumbers]
    have hle := h.counter_le hp
    have hint := h.shared.int
    exact happ.passes (h.stands c p hp).counted (by omega)

end Returned

/-- When all clients have returned, the list under the key is as long as its version says.  Each
client has its entries there in strictly increasing order, all below the number of its iterations;
the entry of each iteration that ended with `OK` is there exactly once, and an entry that is missing
is that of an iteration that ended with `ErrMaybe`.  `CheckAppends` finds nothing wrong. -/
theorem appends_exact {J : Codec (List Entry)} {nclnt : Nat} {s : Sys Client} {rs : Slice ClntRes}
    (h : Reaches (Sys.step (program J) key) (appenders J nclnt) s)
    (hreturned : s.procs.map (fun p => p.st.pc) = rs.1.map AppendPc.returned) :
    ∃ (es : Slice Entry) (ver : Tversion), s.net.server.m key = some ⟨J.marshal es.1, ver⟩ ∧
      es.1.length + 1 = ver.toNat ∧
      (∀ (c : Nat) (p : Proc Client) (r : ClntRes), s.procs[c]? = some p → rs.1[c]? = some r →
        (mine c es.1).Pairwise (· < ·) ∧
        (∀ n ∈ mine c es.1, n < r.nok + r.nmaybe) ∧
        (∀ k, p.st.outcomes[k]? = some .ok → es.1.count ⟨c, k⟩ = 1) ∧
        (∀ k, k < r.nok + r.nmaybe → ⟨c, k⟩ ∉ es.1 → p.st.outcomes[k]? = some .errMaybe)) ∧
      ∀ it, checkAppends it (es.map Entry.toN) nclnt (rs.map ClntRes.to64) ver = .ok () := by
  obtain ⟨es, hes⟩ := appends_of_reaches h
  obtain ⟨ver, hstored⟩ := hes.shared.stored
  have hlength : es.length + 1 = ver.toNat := by
    have hlt := hes.writes_lt
    rw [hes.shared.length]
    exact (hes.careful.inv.writes_of_some (by omega) hstored).1.symm
  refine ⟨⟨es, hes.shared.int⟩, ver, hstored, hlength, ?_, ?_⟩
  · intro c p r hp hr
    obtain ⟨happ, rfl⟩ := hes.of_returned hreturned hp hr
    have hcounted := (hes.stands c p hp).counted
    have htotal := hcounted.total
    refine ⟨happ.increasing, ?_, fun k hk ↦ happ.count_ok hk, ?_⟩
    · intro n hn
      have hlt := happ.below n hn
      simp only
      omega
    · intro k hk hmissing
      simp only [htotal] at hk
      exact happ.missing hcounted hk hmissing
  · intro it
    exact hes.check (procs_length h) hreturned hlength it

/-- `[{"Id":0,"N":0}]` -/
def entriesJson : Codec (List Entry) :=
  (Format.slice ((Format.object (lit "Id") (lit "N") .number .number).map (fun p => ⟨p.1, p.2⟩)
    (fun e => (e.id, e.n)) fun _ ↦ rfl)).codec

/-- Both clients read the empty list.  The reply to the `Put` of client 0 is lost; the `Put` of
client 1 comes too late, and it tries again. -/
def contended : List (SysAction Signal) :=
  [.act 0 .default, .act 1 .default, .net (.exec 1), .net (.exec 2), .net (.deliver 1),
   .net (.deliver 2), .resume 0, .resume 1, .net (.exec 3), .net (.lose 3), .net (.exec 4),
   .net (.resend 3), .net (.exec 5), .net (.deliver 3), .resume 0, .net (.deliver 4), .resume 1,
   .net (.exec 6), .net (.deliver 5), .resume 1, .net (.exec 7), .net (.deliver 6), .resume 1,
   .act 0 .done, .act 1 .done]

theorem contended_runs : (run (Sys.step (program entriesJson) key) (appenders entriesJson 2)
    contended).isSome = true := by
  decide +kernel

def contendedResults : Slice ClntRes := ⟨[⟨0, 1⟩, ⟨1, 0⟩], by decide⟩

theorem contended_returned :
    ((run (Sys.step (program entriesJson) key) (appenders entriesJson 2) contended).get
      contended_runs).procs.map (fun p => p.st.pc) =
        contendedResults.1.map AppendPc.returned := by
  decide +kernel

theorem appends_exact_contended :
    ∃ s, run (Sys.step (program entriesJson) key) (appenders entriesJson 2) contended = some s ∧
      s.procs.map (fun p => p.st.pc) = contendedResults.1.map AppendPc.returned ∧
      ∃ (es : Slice Entry) (ver : Tversion),
        s.net.server.m key = some ⟨entriesJson.marshal es.1, ver⟩ ∧
        ∀ it, checkAppends it (es.map Entry.toN) 2 (contendedResults.map ClntRes.to64) ver =
          .ok () := by
  refine ⟨_, (Option.some_get contended_runs).symm, contended_returned, ?_⟩
  obtain ⟨es, ver, hstored, _, _, hcheck⟩ :=
    appends_exact (reaches_get contended_runs) contended_returned
  exact ⟨es, ver, hstored, hcheck⟩

end GoLabs.KvTest
