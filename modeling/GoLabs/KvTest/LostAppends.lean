import GoLabs.KvTest.CheckAppends

/-!
# What the check of the appended list finds

`CheckAppends` on arbitrary lists and results, not only those that the clients have made.  It counts
the iterations that are missing before the last entry of a client, so it does not see that entries
are missing at the end; and after an entry with the greatest int it takes any number for an
increase.
-/

open GoLabs.Reasoning GoLabs.KvSrv

namespace GoLabs.KvTest

/-- How many numbers are missing before the last one. -/
def gaps (ns : List Int) : Nat :=
  (List.range (nextNumber ns).toNat).countP fun k => Int.ofNat k ∉ ns

theorem Ascending.gaps_add {ns : List Int} (h : Ascending ns) :
    (gaps ns : Int) + ns.length = nextNumber ns := by
  -- the numbers that are not missing are the list
  have hperm : ((List.range (nextNumber ns).toNat).filter fun k => Int.ofNat k ∈ ns).Perm
      (ns.map Int.toNat) := by
    rw [List.perm_ext_iff_of_nodup (List.nodup_range.filter _)]
    · intro k
      simp only [List.mem_filter, List.mem_range, decide_eq_true_eq, List.mem_map]
      constructor
      · rintro ⟨-, hk⟩
        exact ⟨_, hk, rfl⟩
      · rintro ⟨n, hn, rfl⟩
        have hlt := h.below n hn
        have hpos := h.nonneg n hn
        refine ⟨by omega, ?_⟩
        rwa [Int.ofNat_eq_natCast, Int.toNat_of_nonneg hpos]
    · refine List.Nodup.map_on ?_ (h.increasing.imp fun hlt ↦ Int.ne_of_lt hlt)
      intro n hn k hk heq
      have hn := h.nonneg n hn
      have hk := h.nonneg k hk
      omega
  have hsplit := List.length_eq_countP_add_countP
    (fun k => decide (Int.ofNat k ∈ ns)) (l := List.range (nextNumber ns).toNat)
  have hlen := h.length_le
  rw [List.length_range, List.countP_eq_length_filter, hperm.length_eq, List.length_map] at hsplit
  have hgaps : gaps ns = (List.range (nextNumber ns).toNat).countP
      fun k => ¬ decide (Int.ofNat k ∈ ns) = true := by
    simp [gaps]
  omega

/-- The greatest int can only be the last of the numbers, since they are ints. -/
theorem top_notMem_dropLast {ns : List Int} (hinc : ns.Pairwise (· < ·))
    (hint : ∀ n ∈ ns, n < 2 ^ 63) : 2 ^ 63 - 1 ∉ ns.dropLast := by
  cases ns using List.reverseRecOn with
  | nil => simp
  | append_singleton ns n =>
      rw [List.dropLast_concat]
      intro hmem
      have hlt := (List.pairwise_append.mp hinc).2.2 _ hmem n (by simp)
      have hn := hint n (by simp)
      omega

theorem top_mem_of_nextNumber {ns : List Int} (h : nextNumber ns = 2 ^ 63) : 2 ^ 63 - 1 ∈ ns := by
  unfold nextNumber at h
  cases hlast : ns.getLast? with
  | none => simp [hlast] at h
  | some n =>
      simp only [hlast, Option.map_some, Option.getD_some] at h
      have hn : n = 2 ^ 63 - 1 := by omega
      exact hn ▸ List.mem_of_getLast? hlast

section Passing

variable {it : Iteration Int64} {es : Slice EntryN} {nclnt : Nat} {rs : Slice ClntRes64}
  {ver : Tversion}

/-- If it is so for the clients that have a result, then no client at all has an entry after one
with the greatest int: the check has found a result for each entry. -/
theorem topLast_of_ok (hrs : rs.1.length = nclnt) (hids : ∀ e ∈ es.1, e.id.toInt < nclnt)
    (hok : checkAppends it es nclnt rs ver = .ok ())
    (htop : ∀ (c : Nat) (r : ClntRes64), rs.1[c]? = some r →
      2 ^ 63 - 1 ∉ (numbers c es.1).dropLast) : TopLast es.1 := by
  have hn : nclnt ≤ 2 ^ 63 := by
    have hsmall := rs.2
    omega
  obtain ⟨-, m, hm, hclients⟩ := checkAppends_ok_iff.mp hok
  have hpos := nonneg_of_clients hn hm hclients
  intro c
  by_cases hc : 0 ≤ c ∧ c < nclnt
  · have hclient := htop _ _ (List.getElem?_eq_getElem (l := rs.1) (i := c.toNat) (by omega))
    rwa [Int.toNat_of_nonneg hc.1] at hclient
  · have hnone : ∀ e ∈ es.1, e.id.toInt ≠ c := fun e he heq ↦
      hc ⟨heq ▸ hpos e he, heq ▸ hids e he⟩
    rw [numbers_eq_nil hnone]
    simp

/-- A list that passes the check is as it should be, if and only if for each client the iterations
that are missing after its last entry and the gaps before it are together no more than those that
ended with `ErrMaybe`, and an entry with the greatest int is its last one and counted. -/
theorem checkAppends_detects_iff (it : Iteration Int64) (hrs : rs.1.length = nclnt)
    (hids : ∀ e ∈ es.1, e.id.toInt < nclnt) (hok : checkAppends it es nclnt rs ver = .ok ()) :
    (es.1.length + 1 = ver.toNat ∧
      ∀ (c : Nat) (r : ClntRes64), rs.1[c]? = some r →
        (numbers c es.1).Pairwise (· < ·) ∧
        (∀ n ∈ numbers c es.1, n < r.nok.toInt + r.nmaybe.toInt) ∧
        r.nok.toInt ≤ (numbers c es.1).length ∧
        (numbers c es.1).length ≤ r.nok.toInt + r.nmaybe.toInt) ↔
      ∀ (c : Nat) (r : ClntRes64), rs.1[c]? = some r →
        2 ^ 63 - 1 ∉ (numbers c es.1).dropLast ∧
        (2 ^ 63 - 1 ∈ numbers c es.1 → 2 ^ 63 ≤ r.nok.toInt + r.nmaybe.toInt) ∧
        r.nok.toInt + r.nmaybe.toInt - nextNumber (numbers c es.1) + gaps (numbers c es.1) ≤
          r.nmaybe.toInt := by
  constructor
  · rintro ⟨-, hclaim⟩
    have htop : ∀ (c : Nat) (r : ClntRes64), rs.1[c]? = some r →
        2 ^ 63 - 1 ∉ (numbers c es.1).dropLast := fun c r hr ↦
      top_notMem_dropLast (hclaim c r hr).1 numbers_lt
    obtain ⟨-, -, hpasses⟩ :=
      (checkAppends_iff it hrs hids (topLast_of_ok hrs hids hok htop)).mp hok
    intro c r hr
    obtain ⟨-, hbelow, hacknowledged, -⟩ := hclaim c r hr
    have hgaps := (hpasses c r hr).ascending.gaps_add
    refine ⟨htop c r hr, ?_, by omega⟩
    intro hmem
    have hlt := hbelow _ hmem
    omega
  · intro hcond
    have htop := topLast_of_ok hrs hids hok fun c r hr ↦ (hcond c r hr).1
    obtain ⟨hver, -, hpasses⟩ := (checkAppends_iff it hrs hids htop).mp hok
    refine ⟨hver, ?_⟩
    intro c r hr
    obtain ⟨-, hcounted, hmissing⟩ := hcond c r hr
    have hpass := hpasses c r hr
    have hgaps := hpass.ascending.gaps_add
    -- the check has wrapped around only if the last number is the greatest int
    have hnext : nextNumber (numbers c es.1) ≤ r.nok.toInt + r.nmaybe.toInt := by
      obtain hwrapped | ⟨hle, -⟩ := hpass.below
      · exact hwrapped ▸ hcounted (top_mem_of_nextNumber hwrapped)
      · exact hle
    refine ⟨hpass.ascending.increasing, ?_, by omega, by omega⟩
    intro n hn
    have hlt := hpass.ascending.below n hn
    omega

end Passing

/-- Two clients, one of which has an entry missing before its last one. -/
def gap : Slice EntryN := ⟨[⟨0, 0⟩, ⟨1, 0⟩, ⟨1, 2⟩], by decide⟩

def gapResults : Slice ClntRes64 := ⟨[⟨1, 0⟩, ⟨2, 1⟩], by decide⟩

theorem checkAppends_detects_iff_gap :
    (∀ e ∈ gap.1, e.id.toInt < (2 : Nat)) ∧
      checkAppends (.stored Int64) gap 2 gapResults 4 = .ok () ∧
      numbers (1 : Nat) gap.1 = [0, 2] ∧ gaps [0, 2] = 1 ∧
      (2 : Int64).toInt ≤ (numbers (1 : Nat) gap.1).length := by
  have hids : ∀ e ∈ gap.1, e.id.toInt < (2 : Nat) := by decide
  have hok : checkAppends (.stored Int64) gap 2 gapResults 4 = .ok () := by decide +kernel
  have hcond : ∀ (c : Nat) (r : ClntRes64), gapResults.1[c]? = some r →
      2 ^ 63 - 1 ∉ (numbers c gap.1).dropLast ∧
      (2 ^ 63 - 1 ∈ numbers c gap.1 → 2 ^ 63 ≤ r.nok.toInt + r.nmaybe.toInt) ∧
      r.nok.toInt + r.nmaybe.toInt - nextNumber (numbers c gap.1) + gaps (numbers c gap.1) ≤
        r.nmaybe.toInt := by
    intro c r hr
    match c with
    | 0 | 1 =>
        obtain rfl := Option.some.inj hr
        decide +kernel
    | c + 2 => cases hr
  obtain ⟨-, hclients⟩ := (checkAppends_detects_iff (.stored Int64) rfl hids hok).mpr hcond
  exact ⟨hids, hok, by decide +kernel, by decide +kernel, (hclients 1 ⟨2, 1⟩ rfl).2.2.1⟩

/-- A client was told `OK` three times, but only its first entry is there. -/
theorem lost_appends_pass :
    (∀ e ∈ ([⟨0, 0⟩] : List EntryN), e.id.toInt < 1) ∧
      checkAppends (.stored Int64) ⟨[⟨0, 0⟩], by decide⟩ 1 ⟨[⟨3, 0⟩], by decide⟩ 2 = .ok () ∧
      ¬ (3 : Int64).toInt ≤ (numbers 0 [⟨0, 0⟩]).length := by
  decide +kernel

-- after the greatest int the check expects the least, so it takes any number for an increase
example : checkAppends (.stored Int64) ⟨[⟨0, Int64.maxValue⟩, ⟨0, 0⟩], by decide⟩ 1
    ⟨[⟨1, 0⟩], by decide⟩ 3 = .ok () := by decide +kernel

end GoLabs.KvTest
