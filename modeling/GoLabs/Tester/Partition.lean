import GoLabs.Tester.Connectivity

/-!
# Partitions

`Partition` cuts a group in two, with a `disconnect` and a `connect` for each server in turn.  The
guards of `connect` read flags that the same loop changes, but every end inside one half is an
outgoing end of a server that is connected to its half, so the guards do not matter.

`MakePartition` draws up the two halves.
-/

open GoLabs.Reasoning

namespace GoLabs.Tester

namespace ServerGrp

variable {n : Nat} {sg sg' : ServerGrp n} {a b i : Fin n}

/-- The body of the two loops of `Partition`: server `i` of the half `own`. -/
def isolate (own other : List (Fin n)) (sg : ServerGrp n) (i : Fin n) : ServerGrp n :=
  (sg.disconnect i other).connect i own

def partition (sg : ServerGrp n) (p1 p2 : List (Fin n)) : ServerGrp n :=
  p2.foldl (isolate p2 p1) (p1.foldl (isolate p1 p2) sg)

/-! ## One call of `connect` -/

/-- An outgoing end to a peer is enabled, whatever the flags say, and no end is disabled. -/
theorem link_connect (h : sg.Named) {peers : List (Fin n)}
    (hab : a = i ∧ b ∈ peers ∨ sg.link a b = true) : (sg.connect i peers).link a b = true := by
  show (sg.connect i peers).net.enabled (sg.endName a b) = true
  unfold connect
  rw [Network.enabled_foldl, Network.enabled_foldl]
  simp only [mem_row h]
  split
  · rfl
  · split
    · rfl
    · rename_i hrow
      exact hab.resolve_left hrow

/-- Only ends between the server and its peers are enabled. -/
theorem of_link_connect (h : sg.Named) {peers : List (Fin n)}
    (hlink : (sg.connect i peers).link a b = true) :
    a = i ∧ b ∈ peers ∨ b = i ∧ a ∈ peers ∨ sg.link a b = true := by
  change (sg.connect i peers).net.enabled (sg.endName a b) = true at hlink
  unfold connect at hlink
  rw [Network.enabled_foldl, Network.enabled_foldl] at hlink
  simp only [mem_row h] at hlink
  split at hlink
  · -- an incoming end, from a peer at some position of the list
    rename_i hcolumn
    obtain ⟨p, hp, hname⟩ := List.mem_map.mp hcolumn
    obtain ⟨ha, hb⟩ := h.endName_eq.mp hname
    have hmem := (List.mem_zipIdx_iff_getElem?.mp (List.mem_filter.mp hp).1)
    exact .inr (.inl ⟨hb.symm, ha ▸ List.mem_of_getElem? hmem⟩)
  · split at hlink
    · rename_i hrow
      exact .inl hrow
    · exact .inr (.inr hlink)

theorem isConnected_isolate {own other : List (Fin n)} :
    (sg.isolate own other i).isConnected a = true ↔ a = i ∨ sg.isConnected a = true := by
  unfold isolate connect disconnect isConnected
  simp only [getElem_set_fin]
  split <;> simp_all

/-! ## One half -/

/-- What a part of the loop over the half `own` does to the ends: those inside `own` are only
enabled, those between the halves only disabled, and those inside `other` stay. -/
structure Isolates (own other l : List (Fin n)) (sg sg' : ServerGrp n) : Prop where
  named : sg'.Named
  within : ∀ a ∈ own, ∀ b ∈ own, a ∈ l ∨ sg.link a b = true → sg'.link a b = true
  across : ∀ a ∈ own, ∀ b ∈ other, sg'.link a b = true ∨ sg'.link b a = true →
    a ∉ l ∧ (sg.link a b = true ∨ sg.link b a = true)
  beyond : ∀ a ∈ other, ∀ b ∈ other, sg'.link a b = sg.link a b
  connected : ∀ a, sg'.isConnected a = true ↔ a ∈ l ∨ sg.isConnected a = true

theorem isolates_one (h : sg.Named) {own other : List (Fin n)} (hi : i ∈ own)
    (hdisjoint : own.Disjoint other) : Isolates own other [i] sg (sg.isolate own other i) := by
  have hmid := h.disconnect i other
  have hother : i ∉ other := fun hmem ↦ hdisjoint hi hmem
  refine ⟨hmid.connect i own, ?_, ?_, ?_, ?_⟩
  · intro a ha b hb hor
    refine link_connect hmid ?_
    rw [List.mem_singleton] at hor
    obtain rfl | hlink := hor
    · -- its own row and column are enabled by `connect`
      exact .inl ⟨rfl, hb⟩
    · refine .inr ((link_disconnect h).mpr ⟨?_, ?_, hlink⟩)
      · exact fun hcut ↦ hdisjoint hb hcut.2
      · exact fun hcut ↦ hdisjoint ha hcut.2
  · intro a ha b hb hlink
    have hbi : b ≠ i := fun heq ↦ hother (heq ▸ hb)
    -- a link to the other half is left from before, and not one of `i`
    have hbown : b ∉ own := fun hmem ↦ hdisjoint hmem hb
    rw [List.mem_singleton]
    obtain hout | hin := hlink
    · obtain hrow | hcolumn | hold := of_link_connect hmid hout
      · exact absurd hrow.2 hbown
      · exact absurd hcolumn.1 hbi
      · obtain ⟨hrow, -, hlink⟩ := (link_disconnect h).mp hold
        exact ⟨fun heq ↦ hrow ⟨heq, hb⟩, .inl hlink⟩
    · obtain hrow | hcolumn | hold := of_link_connect hmid hin
      · exact absurd hrow.1 hbi
      · exact absurd hcolumn.2 hbown
      · obtain ⟨-, hcolumn, hlink⟩ := (link_disconnect h).mp hold
        exact ⟨fun heq ↦ hcolumn ⟨heq, hb⟩, .inr hlink⟩
  · intro a ha b hb
    have hai : a ≠ i := fun heq ↦ hother (heq ▸ ha)
    have hbi : b ≠ i := fun heq ↦ hother (heq ▸ hb)
    rw [Bool.eq_iff_iff]
    constructor
    · intro hlink
      obtain hrow | hcolumn | hold := of_link_connect hmid hlink
      · exact absurd hrow.1 hai
      · exact absurd hcolumn.1 hbi
      · exact ((link_disconnect h).mp hold).2.2
    · intro hlink
      refine link_connect hmid (.inr ((link_disconnect h).mpr ⟨?_, ?_, hlink⟩))
      · exact fun hcut ↦ hai hcut.1
      · exact fun hcut ↦ hbi hcut.1
  · intro a
    rw [isConnected_isolate, List.mem_singleton]

theorem isolates_foldl {own other : List (Fin n)} (hdisjoint : own.Disjoint other)
    (l : List (Fin n)) (hl : l ⊆ own) (h : sg.Named) :
    Isolates own other l sg (l.foldl (isolate own other) sg) := by
  induction l generalizing sg with
  | nil => exact ⟨h, by simp, by simp, fun _ _ _ _ ↦ rfl, by simp⟩
  | cons i l ih =>
      obtain ⟨hi, hl⟩ := List.cons_subset.mp hl
      have hone := isolates_one h hi hdisjoint
      have hrest := ih hl hone.named
      refine ⟨hrest.named, ?_, ?_, ?_, ?_⟩
      · intro a ha b hb hor
        refine hrest.within a ha b hb ?_
        obtain hmem | hlink := hor
        · obtain rfl | hmem := List.mem_cons.mp hmem
          · exact .inr (hone.within a ha b hb (.inl List.mem_cons_self))
          · exact .inl hmem
        · exact .inr (hone.within a ha b hb (.inr hlink))
      · intro a ha b hb hlink
        obtain ⟨hnot, hmid⟩ := hrest.across a ha b hb hlink
        obtain ⟨hne, hold⟩ := hone.across a ha b hb hmid
        rw [List.mem_singleton] at hne
        rw [List.mem_cons, not_or]
        exact ⟨⟨hne, hnot⟩, hold⟩
      · intro a ha b hb
        exact (hrest.beyond a ha b hb).trans (hone.beyond a ha b hb)
      · intro a
        rw [List.foldl_cons, hrest.connected, hone.connected, List.mem_singleton, List.mem_cons]
        tauto

end ServerGrp

/-! ## Runs -/

/-- The calls that set the switches of a group or give its servers new ends; the others are made of
these. -/
inductive LinkCall (n : Nat) where
  | connect (i : Fin n) (peers : List (Fin n))
  | disconnect (i : Fin n) (peers : List (Fin n))
  | partition (p1 p2 : List (Fin n))
  | shutdownServer (i : Fin n)
  | startServer (i : Fin n) (endNames : Vector EndName n)

namespace ServerGrp

variable {n : Nat} {sg sg' : ServerGrp n}

/-- `connect` indexes the flags by the position in its list, which ends the run if the list is
longer than the group. -/
def linkCall (sg : ServerGrp n) : LinkCall n → Option (ServerGrp n)
  | .connect i peers => if peers.length ≤ n then some (sg.connect i peers) else none
  | .disconnect i peers => some (sg.disconnect i peers)
  | .partition p1 p2 =>
      if p1.length ≤ n ∧ p2.length ≤ n then some (sg.partition p1 p2) else none
  | .shutdownServer i => some (sg.shutdownServer i)
  | .startServer i endNames => sg.startServer i endNames

theorem Named.foldl_isolate {own other : List (Fin n)} (l : List (Fin n)) (h : sg.Named) :
    (l.foldl (isolate own other) sg).Named := by
  induction l generalizing sg with
  | nil => exact h
  | cons i l ih => exact ih ((h.disconnect i other).connect i own)

theorem Named.linkCall {c : LinkCall n} (h : sg.Named) (hs : sg.linkCall c = some sg') :
    sg'.Named := by
  cases c with
  | connect i peers =>
      obtain ⟨-, hs⟩ := Option.ite_none_right_eq_some.mp hs
      exact Option.some.inj hs ▸ h.connect i peers
  | disconnect i peers => exact Option.some.inj hs ▸ h.disconnect i peers
  | partition p1 p2 =>
      obtain ⟨-, hs⟩ := Option.ite_none_right_eq_some.mp hs
      exact Option.some.inj hs ▸ (h.foldl_isolate p1).foldl_isolate p2
  | shutdownServer i => exact Option.some.inj hs ▸ h.shutdownServer.1
  | startServer i endNames => exact (h.startServer hs).1

/-- The halves are a partition: whatever the switches were, only the ends inside the halves are
on. -/
theorem link_partition (h : sg.Named) {p1 p2 : List (Fin n)}
    (hparts : (p1 ++ p2).Perm (List.finRange n)) (a b : Fin n) :
    ((sg.partition p1 p2).link a b = true ↔ (a ∈ p1 ∧ b ∈ p1 ∨ a ∈ p2 ∧ b ∈ p2)) ∧
      (sg.partition p1 p2).isConnected a = true := by
  have hdisjoint : p1.Disjoint p2 :=
    List.disjoint_of_nodup_append (hparts.nodup_iff.mpr (List.nodup_finRange n))
  have hmem : ∀ a, a ∈ p1 ∨ a ∈ p2 :=
    fun a ↦ List.mem_append.mp (hparts.mem_iff.mpr (List.mem_finRange a))
  have hfirst := isolates_foldl hdisjoint p1 (List.Subset.refl p1) h
  have hsecond := isolates_foldl (List.disjoint_symm hdisjoint) p2 (List.Subset.refl p2)
    hfirst.named
  constructor
  · obtain ha | ha := hmem a <;> obtain hb | hb := hmem b
    · -- the second loop leaves the first half as the first loop has made it
      have hon := hfirst.within a ha b hb (.inl ha)
      rw [← hsecond.beyond a ha b hb] at hon
      exact iff_of_true hon (.inl ⟨ha, hb⟩)
    · refine iff_of_false ?_ ?_
      · exact fun hlink ↦ (hsecond.across b hb a ha (.inr hlink)).1 hb
      · exact fun hor ↦ hor.elim (fun h ↦ hdisjoint h.2 hb) (fun h ↦ hdisjoint ha h.1)
    · refine iff_of_false ?_ ?_
      · exact fun hlink ↦ (hsecond.across a ha b hb (.inl hlink)).1 ha
      · exact fun hor ↦ hor.elim (fun h ↦ hdisjoint h.1 ha) (fun h ↦ hdisjoint hb h.2)
    · exact iff_of_true (hsecond.within a ha b hb (.inl ha)) (.inr ⟨ha, hb⟩)
  · refine (hsecond.connected a).mpr ?_
    obtain ha | ha := hmem a
    · exact .inr ((hfirst.connected a).mpr (.inl ha))
    · exact .inl ha

end ServerGrp

/-- Whatever calls came before, `Partition` returns, exactly the ends inside the halves are enabled
then, and every server counts as connected. -/
theorem partition_cuts_cross_edges {n : Nat} {net : Network} {gid : Int}
    {names : Vector (Vector EndName n) n} {sg₀ sg : ServerGrp n}
    (hmake : makeSrvGrp net gid names = some sg₀) (h : Reaches ServerGrp.linkCall sg₀ sg)
    (p1 p2 : List (Fin n)) (hparts : (p1 ++ p2).Perm (List.finRange n)) :
    ∃ sg', sg.linkCall (.partition p1 p2) = some sg' ∧
      (∀ a b, sg'.link a b = true ↔ (a ∈ p1 ∧ b ∈ p1 ∨ a ∈ p2 ∧ b ∈ p2)) ∧
      ∀ a, sg'.isConnected a = true := by
  have hnamed : sg.Named := by
    apply h.invariant (ServerGrp.named_makeSrvGrp hmake)
    intro u c v _ hcall hu
    exact hu.linkCall hcall
  have hlength : p1.length + p2.length = n := by
    rw [← List.length_append, hparts.length_eq, List.length_finRange]
  refine ⟨sg.partition p1 p2, if_pos (by omega), ?_, ?_⟩
  · exact fun a b ↦ (ServerGrp.link_partition hnamed hparts a b).1
  · exact fun a ↦ (ServerGrp.link_partition hnamed hparts a a).2

/-- The servers are started, server 1 is connected to itself only, and the pair is cut in two. -/
def pairCut : List (LinkCall 2) :=
  [.startServer 0 #v[[1, 0], [1, 1]], .startServer 1 #v[[1, 2], [1, 3]], .connect 0 [0, 1],
    .disconnect 1 [0, 1], .connect 1 [1], .partition [1] [0]]

theorem pairCut_runs : (run ServerGrp.linkCall madePair pairCut).isSome = true := by decide +kernel

theorem partition_cuts_cross_edges_pair :
    ∃ sg sg', run ServerGrp.linkCall madePair pairCut = some sg ∧ sg.link 0 1 = false ∧
      sg.linkCall (.partition [1, 0] []) = some sg' ∧
      (∀ a b, sg'.link a b = true ↔ (a ∈ [1, 0] ∧ b ∈ [1, 0] ∨ a ∈ [] ∧ b ∈ [])) ∧
      ∀ a, sg'.isConnected a = true := by
  obtain ⟨sg', hsg'⟩ := partition_cuts_cross_edges (Option.some_get pair_made).symm
    (reaches_get pairCut_runs) [1, 0] [] (by decide)
  exact ⟨_, sg', (Option.some_get pairCut_runs).symm, by decide +kernel, hsg'⟩

/-! ## `MakePartition` -/

/-- A checked write to a slice. -/
def writeAt (p : List Nat) (j v : Nat) : Option (List Nat) :=
  if j < p.length then some (p.set j v) else none

/-- The body of the loop of `MakePartition`, on `p1`, `p2` and `j`. -/
def place (l : Nat) : List Nat × List Nat × Nat → Nat → Option (List Nat × List Nat × Nat)
  | (p1, p2, j), i =>
    if i ≠ l then
      if j < p1.length then (writeAt p1 j i).map fun p1 => (p1, p2, j + 1)
      else (writeAt p2 (j - p1.length) i).map fun p2 => (p1, p2, j + 1)
    else some (p1, p2, j)

/-- `MakePartition` of a group of `n` servers; `none` is an index out of range. -/
def makePartition (n l : Nat) : Option (List Nat × List Nat) := do
  let p1 := List.replicate (n / 2 + 1) 0
  let p2 := List.replicate (n / 2) 0
  let (p1, p2, _) ← (List.range n).foldlM (place l) (p1, p2, 0)
  guard (p2 ≠ [])
  let p2 ← writeAt p2 (p2.length - 1) l
  pure (p1, p2)

/-- A slice of `c` cells after the writes `xs`, from the left; what does not fit is left out. -/
def filled (c : Nat) (xs : List Nat) : List Nat := xs.take c ++ List.replicate (c - xs.length) 0

theorem length_filled (c : Nat) (xs : List Nat) : (filled c xs).length = c := by
  rw [filled, List.length_append, List.length_take, List.length_replicate]
  omega

theorem filled_of_le {c : Nat} {xs : List Nat} (h : c ≤ xs.length) : filled c xs = xs.take c := by
  rw [filled, Nat.sub_eq_zero_of_le h, List.replicate_zero, List.append_nil]

theorem set_filled {c : Nat} (xs : List Nat) (v : Nat) (h : xs.length < c) :
    (filled c xs).set xs.length v = filled c (xs ++ [v]) := by
  obtain ⟨k, hk⟩ : ∃ k, c - xs.length = k + 1 := ⟨c - xs.length - 1, by omega⟩
  have hlength : (xs ++ [v]).length ≤ c := by
    rw [List.length_append, List.length_singleton]
    omega
  have hrest : c - (xs ++ [v]).length = k := by
    rw [List.length_append, List.length_singleton]
    omega
  rw [filled, filled, List.take_of_length_le (by omega), List.take_of_length_le hlength, hk, hrest,
    List.set_append_right _ _ (Nat.le_refl _), Nat.sub_self, List.replicate_succ,
    List.set_cons_zero, List.append_assoc, List.singleton_append]

theorem writeAt_filled {c : Nat} (xs : List Nat) (v : Nat) (h : xs.length < c) :
    writeAt (filled c xs) xs.length v = some (filled c (xs ++ [v])) := by
  rw [writeAt, if_pos (by rwa [length_filled]), set_filled xs v h]

theorem filled_append {c : Nat} {xs : List Nat} (ys : List Nat) (h : c ≤ xs.length) :
    filled c (xs ++ ys) = filled c xs := by
  rw [filled_of_le h, filled_of_le (by rw [List.length_append]; omega),
    List.take_append_of_le_length h]

/-- The servers placed so far go to the first slice, and then to the second. -/
def halves (c d : Nat) (xs : List Nat) : List Nat × List Nat × Nat :=
  (filled c xs, filled d (xs.drop c), xs.length)

theorem place_halves {c d l i : Nat} {xs : List Nat} (hi : i ≠ l) (hroom : xs.length < c + d) :
    place l (halves c d xs) i = some (halves c d (xs ++ [i])) := by
  have hlength : (xs ++ [i]).length = xs.length + 1 := by simp
  rw [halves, place, if_pos hi, length_filled]
  by_cases hfull : xs.length < c
  · have hempty : ∀ ys : List Nat, ys.length ≤ c → ys.drop c = [] := fun ys ↦
      List.drop_eq_nil_of_le
    rw [if_pos hfull, writeAt_filled xs i hfull, Option.map_some, halves, hlength,
      hempty xs (by omega), hempty (xs ++ [i]) (by omega)]
  · have hindex : (xs.drop c).length = xs.length - c := List.length_drop
    have hwrite := writeAt_filled (xs.drop c) i (c := d) (by omega)
    rw [hindex] at hwrite
    have hfirst : filled c (xs ++ [i]) = filled c xs := filled_append [i] (Nat.le_of_not_lt hfull)
    rw [if_neg hfull, hwrite, Option.map_some, halves, hlength, hfirst,
      List.drop_append_of_le_length (by omega)]

/-- The servers below `m` apart from the leader. -/
def followers (l m : Nat) : List Nat := (List.range m).filter (· ≠ l)

theorem place_run {c d l : Nat} (m : Nat) (hroom : m ≤ c + d) :
    (List.range m).foldlM (place l) (List.replicate c 0, List.replicate d 0, 0) =
      some (halves c d (followers l m)) := by
  induction m with
  | zero => simp [halves, followers, filled]
  | succ m ih =>
      have hroom' : (followers l m).length < c + d := by
        have := List.length_filter_le (fun i => decide (i ≠ l)) (List.range m)
        rw [List.length_range] at this
        exact Nat.lt_of_le_of_lt this hroom
      have hsplit : followers l (m + 1) = followers l m ++ [m].filter (· ≠ l) := by
        rw [followers, List.range_succ, List.filter_append]
        rfl
      rw [List.range_succ, List.foldlM_append, ih (by omega), hsplit]
      show ([m].foldlM (place l) (halves c d (followers l m))) = _
      rw [List.foldlM_cons]
      by_cases hm : m = l
      · -- the leader is skipped
        rw [hm, List.filter_singleton]
        simp [halves, place]
      · rw [place_halves hm hroom', List.filter_singleton]
        simp [hm]

theorem perm_followers {l n : Nat} (hl : l < n) :
    (followers l n ++ [l]).Perm (List.range n) := by
  have herase : followers l n = (List.range n).erase l := by
    rw [List.nodup_range.erase_eq_filter, followers]
    exact List.filter_congr fun i _ ↦ by simp [bne, beq_eq_decide]
  rw [herase]
  refine List.Perm.trans List.perm_append_comm ?_
  exact (List.perm_cons_erase (List.mem_range.mpr hl)).symm

theorem makePartition_eq {n : Nat} (hn : 2 ≤ n) (l : Nat) :
    makePartition n l = some (filled (n / 2 + 1) (followers l n),
      (filled (n / 2) ((followers l n).drop (n / 2 + 1))).set (n / 2 - 1) l) := by
  have hlength := length_filled (n / 2) ((followers l n).drop (n / 2 + 1))
  have hsome : filled (n / 2) ((followers l n).drop (n / 2 + 1)) ≠ [] := by
    apply List.ne_nil_of_length_pos
    omega
  have hlast : n / 2 - 1 < n / 2 := by omega
  simp only [makePartition, place_run n (show n ≤ n / 2 + 1 + n / 2 by omega), halves,
    Option.bind_eq_bind, Option.bind_some, guard, if_pos hsome, writeAt, hlength, if_pos hlast]
  rfl

/-- `MakePartition` returns, with the leader in the second list and a majority in the first; but the
slices have `2 * (n / 2) + 1` cells, so the lists are a partition only of a group of odd size. -/
theorem makePartition_partitions {n l : Nat} (hn : 2 ≤ n) (hl : l < n) :
    ∃ p1 p2, makePartition n l = some (p1, p2) ∧ l ∈ p2 ∧ n / 2 < p1.length ∧
      ((p1 ++ p2).Perm (List.range n) ↔ n % 2 = 1) := by
  have hlength := (perm_followers hl).length_eq
  rw [List.length_append, List.length_singleton, List.length_range] at hlength
  refine ⟨_, _, makePartition_eq hn l, ?_, ?_, ?_⟩
  · refine List.mem_set ?_ l
    rw [length_filled]
    omega
  · rw [length_filled]
    exact Nat.lt_succ_self _
  · constructor
    · intro hperm
      have hcells := hperm.length_eq
      rw [List.length_append, List.length_set, length_filled, length_filled,
        List.length_range] at hcells
      omega
    · intro hodd
      -- the followers and then the leader fill all the cells
      have hdrop : ((followers l n).drop (n / 2 + 1)).length = n / 2 - 1 := by
        rw [List.length_drop]
        omega
      have hlast := set_filled (c := n / 2) ((followers l n).drop (n / 2 + 1)) l (by omega)
      rw [hdrop] at hlast
      rw [hlast, filled_of_le (by omega), filled_of_le (c := n / 2) (by simp; omega),
        List.take_of_length_le (l := _ ++ [l]) (by simp; omega), ← List.append_assoc,
        List.take_append_drop]
      exact perm_followers hl

theorem makePartition_partitions_five :
    ∃ p1 p2, makePartition 5 1 = some (p1, p2) ∧ 1 ∈ p2 ∧ 2 < p1.length ∧
      ((p1 ++ p2).Perm (List.range 5) ↔ 5 % 2 = 1) :=
  makePartition_partitions (by decide) (by decide)

/-- Of four servers, the last one leading, server 0 is in both lists. -/
theorem makePartition_four :
    makePartition 4 3 = some ([0, 1, 2], [0, 3]) ∧ ¬ ([0, 1, 2] ++ [0, 3]).Perm (List.range 4) := by
  decide

end GoLabs.Tester
