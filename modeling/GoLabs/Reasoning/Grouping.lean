import GoLabs.Reasoning.GoMap

/-!
# Grouping pairs by key

The groups of a list of pairs: every key once, with all its values.  Order is left open twice, of
the groups and of the values in one of them, so that a hash table, a sorted scan and a union of
partitions can all be said to compute the groups, and a function that ignores the order of the
values gives the same results for all of them.
-/

namespace GoLabs.Reasoning

variable {κ ν γ ρ : Type} [DecidableEq κ]

structure Grouping (kvs : List (κ × ν)) (groups : List (κ × List ν)) : Prop where
  nodup : (groups.map Prod.fst).Nodup
  keys : ∀ k, k ∈ groups.map Prod.fst ↔ k ∈ kvs.map Prod.fst
  values : ∀ g ∈ groups, g.2.Perm (valuesOf g.1 kvs)

theorem valuesOf_perm {kvs kvs' : List (κ × ν)} (h : kvs.Perm kvs') (k : κ) :
    (valuesOf k kvs).Perm (valuesOf k kvs') := (h.filter _).map _

/-- The values of a key are in the part that the key selects. -/
theorem valuesOf_filter {kvs : List (κ × ν)} {p : κ → Bool} {k : κ} (hk : p k = true) :
    valuesOf k (kvs.filter fun kv => p kv.1) = valuesOf k kvs := by
  unfold valuesOf
  rw [List.filter_filter]
  congr 1
  apply List.filter_congr
  intro kv _
  by_cases heq : kv.1 = k
  · simp [heq, hk]
  · simp [heq]

theorem valuesOf_flatMap {α : Type} {l : List α} {f : α → List (κ × ν)} {k : κ} :
    valuesOf k (l.flatMap f) = l.flatMap fun x => valuesOf k (f x) := by
  unfold valuesOf
  rw [List.filter_flatMap, List.map_flatMap]

theorem valuesOf_map_const [BEq κ] [LawfulBEq κ] (keys : List κ) (v : ν) (k : κ) :
    valuesOf k (keys.map fun u => (u, v)) = List.replicate (keys.count k) v := by
  unfold valuesOf
  rw [List.filter_map, List.map_map, List.eq_replicate_iff]
  constructor
  · rw [List.length_map, List.count, List.countP_eq_length_filter]
    congr 1
    apply List.filter_congr
    intro u _
    simp [beq_eq_decide]
  · intro b hb
    obtain ⟨u, -, rfl⟩ := List.mem_map.mp hb
    rfl

theorem flatMap_ite_singleton {α : Type} {l : List α} {p : α → Prop} [DecidablePred p] :
    (l.flatMap fun x => if p x then [x] else []) = l.filter fun x => p x := by
  induction l with
  | nil => rfl
  | cons x l ih =>
      rw [List.flatMap_cons, ih, List.filter_cons]
      by_cases hx : p x
      · simp [hx]
      · simp [hx]

namespace Grouping

variable {kvs kvs' : List (κ × ν)} {gs gs' : List (κ × List ν)}

theorem nil : Grouping ([] : List (κ × ν)) [] := ⟨by simp, by simp, by simp⟩

/-- One more group, of a key that is new. -/
theorem cons {k : κ} {vs : List ν} (h : Grouping kvs gs) (hvs : vs ≠ [])
    (hk : k ∉ kvs.map Prod.fst) : Grouping (vs.map (k, ·) ++ kvs) ((k, vs) :: gs) := by
  have hkeys : ∀ k', k' ∈ (vs.map (k, ·)).map Prod.fst ↔ k' = k := by
    intro k'
    rcases List.exists_mem_of_ne_nil _ hvs with ⟨v, hv⟩
    simp only [List.map_map, List.mem_map, Function.comp_apply]
    exact ⟨fun ⟨_, _, heq⟩ ↦ heq.symm, fun heq ↦ ⟨v, hv, heq.symm⟩⟩
  refine ⟨?_, ?_, ?_⟩
  · rw [List.map_cons, List.nodup_cons, h.keys]
    exact ⟨hk, h.nodup⟩
  · intro k'
    rw [List.map_cons, List.mem_cons, h.keys, List.map_append, List.mem_append, hkeys]
  · intro g hg
    unfold valuesOf
    rw [List.filter_append, List.map_append]
    rcases List.mem_cons.mp hg with rfl | hold
    · -- no pair of the old list has the new key
      have hnone : kvs.filter (·.1 = k) = [] := by
        rw [List.filter_eq_nil_iff]
        intro kv hkv heq
        exact hk (List.mem_map.mpr ⟨kv, hkv, by simpa using heq⟩)
      dsimp only
      rw [hnone, List.filter_map, List.map_map]
      simp [Function.comp_def]
    · have hne : g.1 ≠ k := by
        rintro rfl
        exact hk ((h.keys g.1).mp (List.mem_map_of_mem hold))
      have hnone : (vs.map (k, ·)).filter (·.1 = g.1) = [] := by
        rw [List.filter_eq_nil_iff]
        intro kv hkv
        rcases List.mem_map.mp hkv with ⟨v, -, rfl⟩
        simpa using Ne.symm hne
      rw [hnone]
      exact h.values g hold

/-- The groups do not depend on the order of the pairs. -/
theorem of_perm (h : Grouping kvs gs) (hperm : kvs.Perm kvs') : Grouping kvs' gs where
  nodup := h.nodup
  keys k := by rw [h.keys, (hperm.map Prod.fst).mem_iff]
  values g hg := (h.values g hg).trans (valuesOf_perm hperm g.1)

/-- Two ways to group the same pairs give the same results. -/
theorem map_perm (h : Grouping kvs gs) (h' : Grouping kvs gs') {f : κ → List ν → γ}
    (hf : ∀ k vs vs', vs.Perm vs' → f k vs = f k vs') :
    (gs.map fun g => f g.1 g.2).Perm (gs'.map fun g => f g.1 g.2) := by
  have hcanon : ∀ {gs}, Grouping kvs gs → (gs.map fun g => f g.1 g.2) =
      (gs.map Prod.fst).map fun k => f k (valuesOf k kvs) := by
    intro gs hgs
    rw [List.map_map]
    exact List.map_congr_left fun g hg ↦ hf g.1 _ _ (hgs.values g hg)
  rw [hcanon h, hcanon h']
  apply List.Perm.map
  rw [List.perm_ext_iff_of_nodup h.nodup h'.nodup]
  intro k
  rw [h.keys, h'.keys]

/-- The pairs may be partitioned by their keys first: `parts` has the groups of every part. -/
theorem flatMap [DecidableEq ρ] {p : κ → ρ} {parts : List (ρ × List (κ × List ν))}
    (hparts : (parts.map Prod.fst).Nodup) (hcover : ∀ kv ∈ kvs, p kv.1 ∈ parts.map Prod.fst)
    (h : ∀ part ∈ parts, Grouping (kvs.filter fun kv => p kv.1 = part.1) part.2) :
    Grouping kvs (parts.flatMap Prod.snd) := by
  -- the keys of a part are those that `p` sends there
  have hpart : ∀ part ∈ parts, ∀ k,
      k ∈ part.2.map Prod.fst ↔ k ∈ kvs.map Prod.fst ∧ p k = part.1 := by
    intro part hp k
    rw [(h part hp).keys]
    simp only [List.mem_map, List.mem_filter, decide_eq_true_eq]
    constructor
    · rintro ⟨kv, ⟨hkv, heq⟩, rfl⟩
      exact ⟨⟨kv, hkv, rfl⟩, heq⟩
    · rintro ⟨⟨kv, hkv, rfl⟩, heq⟩
      exact ⟨kv, ⟨hkv, heq⟩, rfl⟩
  refine ⟨?_, ?_, ?_⟩
  · rw [List.map_flatMap, List.nodup_flatMap]
    refine ⟨fun part hp ↦ (h part hp).nodup, ?_⟩
    refine (List.pairwise_map.mp hparts).imp_of_mem ?_
    intro part part' hp hp' hne k hk hk'
    exact hne (((hpart part hp k).mp hk).2.symm.trans ((hpart part' hp' k).mp hk').2)
  · intro k
    rw [List.map_flatMap, List.mem_flatMap]
    constructor
    · rintro ⟨part, hp, hk⟩
      exact ((hpart part hp k).mp hk).1
    · intro hk
      rcases List.mem_map.mp hk with ⟨kv, hkv, rfl⟩
      rcases List.mem_map.mp (hcover kv hkv) with ⟨part, hp, heq⟩
      exact ⟨part, hp, (hpart part hp _).mpr ⟨hk, heq.symm⟩⟩
  · intro g hg
    rcases List.mem_flatMap.mp hg with ⟨part, hp, hgp⟩
    have heq := ((hpart part hp g.1).mp (List.mem_map_of_mem hgp)).2
    refine ((h part hp).values g hgp).trans (List.Perm.of_eq ?_)
    unfold valuesOf
    rw [List.filter_filter]
    congr 1
    apply List.filter_congr
    intro kv _
    by_cases hk : kv.1 = g.1
    · simp [hk, heq]
    · simp [hk]

end Grouping

/-- A Go map of slices, filled with `append`, holds the groups. -/
theorem GoMap.grouping_range (it : Iteration κ) (kvs : List (κ × ν)) :
    Grouping kvs ((collect ∅ kvs).range it) := by
  have hmem : ∀ k, k ∈ ((collect ∅ kvs).range it).map Prod.fst ↔ k ∈ kvs.map Prod.fst := by
    intro k
    rw [(range_keys_perm it _).mem_iff]
    change k ∈ collect ∅ kvs ↔ _
    rw [mem_collect]
    simp [AList.notMem_empty]
  refine ⟨range_keys_nodup it _, hmem, ?_⟩
  intro g hg
  have hlook := mem_range.mp hg
  rw [lookup_collect_empty ((hmem g.1).mp (List.mem_map_of_mem hg)), Option.some.injEq] at hlook
  exact List.Perm.of_eq hlook.symm

end GoLabs.Reasoning
