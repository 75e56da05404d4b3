import GoLabs.ShardCfg.Calls

/-!
# Migrations go one way

From a balanced configuration a join moves shards only to the groups that join, and a leave moves
only the shards of the groups that leave.
-/

open GoLabs.Reasoning

namespace GoLabs.ShardCfg

namespace ShardConfig

variable {n : Nat} {c c' : ShardConfig n} {order : JoinOrder} {servers : Groups} {gids : List Tgid}

/-- Every shard has a group, and the groups have about as many shards. -/
structure Settled (c : ShardConfig n) : Prop where
  assigned : c.Assigned
  balanced : Leveled c.members c.load

/-- No group, and no shard has one. -/
structure Vacant (c : ShardConfig n) : Prop where
  groups : c.groups.keys = []
  shards : ∀ s : Fin n, c.shards[s] = 0

theorem load_congr (h : c'.shards = c.shards) : c'.load = c.load := by
  unfold load
  rw [h]

theorem mem_groups_iff {g : Tgid} : g ∈ c.groups ↔ ∃ l, c.groups.lookup g = some l := by
  rw [← AList.lookup_isSome, Option.isSome_iff_exists]

theorem Vacant.notMem (h : c.Vacant) (g : Tgid) : g ∉ c.groups := by
  intro hg
  have hkeys : g ∈ c.groups.keys := hg
  rw [h.groups] at hkeys
  simp at hkeys

/-- After a join the groups that were there have nearly the most shards. -/
theorem Settled.full (h : c.Settled) (hshards : c'.shards = c.shards) :
    Full c'.members c.members c'.load := by
  rw [load_congr hshards]
  intro g _ o ho
  by_cases hg : g ∈ c.groups
  · exact h.balanced g (mem_members.mpr hg) o ho
  · have hzero : c.load g = 0 := by
      refine Vector.count_eq_zero.mpr fun hmem ↦ ?_
      rcases Vector.mem_iff_getElem.mp hmem with ⟨i, hi, rfl⟩
      exact hg (h.assigned ⟨i, hi⟩)
    omega

theorem joinBalance_moved (h : c.Settled ∨ c.Vacant) (hjoin : c.joinBalance order servers = .ok c')
    {s : Fin n} (hs : c'.shards[s] ≠ c.shards[s]) :
    c'.shards[s] ∈ servers ∧ c'.shards[s] ∉ c.groups := by
  rcases map_eq_ok hjoin with ⟨c₁, hj, rfl⟩
  rcases join_ok hj with ⟨-, hshards, hservers, hlookup, hfresh, -⟩
  have hmem : ∀ g, g ∈ c₁.groups ↔ g ∈ servers ∨ g ∈ c.groups := by
    intro g
    simp only [← AList.lookup_isSome, Option.isSome_iff_exists, hlookup, exists_or]
  have hne : c₁.groups.keys ≠ [] := by
    rcases List.exists_mem_of_ne_nil _ hservers with ⟨g, hg⟩
    exact List.ne_nil_of_mem ((hmem g).mpr (.inl hg))
  rcases rebalance_spec hne with ⟨hgroups, -, hassigned, -⟩
  have hthere := (hmem _).mp (hgroups ▸ hassigned s)
  have hnew : c₁.rebalance.shards[s] ∉ c.groups := by
    rcases h with hsettled | hvacant
    · have hassigned' : c₁.Assigned := by
        intro s'
        rw [hshards]
        exact (hmem _).mpr (.inr (hsettled.assigned s'))
      have hmoved := rebalance_moved hassigned' (hsettled.full hshards) hne
        (s := s) (by rwa [hshards])
      simpa using hmoved
    · exact hvacant.notMem _
  exact ⟨hthere.resolve_right hnew, hnew⟩

theorem leaveBalance_moved (h : c.Settled ∨ c.Vacant) (hleave : c.leaveBalance gids = .ok c')
    {s : Fin n} (hs : c'.shards[s] ≠ c.shards[s]) : c.shards[s] ∈ gids := by
  rcases map_eq_ok hleave with ⟨c₁, hl, rfl⟩
  rcases leave_ok hl with ⟨-, hshards, hgids, hlookup, hthere⟩
  rcases h with hsettled | hvacant
  · by_contra hstay
    have hmem : c₁.shards[s] ∈ c₁.groups := by
      rw [mem_groups_iff, hshards, hlookup, if_neg hstay, ← mem_groups_iff]
      exact hsettled.assigned s
    refine hs ((rebalance_kept (List.ne_nil_of_mem hmem) ?_ hmem).trans (by rw [hshards]))
    rw [load_congr hshards]
    intro g hg g' hg'
    have hold : ∀ g ∈ c₁.members, g ∈ c.members := by
      intro g hg
      rw [mem_members, mem_groups_iff] at hg ⊢
      rcases hg with ⟨l, hl⟩
      rw [hlookup] at hl
      split at hl
      · simp at hl
      · exact ⟨l, hl⟩
    exact hsettled.balanced g (hold g hg) g' (hold g' hg')
  · rcases List.exists_mem_of_ne_nil _ hgids with ⟨g, hg⟩
    exact absurd (hthere g hg) (hvacant.notMem g)

end ShardConfig

/-- Any number of shards up to 256, any number of groups that join or leave, any gids. -/
theorem migrations_one_directional {n : Nat} {c : ShardConfig n} (h : c.Settled ∨ c.Vacant) :
    (∀ order servers c', c.joinBalance order servers = .ok c' →
      ∀ s : Fin n, c'.shards[s] ≠ c.shards[s] → c'.shards[s] ∈ servers ∧ c'.shards[s] ∉ c.groups) ∧
    ∀ gids c', c.leaveBalance gids = .ok c' →
      ∀ s : Fin n, c'.shards[s] ≠ c.shards[s] → c.shards[s] ∈ gids :=
  ⟨fun _ _ _ hjoin _ hs ↦ ShardConfig.joinBalance_moved h hjoin hs,
    fun _ _ hleave _ hs ↦ ShardConfig.leaveBalance_moved h hleave hs⟩

/-- Groups with one server each. -/
def groupsOf (gids : List (Tgid × GoString)) : Groups :=
  gids.foldl (fun groups e => AList.insert e.1 ([e.2] : List GoString) groups) ∅

/-- Five shards in two groups. -/
def twoGroups : ShardConfig 5 :=
  { num := 2
    shards := #v[1, 1, 1, 2, 2]
    groups := groupsOf [(1, lit "a"), (2, lit "b")]
    small := by decide }

theorem twoGroups_settled : twoGroups.Settled := by
  refine ⟨?_, ?_⟩
  · unfold ShardConfig.Assigned
    decide +kernel
  · unfold Leveled
    decide +kernel

/-- The shards after a call that returned. -/
theorem exists_ok {ε : Type} {n : Nat} {r : Except ε (ShardConfig n)} {shards : Vector Tgid n}
    (h : r.toOption.map ShardConfig.shards = some shards) : ∃ c, r = .ok c ∧ c.shards = shards := by
  rcases Option.map_eq_some_iff.mp h with ⟨c, hc, hshards⟩
  cases r with
  | error err => simp [Except.toOption] at hc
  | ok c' =>
      simp only [Except.toOption, Option.some.injEq] at hc
      exact ⟨c, by rw [hc], hshards⟩

theorem migrations_one_directional_twoGroups :
    (∃ c',
      twoGroups.joinBalance ⟨.stored _, fun _ => .stored _⟩ (groupsOf [(3, lit "c")]) = .ok c' ∧
      c'.shards = #v[3, 1, 1, 2, 2] ∧ ∀ s : Fin 5, c'.shards[s] ≠ twoGroups.shards[s] →
        c'.shards[s] ∈ groupsOf [(3, lit "c")] ∧ c'.shards[s] ∉ twoGroups.groups) ∧
    ∃ c', twoGroups.leaveBalance [2] = .ok c' ∧ c'.shards = #v[1, 1, 1, 1, 1] ∧
      ∀ s : Fin 5, c'.shards[s] ≠ twoGroups.shards[s] → twoGroups.shards[s] ∈ [2] := by
  have hjoin : ((twoGroups.joinBalance ⟨.stored _, fun _ => .stored _⟩
      (groupsOf [(3, lit "c")])).toOption.map ShardConfig.shards) = some #v[3, 1, 1, 2, 2] := by
    decide +kernel
  have hleave : ((twoGroups.leaveBalance [2]).toOption.map ShardConfig.shards) =
      some #v[1, 1, 1, 1, 1] := by decide +kernel
  have hmoves := migrations_one_directional (.inl twoGroups_settled)
  rcases exists_ok hjoin with ⟨c', hc', hshards⟩
  rcases exists_ok hleave with ⟨c'', hc'', hshards'⟩
  exact ⟨⟨c', hc', hshards, hmoves.1 _ _ c' hc'⟩, c'', hc'', hshards', hmoves.2 _ c'' hc''⟩

end GoLabs.ShardCfg
