import GoLabs.Reasoning.Loops
import GoLabs.ShardCfg.Migration

/-!
# Reachable configurations

After any calls of `JoinBalance` and `LeaveBalance` from the empty configuration, `CheckConfig`
accepts the configuration for the groups that joined and did not leave.
-/

open GoLabs.Reasoning

namespace GoLabs.ShardCfg

/-- The calls of `fatalf` in `CheckConfig`. -/
inductive CheckError where
  | wantedGroups (want got : Nat)
  | missingGroup (g : Tgid)
  | invalidGroup (shard : Nat) (g : Tgid)
  | unbalanced (max min : Nat)
  deriving DecidableEq

namespace ShardConfig

variable {n : Nat}

def gidServers (c : ShardConfig n) (sh : Fin n) : Tgid × List GoString × Bool :=
  (c.shards[sh], (c.groups.lookup c.shards[sh]).getD [], (c.groups.lookup c.shards[sh]).isSome)

/-- The body of the last loop of `CheckConfig`. -/
def widen (counts : GoMap Tgid Nat) (maxMin : Nat × Nat) (g : Tgid) : Nat × Nat :=
  let count := (counts.lookup g).getD 0
  (if count > maxMin.1 then count else maxMin.1, if count < maxMin.2 then count else maxMin.2)

def checkConfig (c : ShardConfig n) (it : Iteration Tgid) (groups : List Tgid) :
    Except CheckError Unit :=
  if c.groups.keys.length ≠ groups.length then
    .error (.wantedGroups groups.length c.groups.keys.length)
  else
    match groups.find? (· ∉ c.groups) with
    | some g => .error (.missingGroup g)
    | none =>
        match (List.finRange n).find? fun s => 0 < groups.length ∧ c.shards[s] ∉ c.groups with
        | some s => .error (.invalidGroup s c.shards[s])
        | none =>
            let (max, min) := (it.order c.groups.keys).foldl (widen c.counts) (0, 257)
            if max > min + 1 then .error (.unbalanced max min) else .ok ()

/-! ## What `CheckConfig` accepts -/

theorem widen_balanced {c : ShardConfig n} (h : Leveled c.members c.load) {gs : List Tgid}
    (hgs : ∀ g ∈ gs, g ∈ c.groups) :
    (gs.foldl (widen c.counts) (0, 257)).1 ≤ (gs.foldl (widen c.counts) (0, 257)).2 + 1 := by
  -- each bound is the start value or the load of a member
  have hall : ∀ (gs : List Tgid) (m : Nat × Nat), (∀ g ∈ gs, g ∈ c.groups) →
      (m.1 = 0 ∨ ∃ g ∈ c.members, m.1 = c.load g) →
      (m.2 = 257 ∨ ∃ g ∈ c.members, m.2 = c.load g) →
      ((gs.foldl (widen c.counts) m).1 = 0 ∨
        ∃ g ∈ c.members, (gs.foldl (widen c.counts) m).1 = c.load g) ∧
      ((gs.foldl (widen c.counts) m).2 = 257 ∨
        ∃ g ∈ c.members, (gs.foldl (widen c.counts) m).2 = c.load g) := by
    intro gs
    induction gs with
    | nil => exact fun m _ hmax hmin ↦ ⟨hmax, hmin⟩
    | cons g gs ih =>
        intro m hmem hmax hmin
        have hg := mem_members.mpr (hmem g List.mem_cons_self)
        refine ih _ (fun g' hg' ↦ hmem g' (List.mem_cons_of_mem _ hg')) ?_ ?_
        · unfold widen
          rw [c.lookup_counts]
          dsimp only
          split
          · exact .inr ⟨g, hg, rfl⟩
          · exact hmax
        · unfold widen
          rw [c.lookup_counts]
          dsimp only
          split
          · exact .inr ⟨g, hg, rfl⟩
          · exact hmin
  rcases hall gs (0, 257) hgs (.inl rfl) (.inl rfl) with ⟨hmax | ⟨g, hg, hmax⟩, hmin⟩
  · omega
  · rcases hmin with hmin | ⟨g', hg', hmin⟩
    · have hle := c.load_le g
      omega
    · have hle := h g hg g' hg'
      omega

theorem checkConfig_ok {c : ShardConfig n} (it : Iteration Tgid) {gids : List Tgid}
    (hnodup : gids.Nodup) (hgids : ∀ g, g ∈ gids ↔ g ∈ c.groups)
    (hassigned : gids ≠ [] → c.Assigned) (hb : Leveled c.members c.load) :
    c.checkConfig it gids = .ok () := by
  have hperm : c.groups.keys.Perm gids := by
    rw [List.perm_ext_iff_of_nodup c.groups.keys_nodup hnodup]
    exact fun g ↦ (hgids g).symm
  have hmissing : gids.find? (· ∉ c.groups) = none := by
    rw [List.find?_eq_none]
    intro g hg
    simpa using (hgids g).mp hg
  have hinvalid : ((List.finRange n).find? fun s =>
      0 < gids.length ∧ c.shards[s] ∉ c.groups) = none := by
    rw [List.find?_eq_none]
    intro s _
    simp only [decide_eq_true_eq, not_and, not_not]
    exact fun hpos ↦ hassigned (List.length_pos_iff.mp hpos) s
  have hwiden := widen_balanced hb
    (show ∀ g ∈ it.order c.groups.keys, g ∈ c.groups from fun g hg ↦ (it.perm _).mem_iff.mp hg)
  unfold checkConfig
  rw [if_neg (not_not.mpr hperm.length_eq), hmissing]
  dsimp only
  rw [hinvalid]
  dsimp only
  rw [if_neg (by omega)]

end ShardConfig

/-! ## Calls -/

inductive Call where
  | joinBalance (servers : Groups) (order : JoinOrder)
  | leaveBalance (gids : List Tgid)

variable {n : Nat}

def ShardConfig.call (c : ShardConfig n) : Call → Except Fatal (ShardConfig n)
  | .joinBalance servers order => c.joinBalance order servers
  | .leaveBalance gids => c.leaveBalance gids

/-- The groups that joined and did not leave, with the servers they last joined with. -/
def joined : List Call → Tgid → Option (List GoString) :=
  List.foldl (fun last call g =>
    match call with
    | .joinBalance servers _ => (servers.lookup g).or (last g)
    | .leaveBalance gids => if g ∈ gids then none else last g) fun _ => none

theorem joined_join (calls : List Call) (servers : Groups) (order : JoinOrder) (g : Tgid) :
    joined (calls ++ [.joinBalance servers order]) g =
      (servers.lookup g).or (joined calls g) := by
  simp [joined]

theorem joined_leave (calls : List Call) (gids : List Tgid) (g : Tgid) :
    joined (calls ++ [.leaveBalance gids]) g = if g ∈ gids then none else joined calls g := by
  simp [joined]

/-- A configuration after some calls. -/
structure After (calls : List Call) (c : ShardConfig n) : Prop where
  num : c.num = Int64.ofNat calls.length
  groups : ∀ g, c.groups.lookup g = joined calls g
  disjoint : ServersDisjoint c.groups
  shards : c.Settled ∨ c.Vacant

theorem After.init (small : n ≤ 256) : After [] (makeShardConfig small) := by
  refine ⟨rfl, fun g ↦ rfl, ?_, .inr ⟨rfl, fun s ↦ ?_⟩⟩
  · intro g g' l l' hl
    simp [makeShardConfig] at hl
  · simp [makeShardConfig]

theorem After.num_snoc {calls : List Call} {call : Call} {c c' : ShardConfig n} (h : After calls c)
    (hnum : c'.num = c.num + 1) : c'.num = Int64.ofNat (calls ++ [call]).length := by
  rw [hnum, h.num, List.length_append, Int64.ofNat_add]
  rfl

/-- Rebalancing keeps the groups and settles the shards. -/
theorem After.rebalance {calls : List Call} {c : ShardConfig n}
    (hnum : c.num = Int64.ofNat calls.length)
    (hgroups : ∀ g, c.groups.lookup g = joined calls g) (hdisjoint : ServersDisjoint c.groups) :
    After calls c.rebalance := by
  by_cases hne : c.groups.keys = []
  · rw [ShardConfig.rebalance_empty hne]
    exact ⟨hnum, hgroups, hdisjoint, .inr ⟨hne, fun s ↦ by simp⟩⟩
  · rcases ShardConfig.rebalance_spec hne with ⟨heq, hnum', hassigned, hb⟩
    exact ⟨hnum'.trans hnum, heq ▸ hgroups, heq ▸ hdisjoint, .inl ⟨hassigned, hb⟩⟩

theorem After.step {calls : List Call} {c c' : ShardConfig n} {call : Call} (h : After calls c)
    (hcall : c.call call = .ok c') : After (calls ++ [call]) c' := by
  cases call with
  | joinBalance servers order =>
      rcases ShardConfig.map_eq_ok hcall with ⟨c₁, hjoin, rfl⟩
      rcases ShardConfig.join_ok hjoin with ⟨hnum, -, -, hlookup, hfresh, hdisjoint⟩
      refine .rebalance (h.num_snoc hnum) (fun g ↦ ?_) (hdisjoint h.disjoint)
      rw [joined_join, ← h.groups]
      ext l
      rw [hlookup, Option.or_eq_some_iff]
      refine or_congr_right ⟨fun hold ↦ ⟨?_, hold⟩, And.right⟩
      rw [AList.lookup_eq_none]
      exact fun hg ↦ hfresh g hg (AList.lookup_isSome.mp (by rw [hold]; rfl))
  | leaveBalance gids =>
      rcases ShardConfig.map_eq_ok hcall with ⟨c₁, hleave, rfl⟩
      rcases ShardConfig.leave_ok hleave with ⟨hnum, -, -, hlookup, -⟩
      refine .rebalance (h.num_snoc hnum) (fun g ↦ ?_) ?_
      · rw [joined_leave, hlookup, h.groups]
      · intro g g' l l' hl hl'
        rw [hlookup] at hl hl'
        split at hl
        · simp at hl
        · split at hl'
          · simp at hl'
          · exact h.disjoint g g' l l' hl hl'

theorem after_of_calls {small : n ≤ 256} {calls : List Call} {c : ShardConfig n}
    (h : calls.foldlM ShardConfig.call (makeShardConfig small) = .ok c) : After calls c := by
  refine loop_invariant (I := After) h (After.init small) ?_
  intro done call rest c₀ c₁ _ hdone hcall
  exact hdone.step hcall

/-- What `CheckConfig`, `GidServers` and the server lists say of a configuration after `calls`. -/
structure ValidConfig (calls : List Call) (c : ShardConfig n) : Prop where
  num : calls.length < 2 ^ 63 → c.num.toInt = calls.length
  check : ∀ (it : Iteration Tgid) (gids : List Tgid), gids.Nodup →
    (∀ g, g ∈ gids ↔ (joined calls g).isSome) → c.checkConfig it gids = .ok ()
  served : (∃ g, (joined calls g).isSome) → ∀ sh, (c.gidServers sh).2.2 = true
  vacant : (∀ g, joined calls g = none) → ∀ sh : Fin n, c.shards[sh] = 0
  disjoint : ∀ g g' l l', c.groups.lookup g = some l → c.groups.lookup g' = some l' →
    ∀ server ∈ l, server ∈ l' → g = g'
  servers : ∀ g, c.groups.lookup g = joined calls g

/-- Any calls that return, with any gids, server lists and orders of the `range` loops. -/
theorem reachable_valid {small : n ≤ 256} {calls : List Call} {c : ShardConfig n}
    (h : calls.foldlM ShardConfig.call (makeShardConfig small) = .ok c) : ValidConfig calls c := by
  have hafter := after_of_calls h
  have hmem : ∀ g, g ∈ c.groups ↔ (joined calls g).isSome := by
    intro g
    rw [← hafter.groups, AList.lookup_isSome]
  refine ⟨?_, ?_, ?_, ?_, hafter.disjoint, hafter.groups⟩
  · intro hlt
    rw [hafter.num, Int64.toInt_ofNat_of_lt hlt]
  · intro it gids hnodup hgids
    have hsame : ∀ g, g ∈ gids ↔ g ∈ c.groups := fun g ↦ (hgids g).trans (hmem g).symm
    rcases hafter.shards with hsettled | hvacant
    · exact ShardConfig.checkConfig_ok it hnodup hsame (fun _ ↦ hsettled.assigned) hsettled.balanced
    · refine ShardConfig.checkConfig_ok it hnodup hsame (fun hne ↦ ?_) fun g hg ↦ ?_
      · rcases List.exists_mem_of_ne_nil _ hne with ⟨g, hg⟩
        exact absurd ((hsame g).mp hg) (hvacant.notMem g)
      · exact absurd (ShardConfig.mem_members.mp hg) (hvacant.notMem g)
  · rintro ⟨g, hg⟩ sh
    rcases hafter.shards with hsettled | hvacant
    · exact AList.lookup_isSome.mpr (hsettled.assigned sh)
    · exact absurd ((hmem g).mpr hg) (hvacant.notMem g)
  · intro hnone sh
    rcases hafter.shards with hsettled | hvacant
    · have hthere := (hmem _).mp (hsettled.assigned sh)
      rw [hnone] at hthere
      simp at hthere
    · exact hvacant.shards sh

/-- Two groups join, one leaves and comes back with another server. -/
def backAgain : List Call :=
  [.joinBalance (groupsOf [(1, lit "x"), (2, lit "y")]) ⟨.stored _, fun _ => .stored _⟩,
   .leaveBalance [1], .joinBalance (groupsOf [(1, lit "z")]) ⟨.stored _, fun _ => .stored _⟩]

theorem reachable_valid_backAgain :
    ∃ c : ShardConfig 12, backAgain.foldlM ShardConfig.call (makeShardConfig (by decide)) = .ok c ∧
      c.shards = #v[1, 1, 1, 1, 1, 1, 2, 2, 2, 2, 2, 2] ∧
      c.groups.lookup 1 = some [lit "z"] ∧ c.num.toInt = 3 ∧ ValidConfig backAgain c := by
  have hrun : ((backAgain.foldlM ShardConfig.call
      (makeShardConfig (show 12 ≤ 256 by decide))).toOption.map ShardConfig.shards) =
      some #v[1, 1, 1, 1, 1, 1, 2, 2, 2, 2, 2, 2] := by decide +kernel
  rcases exists_ok hrun with ⟨c, hc, hshards⟩
  have hvalid := reachable_valid hc
  exact ⟨c, hc, hshards, (hvalid.servers 1).trans (by decide), hvalid.num (by decide), hvalid⟩

/-! ## The number wraps -/

/-- A group joins the empty configuration and leaves it. -/
def inAndOut : List Call :=
  [.joinBalance (groupsOf [(1, lit "x")]) ⟨.stored _, fun _ => .stored _⟩, .leaveBalance [1]]

theorem inAndOut_ok {c : ShardConfig n} (h : c.groups = ∅) :
    ∃ c', inAndOut.foldlM ShardConfig.call c = .ok c' ∧ c'.groups = ∅ := by
  have hjoin : c.join ⟨.stored _, fun _ => .stored _⟩ (groupsOf [(1, lit "x")]) =
      .ok { c with groups := groupsOf [(1, lit "x")], num := c.num + 1 } := by
    unfold ShardConfig.join
    rw [h]
    rfl
  set d : ShardConfig n := { c with groups := groupsOf [(1, lit "x")], num := c.num + 1 }
  have hgroups : d.rebalance.groups = groupsOf [(1, lit "x")] :=
    (ShardConfig.rebalance_spec (c := d) (List.cons_ne_nil _ _)).1
  have hleave : d.rebalance.leave [1] =
      .ok { d.rebalance with groups := ∅, num := d.rebalance.num + 1 } := by
    unfold ShardConfig.leave
    rw [hgroups]
    rfl
  set e : ShardConfig n := { d.rebalance with groups := ∅, num := d.rebalance.num + 1 }
  refine ⟨e.rebalance, ?_, ?_⟩
  · show (c.join _ _).map ShardConfig.rebalance >>= _ = _
    rw [hjoin]
    show (d.rebalance.leave [1]).map ShardConfig.rebalance >>= _ = _
    rw [hleave]
    rfl
  · rw [ShardConfig.rebalance_empty rfl]

theorem inAndOut_often (small : n ≤ 256) (k : Nat) :
    ∃ c, (List.replicate k inAndOut).flatten.foldlM ShardConfig.call (makeShardConfig small) =
      .ok c ∧ c.groups = ∅ := by
  induction k with
  | zero => exact ⟨_, rfl, rfl⟩
  | succ k ih =>
      obtain ⟨c, hc, hempty⟩ := ih
      obtain ⟨c', hc', hempty'⟩ := inAndOut_ok hempty
      refine ⟨c', ?_, hempty'⟩
      rw [List.replicate_succ', List.flatten_append, List.foldlM_append, hc, List.flatten_singleton]
      exact hc'

/-- After `2 ^ 63` calls `Num` is the least int. -/
theorem num_wraps : ∃ (calls : List Call) (c : ShardConfig 12),
    calls.foldlM ShardConfig.call (makeShardConfig (by decide)) = .ok c ∧
      calls.length = 2 ^ 63 ∧ c.num.toInt = -2 ^ 63 := by
  obtain ⟨c, hc, -⟩ := inAndOut_often (show 12 ≤ 256 by decide) (2 ^ 62)
  have hlen : (List.replicate (2 ^ 62) inAndOut).flatten.length = 2 ^ 63 := by
    rw [List.length_flatten, List.map_replicate, List.sum_replicate]
    rfl
  refine ⟨_, c, hc, hlen, ?_⟩
  rw [(after_of_calls hc).num, hlen]
  decide

end GoLabs.ShardCfg
