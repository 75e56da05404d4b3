import GoLabs.ShardCfg.Rebalance

/-!
# Joining and leaving

`JoinBalance` and `LeaveBalance` change the groups and rebalance.  Both loops end the process with
`log.Fatalf` when a group is there already, is not there, or brings a server of another group.
-/

open GoLabs.Reasoning

namespace GoLabs.ShardCfg

abbrev Groups := GoMap Tgid (List GoString)

/-- The calls of `log.Fatalf`. -/
inductive Fatal where
  | reJoin (gid : Tgid)
  | sharedServer (gid : Tgid) (server : GoString) (xgid : Tgid)
  | joinNoChange
  | notInConfig (gid : Tgid)
  | leaveNoChange
  deriving DecidableEq

/-- The orders of the two `range` loops of `Join`, of the inner one for each group that joins. -/
structure JoinOrder where
  outer : Iteration Tgid
  inner : Tgid → Iteration Tgid

/-- The three inner loops of `Join`: a server in two groups, and the group that had it. -/
def findShared (it : Iteration Tgid) (groups : Groups) (servers : List GoString) :
    Option (GoString × Tgid) :=
  (groups.range it).findSome? fun g => (g.2.find? (· ∈ servers)).map (·, g.1)

/-- The outer loop of `Join`, with `changed`. -/
def joinLoop (inner : Tgid → Iteration Tgid) :
    List (Tgid × List GoString) → Groups × Bool → Except Fatal (Groups × Bool)
  | [], st => .ok st
  | (gid, servers) :: rest, (groups, _) =>
      if gid ∈ groups then .error (.reJoin gid)
      else
        match findShared (inner gid) groups servers with
        | some (server, xgid) => .error (.sharedServer gid server xgid)
        | none => joinLoop inner rest (groups.insert gid servers, true)

/-- The loop of `Leave`, with `changed`. -/
def leaveLoop : List Tgid → Groups × Bool → Except Fatal (Groups × Bool)
  | [], st => .ok st
  | gid :: rest, (groups, _) =>
      if gid ∈ groups then leaveLoop rest (groups.erase gid, true) else .error (.notInConfig gid)

namespace ShardConfig

variable {n : Nat}

def join (c : ShardConfig n) (order : JoinOrder) (servers : Groups) :
    Except Fatal (ShardConfig n) :=
  match joinLoop order.inner (servers.range order.outer) (c.groups, false) with
  | .error err => .error err
  | .ok (groups, changed) =>
      if changed then .ok { c with groups := groups, num := c.num + 1 } else .error .joinNoChange

def leave (c : ShardConfig n) (gids : List Tgid) : Except Fatal (ShardConfig n) :=
  match leaveLoop gids (c.groups, false) with
  | .error err => .error err
  | .ok (groups, changed) =>
      if changed then .ok { c with groups := groups, num := c.num + 1 } else .error .leaveNoChange

def joinBalance (c : ShardConfig n) (order : JoinOrder) (servers : Groups) :
    Except Fatal (ShardConfig n) := (c.join order servers).map rebalance

def leaveBalance (c : ShardConfig n) (gids : List Tgid) : Except Fatal (ShardConfig n) :=
  (c.leave gids).map rebalance

end ShardConfig

/-! ## What the loops do -/

/-- No server is in two groups. -/
def ServersDisjoint (groups : Groups) : Prop :=
  ∀ g g' l l', groups.lookup g = some l → groups.lookup g' = some l' →
    ∀ server ∈ l, server ∈ l' → g = g'

theorem findShared_eq_none {it : Iteration Tgid} {groups : Groups} {servers : List GoString} :
    findShared it groups servers = none ↔
      ∀ g l, groups.lookup g = some l → ∀ server ∈ l, server ∉ servers := by
  unfold findShared
  rw [List.findSome?_eq_none_iff]
  constructor
  · intro h g l hl server hs
    have hnone := h (g, l) (GoMap.mem_range.mpr hl)
    rw [Option.map_eq_none_iff, List.find?_eq_none] at hnone
    simpa using hnone server hs
  · intro h e he
    rw [Option.map_eq_none_iff, List.find?_eq_none]
    intro server hs
    simpa using h e.1 e.2 (GoMap.mem_range.mp he) server hs

theorem lookup_insert_new {groups : Groups} {gid g : Tgid} {servers l : List GoString}
    (hnew : gid ∉ groups) : (groups.insert gid servers).lookup g = some l ↔
      g = gid ∧ l = servers ∨ groups.lookup g = some l := by
  by_cases hg : g = gid
  · subst hg
    rw [AList.lookup_insert, AList.lookup_eq_none.mpr hnew]
    simp [eq_comm]
  · rw [AList.lookup_insert_ne hg]
    simp [hg]

theorem ServersDisjoint.insert {groups : Groups} {gid : Tgid} {servers : List GoString}
    (h : ServersDisjoint groups) (hnew : gid ∉ groups)
    (hshared : ∀ g l, groups.lookup g = some l → ∀ server ∈ l, server ∉ servers) :
    ServersDisjoint (groups.insert gid servers) := by
  intro g g' l l' hl hl' server hs hs'
  rcases (lookup_insert_new hnew).mp hl with ⟨rfl, rfl⟩ | hold
  · rcases (lookup_insert_new hnew).mp hl' with ⟨rfl, rfl⟩ | hold'
    · rfl
    · exact absurd hs (hshared g' l' hold' server hs')
  · rcases (lookup_insert_new hnew).mp hl' with ⟨rfl, rfl⟩ | hold'
    · exact absurd hs' (hshared g l hold server hs)
    · exact h g g' l l' hold hold' server hs hs'

theorem joinLoop_ok {inner : Tgid → Iteration Tgid} {todo : List (Tgid × List GoString)}
    {groups groups' : Groups} {changed changed' : Bool}
    (h : joinLoop inner todo (groups, changed) = .ok (groups', changed')) :
    (∀ g l, groups'.lookup g = some l ↔ (g, l) ∈ todo ∨ groups.lookup g = some l) ∧
      (∀ e ∈ todo, e.1 ∉ groups) ∧ (ServersDisjoint groups → ServersDisjoint groups') ∧
      changed' = (changed || todo ≠ []) := by
  induction todo generalizing groups changed with
  | nil =>
      simp only [joinLoop, Except.ok.injEq, Prod.mk.injEq] at h
      rcases h with ⟨rfl, rfl⟩
      simp
  | cons e todo ih =>
      rcases e with ⟨gid, servers⟩
      unfold joinLoop at h
      split at h
      · simp at h
      · rename_i hnew
        split at h
        · simp at h
        · rename_i hshared
          rcases ih h with ⟨hlookup, hfresh, hdisjoint, hchanged⟩
          refine ⟨fun g l ↦ ?_, ?_, fun hd ↦ hdisjoint
            (hd.insert hnew (findShared_eq_none.mp hshared)), by simp [hchanged]⟩
          · rw [hlookup, lookup_insert_new hnew, List.mem_cons, Prod.mk.injEq]
            tauto
          · intro e he
            rcases List.mem_cons.mp he with rfl | hold
            · exact hnew
            · exact fun hmem ↦ hfresh e hold ((AList.mem_insert _).mpr (.inr hmem))

theorem leaveLoop_ok {gids : List Tgid} {groups groups' : Groups} {changed changed' : Bool}
    (h : leaveLoop gids (groups, changed) = .ok (groups', changed')) :
    (∀ g, groups'.lookup g = if g ∈ gids then none else groups.lookup g) ∧
      (∀ g ∈ gids, g ∈ groups) ∧ changed' = (changed || gids ≠ []) := by
  induction gids generalizing groups changed with
  | nil =>
      simp only [leaveLoop, Except.ok.injEq, Prod.mk.injEq] at h
      rcases h with ⟨rfl, rfl⟩
      simp
  | cons gid gids ih =>
      unfold leaveLoop at h
      split at h
      · rename_i hmem
        rcases ih h with ⟨hlookup, hthere, hchanged⟩
        refine ⟨fun g ↦ ?_, fun g hg ↦ ?_, by simp [hchanged]⟩
        · rw [hlookup]
          by_cases hg : g = gid
          · subst hg
            simp
          · simp [hg, AList.lookup_erase_ne hg]
        · rcases List.mem_cons.mp hg with rfl | hold
          · exact hmem
          · exact (AList.mem_erase.mp (hthere g hold)).2
      · simp at h

namespace ShardConfig

variable {n : Nat} {c c' : ShardConfig n} {order : JoinOrder} {servers : Groups} {gids : List Tgid}

theorem map_eq_ok {r : Except Fatal (ShardConfig n)} {f : ShardConfig n → ShardConfig n}
    (h : r.map f = .ok c') : ∃ c₁, r = .ok c₁ ∧ c' = f c₁ := by
  cases r with
  | error err => simp [Except.map] at h
  | ok c₁ =>
      simp only [Except.map, Except.ok.injEq] at h
      exact ⟨c₁, rfl, h.symm⟩

/-- What is left of the old configuration and what is new after a `Join`. -/
theorem join_ok (h : c.join order servers = .ok c') :
    c'.num = c.num + 1 ∧ c'.shards = c.shards ∧ servers.keys ≠ [] ∧
      (∀ g l, c'.groups.lookup g = some l ↔
        servers.lookup g = some l ∨ c.groups.lookup g = some l) ∧
      (∀ g ∈ servers, g ∉ c.groups) ∧ (ServersDisjoint c.groups → ServersDisjoint c'.groups) := by
  unfold join at h
  split at h
  · simp at h
  · rename_i groups changed hloop
    split at h
    · rename_i hchanged
      rcases joinLoop_ok hloop with ⟨hlookup, hfresh, hdisjoint, heq⟩
      simp only [Except.ok.injEq] at h
      rw [← h]
      refine ⟨rfl, rfl, ?_, fun g l ↦ by rw [hlookup, GoMap.mem_range], ?_, hdisjoint⟩
      · intro hnil
        have hrange : servers.range order.outer = [] := by
          have hperm := GoMap.range_keys_perm order.outer servers
          rw [hnil, List.perm_nil, List.map_eq_nil_iff] at hperm
          exact hperm
        simp [hrange, hchanged] at heq
      · intro g hg
        rcases Option.isSome_iff_exists.mp (AList.lookup_isSome.mpr hg) with ⟨l, hl⟩
        exact hfresh (g, l) (GoMap.mem_range.mpr hl)
    · simp at h

theorem leave_ok (h : c.leave gids = .ok c') :
    c'.num = c.num + 1 ∧ c'.shards = c.shards ∧ gids ≠ [] ∧
      (∀ g, c'.groups.lookup g = if g ∈ gids then none else c.groups.lookup g) ∧
      ∀ g ∈ gids, g ∈ c.groups := by
  unfold leave at h
  split at h
  · simp at h
  · rename_i groups changed hloop
    split at h
    · rename_i hchanged
      rcases leaveLoop_ok hloop with ⟨hlookup, hthere, heq⟩
      simp only [Except.ok.injEq] at h
      rw [← h]
      refine ⟨rfl, rfl, ?_, hlookup, hthere⟩
      rintro rfl
      simp [hchanged] at heq
    · simp at h

end ShardConfig

end GoLabs.ShardCfg
