import GoLabs.ShardCfg.Calls

/-!
# The order of a `range` over a map

Every `range` over a map may visit the keys in another order: the two of `Join`, and the one of
`analyze` each time `Rebalance` calls it.  None of these choices shows in the configuration that a
call makes, nor in whether it ends in `log.Fatalf`.
-/

open GoLabs.Reasoning

namespace GoLabs.ShardCfg

variable {n : Nat}

/-- The orders of the `range` loops of one call; `analyze k` is for the `k`th call of `analyze`. -/
structure CallOrder where
  join : JoinOrder
  analyze : Nat → Iteration Tgid

namespace ShardConfig

/-- `analyze` with the order in which it collects the groups. -/
def analyzeIn (it : Iteration Tgid) (c : ShardConfig n) : Extremes :=
  ((it.order c.groups.keys).insertionSort (· ≤ ·)).foldl (analyzeGroup c.counts) ⟨-1, -1, -1, 257⟩

theorem analyzeIn_eq (it : Iteration Tgid) (c : ShardConfig n) : c.analyzeIn it = c.analyze := by
  rw [analyzeIn, sortedGroups_eq, analyze]

/-- The loop over the unassigned shards, with the number of calls of `analyze` so far. -/
def assignShardIn (orders : Nat → Iteration Tgid) (old : Vector Tgid n) (x : ShardConfig n × Nat)
    (s : Fin n) : ShardConfig n × Nat :=
  if old[s] ∈ x.1.groups then x else (x.1.give s (x.1.analyzeIn (orders x.2)).lg, x.2 + 1)

/-- The last loop of `Rebalance`, with the number of calls of `analyze` so far. -/
def balanceIn (orders : Nat → Iteration Tgid) (calls : Nat) (c : ShardConfig n) : ShardConfig n :=
  if (c.analyzeIn (orders calls)).mn < (c.analyzeIn (orders calls)).ln + 2 then c
  else
    (c.moveShard (c.analyzeIn (orders calls)).mg (c.analyzeIn (orders calls)).lg).balanceIn orders
      (calls + 1)
termination_by energy c.members c.load
decreasing_by
  rename_i hgo
  rw [analyzeIn_eq] at hgo ⊢
  exact energy_moveShard hgo

def rebalanceIn (orders : Nat → Iteration Tgid) (c : ShardConfig n) : ShardConfig n :=
  if c.groups.keys.length < 1 then { c with shards := .replicate n 0 }
  else
    let x := (List.finRange n).foldl (assignShardIn orders c.shards) (c, 0)
    x.1.balanceIn orders x.2

def joinBalanceIn (c : ShardConfig n) (order : CallOrder) (servers : Groups) :
    Except Fatal (ShardConfig n) := (c.join order.join servers).map (rebalanceIn order.analyze)

def leaveBalanceIn (c : ShardConfig n) (order : CallOrder) (gids : List Tgid) :
    Except Fatal (ShardConfig n) := (c.leave gids).map (rebalanceIn order.analyze)

/-! ## The orders of `analyze` -/

theorem assignIn_eq (orders : Nat → Iteration Tgid) (old : Vector Tgid n)
    (todo : List (Fin n)) (x : ShardConfig n × Nat) :
    (todo.foldl (assignShardIn orders old) x).1 = todo.foldl (assignShard old) x.1 := by
  induction todo generalizing x with
  | nil => rfl
  | cons s todo ih =>
      have hstep : (assignShardIn orders old x s).1 = assignShard old x.1 s := by
        unfold assignShardIn assignShard least
        rw [analyzeIn_eq]
        split <;> rfl
      rw [List.foldl_cons, List.foldl_cons, ih, hstep]

theorem balanceIn_eq (orders : Nat → Iteration Tgid) (calls : Nat) (c : ShardConfig n) :
    c.balanceIn orders calls = c.balance := by
  fun_induction balance c generalizing calls with
  | case1 c hstop =>
      rw [balanceIn, analyzeIn_eq, if_pos hstop]
  | case2 c hgo ih =>
      rw [balanceIn, analyzeIn_eq, if_neg hgo]
      exact ih (calls + 1)

theorem rebalanceIn_eq (orders : Nat → Iteration Tgid) (c : ShardConfig n) :
    c.rebalanceIn orders = c.rebalance := by
  unfold rebalanceIn rebalance
  split
  · rfl
  · rw [balanceIn_eq, assignIn_eq]

theorem joinBalanceIn_eq (c : ShardConfig n) (order : CallOrder) (servers : Groups) :
    c.joinBalanceIn order servers = c.joinBalance order.join servers := by
  unfold joinBalanceIn joinBalance
  rw [funext (rebalanceIn_eq order.analyze)]

theorem leaveBalanceIn_eq (c : ShardConfig n) (order : CallOrder) (gids : List Tgid) :
    c.leaveBalanceIn order gids = c.leaveBalance gids := by
  unfold leaveBalanceIn leaveBalance
  rw [funext (rebalanceIn_eq order.analyze)]

/-! ## Configurations with the same contents -/

/-- The same number, the same shards, and groups that are equal as maps. -/
structure Alike (c d : ShardConfig n) : Prop where
  num : c.num = d.num
  shards : c.shards = d.shards
  groups : ∀ g, c.groups.lookup g = d.groups.lookup g

namespace Alike

variable {c d : ShardConfig n} (h : Alike c d)

include h

theorem mem_groups (g : Tgid) : g ∈ c.groups ↔ g ∈ d.groups := by
  rw [← AList.lookup_isSome, ← AList.lookup_isSome, h.groups]

theorem keys_perm : c.groups.keys.Perm d.groups.keys :=
  (List.perm_ext_iff_of_nodup c.groups.keys_nodup d.groups.keys_nodup).mpr h.mem_groups

theorem analyze : c.analyze = d.analyze := by
  have hsorted : c.sortedGroups = d.sortedGroups := insertionSort_of_perm h.keys_perm
  rw [ShardConfig.analyze, ShardConfig.analyze, hsorted, counts, counts, h.shards]

theorem give (s : Fin n) (g : Tgid) : Alike (c.give s g) (d.give s g) where
  num := h.num
  shards := by rw [ShardConfig.give, ShardConfig.give, h.shards]
  groups := h.groups

theorem assign (old : Vector Tgid n) (todo : List (Fin n)) :
    Alike (todo.foldl (assignShard old) c) (todo.foldl (assignShard old) d) := by
  induction todo generalizing c d with
  | nil => exact h
  | cons s todo ih =>
      refine ih ?_
      unfold assignShard least
      -- the test reads the groups, the choice the result of `analyze`
      by_cases hs : old[s] ∈ c.groups
      · rw [if_pos hs, if_pos ((h.mem_groups _).mp hs)]
        exact h
      · rw [if_neg hs, if_neg (mt (h.mem_groups _).mpr hs), h.analyze]
        exact h.give s _

theorem moveShard (mg lg : Tgid) : Alike (c.moveShard mg lg) (d.moveShard mg lg) := by
  unfold ShardConfig.moveShard
  rw [h.shards]
  split
  · exact h.give _ lg
  · exact h

theorem balance : Alike c.balance d.balance := by
  fun_induction ShardConfig.balance c generalizing d with
  | case1 c hstop =>
      rw [ShardConfig.balance, ← h.analyze, if_pos hstop]
      exact h
  | case2 c hgo ih =>
      -- the other one goes on for the same reason, and moves the same shard
      have hd : d.balance = (d.moveShard c.analyze.mg c.analyze.lg).balance := by
        rw [ShardConfig.balance, ← h.analyze, if_neg hgo]
      rw [hd]
      exact ih (h.moveShard _ _)

theorem rebalance : Alike c.rebalance d.rebalance := by
  unfold ShardConfig.rebalance
  rw [h.keys_perm.length_eq, h.shards]
  split
  · exact ⟨h.num, rfl, h.groups⟩
  · exact (h.assign d.shards (List.finRange n)).balance

end Alike

end ShardConfig

/-! ## The orders of `Join` -/

/-- Two server lists have no server in common. -/
def NoShared (l l' : List GoString) : Prop := ∀ server ∈ l, server ∉ l'

/-- The groups to join are new, and share no server with each other or with a group that is
there. -/
structure Joinable (todo : List (Tgid × List GoString)) (groups : Groups) : Prop where
  fresh : ∀ e ∈ todo, e.1 ∉ groups
  apart : ∀ e ∈ todo, ∀ g l, groups.lookup g = some l → NoShared l e.2
  distinct : todo.Pairwise fun e e' => e.1 ≠ e'.1 ∧ NoShared e.2 e'.2

theorem joinable_cons {gid : Tgid} {servers : List GoString} {todo : List (Tgid × List GoString)}
    {groups : Groups} :
    Joinable ((gid, servers) :: todo) groups ↔ gid ∉ groups ∧
      (∀ g l, groups.lookup g = some l → NoShared l servers) ∧
      Joinable todo (groups.insert gid servers) := by
  constructor
  · intro h
    have hnew := h.fresh _ List.mem_cons_self
    have hfirst := List.pairwise_cons.mp h.distinct
    refine ⟨hnew, h.apart _ List.mem_cons_self, ?_, ?_, hfirst.2⟩
    · intro e he hmem
      obtain heq | hold := (AList.mem_insert _).mp hmem
      · exact (hfirst.1 e he).1 heq.symm
      · exact h.fresh e (List.mem_cons_of_mem _ he) hold
    · intro e he g l hl
      obtain ⟨rfl, rfl⟩ | hold := (lookup_insert_new hnew).mp hl
      · exact (hfirst.1 e he).2
      · exact h.apart e (List.mem_cons_of_mem _ he) g l hold
  · rintro ⟨hnew, happart, hrest⟩
    refine ⟨?_, ?_, List.pairwise_cons.mpr ⟨?_, hrest.distinct⟩⟩
    · intro e he
      obtain rfl | hold := List.mem_cons.mp he
      · exact hnew
      · exact fun hmem ↦ hrest.fresh e hold ((AList.mem_insert _).mpr (.inr hmem))
    · intro e he g l hl
      obtain rfl | hold := List.mem_cons.mp he
      · exact happart g l hl
      · exact hrest.apart e hold g l ((lookup_insert_new hnew).mpr (.inr hl))
    · intro e he
      refine ⟨?_, hrest.apart e he gid servers (AList.lookup_insert _)⟩
      exact fun heq ↦ hrest.fresh e he ((AList.mem_insert _).mpr (.inl heq.symm))

theorem Joinable.perm {todo todo' : List (Tgid × List GoString)} {groups : Groups}
    (h : Joinable todo groups) (hperm : todo.Perm todo') : Joinable todo' groups where
  fresh e he := h.fresh e (hperm.mem_iff.mpr he)
  apart e he := h.apart e (hperm.mem_iff.mpr he)
  distinct := by
    refine (hperm.pairwise_iff ?_).mp h.distinct
    intro e e' hne
    exact ⟨hne.1.symm, fun server hs hs' ↦ hne.2 server hs' hs⟩

/-- The loop gets through exactly when the groups can be joined, whatever the inner orders are. -/
theorem joinLoop_isOk_iff {inner : Tgid → Iteration Tgid} {todo : List (Tgid × List GoString)}
    {groups : Groups} {changed : Bool} :
    (∃ st, joinLoop inner todo (groups, changed) = .ok st) ↔ Joinable todo groups := by
  induction todo generalizing groups changed with
  | nil =>
      simp only [joinLoop, exists_apply_eq_apply', true_iff]
      exact ⟨by simp, by simp, by simp⟩
  | cons e todo ih =>
      obtain ⟨gid, servers⟩ := e
      rw [joinable_cons, joinLoop]
      by_cases hmem : gid ∈ groups
      · simp [hmem]
      · rw [if_neg hmem]
        cases hshared : findShared (inner gid) groups servers with
        | some found =>
            -- whichever shared server the order finds first
            have hnot : ¬ ∀ g l, groups.lookup g = some l → NoShared l servers := by
              intro hnone
              rw [findShared_eq_none.mpr hnone] at hshared
              cases hshared
            simp [hnot]
        | none =>
            have hall := findShared_eq_none.mp hshared
            simp only [ih]
            exact ⟨fun hrest ↦ ⟨hmem, hall, hrest⟩, fun h ↦ h.2.2⟩

namespace ShardConfig

/-- Both calls end in `log.Fatalf`, or they make configurations with the same contents. -/
def SameOutcome : Except Fatal (ShardConfig n) → Except Fatal (ShardConfig n) → Prop
  | .ok c, .ok d => Alike c d
  | .error _, .error _ => True
  | _, _ => False

theorem range_perm (it it' : Iteration Tgid) (servers : Groups) :
    (servers.range it).Perm (servers.range it') :=
  ((it.perm _).trans (it'.perm _).symm).filterMap _

/-- What the two executions of the outer loop come to. -/
theorem joinLoop_agree {order : JoinOrder} {servers groups : Groups} {st : Groups × Bool}
    (h : joinLoop order.inner (servers.range order.outer) (groups, false) = .ok st)
    (order' : JoinOrder) :
    ∃ st', joinLoop order'.inner (servers.range order'.outer) (groups, false) = .ok st' ∧
      (∀ g, st.1.lookup g = st'.1.lookup g) ∧ st.2 = st'.2 := by
  have hperm := range_perm order.outer order'.outer servers
  have hjoinable := joinLoop_isOk_iff.mp ⟨st, h⟩
  obtain ⟨st', h'⟩ := joinLoop_isOk_iff.mpr (hjoinable.perm hperm)
  obtain ⟨hlookup, -, -, hchanged⟩ := joinLoop_ok h
  obtain ⟨hlookup', -, -, hchanged'⟩ := joinLoop_ok h'
  refine ⟨st', h', ?_, ?_⟩
  · -- either loop has inserted every entry of `servers`
    intro g
    refine Option.ext fun l ↦ ?_
    rw [hlookup, hlookup', hperm.mem_iff]
  · rw [hchanged, hchanged']
    have hnil : servers.range order.outer = [] ↔ servers.range order'.outer = [] := by
      rw [← List.length_eq_zero_iff, hperm.length_eq, List.length_eq_zero_iff]
    simp [hnil]

theorem join_sameOutcome (c : ShardConfig n) (order order' : JoinOrder) (servers : Groups) :
    SameOutcome (c.join order servers) (c.join order' servers) := by
  unfold join
  cases hloop : joinLoop order.inner (servers.range order.outer) (c.groups, false) with
  | ok st =>
      obtain ⟨⟨groups', changed'⟩, hloop', hgroups, hchanged⟩ := joinLoop_agree hloop order'
      obtain ⟨groups, changed⟩ := st
      dsimp only at hgroups hchanged
      rw [hloop', hchanged]
      dsimp only
      split
      · exact ⟨rfl, rfl, hgroups⟩
      · trivial
  | error err =>
      cases hloop' : joinLoop order'.inner (servers.range order'.outer) (c.groups, false) with
      | ok st' =>
          obtain ⟨st, hok, -⟩ := joinLoop_agree hloop' order
          rw [hloop] at hok
          cases hok
      | error err' => trivial

theorem leave_sameOutcome (c : ShardConfig n) (gids : List Tgid) :
    SameOutcome (c.leave gids) (c.leave gids) := by
  cases c.leave gids with
  | ok d => exact ⟨rfl, rfl, fun _ ↦ rfl⟩
  | error err => trivial

theorem SameOutcome.rebalance {r r' : Except Fatal (ShardConfig n)} (h : SameOutcome r r') :
    SameOutcome (r.map ShardConfig.rebalance) (r'.map ShardConfig.rebalance) := by
  cases r with
  | ok c =>
      cases r' with
      | ok d => exact Alike.rebalance h
      | error err => exact h
  | error err =>
      cases r' with
      | ok d => exact h
      | error err' => trivial

/-- Two executions of a call, each with its own orders of all `range` loops: both end in
`log.Fatalf`, or both make the same configuration. -/
theorem reconfiguration_order_independent (c : ShardConfig n) :
    (∀ (servers : Groups) (order order' : CallOrder),
      SameOutcome (c.joinBalanceIn order servers) (c.joinBalanceIn order' servers)) ∧
    ∀ (gids : List Tgid) (order order' : CallOrder),
      SameOutcome (c.leaveBalanceIn order gids) (c.leaveBalanceIn order' gids) := by
  constructor
  · intro servers order order'
    rw [joinBalanceIn_eq, joinBalanceIn_eq]
    exact (c.join_sameOutcome order.join order'.join servers).rebalance
  · intro gids order order'
    rw [leaveBalanceIn_eq, leaveBalanceIn_eq]
    exact (c.leave_sameOutcome gids).rebalance

end ShardConfig

end GoLabs.ShardCfg
