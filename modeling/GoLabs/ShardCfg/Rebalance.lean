import GoLabs.ShardCfg.Config

/-!
# Rebalancing

`Rebalance` hands every shard without a group to the group with the fewest shards, and then moves
one shard at a time from the group with the most to the group with the fewest.
-/

open GoLabs.Reasoning

namespace GoLabs.ShardCfg.ShardConfig

variable {n : Nat} {c : ShardConfig n}

def give (c : ShardConfig n) (s : Fin n) (g : Tgid) : ShardConfig n :=
  { c with shards := c.shards.set s g s.isLt }

/-- The body of the loop over the unassigned shards.  The loop ranges over a copy of the array. -/
def assignShard (old : Vector Tgid n) (c : ShardConfig n) (s : Fin n) : ShardConfig n :=
  if old[s] ∈ c.groups then c else c.give s c.least

/-- The loop that moves one shard from `mg` to `lg`. -/
def moveShard (c : ShardConfig n) (mg lg : Tgid) : ShardConfig n :=
  match (List.finRange n).find? fun s => c.shards[s] = mg with
  | some s => c.give s lg
  | none => c

theorem load_give (c : ShardConfig n) (s : Fin n) (g : Tgid) :
    (c.give s g).load = shift c.load c.shards[s] g := by
  funext g'
  simp only [load, give, shift, Vector.count_set, beq_iff_eq, getElem_fin]
  simp only [eq_comm]

theorem getElem_give (c : ShardConfig n) (s s' : Fin n) (g : Tgid) :
    (c.give s g).shards[s'] = if s' = s then g else c.shards[s'] := by
  simp only [give, getElem_fin, Vector.getElem_set, Fin.val_inj]
  simp only [eq_comm]

/-- There is something to move only if there are groups. -/
theorem keys_ne_nil (h : ¬ c.analyze.mn < c.analyze.ln + 2) : c.groups.keys ≠ [] := by
  intro hnil
  have hempty : c.analyze = ⟨-1, -1, -1, 257⟩ := by simp [analyze, sortedGroups, hnil]
  rw [hempty] at h
  exact h (by decide)

theorem gap (h : ¬ c.analyze.mn < c.analyze.ln + 2) :
    c.load c.analyze.lg + 2 ≤ c.load c.analyze.mg := by
  have hne := keys_ne_nil h
  rw [(mg_mem hne).2, (lg_mem hne).2] at h
  omega

/-- The move of one round: a shard of the group with the most. -/
theorem exists_moveShard (h : ¬ c.analyze.mn < c.analyze.ln + 2) :
    ∃ s, c.shards[s] = c.analyze.mg ∧
      c.moveShard c.analyze.mg c.analyze.lg = c.give s c.analyze.lg := by
  have hpos : 0 < c.load c.analyze.mg := by
    have hgap := gap h
    omega
  rcases Vector.mem_iff_getElem.mp (Vector.count_pos_iff.mp hpos) with ⟨i, hi, hmg⟩
  unfold moveShard
  cases hfind : (List.finRange n).find? fun s => c.shards[s] = c.analyze.mg with
  | none =>
      have hno := List.find?_eq_none.mp hfind ⟨i, hi⟩ (List.mem_finRange _)
      simp [hmg] at hno
  | some s => exact ⟨s, by simpa using List.find?_some hfind, rfl⟩

theorem energy_moveShard (h : ¬ c.analyze.mn < c.analyze.ln + 2) :
    energy (c.moveShard c.analyze.mg c.analyze.lg).members
      (c.moveShard c.analyze.mg c.analyze.lg).load < energy c.members c.load := by
  have hne := keys_ne_nil h
  rcases exists_moveShard h with ⟨s, hs, heq⟩
  rw [heq, load_give, hs]
  exact energy_shift_lt (mem_members.mpr (mg_mem hne).1) (mem_members.mpr (lg_mem hne).1) (gap h)

/-- The last loop of `Rebalance`. -/
def balance (c : ShardConfig n) : ShardConfig n :=
  if c.analyze.mn < c.analyze.ln + 2 then c
  else (c.moveShard c.analyze.mg c.analyze.lg).balance
termination_by energy c.members c.load
decreasing_by exact energy_moveShard ‹_›

def rebalance (c : ShardConfig n) : ShardConfig n :=
  if c.groups.keys.length < 1 then { c with shards := .replicate n 0 }
  else ((List.finRange n).foldl (assignShard c.shards) c).balance

/-! ## The last loop -/

def Assigned (c : ShardConfig n) : Prop := ∀ s : Fin n, c.shards[s] ∈ c.groups

/-- What every move keeps holds when the loop ends. -/
theorem balance_invariant {P : ShardConfig n → Prop} (h : P c)
    (hmove : ∀ c s, P c → ¬ c.analyze.mn < c.analyze.ln + 2 → c.shards[s] = c.analyze.mg →
      P (c.give s c.analyze.lg)) :
    P c.balance ∧ c.balance.analyze.mn < c.balance.analyze.ln + 2 := by
  fun_induction balance c with
  | case1 c hstop => exact ⟨h, hstop⟩
  | case2 c hgo ih =>
      rcases exists_moveShard hgo with ⟨s, hs, heq⟩
      exact ih (heq ▸ hmove c s h hgo hs)

theorem stop_iff : c.analyze.mn < c.analyze.ln + 2 ↔ Leveled c.members c.load := by
  by_cases hne : c.groups.keys = []
  · have hempty : c.members = ∅ := by simp [members, hne]
    refine ⟨fun _ g hg ↦ by simp [hempty] at hg, fun _ ↦ ?_⟩
    by_contra hgo
    exact keys_ne_nil hgo hne
  · have hmg := mg_mem hne
    have hlg := lg_mem hne
    rw [hmg.2, hlg.2]
    constructor
    · -- the loads of the others lie between those of `lg` and `mg`
      intro hstop g hg g' hg'
      have hmax := load_le_mg hne (mem_members.mp hg)
      have hmin := lg_load_le hne (mem_members.mp hg')
      omega
    · intro hb
      have hle := hb _ (mem_members.mpr hmg.1) _ (mem_members.mpr hlg.1)
      omega

theorem balance_eq_self (h : Leveled c.members c.load) : c.balance = c := by
  rw [balance, if_pos (stop_iff.mpr h)]

theorem balance_balanced (c : ShardConfig n) : Leveled c.balance.members c.balance.load :=
  stop_iff.mp (balance_invariant (P := fun _ => True) trivial fun _ _ _ _ _ ↦ trivial).2

/-! ## The loop over the unassigned shards -/

/-- The loop has the shards `todo` before it. -/
structure Assigning (c₀ : ShardConfig n) (todo : List (Fin n)) (c : ShardConfig n) : Prop where
  groups : c.groups = c₀.groups
  num : c.num = c₀.num
  kept : ∀ s : Fin n, c₀.shards[s] ∈ c₀.groups → c.shards[s] = c₀.shards[s]
  done : ∀ s : Fin n, s ∉ todo → c.shards[s] ∈ c₀.groups
  todo : ∀ s ∈ todo, c.shards[s] = c₀.shards[s]
  balanced : Leveled c₀.members c₀.load → Leveled c.members c.load

theorem Assigning.step {c₀ : ShardConfig n} {s : Fin n} {todo : List (Fin n)}
    (h : Assigning c₀ (s :: todo) c) (hs : s ∉ todo) (hne : c₀.groups.keys ≠ []) :
    Assigning c₀ todo (assignShard c₀.shards c s) := by
  unfold assignShard
  split
  · rename_i hold
    refine ⟨h.groups, h.num, h.kept, ?_, fun s' hs' ↦ h.todo s' (List.mem_cons_of_mem _ hs'),
      h.balanced⟩
    intro s' hs'
    by_cases heq : s' = s
    · rw [heq, h.todo s List.mem_cons_self, ← h.groups]
      exact hold
    · exact h.done s' (by simp [heq, hs'])
  · rename_i hnew
    have hlg := lg_mem (c := c) (h.groups ▸ hne)
    refine ⟨h.groups, h.num, ?_, ?_, ?_, ?_⟩
    · intro s' hs'
      rw [getElem_give, if_neg]
      · exact h.kept s' hs'
      · rintro rfl
        exact hnew (h.groups ▸ hs')
    · intro s' hs'
      rw [getElem_give]
      split
      · rw [← h.groups]
        exact hlg.1
      · rename_i hne'
        exact h.done s' (by simp [hne', hs'])
    · intro s' hs'
      rw [getElem_give, if_neg fun heq : s' = s ↦ hs (heq ▸ hs')]
      exact h.todo s' (List.mem_cons_of_mem _ hs')
    · intro hb
      -- the old owner of the shard is no member, so for the members it is one shard more
      refine ((h.balanced hb).add (b := c.least) fun g hg ↦ ?_).congr fun g hg ↦ ?_
      · exact lg_load_le (h.groups ▸ hne) (mem_members.mp hg)
      · have hg' : g ≠ c.shards[s] := by
          rintro rfl
          rw [h.todo s List.mem_cons_self] at hg
          exact hnew (mem_members.mp hg)
        rw [load_give, shift, add, if_neg hg']
        rfl

theorem assign_spec (hne : c.groups.keys ≠ []) :
    Assigning c [] ((List.finRange n).foldl (assignShard c.shards) c) := by
  have hall : ∀ (todo : List (Fin n)) (c' : ShardConfig n), todo.Nodup → Assigning c todo c' →
      Assigning c [] (todo.foldl (assignShard c.shards) c') := by
    intro todo
    induction todo with
    | nil => exact fun c' _ h ↦ h
    | cons s todo ih =>
        intro c' hnodup h
        rw [List.nodup_cons] at hnodup
        exact ih _ hnodup.2 (h.step hnodup.1 hne)
  refine hall _ c (List.nodup_finRange n) ⟨rfl, rfl, fun _ _ ↦ rfl, ?_, fun _ _ ↦ rfl, id⟩
  exact fun s hs ↦ absurd (List.mem_finRange s) hs

theorem assign_eq_self (h : c.Assigned) : (List.finRange n).foldl (assignShard c.shards) c = c := by
  have hall : ∀ todo : List (Fin n), todo.foldl (assignShard c.shards) c = c := by
    intro todo
    induction todo with
    | nil => rfl
    | cons s todo ih => rw [List.foldl_cons, assignShard, if_pos (h s), ih]
  exact hall _

/-! ## The whole of it -/

theorem rebalance_empty (hnil : c.groups.keys = []) :
    c.rebalance = { c with shards := .replicate n 0 } := by
  rw [rebalance, if_pos (by simp [hnil])]

theorem rebalance_eq (hne : c.groups.keys ≠ []) :
    c.rebalance = ((List.finRange n).foldl (assignShard c.shards) c).balance := by
  rw [rebalance, if_neg]
  have hpos := List.length_pos_iff.mpr hne
  omega

/-- The outcome, whatever the shards were before. -/
theorem rebalance_spec (hne : c.groups.keys ≠ []) :
    c.rebalance.groups = c.groups ∧ c.rebalance.num = c.num ∧ c.rebalance.Assigned ∧
      Leveled c.rebalance.members c.rebalance.load := by
  rw [rebalance_eq hne]
  have hassign := assign_spec hne
  generalize (List.finRange n).foldl (assignShard c.shards) c = c' at hassign
  have hkeep := (balance_invariant (c := c')
    (P := fun d => d.groups = c.groups ∧ d.num = c.num ∧ d.Assigned) ?_ ?_).1
  · exact ⟨hkeep.1, hkeep.2.1, hkeep.2.2, c'.balance_balanced⟩
  · exact ⟨hassign.groups, hassign.num, fun s ↦ hassign.groups ▸ hassign.done s (by simp)⟩
  · rintro d s ⟨hgroups, hnum, hassigned⟩ hgo -
    refine ⟨hgroups, hnum, fun s' ↦ ?_⟩
    rw [getElem_give]
    split
    · exact (lg_mem (keys_ne_nil hgo)).1
    · exact hassigned s'

/-- From any start, every shard ends in a group and the groups end level. -/
theorem rebalance_balances (c : ShardConfig n) (hne : c.groups.keys ≠ []) :
    (∀ s : Fin n, c.rebalance.shards[s] ∈ c.groups) ∧
      (∀ g ∈ c.groups, ∀ g' ∈ c.groups,
        c.rebalance.shards.count g ≤ c.rebalance.shards.count g' + 1) ∧
      c.rebalance.num = c.num ∧ c.rebalance.groups = c.groups := by
  obtain ⟨hgroups, hnum, hassigned, hlevel⟩ := rebalance_spec hne
  refine ⟨?_, ?_, hnum, hgroups⟩
  · intro s
    rw [← hgroups]
    exact hassigned s
  · intro g hg g' hg'
    rw [← hgroups] at hg hg'
    exact hlevel g (mem_members.mpr hg) g' (mem_members.mpr hg')

/-- Seven shards, all of them with one of the three groups or with no group. -/
def strays : ShardConfig 7 :=
  { num := 3
    shards := #v[5, 5, 5, 9, 5, 0, 5]
    groups := [(5, lit "a"), (-2, lit "b"), (8, lit "c")].foldl
      (fun groups e => AList.insert e.1 ([e.2] : List GoString) groups) ∅
    small := by decide }

theorem rebalance_balances_strays :
    strays.groups.keys ≠ [] ∧ strays.rebalance.shards = #v[-2, 8, 5, -2, 5, 8, 5] ∧
      ∀ g ∈ strays.groups, ∀ g' ∈ strays.groups,
        strays.rebalance.shards.count g ≤ strays.rebalance.shards.count g' + 1 := by
  have hne : strays.groups.keys ≠ [] := by decide
  exact ⟨hne, by decide +kernel, (rebalance_balances strays hne).2.1⟩

/-- Shards whose groups stay do not move, if the loads of these groups are balanced. -/
theorem rebalance_kept (hne : c.groups.keys ≠ []) (hb : Leveled c.members c.load) {s : Fin n}
    (hs : c.shards[s] ∈ c.groups) : c.rebalance.shards[s] = c.shards[s] := by
  have hassign := assign_spec hne
  rw [rebalance_eq hne, balance_eq_self (hassign.balanced hb)]
  exact hassign.kept s hs

/-- No shard moves to a group of `old`, if none of them has two shards fewer than another group. -/
theorem rebalance_moved {old : Finset Tgid} (hassigned : c.Assigned)
    (hfull : Full c.members old c.load) {s : Fin n} (hne : c.groups.keys ≠ [])
    (hs : c.rebalance.shards[s] ≠ c.shards[s]) : c.rebalance.shards[s] ∉ old := by
  rw [rebalance_eq hne, assign_eq_self hassigned] at hs ⊢
  have hkeep := (balance_invariant (c := c) (P := fun d => d.groups = c.groups ∧
    Full d.members old d.load ∧ ∀ s : Fin n, d.shards[s] ≠ c.shards[s] → d.shards[s] ∉ old) ?_ ?_).1
  · exact hkeep.2.2 s hs
  · exact ⟨rfl, hfull, fun s hne' ↦ absurd rfl hne'⟩
  · rintro d s ⟨hgroups, hfull', hmoved⟩ hgo hmg
    have hne' := keys_ne_nil hgo
    have hmem := mem_members.mpr (mg_mem hne').1
    refine ⟨hgroups, ?_, fun s' ↦ ?_⟩
    · -- the shard leaves a group with the most, which can afford it
      rw [load_give, hmg]
      exact hfull'.shift hmem (fun g hg ↦ load_le_mg hne' (mem_members.mp hg)) (gap hgo)
    · rw [getElem_give]
      split
      · -- the receiver has two fewer than `mg`, so it is not of `old`
        exact fun _ ↦ hfull'.notMem hmem (gap hgo)
      · exact hmoved s'

end GoLabs.ShardCfg.ShardConfig
