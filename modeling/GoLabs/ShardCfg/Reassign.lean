import GoLabs.Reasoning.Tables
import GoLabs.Reasoning.Leveling
import GoLabs.ShardCfg.Rebalance

/-!
# The writes of a rebalancing

`Rebalance` with a log of the writes it makes to `Shards` and a bound on the rounds of its last
loop, which has no counter in the source.  No shard is written twice and no group gives up a shard
after it has been given one; so the loop ends, and no other way to balance the groups moves fewer
shards.
-/

open GoLabs.Reasoning

namespace GoLabs.ShardCfg

variable {n : Nat}

/-- A write to `Shards`: the shard, its owner until then and its owner from then on. -/
structure Reassign (n : Nat) where
  shard : Fin n
  src : Tgid
  dst : Tgid
  deriving DecidableEq

structure Logged (n : Nat) where
  cfg : ShardConfig n
  log : List (Reassign n)
  deriving DecidableEq

namespace Logged

def write (x : Logged n) (s : Fin n) (g : Tgid) : Logged n :=
  ⟨x.cfg.give s g, x.log ++ [⟨s, x.cfg.shards[s], g⟩]⟩

def assignShard (old : Vector Tgid n) (x : Logged n) (s : Fin n) : Logged n :=
  if old[s] ∈ x.cfg.groups then x else x.write s x.cfg.least

/-- The last loop of `Rebalance`, if it ends within `fuel` rounds. -/
def balance : Nat → Logged n → Option (Logged n)
  | 0, _ => none
  | fuel + 1, x =>
      let e := x.cfg.analyze
      if e.mn < e.ln + 2 then some x
      else
        match (List.finRange n).find? fun s => x.cfg.shards[s] = e.mg with
        | some s => balance fuel (x.write s e.lg)
        | none => balance fuel x

end Logged

namespace ShardConfig

def rebalanceLogged (fuel : Nat) (c : ShardConfig n) : Option (Logged n) :=
  if c.groups.keys.length < 1 then some ((List.finRange n).foldl (fun x s => x.write s 0) ⟨c, []⟩)
  else ((List.finRange n).foldl (Logged.assignShard c.shards) ⟨c, []⟩).balance fuel

end ShardConfig

namespace Logged

def receivers (x : Logged n) : Finset Tgid := (x.log.map Reassign.dst).toFinset

/-- The members among those that gave up a shard. -/
def donors (x : Logged n) : Finset Tgid := (x.log.map Reassign.src).toFinset ∩ x.cfg.members

/-- The log tells what has changed since `c₀`. -/
structure Ledger (c₀ : ShardConfig n) (x : Logged n) : Prop where
  groups : x.cfg.groups = c₀.groups
  once : (x.log.map Reassign.shard).Nodup
  kept : ∀ s, s ∉ x.log.map Reassign.shard → x.cfg.shards[s] = c₀.shards[s]
  written : ∀ r ∈ x.log, c₀.shards[r.shard] = r.src ∧ x.cfg.shards[r.shard] = r.dst
  order : x.log.Pairwise fun r r' => r.dst ≠ r'.src
  levels : Leveling x.cfg.members x.receivers x.donors x.cfg.load

theorem Ledger.init (c : ShardConfig n) : Ledger c ⟨c, []⟩ := by
  refine ⟨rfl, by simp, fun _ _ ↦ rfl, by simp, by simp, ?_⟩
  simpa [receivers, donors] using Leveling.init

@[simp] theorem members_write (x : Logged n) (s : Fin n) (g : Tgid) :
    (x.write s g).cfg.members = x.cfg.members := rfl

theorem receivers_write (x : Logged n) (s : Fin n) (g : Tgid) :
    (x.write s g).receivers = insert g x.receivers := by
  ext g'
  simp [receivers, write]

theorem donors_write (x : Logged n) (s : Fin n) (g : Tgid) :
    (x.write s g).donors =
      insert x.cfg.shards[s] (x.log.map Reassign.src).toFinset ∩ x.cfg.members := by
  unfold donors
  rw [members_write]
  congr 1
  ext g'
  simp [write]

/-- A shard that has been written belongs to a receiver. -/
theorem Ledger.mem_receivers {c₀ : ShardConfig n} {x : Logged n} (h : Ledger c₀ x) {s : Fin n}
    (hs : s ∈ x.log.map Reassign.shard) : x.cfg.shards[s] ∈ x.receivers := by
  obtain ⟨r, hr, rfl⟩ := List.mem_map.mp hs
  rw [(h.written r hr).2, receivers, List.mem_toFinset]
  exact List.mem_map_of_mem hr

/-- One more write, to a shard that does not belong to a receiver. -/
theorem Ledger.write {c₀ : ShardConfig n} {x : Logged n} (h : Ledger c₀ x) {s : Fin n} {g : Tgid}
    (hs : x.cfg.shards[s] ∉ x.receivers)
    (hlevels : Leveling x.cfg.members (x.write s g).receivers (x.write s g).donors
      (x.write s g).cfg.load) : Ledger c₀ (x.write s g) := by
  have hnew : s ∉ x.log.map Reassign.shard := fun hmem ↦ hs (h.mem_receivers hmem)
  refine ⟨h.groups, ?_, ?_, ?_, ?_, hlevels⟩
  · change ((x.log ++ [_]).map Reassign.shard).Nodup
    rw [List.map_append, List.map_singleton]
    exact nodup_snoc h.once hnew
  · intro s' hs'
    change s' ∉ (x.log ++ [_]).map Reassign.shard at hs'
    rw [List.map_append, List.map_singleton, List.mem_append, not_or, List.mem_singleton] at hs'
    change (x.cfg.give s g).shards[s'] = _
    rw [ShardConfig.getElem_give, if_neg hs'.2]
    exact h.kept s' hs'.1
  · intro r hr
    change (_ : Prop) ∧ (x.cfg.give s g).shards[r.shard] = _
    rw [ShardConfig.getElem_give]
    obtain hold | hlast := List.mem_append.mp hr
    · have hne : r.shard ≠ s := fun heq ↦ hnew (heq ▸ List.mem_map_of_mem hold)
      rw [if_neg hne]
      exact h.written r hold
    · rw [List.mem_singleton.mp hlast, if_pos rfl]
      exact ⟨(h.kept s hnew).symm, rfl⟩
  · change (x.log ++ [_]).Pairwise _
    refine List.pairwise_append.mpr ⟨h.order, List.pairwise_singleton _ _, ?_⟩
    intro r hr r' hr'
    rw [List.mem_singleton.mp hr']
    -- the new owner of an earlier write is a receiver, the giver of this one is not
    intro heq
    refine hs ?_
    change r.dst = x.cfg.shards[s] at heq
    rw [← heq, receivers, List.mem_toFinset]
    exact List.mem_map_of_mem hr

/-! ## The two loops -/

/-- As long as shards without a group are handed out, no member has given up a shard. -/
theorem Ledger.assignShard {c₀ : ShardConfig n} {x : Logged n} {s : Fin n} (h : Ledger c₀ x)
    (hgave : x.donors = ∅) (hs : x.cfg.shards[s] = c₀.shards[s]) (hne : c₀.groups.keys ≠ []) :
    Ledger c₀ (x.assignShard c₀.shards s) ∧ (x.assignShard c₀.shards s).donors = ∅ := by
  unfold Logged.assignShard
  split
  · exact ⟨h, hgave⟩
  · rename_i hout
    have hout' : x.cfg.shards[s] ∉ x.cfg.members := by
      rw [hs, ShardConfig.mem_members]
      exact hout
    have hne' : x.cfg.groups.keys ≠ [] := h.groups ▸ hne
    have hdonors : (x.write s x.cfg.least).donors = x.donors := by
      rw [donors_write, Finset.insert_inter_of_notMem hout', donors]
    refine ⟨h.write (fun hmem ↦ hout' (h.levels.recv_sub hmem)) ?_, hdonors.trans hgave⟩
    rw [hdonors, hgave, receivers_write]
    have hlevels := h.levels
    rw [hgave] at hlevels
    refine (hlevels.add (ShardConfig.mem_members.mpr (ShardConfig.lg_mem hne').1)
      fun g hg ↦ ShardConfig.lg_load_le hne' (ShardConfig.mem_members.mp hg)).congr ?_
    intro g hg
    change (x.cfg.give s x.cfg.least).load g = _
    rw [ShardConfig.load_give, shift, add, if_neg fun heq : g = x.cfg.shards[s] ↦ hout' (heq ▸ hg)]
    rfl

/-- A round of the last loop. -/
theorem Ledger.move {c₀ : ShardConfig n} {x : Logged n} {s : Fin n} (h : Ledger c₀ x)
    (hgo : ¬ x.cfg.analyze.mn < x.cfg.analyze.ln + 2)
    (hs : x.cfg.shards[s] = x.cfg.analyze.mg) : Ledger c₀ (x.write s x.cfg.analyze.lg) := by
  have hne := ShardConfig.keys_ne_nil hgo
  have hgap := ShardConfig.gap hgo
  have hmg := ShardConfig.mem_members.mpr (ShardConfig.mg_mem hne).1
  have hlg := ShardConfig.mem_members.mpr (ShardConfig.lg_mem hne).1
  refine h.write ?_ ?_
  · rw [hs]
    exact h.levels.notMem_recv hlg hgap
  · rw [receivers_write, donors_write, hs, Finset.insert_inter_of_mem hmg]
    change Leveling _ _ _ (x.cfg.give s x.cfg.analyze.lg).load
    rw [ShardConfig.load_give, hs]
    exact h.levels.shift hmg hlg hgap
      (fun g hg ↦ ShardConfig.load_le_mg hne (ShardConfig.mem_members.mp hg))
      (fun g hg ↦ ShardConfig.lg_load_le hne (ShardConfig.mem_members.mp hg))

theorem cfg_assignShard (old : Vector Tgid n) (x : Logged n) (s : Fin n) :
    (x.assignShard old s).cfg = ShardConfig.assignShard old x.cfg s := by
  unfold Logged.assignShard ShardConfig.assignShard
  split <;> rfl

/-- The loop over the shards without a group, over the shards `todo` that it has not looked at. -/
theorem Ledger.assign {c₀ : ShardConfig n} {x : Logged n} {todo : List (Fin n)} (h : Ledger c₀ x)
    (hgave : x.donors = ∅) (hnodup : todo.Nodup) (htodo : ∀ s ∈ todo, s ∉ x.log.map Reassign.shard)
    (hne : c₀.groups.keys ≠ []) :
    Ledger c₀ (todo.foldl (Logged.assignShard c₀.shards) x) ∧
      (todo.foldl (Logged.assignShard c₀.shards) x).cfg =
        todo.foldl (ShardConfig.assignShard c₀.shards) x.cfg := by
  induction todo generalizing x with
  | nil => exact ⟨h, rfl⟩
  | cons s todo ih =>
      rw [List.nodup_cons] at hnodup
      have hstep := h.assignShard hgave (h.kept s (htodo s List.mem_cons_self)) hne
      have hrest : ∀ s' ∈ todo, s' ∉ (x.assignShard c₀.shards s).log.map Reassign.shard := by
        intro s' hs'
        have hold := htodo s' (List.mem_cons_of_mem _ hs')
        unfold Logged.assignShard
        split
        · exact hold
        · change s' ∉ (x.log ++ [_]).map Reassign.shard
          rw [List.map_append, List.mem_append, not_or]
          refine ⟨hold, ?_⟩
          rw [List.map_singleton, List.mem_singleton]
          intro heq
          change s' = s at heq
          exact hnodup.1 (heq ▸ hs')
      have hall := ih hstep.1 hstep.2 hnodup.2 hrest
      rw [cfg_assignShard] at hall
      exact hall

theorem Ledger.length_le {c₀ : ShardConfig n} {x : Logged n} (h : Ledger c₀ x) :
    x.log.length ≤ n := by
  have hle := h.once.length_le_card
  rwa [List.length_map, Fintype.card_fin] at hle

theorem balance_stop {x : Logged n} (fuel : Nat)
    (hstop : x.cfg.analyze.mn < x.cfg.analyze.ln + 2) : x.balance (fuel + 1) = some x := by
  rw [balance]
  exact if_pos hstop

/-- A round writes one shard of the group with the most. -/
theorem exists_balance_go {x : Logged n} (hgo : ¬ x.cfg.analyze.mn < x.cfg.analyze.ln + 2) :
    ∃ s, x.cfg.shards[s] = x.cfg.analyze.mg ∧
      (∀ fuel, x.balance (fuel + 1) = (x.write s x.cfg.analyze.lg).balance fuel) ∧
      x.cfg.balance = (x.cfg.give s x.cfg.analyze.lg).balance := by
  obtain ⟨s, hs, hmove⟩ := ShardConfig.exists_moveShard hgo
  cases hfind : (List.finRange n).find? fun s => x.cfg.shards[s] = x.cfg.analyze.mg with
  | none =>
      have hno := List.find?_eq_none.mp hfind s (List.mem_finRange s)
      simp [hs] at hno
  | some s' =>
      refine ⟨s', by simpa using List.find?_some hfind, ?_, ?_⟩
      · intro fuel
        rw [balance]
        simp only [if_neg hgo, hfind]
      · rw [ShardConfig.balance, if_neg hgo, ShardConfig.moveShard, hfind]

/-- Each round writes a shard that was not written before, so the loop ends within `n` of them. -/
theorem Ledger.balance_ends {c₀ : ShardConfig n} {x : Logged n} (h : Ledger c₀ x) :
    ∃ y, (∀ fuel, n < fuel + x.log.length → x.balance fuel = some y) ∧ Ledger c₀ y ∧
      y.cfg = x.cfg.balance := by
  -- by induction on the number of shards that have not been written
  induction hleft : n - x.log.length using Nat.strong_induction_on generalizing x with
  | _ left ih =>
      have hlen := h.length_le
      by_cases hstop : x.cfg.analyze.mn < x.cfg.analyze.ln + 2
      · refine ⟨x, ?_, h, ?_⟩
        · intro fuel hfuel
          obtain ⟨fuel, rfl⟩ := Nat.exists_eq_succ_of_ne_zero (n := fuel) (by omega)
          exact balance_stop fuel hstop
        · rw [ShardConfig.balance, if_pos hstop]
      · obtain ⟨s, hs, hround, hbalance⟩ := exists_balance_go hstop
        have hnext := h.move hstop hs
        have hlog : (x.write s x.cfg.analyze.lg).log.length = x.log.length + 1 := by
          simp [Logged.write]
        have hlen' := hnext.length_le
        obtain ⟨y, hends, hy, hcfg⟩ := ih (n - (x.log.length + 1)) (by omega) hnext (by rw [hlog])
        refine ⟨y, ?_, hy, ?_⟩
        · intro fuel hfuel
          obtain ⟨fuel, rfl⟩ := Nat.exists_eq_succ_of_ne_zero (n := fuel) (by omega)
          rw [Nat.succ_eq_add_one, hround]
          exact hends fuel (by omega)
        · rw [hcfg, hbalance]
          rfl

end Logged

namespace ShardConfig

/-- The log of a whole call. -/
theorem exists_ledger (c : ShardConfig n) (hne : c.groups.keys ≠ []) :
    ∃ x : Logged n, (∀ fuel, n < fuel → c.rebalanceLogged fuel = some x) ∧ x.Ledger c ∧
      x.cfg = c.rebalance := by
  have hdonors : (⟨c, []⟩ : Logged n).donors = ∅ := by simp [Logged.donors]
  obtain ⟨hledger, hcfg⟩ := (Logged.Ledger.init c).assign hdonors (List.nodup_finRange n)
    (by simp) hne
  obtain ⟨y, hends, hy, hbalance⟩ := hledger.balance_ends
  refine ⟨y, ?_, hy, ?_⟩
  · intro fuel hfuel
    have hpos := List.length_pos_iff.mpr hne
    rw [rebalanceLogged, if_neg (by omega)]
    exact hends fuel (by omega)
  · rw [hbalance, hcfg, rebalance_eq hne]

/-- `Rebalance` ends, writes no shard twice, and takes no shard from a group that it has given
one. -/
theorem rebalance_reassigns_once (c : ShardConfig n) (hne : c.groups.keys ≠ []) :
    ∃ log : List (Reassign n),
      (∀ fuel, n < fuel → c.rebalanceLogged fuel = some ⟨c.rebalance, log⟩) ∧
      (log.map Reassign.shard).Nodup ∧ (log.Pairwise fun r r' => r.dst ≠ r'.src) ∧
      log.length ≤ n := by
  obtain ⟨x, hends, hx, hcfg⟩ := c.exists_ledger hne
  refine ⟨x.log, ?_, hx.once, hx.order, hx.length_le⟩
  intro fuel hfuel
  rw [hends fuel hfuel, ← hcfg]

/-- The two shards without a group are handed out, and then two of the five of group 5. -/
theorem rebalance_reassigns_once_strays :
    strays.rebalanceLogged 8 = some ⟨strays.rebalance,
        [⟨3, 9, -2⟩, ⟨5, 0, 8⟩, ⟨0, 5, -2⟩, ⟨1, 5, 8⟩]⟩ ∧
      (([⟨3, 9, -2⟩, ⟨5, 0, 8⟩, ⟨0, 5, -2⟩, ⟨1, 5, 8⟩] : List (Reassign 7)).map
        Reassign.shard).Nodup := by
  obtain ⟨log, hends, honce, -, -⟩ := rebalance_reassigns_once strays (by decide)
  have hrun : (strays.rebalanceLogged 8).map Logged.log =
      some [⟨3, 9, -2⟩, ⟨5, 0, 8⟩, ⟨0, 5, -2⟩, ⟨1, 5, 8⟩] := by decide +kernel
  rw [hends 8 (by decide), Option.map_some, Option.some.injEq] at hrun
  change log = _ at hrun
  rw [← hrun]
  exact ⟨hends 8 (by decide), honce⟩

/-! ## How many shards move -/

/-- The number of shards with another owner. -/
def moved (old new : Vector Tgid n) : Nat :=
  (Finset.univ.filter fun s : Fin n => old[s] ≠ new[s]).card

/-- The shards that stay with `g`. -/
def keptBy (old new : Vector Tgid n) (g : Tgid) : Finset (Fin n) :=
  Finset.univ.filter fun s => old[s] = new[s] ∧ new[s] = g

theorem mem_keptBy {old new : Vector Tgid n} {g : Tgid} {s : Fin n} :
    s ∈ keptBy old new g ↔ old[s] = new[s] ∧ new[s] = g := by
  simp [keptBy]

theorem count_eq_card (v : Vector Tgid n) (g : Tgid) :
    v.count g = (Finset.univ.filter fun s : Fin n => v[s] = g).card := by
  have hlist : v.toList = (List.finRange n).map fun s => v[s] := by
    apply List.ext_getElem <;> simp
  rw [← Vector.count_toList, hlist, List.count_eq_countP, List.countP_map,
    List.countP_eq_length_filter]
  rfl

theorem sum_count {v : Vector Tgid n} {groups : Finset Tgid} (hv : ∀ s : Fin n, v[s] ∈ groups) :
    ∑ g ∈ groups, v.count g = n := by
  have hall := Finset.card_eq_sum_card_fiberwise (s := Finset.univ) (t := groups)
    (f := fun s : Fin n => v[s]) (fun s _ ↦ hv s)
  rw [Finset.card_univ, Fintype.card_fin] at hall
  simp only [count_eq_card]
  exact hall.symm

/-- A shard that does not move stays with one of the groups. -/
theorem moved_add_kept (old : Vector Tgid n) {new : Vector Tgid n} {groups : Finset Tgid}
    (hnew : ∀ s : Fin n, new[s] ∈ groups) :
    moved old new + ∑ g ∈ groups, (keptBy old new g).card = n := by
  have hsame := Finset.card_eq_sum_card_fiberwise
    (s := Finset.univ.filter fun s : Fin n => old[s] = new[s]) (t := groups)
    (f := fun s : Fin n => new[s]) (fun s _ ↦ hnew s)
  simp only [Finset.filter_filter] at hsame
  unfold moved keptBy
  rw [← hsame, Nat.add_comm, Finset.card_filter_add_card_filter_not]
  simp

/-- A group keeps no more than it had and no more than it has. -/
theorem card_keptBy_le (old new : Vector Tgid n) (g : Tgid) :
    (keptBy old new g).card ≤ min (old.count g) (new.count g) := by
  rw [count_eq_card, count_eq_card, le_min_iff]
  constructor
  · refine Finset.card_le_card fun s hs ↦ ?_
    obtain ⟨hsame, hg⟩ := mem_keptBy.mp hs
    simpa using hsame.trans hg
  · refine Finset.card_le_card fun s hs ↦ ?_
    simpa using (mem_keptBy.mp hs).2

end ShardConfig

namespace Logged

variable {c₀ : ShardConfig n} {x : Logged n} {g : Tgid}

/-- Whatever a group has that was given nothing, it had before. -/
theorem Ledger.load_le_kept (h : Ledger c₀ x) (hg : g ∉ x.receivers) :
    x.cfg.load g ≤ (ShardConfig.keptBy c₀.shards x.cfg.shards g).card := by
  rw [ShardConfig.load, ShardConfig.count_eq_card]
  refine Finset.card_le_card fun s hs ↦ ?_
  have hs' : x.cfg.shards[s] = g := by simpa using hs
  have hold := h.kept s fun hmem ↦ hg (hs' ▸ h.mem_receivers hmem)
  exact ShardConfig.mem_keptBy.mpr ⟨hold.symm, hs'⟩

/-- Whatever a member had that gave nothing up, it still has. -/
theorem Ledger.old_load_le_kept (h : Ledger c₀ x) (hmem : g ∈ x.cfg.members)
    (hg : g ∉ x.donors) : c₀.load g ≤ (ShardConfig.keptBy c₀.shards x.cfg.shards g).card := by
  rw [ShardConfig.load, ShardConfig.count_eq_card]
  refine Finset.card_le_card fun s hs ↦ ?_
  have hs' : c₀.shards[s] = g := by simpa using hs
  have hunwritten : s ∉ x.log.map Reassign.shard := by
    intro hw
    obtain ⟨r, hr, rfl⟩ := List.mem_map.mp hw
    rw [(h.written r hr).1] at hs'
    refine hg (Finset.mem_inter.mpr ⟨?_, hmem⟩)
    rw [List.mem_toFinset, ← hs']
    exact List.mem_map_of_mem hr
  have hsame := h.kept s hunwritten
  exact ShardConfig.mem_keptBy.mpr ⟨hsame.symm, hsame.trans hs'⟩

theorem Ledger.min_le_kept (h : Ledger c₀ x) :
    min (c₀.load g) (x.cfg.load g) ≤ (ShardConfig.keptBy c₀.shards x.cfg.shards g).card := by
  by_cases hrecv : g ∈ x.receivers
  · have hdonor : g ∉ x.donors := Finset.disjoint_left.mp h.levels.disjoint hrecv
    exact (Nat.min_le_left _ _).trans (h.old_load_le_kept (h.levels.recv_sub hrecv) hdonor)
  · exact (Nat.min_le_right _ _).trans (h.load_le_kept hrecv)

/-- A group with more shards than before ends at or below one with fewer than before. -/
theorem Ledger.exchange (h : Ledger c₀ x) {r : Tgid} (hmem : g ∈ x.cfg.members)
    (hmore : c₀.load r < x.cfg.load r) (hless : x.cfg.load g < c₀.load g) :
    x.cfg.load r ≤ x.cfg.load g := by
  have hbound : ∀ g, (ShardConfig.keptBy c₀.shards x.cfg.shards g).card ≤
      min (c₀.load g) (x.cfg.load g) := ShardConfig.card_keptBy_le _ _
  refine h.levels.below r ?_ g ?_
  · by_contra hr
    have hle := h.load_le_kept hr
    have hkept := hbound r
    omega
  · by_contra hg
    have hle := h.old_load_le_kept hmem hg
    have hkept := hbound g
    omega

end Logged

namespace ShardConfig

/-- No way to balance the groups moves fewer shards. -/
theorem rebalance_fewest_moves (c : ShardConfig n) (hne : c.groups.keys ≠ [])
    (other : Vector Tgid n) (hmember : ∀ s : Fin n, other[s] ∈ c.groups)
    (hlevel : ∀ g ∈ c.groups, ∀ g' ∈ c.groups, other.count g ≤ other.count g' + 1) :
    moved c.shards c.rebalance.shards ≤ moved c.shards other := by
  obtain ⟨x, -, hx, hcfg⟩ := c.exists_ledger hne
  obtain ⟨hgroups, -, hassigned, -⟩ := rebalance_spec hne
  rw [← hcfg] at hgroups hassigned ⊢
  have hmembers : x.cfg.members = c.members := by rw [members, hgroups, members]
  have hfinal : ∀ s : Fin n, x.cfg.shards[s] ∈ c.members :=
    fun s ↦ mem_members.mpr (hgroups ▸ hassigned s)
  have hother : ∀ s : Fin n, other[s] ∈ c.members := fun s ↦ mem_members.mpr (hmember s)
  -- what is not moved is kept by a group, so the moves are compared by what is kept
  have hmoved := moved_add_kept c.shards hfinal
  have hmoved' := moved_add_kept c.shards hother
  have hkept : ∑ g ∈ c.members, (keptBy c.shards other g).card ≤
      ∑ g ∈ c.members, (keptBy c.shards x.cfg.shards g).card := by
    calc ∑ g ∈ c.members, (keptBy c.shards other g).card
        ≤ ∑ g ∈ c.members, min (c.load g) (other.count g) :=
          Finset.sum_le_sum fun g _ ↦ card_keptBy_le _ _ g
      _ ≤ ∑ g ∈ c.members, min (c.load g) (x.cfg.load g) := by
          refine sum_min_le_of_exchange ?_ ?_ ?_
          · exact fun g hg g' hg' ↦ hlevel g (mem_members.mp hg) g' (mem_members.mp hg')
          · exact (sum_count hother).trans (sum_count hfinal).symm
          · exact fun r _ g hg hmore hless ↦ hx.exchange (hmembers ▸ hg) hmore hless
      _ ≤ ∑ g ∈ c.members, (keptBy c.shards x.cfg.shards g).card :=
          Finset.sum_le_sum fun g _ ↦ hx.min_le_kept
  omega

/-- Giving the five shards of group 5 up in another way moves six. -/
theorem rebalance_fewest_moves_strays :
    moved strays.shards strays.rebalance.shards = 4 ∧
      moved strays.shards #v[8, 8, -2, -2, 8, 5, 5] = 6 ∧
      moved strays.shards strays.rebalance.shards ≤
        moved strays.shards #v[8, 8, -2, -2, 8, 5, 5] := by
  refine ⟨by decide +kernel, by decide, ?_⟩
  exact rebalance_fewest_moves strays (by decide) _ (by decide) (by decide)

end ShardConfig

end GoLabs.ShardCfg
