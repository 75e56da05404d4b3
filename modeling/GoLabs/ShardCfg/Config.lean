import Mathlib.Data.List.Sort
import GoLabs.Reasoning.Balance
import GoLabs.Reasoning.GoMap
import GoLabs.Reasoning.GoString
import GoLabs.Reasoning.Tables

/-!
# Shard configurations

`shardkv1/shardcfg/shardcfg.go`: which group serves each shard, and the search for the groups with
the most and the fewest shards.
-/

open GoLabs.Reasoning

namespace GoLabs.ShardCfg

abbrev Tgid := Int

/-- An `int`, which wraps. -/
abbrev Tnum := Int64

/-- `n` is `NShards`.  The search for the least loaded group starts from a count of 257. -/
structure ShardConfig (n : Nat) where
  num : Tnum
  shards : Vector Tgid n
  groups : GoMap Tgid (List GoString)
  small : n ≤ 256
  deriving DecidableEq

variable {n : Nat}

def makeShardConfig (small : n ≤ 256) : ShardConfig n :=
  { num := 0
    shards := .replicate n 0
    groups := ∅
    small := small }

/-- What `analyze` returns: the group with the most shards and how many, and the group with the
fewest and how many. -/
structure Extremes where
  mg : Tgid
  mn : Int
  lg : Tgid
  ln : Int
  deriving DecidableEq, Repr

namespace ShardConfig

/-- The loop that counts the shards of every group. -/
def counts (c : ShardConfig n) : GoMap Tgid Nat :=
  c.shards.toList.foldl (fun m g => m.insert g ((m.lookup g).getD 0 + 1)) ∅

/-- The groups after `slices.Sort`. -/
def sortedGroups (c : ShardConfig n) : List Tgid := c.groups.keys.insertionSort (· ≤ ·)

/-- The body of the loop of `analyze`. -/
def analyzeGroup (counts : GoMap Tgid Nat) (e : Extremes) (g : Tgid) : Extremes :=
  let count := (counts.lookup g).getD 0
  -- both comparisons are strict, so of two equal groups the one with the smaller id stays
  let e := if count < e.ln then { e with ln := count, lg := g } else e
  if count > e.mn then { e with mn := count, mg := g } else e

def analyze (c : ShardConfig n) : Extremes :=
  c.sortedGroups.foldl (analyzeGroup c.counts) ⟨-1, -1, -1, 257⟩

def least (c : ShardConfig n) : Tgid := c.analyze.lg

/-! ## Loads -/

def members (c : ShardConfig n) : Finset Tgid := c.groups.keys.toFinset

def load (c : ShardConfig n) (g : Tgid) : Nat := c.shards.count g

/-- The order in which the keys come out of the `range` is lost in the sort. -/
theorem sortedGroups_eq (c : ShardConfig n) (it : Iteration Tgid) :
    (it.order c.groups.keys).insertionSort (· ≤ ·) = c.sortedGroups :=
  insertionSort_of_perm (it.perm _)

theorem mem_sortedGroups {c : ShardConfig n} {g : Tgid} : g ∈ c.sortedGroups ↔ g ∈ c.groups :=
  List.mem_insertionSort _

@[simp]
theorem mem_members {c : ShardConfig n} {g : Tgid} : g ∈ c.members ↔ g ∈ c.groups :=
  List.mem_toFinset

theorem lookup_counts (c : ShardConfig n) (g : Tgid) : (c.counts.lookup g).getD 0 = c.load g := by
  have hall : ∀ (gs : List Tgid) (m : GoMap Tgid Nat),
      ((gs.foldl (fun m g => m.insert g ((m.lookup g).getD 0 + 1)) m).lookup g).getD 0 =
        (m.lookup g).getD 0 + gs.count g := by
    intro gs
    induction gs with
    | nil => simp
    | cons g' gs ih =>
        intro m
        rw [List.foldl_cons, ih, List.count_cons]
        by_cases hg : g' = g
        · subst hg
          simp
          omega
        · rw [AList.lookup_insert_ne (Ne.symm hg)]
          simp [hg]
  rw [counts, hall]
  simp [load]

theorem load_le (c : ShardConfig n) (g : Tgid) : c.load g ≤ 256 :=
  (Vector.count_le_size).trans c.small

/-- The first group of those seen so far whose load `lt` puts before all others; `start` is the load
to beat at the beginning. -/
structure Best (lt : Int → Int → Prop) (start : Int) (load : Tgid → Nat) (seen : List Tgid)
    (best : Tgid) (count : Int) : Prop where
  found : seen = [] ∧ count = start ∨ best ∈ seen ∧ count = load best
  unbeaten : ∀ g ∈ seen, ¬ lt (load g) count

/-- One more group, which is taken if its load comes before the best one so far. -/
theorem Best.snoc {lt : Int → Int → Prop} [IsStrictOrder Int lt] [DecidableRel lt] {start : Int}
    {load : Tgid → Nat} {seen : List Tgid} {best : Tgid} {count : Int}
    (h : Best lt start load seen best count) {g : Tgid} (hstart : lt (load g) start) :
    Best lt start load (seen ++ [g]) (if lt (load g) count then g else best)
      (if lt (load g) count then ↑(load g) else count) := by
  split
  · rename_i hlt
    refine ⟨.inr ⟨by simp, rfl⟩, fun g' hg' ↦ ?_⟩
    obtain hold | hnew := List.mem_append.mp hg'
    · exact fun hlt' ↦ h.unbeaten g' hold (trans_of lt hlt' hlt)
    · rw [List.mem_singleton.mp hnew]
      exact irrefl_of lt _
  · rename_i hnot
    refine ⟨.inr ?_, fun g' hg' ↦ ?_⟩
    · obtain ⟨-, rfl⟩ | ⟨hmem, heq⟩ := h.found
      · exact absurd hstart hnot
      · exact ⟨List.mem_append_left _ hmem, heq⟩
    · obtain hold | hnew := List.mem_append.mp hg'
      · exact h.unbeaten g' hold
      · rwa [List.mem_singleton.mp hnew]

/-- The group with the most shards, among those seen so far. -/
abbrev Most := Best (· > ·) (-1)

/-- The group with the fewest. -/
abbrev Fewest := Best (· < ·) 257

theorem analyzeGroup_eq (c : ShardConfig n) (e : Extremes) (g : Tgid) :
    analyzeGroup c.counts e g =
      { mg := if c.load g > e.mn then g else e.mg
        mn := if c.load g > e.mn then ↑(c.load g) else e.mn
        lg := if c.load g < e.ln then g else e.lg
        ln := if c.load g < e.ln then ↑(c.load g) else e.ln } := by
  rw [← c.lookup_counts g, analyzeGroup]
  split <;> split <;> rfl

theorem analyze_seen (c : ShardConfig n) :
    Most c.load c.sortedGroups c.analyze.mg c.analyze.mn ∧
      Fewest c.load c.sortedGroups c.analyze.lg c.analyze.ln := by
  have hall : ∀ (gs seen : List Tgid) (e : Extremes), Most c.load seen e.mg e.mn →
      Fewest c.load seen e.lg e.ln →
      Most c.load (seen ++ gs) (gs.foldl (analyzeGroup c.counts) e).mg
          (gs.foldl (analyzeGroup c.counts) e).mn ∧
        Fewest c.load (seen ++ gs) (gs.foldl (analyzeGroup c.counts) e).lg
          (gs.foldl (analyzeGroup c.counts) e).ln := by
    intro gs
    induction gs with
    | nil =>
        intro seen e hmost hfewest
        rw [List.append_nil]
        exact ⟨hmost, hfewest⟩
    | cons g gs ih =>
        intro seen e hmost hfewest
        rw [← List.singleton_append, ← List.append_assoc, List.foldl_append, List.foldl_cons,
          List.foldl_nil, analyzeGroup_eq]
        have hsmall := c.load_le g
        exact ih _ _ (hmost.snoc (by omega)) (hfewest.snoc (by omega))
  exact hall c.sortedGroups [] _ ⟨.inl ⟨rfl, rfl⟩, by simp⟩ ⟨.inl ⟨rfl, rfl⟩, by simp⟩

section Nonempty

variable {c : ShardConfig n} (hne : c.groups.keys ≠ [])

include hne

theorem sortedGroups_ne_nil : c.sortedGroups ≠ [] := by
  intro hnil
  have hperm : c.sortedGroups.Perm c.groups.keys := List.perm_insertionSort _ _
  rw [hnil] at hperm
  exact hne hperm.nil_eq.symm

theorem mg_mem : c.analyze.mg ∈ c.groups ∧ c.analyze.mn = c.load c.analyze.mg := by
  rcases c.analyze_seen.1.found with ⟨hnil, -⟩ | ⟨hmem, heq⟩
  · exact absurd hnil (sortedGroups_ne_nil hne)
  · exact ⟨mem_sortedGroups.mp hmem, heq⟩

theorem load_le_mg {g : Tgid} (hg : g ∈ c.groups) : c.load g ≤ c.load c.analyze.mg := by
  have hle := c.analyze_seen.1.unbeaten g (mem_sortedGroups.mpr hg)
  rw [(mg_mem hne).2] at hle
  omega

theorem lg_mem : c.analyze.lg ∈ c.groups ∧ c.analyze.ln = c.load c.analyze.lg := by
  rcases c.analyze_seen.2.found with ⟨hnil, -⟩ | ⟨hmem, heq⟩
  · exact absurd hnil (sortedGroups_ne_nil hne)
  · exact ⟨mem_sortedGroups.mp hmem, heq⟩

theorem lg_load_le {g : Tgid} (hg : g ∈ c.groups) : c.load c.analyze.lg ≤ c.load g := by
  have hle := c.analyze_seen.2.unbeaten g (mem_sortedGroups.mpr hg)
  rw [(lg_mem hne).2] at hle
  omega

end Nonempty

end ShardConfig

end GoLabs.ShardCfg
