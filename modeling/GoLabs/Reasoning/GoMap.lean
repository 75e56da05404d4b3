import Mathlib.Data.List.AList
import Mathlib.Data.List.Sort

/-!
# Go maps

A Go map is an association list without duplicate keys.  `range` over a map visits its keys in an
order that the language leaves open: an `Iteration` is one choice of that order for every list of
keys, and a definition that ranges over a map takes one as an argument.
-/

namespace GoLabs.Reasoning

abbrev GoMap (κ ν : Type) := AList fun _ : κ => ν

/-- An order in which a `range` may visit the keys of a map. -/
structure Iteration (κ : Type) where
  order : List κ → List κ
  perm : ∀ keys, (order keys).Perm keys

/-- The order in which the keys are stored. -/
def Iteration.stored (κ : Type) : Iteration κ := ⟨id, fun _ ↦ List.Perm.refl _⟩

/-- A sort forgets the order in which the keys came. -/
theorem insertionSort_of_perm {α : Type*} {r : α → α → Prop} [DecidableRel r] [Std.Total r]
    [IsTrans α r] [Std.Antisymm r] {l l' : List α} (h : l.Perm l') :
    l.insertionSort r = l'.insertionSort r := by
  refine List.Perm.eq_of_pairwise (fun a b _ _ ↦ Std.Antisymm.antisymm a b)
    (List.pairwise_insertionSort r l) (List.pairwise_insertionSort r l') ?_
  exact (List.perm_insertionSort r l).trans (h.trans (List.perm_insertionSort r l').symm)

variable {κ ν : Type} [DecidableEq κ]

/-- The entries of a map in the order of a `range` over it. -/
def GoMap.range (it : Iteration κ) (m : GoMap κ ν) : List (κ × ν) :=
  (it.order m.keys).filterMap fun k => (m.lookup k).map (k, ·)

/-- `m[k] = append(m[k], v)`. -/
def GoMap.appendAt (m : GoMap κ (List ν)) (k : κ) (v : ν) : GoMap κ (List ν) :=
  m.insert k ((m.lookup k).getD [] ++ [v])

/-- The map that a loop of `appendAt` builds from the pairs it meets. -/
def GoMap.collect (m : GoMap κ (List ν)) (kvs : List (κ × ν)) : GoMap κ (List ν) :=
  kvs.foldl (fun m kv => GoMap.appendAt m kv.1 kv.2) m

/-- The values of `k` among some pairs, in order. -/
def valuesOf (k : κ) (kvs : List (κ × ν)) : List ν :=
  (kvs.filter (·.1 = k)).map Prod.snd

namespace GoMap

variable {m : GoMap κ (List ν)} {k : κ} {v : ν} {kvs kvs' : List (κ × ν)}

theorem collect_append (m : GoMap κ (List ν)) (kvs kvs' : List (κ × ν)) :
    collect m (kvs ++ kvs') = collect (collect m kvs) kvs' := List.foldl_append

theorem mem_keys_insert {m : GoMap κ ν} {k k' : κ} {v : ν} :
    k' ∈ (m.insert k v).keys ↔ k' = k ∨ k' ∈ m.keys := AList.mem_insert m

theorem mem_keys_foldl_insert {keys : List κ} {v : ν} {m : GoMap κ ν} :
    k ∈ (keys.foldl (fun m u => m.insert u v) m).keys ↔ k ∈ keys ∨ k ∈ m.keys := by
  induction keys generalizing m with
  | nil => simp
  | cons u keys ih =>
      rw [List.foldl_cons, ih, mem_keys_insert, List.mem_cons]
      tauto

theorem mem_appendAt {k' : κ} : k' ∈ appendAt m k v ↔ k' = k ∨ k' ∈ m := AList.mem_insert _

theorem lookup_appendAt {k' : κ} :
    (appendAt m k v).lookup k' =
      if k' = k then some ((m.lookup k).getD [] ++ [v]) else m.lookup k' := by
  unfold appendAt
  split
  · rename_i heq
    rw [heq, AList.lookup_insert]
  · rename_i hne
    rw [AList.lookup_insert_ne hne]

theorem mem_collect : k ∈ collect m kvs ↔ k ∈ m ∨ k ∈ kvs.map Prod.fst := by
  induction kvs generalizing m with
  | nil => simp [collect]
  | cons kv kvs ih =>
      change k ∈ collect (appendAt m kv.1 kv.2) kvs ↔ _
      rw [ih, mem_appendAt, List.map_cons, List.mem_cons]
      tauto

theorem lookup_collect : ((collect m kvs).lookup k).getD [] =
    (m.lookup k).getD [] ++ valuesOf k kvs := by
  induction kvs generalizing m with
  | nil => simp [collect, valuesOf]
  | cons kv kvs ih =>
      change ((collect (appendAt m kv.1 kv.2) kvs).lookup k).getD [] = _
      rw [ih, lookup_appendAt]
      by_cases hk : kv.1 = k
      · subst hk
        simp [valuesOf]
      · rw [if_neg (Ne.symm hk)]
        simp [valuesOf, hk]

theorem lookup_eq_some_of_mem {m : GoMap κ (List ν)} (h : k ∈ m) :
    m.lookup k = some ((m.lookup k).getD []) := by
  rcases Option.isSome_iff_exists.mp (AList.lookup_isSome.mpr h) with ⟨v, hv⟩
  rw [hv, Option.getD_some]

/-- The values collected for a key that occurs. -/
theorem lookup_collect_empty (h : k ∈ kvs.map Prod.fst) :
    (collect ∅ kvs).lookup k = some (valuesOf k kvs) := by
  rw [lookup_eq_some_of_mem (mem_collect.mpr (.inr h)), lookup_collect]
  simp

theorem mem_range {it : Iteration κ} {m : GoMap κ ν} {e : κ × ν} :
    e ∈ range it m ↔ m.lookup e.1 = some e.2 := by
  unfold range
  rw [List.mem_filterMap]
  constructor
  · rintro ⟨k, -, hk⟩
    rcases Option.map_eq_some_iff.mp hk with ⟨v, hv, rfl⟩
    exact hv
  · intro h
    refine ⟨e.1, (it.perm _).mem_iff.mpr ?_, by rw [h]; rfl⟩
    exact AList.lookup_isSome.mp (by rw [h]; rfl)

theorem range_keys (it : Iteration κ) (m : GoMap κ ν) :
    (range it m).map Prod.fst = it.order m.keys := by
  have hall : ∀ keys : List κ, (∀ k ∈ keys, k ∈ m) →
      (keys.filterMap fun k => (m.lookup k).map (k, ·)).map Prod.fst = keys := by
    intro keys
    induction keys with
    | nil => intro _; rfl
    | cons k keys ih =>
        intro hmem
        have hk := hmem k List.mem_cons_self
        rcases Option.isSome_iff_exists.mp (AList.lookup_isSome.mpr hk) with ⟨v, hv⟩
        rw [List.filterMap_cons, hv]
        simp only [Option.map_some, List.map_cons]
        rw [ih fun k' hk' ↦ hmem k' (List.mem_cons_of_mem _ hk')]
  exact hall _ fun k hk ↦ (it.perm _).mem_iff.mp hk

theorem range_keys_perm (it : Iteration κ) (m : GoMap κ ν) :
    ((range it m).map Prod.fst).Perm m.keys := by
  rw [range_keys]
  exact it.perm _

theorem range_keys_nodup (it : Iteration κ) (m : GoMap κ ν) :
    ((range it m).map Prod.fst).Nodup :=
  (range_keys_perm it m).nodup_iff.mpr m.keys_nodup

end GoMap

end GoLabs.Reasoning
