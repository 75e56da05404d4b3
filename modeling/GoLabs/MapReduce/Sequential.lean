import Mathlib.Data.List.Sort
import GoLabs.Reasoning.Grouping
import GoLabs.MapReduce.Worker

/-!
# The sequential program

`main/mrsequential.go`: all pairs in one slice, sorted by key, and one pass over the slice that
hands every stretch of equal keys to `reducef`.
-/

open GoLabs.Reasoning

namespace GoLabs.MapReduce

/-- `sort.Sort(ByKey(...))`, which is not stable: any rearrangement that is sorted by key. -/
structure SortByKey where
  sort : List KeyValue → List KeyValue
  perm : ∀ kvs, (sort kvs).Perm kvs
  sorted : ∀ kvs, (sort kvs).Pairwise fun a b => a.key ≤ b.key

/-- One of them keeps pairs with equal keys in their order. -/
def SortByKey.stable : SortByKey :=
  have : Std.Total fun a b : KeyValue => a.key ≤ b.key := ⟨fun a b ↦ List.le_total a.key b.key⟩
  have : IsTrans KeyValue fun a b => a.key ≤ b.key := ⟨fun _ _ _ h h' ↦ List.le_trans h h'⟩
  { sort := List.insertionSort fun a b => a.key ≤ b.key
    perm := List.perm_insertionSort _
    sorted := List.pairwise_insertionSort _ }

def KeyValue.pair (kv : KeyValue) : GoString × GoString := (kv.key, kv.value)

/-- The first loop: the pairs of all input files, or `none` where a file cannot be opened. -/
def readInputs (mapf : GoString → GoString → List KeyValue) (d : Disk) :
    List GoString → List KeyValue → Option (List KeyValue)
  | [], intermediate => some intermediate
  | filename :: files, intermediate =>
      match d.read filename with
      | none => none
      | some content => readInputs mapf d files (intermediate ++ mapf filename content)

/-- The second loop, inside a stretch of pairs with the key `key`. -/
def scanFrom (key : GoString) (values : List GoString) :
    List KeyValue → List (GoString × List GoString)
  | [] => [(key, values)]
  | kv :: rest =>
      if kv.key = key then scanFrom key (values ++ [kv.value]) rest
      else (key, values) :: scanFrom kv.key [kv.value] rest

/-- The keys with the values that `reducef` gets. -/
def scan : List KeyValue → List (GoString × List GoString)
  | [] => []
  | kv :: rest => scanFrom kv.key [kv.value] rest

/-- What the program writes to `mr-out-0`, one string for each call of `Fprintf`. -/
def sequential (mapf : GoString → GoString → List KeyValue)
    (reducef : GoString → List GoString → GoString) (byKey : SortByKey) (files : List GoString)
    (d : Disk) : Option (List GoString) :=
  (readInputs mapf d files []).map fun intermediate =>
    (scan (byKey.sort intermediate)).map fun e => reduceRecord e.1 (reducef e.1 e.2)

theorem readInputs_eq {mapf : GoString → GoString → List KeyValue} {d : Disk}
    {files : List GoString} (h : ∀ f ∈ files, d.read f ≠ none) (kvs : List KeyValue) :
    readInputs mapf d files kvs =
      some (kvs ++ files.flatMap fun f => mapf f ((d.read f).getD [])) := by
  induction files generalizing kvs with
  | nil => simp [readInputs]
  | cons f files ih =>
      rcases Option.ne_none_iff_exists'.mp (h f List.mem_cons_self) with ⟨content, hcontent⟩
      rw [readInputs, hcontent]
      dsimp only
      rw [ih fun g hg ↦ h g (List.mem_cons_of_mem _ hg), List.flatMap_cons, hcontent,
        Option.getD_some, List.append_assoc]

/-- In a sorted slice a key does not come back once its stretch has ended. -/
theorem scanFrom_grouping {key : GoString} {values : List GoString} {rest : List KeyValue}
    (hvalues : values ≠ []) (hkey : ∀ kv ∈ rest, key ≤ kv.key)
    (hsorted : rest.Pairwise fun a b => a.key ≤ b.key) :
    Grouping (values.map (key, ·) ++ rest.map KeyValue.pair) (scanFrom key values rest) := by
  induction rest generalizing key values with
  | nil => exact Grouping.nil.cons hvalues (by simp)
  | cons kv rest ih =>
      rw [List.pairwise_cons] at hsorted
      rw [scanFrom]
      split
      · rename_i heq
        have hnext := ih (show values ++ [kv.value] ≠ [] by simp)
          (fun kv' hkv' ↦ hkey kv' (List.mem_cons_of_mem _ hkv')) hsorted.2
        simpa [KeyValue.pair, heq] using hnext
      · rename_i hne
        have hnext := ih (show [kv.value] ≠ [] by simp) hsorted.1 hsorted.2
        refine hnext.cons hvalues ?_
        rw [List.map_append, List.mem_append]
        rintro (hmem | hmem)
        · simp only [List.map_cons, List.map_nil, List.mem_singleton] at hmem
          exact hne hmem.symm
        · rw [List.map_map] at hmem
          rcases List.mem_map.mp hmem with ⟨kv', hkv', rfl⟩
          exact hne (List.le_antisymm (hsorted.1 kv' hkv') (hkey kv List.mem_cons_self))

/-- The scan of the sorted slice hands every key to `reducef` once, with all its values. -/
theorem scan_grouping (byKey : SortByKey) (kvs : List KeyValue) :
    Grouping (kvs.map KeyValue.pair) (scan (byKey.sort kvs)) := by
  have hscan : ∀ l : List KeyValue, (l.Pairwise fun a b => a.key ≤ b.key) →
      Grouping (l.map KeyValue.pair) (scan l) := by
    intro l hl
    cases l with
    | nil => exact Grouping.nil
    | cons kv rest =>
        rw [List.pairwise_cons] at hl
        exact scanFrom_grouping (show [kv.value] ≠ [] by simp) hl.1 hl.2
  exact (hscan _ (byKey.sorted kvs)).of_perm ((byKey.perm kvs).map _)

end GoLabs.MapReduce
