import Mathlib.Tactic.MkIffOfInductiveProp
import GoLabs.Reasoning.Tables
import GoLabs.MapReduce.Worker

/-!
# The text of an intermediate file

`runMapTask` writes a pair as the line `key:::value`, and `runReduceTask` splits the file at line
ends, trims each line and splits it at `:::`.  A pair comes back as it was exactly if neither part
has a line end or a separator, the key does not end in a colon, and no white space is at the outer
ends.  Whatever the pairs are, a file with a record is never read as empty.
-/

open GoLabs.Reasoning

namespace GoLabs.MapReduce

theorem colon_not_space : ∀ w ∈ spaces, (58 : UInt8) ∉ w := by decide

/-- A line with a colon is not blank. -/
theorem parseLine_ne_nil {line : GoString} {kvs : List (GoString × GoString)}
    (h : parseLine line = some kvs) (hcolon : 58 ∈ line) : kvs ≠ [] := by
  have hne : trimSpace line ≠ [] := List.ne_nil_of_mem (mem_trimSpace colon_not_space hcolon)
  unfold parseLine at h
  dsimp only at h
  rw [if_neg hne] at h
  split at h
  · rw [Option.some.injEq] at h
    rw [← h]
    simp
  · simp at h

/-- A file with a colon in it has a pair, if it can be read at all. -/
theorem parseContent_ne_nil {content : GoString} {kvs : List (GoString × GoString)}
    (h : parseContent content = some kvs) (hcolon : 58 ∈ content) : kvs ≠ [] := by
  have hnl : lit "\n" = [10] := by decide
  rw [parseContent, hnl] at h
  rcases mem_split_singleton (c := 10) (by decide) hcolon with ⟨line, hline, hmem⟩
  rcases Option.map_eq_some_iff.mp h with ⟨parts, hparts, rfl⟩
  rcases mem_of_mapM hparts hline with ⟨part, hpart, hparse⟩
  intro hnil
  exact parseLine_ne_nil hparse hmem (List.flatten_eq_nil_iff.mp hnil part hpart)

theorem colon_mem_mapRecord (kv : KeyValue) : 58 ∈ mapRecord kv := by
  have hsep : 58 ∈ lit ":::" := by decide
  simp [mapRecord, hsep]

/-! ## Round trip -/

/-- The pairs that survive the text of an intermediate file. -/
@[mk_iff]
structure KeyValue.Plain (kv : KeyValue) : Prop where
  key_line : 10 ∉ kv.key
  value_line : 10 ∉ kv.value
  key_space : ∀ w ∈ spaces, ¬ w <+: kv.key
  key_sep : ¬ lit ":::" <:+: kv.key
  key_colon : kv.key.getLast? ≠ some 58
  value_space : ∀ w ∈ spaces, ¬ w <:+ kv.value
  value_sep : ¬ lit ":::" <:+: kv.value

instance (kv : KeyValue) : Decidable kv.Plain := decidable_of_iff _ kv.plain_iff.symm

/-- The separator that `runMapTask` writes is the first one of the line. -/
theorem sep_first {key : GoString} (hsep : ¬ lit ":::" <:+: key)
    (hcolon : key.getLast? ≠ some 58) : ¬ lit ":::" <:+: key ++ (lit ":::").dropLast := by
  have hlit : lit ":::" = [58, 58, 58] := by decide
  rw [hlit] at hsep ⊢
  rintro ⟨u, v, huv⟩
  -- it would have to take a colon from the end of the key
  have hlast : ∀ x, key ≠ x ++ [58] := by
    rintro x rfl
    simp at hcolon
  rcases List.eq_nil_or_concat v with rfl | ⟨v, a, rfl⟩
  · refine hlast u (List.append_cancel_right
      (show key ++ [58, 58] = u ++ [58] ++ [58, 58] from ?_))
    simpa using huv.symm
  · have huv' : u ++ [58, 58, 58] ++ v = key ++ [58] := by
      rw [List.concat_eq_append, ← List.append_assoc,
        show ([58, 58, 58] : GoString).dropLast = [58] ++ [58] from rfl, ← List.append_assoc] at huv
      exact (List.append_inj' huv rfl).1
    rcases List.eq_nil_or_concat v with rfl | ⟨v, b, rfl⟩
    · refine hlast (u ++ [58]) (List.append_cancel_right
        (show key ++ [58] = u ++ [58] ++ [58] ++ [58] from ?_))
      simpa using huv'.symm
    · rw [List.concat_eq_append, ← List.append_assoc] at huv'
      exact hsep ⟨u, v, (List.append_inj' huv' rfl).1⟩

theorem parseLine_record {kv : KeyValue} (h : kv.Plain) :
    parseLine (kv.key ++ lit ":::" ++ kv.value) = some [(kv.key, kv.value)] := by
  have hsep : 58 ∈ lit ":::" := by decide
  have hne : kv.key ++ lit ":::" ++ kv.value ≠ [] := by
    intro hnil
    simp only [List.append_eq_nil_iff] at hnil
    rw [hnil.1.2] at hsep
    simp at hsep
  have hline : kv.key ++ lit ":::" ++ kv.value = kv.key ++ 58 :: ([58, 58] ++ kv.value) := by
    rw [show lit ":::" = [58, 58, 58] by decide]
    simp
  have hline' : kv.key ++ lit ":::" ++ kv.value = (kv.key ++ [58, 58]) ++ 58 :: kv.value := by
    rw [show lit ":::" = [58, 58, 58] by decide]
    simp
  have htrim : trimSpace (kv.key ++ lit ":::" ++ kv.value) = kv.key ++ lit ":::" ++ kv.value := by
    apply trimSpace_eq_self
    · intro w hw
      rw [hline]
      exact not_prefix_append_cons (colon_not_space w hw) (h.key_space w hw)
    · intro w hw
      rw [hline']
      exact not_suffix_append_cons (colon_not_space w hw) (h.value_space w hw)
  unfold parseLine
  dsimp only
  rw [htrim, if_neg hne, split_append (by decide) _ _ (sep_first h.key_sep h.key_colon),
    split_eq_singleton h.value_sep]

/-- Up to the first line end. -/
theorem split_line {line : GoString} (h : 10 ∉ line) (s : GoString) :
    split (line ++ lit "\n" ++ s) (lit "\n") = line :: split s (lit "\n") := by
  have hnl : lit "\n" = [10] := by decide
  apply split_append (by decide)
  rw [hnl]
  intro hin
  exact h (by simpa using hin.subset (List.mem_singleton.mpr rfl))

theorem notMem_line {kv : KeyValue} (hkey : 10 ∉ kv.key) (hvalue : 10 ∉ kv.value) :
    10 ∉ kv.key ++ lit ":::" ++ kv.value := by
  have hsep : (10 : UInt8) ∉ lit ":::" := by decide
  simp [hkey, hvalue, hsep]

theorem parseContent_records {kvs : List KeyValue} (h : ∀ kv ∈ kvs, kv.Plain) :
    parseContent (kvs.flatMap mapRecord) = some (kvs.map fun kv => (kv.key, kv.value)) := by
  unfold parseContent
  suffices hlines : (split (kvs.flatMap mapRecord) (lit "\n")).mapM parseLine =
      some ((kvs.map fun kv => [(kv.key, kv.value)]) ++ [[]]) by
    rw [hlines, Option.map_some, List.flatten_append, ← List.flatMap_def]
    rw [List.flatten_singleton, List.append_nil]
    exact congrArg some (List.flatMap_pure_eq_map _ kvs)
  induction kvs with
  | nil => rfl
  | cons kv kvs ih =>
      have hplain := h kv List.mem_cons_self
      rw [List.flatMap_cons, mapRecord,
        split_line (notMem_line hplain.key_line hplain.value_line), List.mapM_cons,
        parseLine_record hplain, ih fun kv' hkv' ↦ h kv' (List.mem_cons_of_mem _ hkv')]
      rfl

/-! ## The exact domain -/

/-- The pair that a line yields, if it yields one, is cut out of the line. -/
theorem parseLine_cases {line : GoString} {kvs : List (GoString × GoString)}
    (h : parseLine line = some kvs) :
    kvs = [] ∨ ∃ key value t, kvs = [(key, value)] ∧
      trimSpace line = key ++ lit ":::" ++ (value ++ t) ∧
      ¬ lit ":::" <:+: key ++ (lit ":::").dropLast ∧ ¬ lit ":::" <:+: value := by
  unfold parseLine at h
  dsimp only at h
  split at h
  · exact .inl (Option.some.inj h).symm
  · split at h
    · rename_i key value parts hsplit
      obtain ⟨hfirst, rest, hline, hrest⟩ := split_eq_cons_cons (by decide) hsplit
      obtain ⟨t, rfl⟩ := split_head_isPrefix (by decide) hrest
      have hvalue : ¬ lit ":::" <:+: value :=
        not_infix_of_mem_split (by decide) (by rw [hrest]; exact List.mem_cons_self)
      exact .inr ⟨key, value, t, (Option.some.inj h).symm, hline, hfirst, hvalue⟩
    · simp at h

/-- No line end is in what a line yields. -/
theorem line_of_mem_parseContent {content : GoString} {kvs : List (GoString × GoString)}
    (h : parseContent content = some kvs) {e : GoString × GoString} (he : e ∈ kvs) :
    10 ∉ e.1 ∧ 10 ∉ e.2 := by
  have hnl : lit "\n" = [10] := by decide
  rw [parseContent, hnl] at h
  obtain ⟨parts, hparts, rfl⟩ := Option.map_eq_some_iff.mp h
  obtain ⟨part, hpart, he⟩ := List.mem_flatten.mp he
  obtain ⟨line, hline, hparse⟩ := mem_of_mem_mapM hparts hpart
  have hno : 10 ∉ trimSpace line := by
    intro hmem
    obtain ⟨u, v, huv⟩ := List.append_of_mem ((trimSpace_isInfix line).subset hmem)
    exact not_infix_of_mem_split (by decide) hline ⟨u, v, by simp [huv]⟩
  obtain rfl | ⟨key, value, t, rfl, htrim, -⟩ := parseLine_cases hparse
  · simp at he
  · rw [htrim] at hno
    rw [List.mem_singleton.mp he]
    simp only [List.mem_append, not_or] at hno
    exact ⟨hno.1.1, hno.2.1⟩

/-- A record without other line ends is one line. -/
theorem parseContent_record {kv : KeyValue} (hkey : 10 ∉ kv.key) (hvalue : 10 ∉ kv.value) :
    parseContent (mapRecord kv) = parseLine (kv.key ++ lit ":::" ++ kv.value) := by
  have hlines := split_line (notMem_line hkey hvalue) []
  rw [List.append_nil] at hlines
  have hblank : (split [] (lit "\n")).mapM parseLine = some [[]] := by decide
  rw [parseContent, mapRecord, hlines, List.mapM_cons, hblank]
  cases parseLine (kv.key ++ lit ":::" ++ kv.value) with
  | none => rfl
  | some pairs => simp

theorem KeyValue.plain_of_parseContent {kv : KeyValue}
    (h : parseContent (mapRecord kv) = some [(kv.key, kv.value)]) : kv.Plain := by
  obtain ⟨hkey, hvalue⟩ := line_of_mem_parseContent h List.mem_cons_self
  rw [parseContent_record hkey hvalue] at h
  obtain hnil | ⟨key, value, t, hpair, htrim, hfirst, hsep⟩ := parseLine_cases h
  · simp at hnil
  · simp only [List.cons.injEq, Prod.mk.injEq, and_true] at hpair
    obtain ⟨rfl, rfl⟩ := hpair
    -- the trimmed line is not longer than the line, so nothing was trimmed and no part is left over
    have hlen := (trimSpace_isInfix (kv.key ++ lit ":::" ++ kv.value)).length_le
    rw [htrim] at hlen
    simp only [List.length_append] at hlen
    have ht : t = [] := List.eq_nil_of_length_eq_zero (by omega)
    rw [ht, List.append_nil, trimSpace_eq_self_iff] at htrim
    obtain ⟨hleft, hright⟩ := htrim
    refine ⟨hkey, hvalue, ?_, ?_, ?_, ?_, hsep⟩
    · intro w hw hpre
      exact hleft w hw (hpre.trans ⟨lit ":::" ++ kv.value, by simp⟩)
    · exact fun hin ↦ hfirst (hin.trans (List.prefix_append kv.key _).isInfix)
    · intro hlast
      obtain ⟨u, hu⟩ := List.getLast?_eq_some_iff.mp hlast
      exact hfirst ⟨u, [], by rw [hu]; simp [show lit ":::" = [58, 58, 58] by decide]⟩
    · intro w hw hsuf
      exact hright w hw (hsuf.trans (List.suffix_append _ kv.value))

/-- `runReduceTask` reads back the pair that `runMapTask` wrote exactly if the pair is plain, and
from a file of plain pairs the values of every key in their order. -/
theorem line_format_exact :
    (∀ kv : KeyValue, parseContent (mapRecord kv) = some [(kv.key, kv.value)] ↔ kv.Plain) ∧
    ∀ (kvs : List KeyValue) (d : Disk) (file : GoString), (∀ kv ∈ kvs, kv.Plain) →
      d.read file = some (kvs.flatMap mapRecord) →
      ∃ m, readFiles d [file] ∅ = some m ∧ ∀ key, m.lookup key =
        if key ∈ kvs.map KeyValue.key then
          some ((kvs.filter (·.key = key)).map KeyValue.value) else none := by
  constructor
  · intro kv
    refine ⟨KeyValue.plain_of_parseContent, fun h ↦ ?_⟩
    have hall : ∀ kv' ∈ [kv], kv'.Plain := fun kv' hkv' ↦ List.mem_singleton.mp hkv' ▸ h
    simpa using parseContent_records hall
  · intro kvs d file hplain hfile
    refine ⟨GoMap.collect ∅ (kvs.map fun kv => (kv.key, kv.value)), ?_, ?_⟩
    · rw [readFiles, hfile, Option.bind_some, parseContent_records hplain]
      rfl
    · intro key
      have hkeys : (kvs.map fun kv => (kv.key, kv.value)).map Prod.fst = kvs.map KeyValue.key := by
        simp
      split
      · rename_i hmem
        rw [GoMap.lookup_collect_empty (by rwa [hkeys])]
        simp [valuesOf, List.filter_map, Function.comp_def]
      · rename_i hmem
        rw [AList.lookup_eq_none, GoMap.mem_collect, hkeys]
        simp [hmem]

/-- White space inside the line and colons at the start of a value do no harm. -/
def plainPairs : List KeyValue :=
  [⟨lit "a", lit "1"⟩, ⟨lit "b ", lit ":2"⟩, ⟨lit "a", lit " 3"⟩]

theorem line_format_exact_plainPairs :
    (∀ kv ∈ plainPairs, kv.Plain) ∧
    ∃ m, readFiles (Disk.empty.put (lit "m-out-0-0") (plainPairs.flatMap mapRecord))
        [lit "m-out-0-0"] ∅ = some m ∧
      m.lookup (lit "a") = some [lit "1", lit " 3"] ∧ m.lookup (lit "b") = none := by
  have hplain : ∀ kv ∈ plainPairs, kv.Plain := by decide
  obtain ⟨m, hm, hlookup⟩ := line_format_exact.2 plainPairs
    (Disk.empty.put (lit "m-out-0-0") (plainPairs.flatMap mapRecord)) (lit "m-out-0-0") hplain
    (by decide)
  refine ⟨hplain, m, hm, ?_, ?_⟩
  · rw [hlookup]
    decide
  · rw [hlookup]
    decide

end GoLabs.MapReduce
