import GoLabs.LabGob
import GoLabs.MapReduce.Finished

/-!
# Word count and the index

The applications `mrapps/wc.go` and `mrapps/indexer.go`.  Both split a file into words with
`strings.FieldsFunc`, at the runes that are not letters.  A word survives the text of the
intermediate files whatever the bytes of the input are, so what the distributed program writes can
be said outright: for every word that occurs, how often it does, and in which documents.
-/

open GoLabs.Reasoning
open GoLabs.LabGob (decodeRune firstByte runeError within)

namespace GoLabs.MapReduce

/-! ## strings.FieldsFunc -/

/-- The width that `utf8.DecodeRuneInString` returns. -/
def runeWidth : GoString → Nat
  | [] => 0
  | b₀ :: s =>
      if b₀ < 0x80 then 1
      else
        match firstByte b₀, s with
        | some (2, lo, hi), b₁ :: _ => if within lo hi b₁ then 2 else 1
        | some (3, lo, hi), b₁ :: b₂ :: _ =>
            if within lo hi b₁ && within 0x80 0xBF b₂ then 3 else 1
        | some (4, lo, hi), b₁ :: b₂ :: b₃ :: _ =>
            if within lo hi b₁ && within 0x80 0xBF b₂ && within 0x80 0xBF b₃ then 4 else 1
        | _, _ => 1

/-- The runes that a `range` over the string gives, with their bytes; `skip` bytes belong to the one
before. -/
def runesFrom : Nat → GoString → List (Nat × GoString)
  | _, [] => []
  | skip + 1, _ :: s => runesFrom skip s
  | 0, b :: s =>
      (decodeRune (b :: s), (b :: s).take (runeWidth (b :: s))) ::
        runesFrom (runeWidth (b :: s) - 1) s

/-- The loop of `FieldsFunc`, with the bytes of the field that it is in. -/
def fieldsFrom (f : Nat → Bool) : GoString → List (Nat × GoString) → List GoString
  | field, [] => if field = [] then [] else [field]
  | field, (r, bytes) :: rest =>
      if f r then
        if field = [] then fieldsFrom f [] rest else field :: fieldsFrom f [] rest
      else fieldsFrom f (field ++ bytes) rest

def fieldsFunc (s : GoString) (f : Nat → Bool) : List GoString := fieldsFrom f [] (runesFrom 0 s)

/-! ## The applications -/

/-- `unicode.IsLetter`.  No space is a letter, no colon and no byte that is not UTF-8. -/
structure Letters where
  isLetter : Nat → Bool
  space : ∀ w ∈ spaces, isLetter (decodeRune w) = false
  colon : isLetter 58 = false
  error : isLetter runeError = false

namespace Letters

variable (U : Letters)

/-- The words of a file. -/
def words (contents : GoString) : List GoString := fieldsFunc contents fun r => !U.isLetter r

end Letters

namespace Wc

/-- `Map` of `mrapps/wc.go`. -/
def map (U : Letters) (_ contents : GoString) : List KeyValue :=
  (U.words contents).map fun w => ⟨w, lit "1"⟩

/-- `Reduce` of `mrapps/wc.go`. -/
def reduce (_ : GoString) (values : List GoString) : GoString := dec values.length

end Wc

namespace Indexer

/-- `Map` of `mrapps/indexer.go`, which ranges over the map of the words. -/
def map (U : Letters) (it : Iteration GoString) (document value : GoString) : List KeyValue :=
  let m : GoMap GoString Bool := (U.words value).foldl (fun m w => m.insert w true) ∅
  (m.range it).map fun e => ⟨e.1, document⟩

/-- `Reduce` of `mrapps/indexer.go`; `sort.Strings` sorts by bytes. -/
def reduce (_ : GoString) (values : List GoString) : GoString :=
  dec values.length ++ lit " " ++ (lit ",").intercalate (values.insertionSort (· ≤ ·))

end Indexer

/-! ## Words -/

/-- The bytes of a letter: they are decoded as one wherever they stand, and only a letter of one
byte has a byte below 128. -/
structure Letters.Chunk (U : Letters) (w : GoString) : Prop where
  nonempty : w ≠ []
  decoded : ∃ r, U.isLetter r = true ∧ ∀ t, decodeRune (w ++ t) = r
  small : ∀ b ∈ w, b < 0x80 → U.isLetter b.toNat = true

theorem firstByte_bounds {b lo hi : UInt8} {n : Nat} (h : firstByte b = some (n, lo, hi)) :
    0x80 ≤ lo := by
  unfold firstByte at h
  repeat' split at h
  all_goals cases h
  all_goals decide

theorem within_ge {lo hi b : UInt8} (hlo : 0x80 ≤ lo) (h : within lo hi b = true) : 0x80 ≤ b := by
  simp only [within, Bool.and_eq_true, decide_eq_true_eq] at h
  exact UInt8.le_trans hlo h.1

theorem decodeRune_cases (b : UInt8) (s : GoString) :
    decodeRune (b :: s) = runeError ∨
      ∃ w rest, b :: s = w ++ rest ∧ w ≠ [] ∧ runeWidth (b :: s) = w.length ∧
        (∀ t, decodeRune (w ++ t) = decodeRune (b :: s)) ∧
        ∀ x ∈ w, x < 0x80 → decodeRune (b :: s) = x.toNat := by
  by_cases hb : b < 0x80
  · have hdecode : ∀ t, decodeRune (b :: t) = b.toNat := by
      intro t
      unfold decodeRune
      exact if_pos hb
    refine .inr ⟨[b], s, rfl, by simp, ?_, ?_, ?_⟩
    · unfold runeWidth
      exact if_pos hb
    · intro t
      rw [List.singleton_append, hdecode, hdecode]
    · intro x hx _
      rw [List.mem_singleton.mp hx, hdecode]
  · -- a longer sequence has no byte below 0x80, so the last clause is void
    have hnot : ∀ {w : GoString}, (∀ x ∈ w, 0x80 ≤ x) → ∀ x ∈ b :: w, x < 0x80 →
        decodeRune (b :: s) = x.toNat := by
      intro w hw x hx hlt
      obtain rfl | hx := List.mem_cons.mp hx
      · exact absurd hlt hb
      · exact absurd hlt (UInt8.not_lt.mpr (hw x hx))
    unfold decodeRune at *
    simp only [if_neg hb] at *
    -- two, three or four bytes, by the first one
    split
    · rename_i lo hi b₁ rest hfirst
      have hlo := firstByte_bounds hfirst
      by_cases h₁ : within lo hi b₁ = true
      · refine .inr ⟨[b, b₁], rest, rfl, by simp, ?_, ?_, ?_⟩
        · simp [runeWidth, hb, hfirst, h₁]
        · intro t
          simp [hb, hfirst, h₁]
        · have hge : ∀ x ∈ [b₁], 0x80 ≤ x := by simpa using within_ge hlo h₁
          simpa [hfirst, h₁] using hnot hge
      · exact .inl (if_neg h₁)
    · rename_i lo hi b₁ b₂ rest hfirst
      have hlo := firstByte_bounds hfirst
      by_cases h₂ : (within lo hi b₁ && within 0x80 0xBF b₂) = true
      · obtain ⟨hw₁, hw₂⟩ := (Bool.and_eq_true _ _).mp h₂
        have hge : ∀ x ∈ [b₁, b₂], 0x80 ≤ x := by
          simpa using ⟨within_ge hlo hw₁, within_ge (by decide) hw₂⟩
        refine .inr ⟨[b, b₁, b₂], rest, rfl, by simp, ?_, ?_, ?_⟩
        · simp [runeWidth, hb, hfirst, hw₁, hw₂]
        · intro t
          simp [hb, hfirst, hw₁, hw₂]
        · simpa [hfirst, hw₁, hw₂] using hnot hge
      · exact .inl (if_neg h₂)
    · rename_i lo hi b₁ b₂ b₃ rest hfirst
      have hlo := firstByte_bounds hfirst
      by_cases h₃ : (within lo hi b₁ && within 0x80 0xBF b₂ && within 0x80 0xBF b₃) = true
      · obtain ⟨h₂, hw₃⟩ := (Bool.and_eq_true _ _).mp h₃
        obtain ⟨hw₁, hw₂⟩ := (Bool.and_eq_true _ _).mp h₂
        have hge : ∀ x ∈ [b₁, b₂, b₃], 0x80 ≤ x := by
          simpa using ⟨within_ge hlo hw₁, within_ge (by decide) hw₂, within_ge (by decide) hw₃⟩
        refine .inr ⟨[b, b₁, b₂, b₃], rest, rfl, by simp, ?_, ?_, ?_⟩
        · simp [runeWidth, hb, hfirst, hw₁, hw₂, hw₃]
        · intro t
          simp [hb, hfirst, hw₁, hw₂, hw₃]
        · simpa [hfirst, hw₁, hw₂, hw₃] using hnot hge
      · exact .inl (if_neg h₃)
    · exact .inl rfl

/-- What `FieldsFunc` makes of the runes of a string: the fields are made of letters. -/
def Letters.Word (U : Letters) (w : GoString) : Prop :=
  w ≠ [] ∧ ∃ chunks : List GoString, (∀ c ∈ chunks, U.Chunk c) ∧ w = chunks.flatten

theorem Letters.chunk_of_runesFrom (U : Letters) {skip : Nat} {s : GoString} {e : Nat × GoString}
    (he : e ∈ runesFrom skip s) (hletter : U.isLetter e.1 = true) : U.Chunk e.2 := by
  induction s generalizing skip with
  | nil => cases skip <;> simp [runesFrom] at he
  | cons b s ih =>
      cases skip with
      | succ skip => exact ih he
      | zero =>
          rw [runesFrom] at he
          obtain rfl | he := List.mem_cons.mp he
          · obtain herror | ⟨w, rest, hsplit, hne, hwidth, hdecode, hsmall⟩ := decodeRune_cases b s
            · rw [herror, U.error] at hletter
              cases hletter
            · have htake : (b :: s).take (runeWidth (b :: s)) = w := by
                rw [hwidth, hsplit, List.take_left]
              rw [htake]
              refine ⟨hne, ⟨_, hletter, hdecode⟩, ?_⟩
              intro x hx hlt
              rw [← hsmall x hx hlt]
              exact hletter
          · exact ih he

theorem Letters.words_of_fieldsFrom (U : Letters) {runes : List (Nat × GoString)}
    (hrunes : ∀ e ∈ runes, U.isLetter e.1 = true → U.Chunk e.2) {field : GoString}
    (hfield : ∃ chunks : List GoString, (∀ c ∈ chunks, U.Chunk c) ∧ field = chunks.flatten) :
    ∀ w ∈ fieldsFrom (fun r => !U.isLetter r) field runes, U.Word w := by
  induction runes generalizing field with
  | nil =>
      intro w hw
      rw [fieldsFrom] at hw
      split at hw
      · cases hw
      · rename_i hne
        rw [List.mem_singleton.mp hw]
        exact ⟨hne, hfield⟩
  | cons e runes ih =>
      obtain ⟨r, bytes⟩ := e
      obtain ⟨hhead, hrest⟩ := List.forall_mem_cons.mp hrunes
      have hnil : ∃ chunks : List GoString, (∀ c ∈ chunks, U.Chunk c) ∧ [] = chunks.flatten :=
        ⟨[], by simp⟩
      intro w hw
      rw [fieldsFrom] at hw
      split at hw
      · split at hw
        · exact ih hrest hnil w hw
        · rename_i hne
          obtain rfl | hw := List.mem_cons.mp hw
          · exact ⟨hne, hfield⟩
          · exact ih hrest hnil w hw
      · rename_i hletter
        obtain ⟨chunks, hchunks, rfl⟩ := hfield
        refine ih hrest ⟨chunks ++ [bytes], ?_, by simp⟩ w hw
        intro c hc
        obtain hc | hc := List.mem_append.mp hc
        · exact hchunks c hc
        · rw [List.mem_singleton.mp hc]
          exact hhead (by simpa using hletter)

theorem Letters.words_word (U : Letters) (contents : GoString) :
    ∀ w ∈ U.words contents, U.Word w :=
  U.words_of_fieldsFrom (fun _ he hletter ↦ U.chunk_of_runesFrom he hletter) ⟨[], by simp⟩

/-- A byte of a word that stands for itself is a letter. -/
theorem Letters.Word.letter {U : Letters} {w : GoString} (h : U.Word w) {b : UInt8} (hb : b ∈ w)
    (hlt : b < 0x80) : U.isLetter b.toNat = true := by
  obtain ⟨_, chunks, hchunks, rfl⟩ := h
  obtain ⟨c, hc, hbc⟩ := List.mem_flatten.mp hb
  exact (hchunks c hc).small b hbc hlt

theorem Letters.Word.decoded {U : Letters} {w : GoString} (h : U.Word w) :
    U.isLetter (decodeRune w) = true := by
  obtain ⟨hne, chunks, hchunks, rfl⟩ := h
  cases chunks with
  | nil => exact absurd rfl hne
  | cons c chunks =>
      obtain ⟨r, hr, hdecode⟩ := (hchunks c List.mem_cons_self).decoded
      rw [List.flatten_cons, hdecode]
      exact hr

/-- Bytes that are one rune are decoded as it wherever they stand. -/
theorem decodeRune_append {w : GoString} (hvalid : decodeRune w ≠ runeError)
    (hwidth : runeWidth w = w.length) (t : GoString) : decodeRune (w ++ t) = decodeRune w := by
  cases w with
  | nil => exact absurd rfl hvalid
  | cons b s =>
      obtain herror | ⟨u, rest, hsplit, _, hlength, hdecode, _⟩ := decodeRune_cases b s
      · exact absurd herror hvalid
      · have hrest : rest = [] := by
          have htotal := congrArg List.length hsplit
          rw [List.length_append, ← hlength, hwidth] at htotal
          exact List.length_eq_zero_iff.mp (by omega)
        rw [hrest, List.append_nil] at hsplit
        rw [hsplit, hdecode, ← hsplit]

theorem decodeRune_space : ∀ w ∈ spaces, decodeRune w ≠ runeError ∧ runeWidth w = w.length := by
  decide

/-- A word can be written to an intermediate file. -/
theorem Letters.Word.plain {U : Letters} {w value : GoString} (h : U.Word w)
    (hline : 10 ∉ value) (hspace : ∀ u ∈ spaces, ¬ u <:+ value) (hsep : ¬ lit ":::" <:+: value) :
    (⟨w, value⟩ : KeyValue).Plain := by
  have hcolon : 58 ∉ w := by
    intro hmem
    have hletter := h.letter hmem (by decide)
    rw [show (58 : UInt8).toNat = 58 from rfl, U.colon] at hletter
    cases hletter
  have hnewline : 10 ∉ w := by
    intro hmem
    have hletter := h.letter hmem (by decide)
    have hspace := U.space [0x0a] (by decide)
    rw [show decodeRune [0x0a] = (10 : UInt8).toNat from rfl, hletter] at hspace
    cases hspace
  refine ⟨hnewline, hline, ?_, ?_, ?_, hspace, hsep⟩
  · rintro u hu ⟨t, rfl⟩
    have hletter := h.decoded
    obtain ⟨hvalid, hwidth⟩ := decodeRune_space u hu
    rw [decodeRune_append hvalid hwidth, U.space u hu] at hletter
    cases hletter
  · intro hsub
    exact hcolon (hsub.subset (by decide))
  · intro hlast
    exact hcolon (List.mem_of_getLast? hlast)

theorem Wc.map_plain (U : Letters) (file contents : GoString) :
    ∀ kv ∈ Wc.map U file contents, kv.Plain := by
  intro kv hkv
  obtain ⟨w, hw, rfl⟩ := List.mem_map.mp hkv
  exact (U.words_word contents w hw).plain (by decide) (by decide) (by decide)

/-! ## What the distributed program writes -/

/-- The words of all input files. -/
def Letters.allWords (U : Letters) (d₀ : Disk) (inputs : List GoString) : List GoString :=
  inputs.flatMap fun f => U.words ((d₀.read f).getD [])

/-- The input files that have the word. -/
def Letters.documents (U : Letters) (d₀ : Disk) (inputs : List GoString) (w : GoString) :
    List GoString := inputs.filter fun f => w ∈ U.words ((d₀.read f).getD [])

theorem Wc.allPairs_eq (U : Letters) (d₀ : Disk) (inputs : List GoString) :
    (allPairs (Wc.map U) d₀ inputs).map KeyValue.pair =
      (U.allWords d₀ inputs).map fun w => (w, lit "1") := by
  rw [allPairs, Letters.allWords, List.map_flatMap, List.map_flatMap]
  apply List.flatMap_congr
  intro f _
  rw [pairsOf, Wc.map, List.map_map]
  rfl

/-- Every letter set, every list of input files with any bytes in them, every number of reducers and
of workers, every order of their operations, crashes and time-outs in which the attempts at one
reducer id keep out of each other's way: when `Done` has returned true, there is one line for every
word of the input files, in the file of its reducer, and it has the number of its occurrences. -/
theorem wordCount_exact (U : Letters) {inputs : List GoString} {nReduce : Nat} {d₀ : Disk} {s : Job}
    (hclean : Job.CleanDir d₀) (hfresh : d₀.renames = []) (hinputs : ∀ f ∈ inputs, ¬ Reserved f)
    (h : Reaches (restrict (Job.step (.pure inputs nReduce (Wc.map U) Wc.reduce)) Job.undisturbed)
      (Job.init (.pure inputs nReduce (Wc.map U) Wc.reduce) d₀) s)
    {now : Nat → Int} {c : Coordinator} {e : Disk}
    (hdone : s.coord.done Disk.os s.disk now = (c, e, true)) :
    (∀ r text, e.read (reduceFileName r) = some text → ∃ ws : List GoString, ws.Nodup ∧
      (∀ w, w ∈ ws ↔ w ∈ U.allWords d₀ inputs ∧ r = dec (ihash w % nReduce)) ∧
      text = ws.flatMap fun w => reduceRecord w (dec ((U.allWords d₀ inputs).count w))) ∧
    ∀ w ∈ U.allWords d₀ inputs, e.read (reduceFileName (dec (ihash w % nReduce))) ≠ none := by
  obtain ⟨mapf, hmapf, hout⟩ := Job.outputs_of_done hclean hfresh hinputs rfl
    (fun _ _ _ hperm ↦ congrArg dec hperm.length_eq) (.inl fun _ _ ↦ rfl)
    (fun _ f _ content ↦ Wc.map_plain U f content) h hdone
  obtain rfl : mapf = Wc.map U := by
    funext f content
    exact (hmapf f content).choose_spec
  have hkeys : ((U.allWords d₀ inputs).map fun w => (w, lit "1")).map Prod.fst =
      U.allWords d₀ inputs := by
    rw [List.map_map]
    exact List.map_id _
  change Outputs Wc.reduce nReduce ((allPairs (Wc.map U) d₀ inputs).map KeyValue.pair) e at hout
  rw [Wc.allPairs_eq] at hout
  refine ⟨?_, by simpa only [hkeys] using hout.present⟩
  intro r text htext
  obtain ⟨ws, hnodup, hmem, rfl⟩ := hout.lines r text htext
  rw [hkeys] at hmem
  refine ⟨ws, hnodup, hmem, ?_⟩
  apply List.flatMap_congr
  intro w _
  rw [Wc.reduce, valuesOf_map_const, List.length_replicate]

/-- The letters of ASCII. -/
def Letters.ascii : Letters where
  isLetter r := (65 ≤ r && r ≤ 90) || (97 ≤ r && r ≤ 122)
  space := by decide
  colon := by decide
  error := by decide

/-- Word count over a file with one word twice. -/
def wcTwice : JobSpec := .pure [lit "a"] 2 (Wc.map .ascii) Wc.reduce

def wcDisk : Disk := Disk.empty.put (lit "a") (lit "x, x")

theorem cleanDir_of_keys {d : Disk}
    (h : ∀ name ∈ d.files.keys, ¬ Reserved name ∧ ¬ lit "mr-out-" <+: name) : Job.CleanDir d := by
  have hkey : ∀ name, d.read name ≠ none → name ∈ d.files.keys := fun name hne ↦
    AList.lookup_isSome.mp (Option.isSome_iff_ne_none.mpr hne)
  constructor
  · intro name hres
    by_contra hne
    exact (h name (hkey name hne)).1 hres
  · intro r
    by_contra hne
    exact (h _ (hkey _ hne)).2 ⟨r, rfl⟩

theorem wcDisk_clean : Job.CleanDir wcDisk := by
  apply cleanDir_of_keys
  unfold Reserved
  decide

theorem done_eq {x : Coordinator × Disk × Bool} (h : x.2.2 = true) : x = (x.1, x.2.1, true) := by
  rw [← h]

theorem wcTwice_runs : (run (restrict (Job.step wcTwice) Job.undisturbed)
    (Job.init wcTwice wcDisk) slowReducerEnd).isSome = true := by decide

theorem wordCount_exact_twice :
    ∃ s c e, run (restrict (Job.step wcTwice) Job.undisturbed) (Job.init wcTwice wcDisk)
        slowReducerEnd = some s ∧ s.coord.done Disk.os s.disk (fun _ => 30) = (c, e, true) ∧
      e.read (lit "mr-out-1") = some (lit "x 2\n") ∧
      Letters.ascii.allWords wcDisk [lit "a"] = [lit "x", lit "x"] ∧
      ∀ w ∈ Letters.ascii.allWords wcDisk [lit "a"],
        e.read (reduceFileName (dec (ihash w % 2))) ≠ none := by
  have hdone : (Coordinator.done Disk.os (((run (restrict (Job.step wcTwice) Job.undisturbed)
      (Job.init wcTwice wcDisk) slowReducerEnd).get wcTwice_runs).coord)
      (((run (restrict (Job.step wcTwice) Job.undisturbed)
      (Job.init wcTwice wcDisk) slowReducerEnd).get wcTwice_runs).disk)
      fun _ => 30).2.2 = true := by decide
  refine ⟨_, _, _, (Option.some_get wcTwice_runs).symm, done_eq hdone, by decide, by decide, ?_⟩
  exact (wordCount_exact .ascii wcDisk_clean rfl (by unfold Reserved; decide)
    (reaches_get wcTwice_runs) (done_eq hdone)).2

namespace Indexer

/-- One pair for every word of the document. -/
theorem map_keys (U : Letters) (it : Iteration GoString) (document value : GoString) :
    ∃ keys : List GoString, keys.Nodup ∧ (∀ w, w ∈ keys ↔ w ∈ U.words value) ∧
      Indexer.map U it document value = keys.map (⟨·, document⟩) := by
  refine ⟨(GoMap.range it ((U.words value).foldl (fun m w => m.insert w true) ∅)).map Prod.fst,
    GoMap.range_keys_nodup it _, ?_, ?_⟩
  · intro w
    rw [(GoMap.range_keys_perm it _).mem_iff, GoMap.mem_keys_foldl_insert]
    simp
  · rw [List.map_map]
    rfl

theorem map_plain (U : Letters) (it : Iteration GoString) {document : GoString}
    (hline : 10 ∉ document) (hspace : ∀ u ∈ spaces, ¬ u <:+ document)
    (hsep : ¬ lit ":::" <:+: document) (value : GoString) :
    ∀ kv ∈ Indexer.map U it document value, kv.Plain := by
  obtain ⟨keys, -, hmem, heq⟩ := map_keys U it document value
  intro kv hkv
  rw [heq] at hkv
  obtain ⟨w, hw, rfl⟩ := List.mem_map.mp hkv
  exact (U.words_word value w ((hmem w).mp hw)).plain hline hspace hsep

theorem valuesOf_map (U : Letters) (it : Iteration GoString) (document value w : GoString) :
    valuesOf w ((Indexer.map U it document value).map KeyValue.pair) =
      if w ∈ U.words value then [document] else [] := by
  obtain ⟨keys, hnodup, hmem, heq⟩ := map_keys U it document value
  rw [heq, List.map_map]
  change valuesOf w (keys.map fun u => (u, document)) = _
  rw [valuesOf_map_const, hnodup.count]
  by_cases hw : w ∈ U.words value
  · rw [if_pos ((hmem w).mpr hw), if_pos hw]
    rfl
  · rw [if_neg (mt (hmem w).mp hw), if_neg hw]
    rfl

end Indexer

/-- The index, with input files whose names survive the text of the intermediate files.  `Map`
ranges over a map, so that two attempts at one file may emit the words in different orders. -/
theorem index_exact (U : Letters) {inputs : List GoString} {nReduce : Nat}
    {it : Nat → Iteration GoString} {d₀ : Disk} {s : Job}
    (hclean : Job.CleanDir d₀) (hfresh : d₀.renames = []) (hinputs : ∀ f ∈ inputs, ¬ Reserved f)
    (hnodup : inputs.Nodup)
    (hnames : ∀ f ∈ inputs, 10 ∉ f ∧ (∀ u ∈ spaces, ¬ u <:+ f) ∧ ¬ lit ":::" <:+: f)
    (h : Reaches (restrict (Job.step ⟨inputs, nReduce, fun n => Indexer.map U (it n),
        fun _ => Indexer.reduce⟩) Job.undisturbed)
      (Job.init ⟨inputs, nReduce, fun n => Indexer.map U (it n), fun _ => Indexer.reduce⟩ d₀) s)
    {now : Nat → Int} {c : Coordinator} {e : Disk}
    (hdone : s.coord.done Disk.os s.disk now = (c, e, true)) :
    (∀ r text, e.read (reduceFileName r) = some text → ∃ ws : List GoString, ws.Nodup ∧
      (∀ w, w ∈ ws ↔ U.documents d₀ inputs w ≠ [] ∧ r = dec (ihash w % nReduce)) ∧
      text = ws.flatMap fun w => reduceRecord w (dec (U.documents d₀ inputs w).length ++ lit " " ++
        (lit ",").intercalate ((U.documents d₀ inputs w).insertionSort (· ≤ ·)))) ∧
    ∀ w, U.documents d₀ inputs w ≠ [] →
      e.read (reduceFileName (dec (ihash w % nReduce))) ≠ none := by
  have horder : ∀ key vs vs', vs.Perm vs' → Indexer.reduce key vs = Indexer.reduce key vs' := by
    intro key vs vs' hperm
    rw [Indexer.reduce, Indexer.reduce, hperm.length_eq, insertionSort_of_perm hperm]
  have hplain : ∀ n, ∀ f ∈ inputs, ∀ content, ∀ kv ∈ Indexer.map U (it n) f content, kv.Plain := by
    intro n f hf
    obtain ⟨hline, hspace, hsep⟩ := hnames f hf
    exact Indexer.map_plain U (it n) hline hspace hsep
  obtain ⟨mapf, hmapf, hout⟩ := Job.outputs_of_done hclean hfresh hinputs rfl horder (.inr hnodup)
    hplain h hdone
  -- whichever attempt committed, a file gives its words and each of them the file
  have hvalues : ∀ w, valuesOf w ((allPairs mapf d₀ inputs).map KeyValue.pair) =
      U.documents d₀ inputs w := by
    intro w
    rw [allPairs, List.map_flatMap, valuesOf_flatMap, Letters.documents, ← flatMap_ite_singleton]
    apply List.flatMap_congr
    intro f _
    obtain ⟨n, hn⟩ := hmapf f ((d₀.read f).getD [])
    rw [pairsOf, hn]
    exact Indexer.valuesOf_map U (it n) f _ w
  have hkeys : ∀ w, w ∈ ((allPairs mapf d₀ inputs).map KeyValue.pair).map Prod.fst ↔
      U.documents d₀ inputs w ≠ [] := by
    intro w
    rw [← hvalues, valuesOf, Ne, List.map_eq_nil_iff, List.filter_eq_nil_iff]
    simp
  refine ⟨?_, fun w hw ↦ hout.present w ((hkeys w).mpr hw)⟩
  intro r text htext
  obtain ⟨ws, hws, hmem, rfl⟩ := hout.lines r text htext
  refine ⟨ws, hws, fun w ↦ by rw [hmem, hkeys], ?_⟩
  apply List.flatMap_congr
  intro w _
  rw [hvalues, Indexer.reduce]

/-- The index of two files.  The second map task ranges over the words backwards. -/
def indexTwo : JobSpec :=
  ⟨[lit "a", lit "b"], 1,
    fun n => Indexer.map .ascii (if n = 0 then .stored _ else ⟨List.reverse, List.reverse_perm⟩),
    fun _ => Indexer.reduce⟩

def indexDisk : Disk :=
  (Disk.empty.put (lit "a") (lit "x, x")).put (lit "b") (lit "y x")

theorem indexDisk_clean : Job.CleanDir indexDisk := by
  apply cleanDir_of_keys
  unfold Reserved
  decide

def oneIndexer : List JobAction :=
  [.registerWorker true, .getTask 0 0] ++ goOn 0 4 ++ [.taskDone 0 (.stored _), .getTask 0 0] ++
  goOn 0 6 ++ [.taskDone 0 (.stored _), .getTask 0 0] ++ goOn 0 8 ++
  [.taskDone 0 (.stored _), .heartbeat 0, .stopRunning ⟨0, 1⟩]

theorem oneIndexer_runs : (run (restrict (Job.step indexTwo) Job.undisturbed)
    (Job.init indexTwo indexDisk) oneIndexer).isSome = true := by decide

theorem index_exact_two :
    ∃ s c e, run (restrict (Job.step indexTwo) Job.undisturbed) (Job.init indexTwo indexDisk)
        oneIndexer = some s ∧ s.coord.done Disk.os s.disk (fun _ => 5) = (c, e, true) ∧
      e.read (lit "mr-out-0") = some (lit "x 2 a,b\ny 1 b\n") ∧
      Letters.ascii.documents indexDisk [lit "a", lit "b"] (lit "x") = [lit "a", lit "b"] ∧
      e.read (reduceFileName (dec (ihash (lit "x") % 1))) ≠ none := by
  have hdone : (Coordinator.done Disk.os (((run (restrict (Job.step indexTwo) Job.undisturbed)
      (Job.init indexTwo indexDisk) oneIndexer).get oneIndexer_runs).coord)
      (((run (restrict (Job.step indexTwo) Job.undisturbed)
      (Job.init indexTwo indexDisk) oneIndexer).get oneIndexer_runs).disk)
      fun _ => 5).2.2 = true := by decide
  refine ⟨_, _, _, (Option.some_get oneIndexer_runs).symm, done_eq hdone, by decide, by decide, ?_⟩
  exact (index_exact .ascii indexDisk_clean rfl (by unfold Reserved; decide) (by decide) (by decide)
    (reaches_get oneIndexer_runs) (done_eq hdone)).2 (lit "x") (by decide)

end GoLabs.MapReduce
