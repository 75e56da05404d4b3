import Mathlib.Data.List.Infix
import Mathlib.Data.List.Sort
import GoLabs.Reasoning.GoString

/-!
# The string functions of the Go library

`strings.Split`, `strings.Replace`, `strings.TrimSpace`, the pattern language of `filepath.Glob` and
the `%d` verb, on arbitrary byte strings.
-/

namespace GoLabs.Reasoning

/-! ## strings.Split -/

/-- Split `s`, of which the first `skip` bytes belong to a separator already found. -/
def splitFrom (sep : GoString) : Nat → GoString → List GoString
  | _, [] => [[]]
  | skip + 1, _ :: s => splitFrom sep skip s
  | 0, b :: s =>
      if sep.isPrefixOf (b :: s) then [] :: splitFrom sep (sep.length - 1) s
      else (splitFrom sep 0 s).modifyHead (b :: ·)

/-- `strings.Split` for a separator that is not empty. -/
def split (s sep : GoString) : List GoString := splitFrom sep 0 s

theorem splitFrom_ne_nil (sep : GoString) (skip : Nat) (s : GoString) :
    splitFrom sep skip s ≠ [] := by
  induction s generalizing skip with
  | nil => cases skip <;> simp [splitFrom]
  | cons b s ih =>
      cases skip with
      | succ skip => exact ih skip
      | zero =>
          unfold splitFrom
          split
          · simp
          · cases hs : splitFrom sep 0 s with
            | nil => exact absurd hs (ih 0)
            | cons p ps => simp

theorem split_ne_nil (s sep : GoString) : split s sep ≠ [] := splitFrom_ne_nil sep 0 s

theorem splitFrom_eq_split_drop (sep : GoString) (skip : Nat) (s : GoString) :
    splitFrom sep skip s = split (s.drop skip) sep := by
  induction s generalizing skip with
  | nil => cases skip <;> simp [splitFrom, split]
  | cons b s ih =>
      cases skip with
      | zero => rfl
      | succ skip => exact ih skip

theorem split_starts {sep : GoString} (hsep : sep ≠ []) (s : GoString) :
    split (sep ++ s) sep = [] :: split s sep := by
  cases sep with
  | nil => exact absurd rfl hsep
  | cons c sep =>
      have hpre : (c :: sep).isPrefixOf (c :: (sep ++ s)) = true :=
        List.isPrefixOf_iff_prefix.mpr ⟨s, rfl⟩
      rw [split, List.cons_append, splitFrom, if_pos hpre, splitFrom_eq_split_drop]
      simp

theorem split_cons_of_not_starts {sep : GoString} {b : UInt8} {s : GoString}
    (h : ¬ sep <+: b :: s) : split (b :: s) sep = (split s sep).modifyHead (b :: ·) := by
  rw [split, splitFrom, if_neg]
  · rfl
  · rwa [List.isPrefixOf_iff_prefix]

/-- Up to the first separator. -/
theorem split_append {sep : GoString} (hsep : sep ≠ []) (u s : GoString)
    (hfirst : ¬ sep <:+: u ++ sep.dropLast) : split (u ++ sep ++ s) sep = u :: split s sep := by
  induction u with
  | nil => exact split_starts hsep s
  | cons b u ih =>
      have hnot : ¬ sep <+: b :: (u ++ sep ++ s) := by
        intro hpre
        apply hfirst
        -- the separator would end within the first byte of the one that follows
        have hlen : sep.length ≤ (b :: u ++ sep.dropLast).length := by
          have hpos := List.length_pos_iff.mpr hsep
          simp only [List.cons_append, List.length_cons, List.length_append, List.length_dropLast]
          omega
        have hcut : b :: u ++ sep.dropLast <+: b :: (u ++ sep ++ s) := by
          rw [List.cons_append, List.append_assoc]
          refine List.prefix_cons_inj b |>.mpr (List.prefix_append_right_inj u |>.mpr ?_)
          exact (List.dropLast_prefix sep).trans (List.prefix_append sep s)
        exact (List.prefix_of_prefix_length_le hpre hcut hlen).isInfix
      have hrest : ¬ sep <:+: u ++ sep.dropLast :=
        fun h ↦ hfirst (h.trans (List.suffix_cons b _).isInfix)
      rw [List.cons_append, List.cons_append, split_cons_of_not_starts hnot, ih hrest]
      rfl

theorem split_eq_singleton {sep : GoString} {s : GoString} (h : ¬ sep <:+: s) :
    split s sep = [s] := by
  induction s with
  | nil => rfl
  | cons b s ih =>
      have hnot : ¬ sep <+: b :: s := fun hpre ↦ h hpre.isInfix
      have hrest : ¬ sep <:+: s := fun hin ↦ h (hin.trans (List.suffix_cons b s).isInfix)
      rw [split_cons_of_not_starts hnot, ih hrest]
      rfl

/-- The first part of a split ends where the separator first occurs. -/
theorem split_eq_cons_cons {sep : GoString} (hsep : sep ≠ []) {s p q : GoString}
    {rest : List GoString} (h : split s sep = p :: q :: rest) :
    ¬ sep <:+: p ++ sep.dropLast ∧ ∃ t, s = p ++ sep ++ t ∧ split t sep = q :: rest := by
  induction s generalizing p with
  | nil => simp [split, splitFrom] at h
  | cons b s ih =>
      by_cases hpre : sep <+: b :: s
      · obtain ⟨t, ht⟩ := hpre
        rw [← ht, split_starts hsep, List.cons.injEq] at h
        obtain ⟨rfl, h⟩ := h
        refine ⟨?_, t, by simp [ht], h⟩
        intro hin
        have hlen := hin.length_le
        have hpos := List.length_pos_iff.mpr hsep
        simp only [List.nil_append, List.length_dropLast] at hlen
        omega
      · rw [split_cons_of_not_starts hpre] at h
        obtain ⟨p', hs, rfl⟩ : ∃ p', split s sep = p' :: q :: rest ∧ p = b :: p' := by
          cases hs : split s sep with
          | nil => exact absurd hs (split_ne_nil s sep)
          | cons p' parts =>
              rw [hs, List.modifyHead_cons, List.cons.injEq] at h
              exact ⟨p', by rw [h.2], h.1.symm⟩
        obtain ⟨hfirst, t, rfl, ht⟩ := ih hs
        refine ⟨?_, t, rfl, ht⟩
        intro hin
        obtain hhere | hlater := List.infix_cons_iff.mp hin
        · apply hpre
          refine hhere.trans ((List.prefix_cons_inj b).mpr ?_)
          rw [List.append_assoc]
          exact (List.prefix_append_right_inj p').mpr
            ((List.dropLast_prefix sep).trans (List.prefix_append sep t))
        · exact hfirst hlater

theorem split_eq_singleton_iff {sep : GoString} (hsep : sep ≠ []) {s p : GoString} :
    split s sep = [p] ↔ p = s ∧ ¬ sep <:+: s := by
  constructor
  · intro h
    induction s generalizing p with
    | nil =>
        refine ⟨by simpa [split, splitFrom, eq_comm] using h, ?_⟩
        rwa [List.infix_nil]
    | cons b s ih =>
        by_cases hpre : sep <+: b :: s
        · obtain ⟨t, ht⟩ := hpre
          rw [← ht, split_starts hsep, List.cons.injEq] at h
          exact absurd h.2 (split_ne_nil t sep)
        · rw [split_cons_of_not_starts hpre] at h
          obtain ⟨p', hs, rfl⟩ : ∃ p', split s sep = [p'] ∧ p = b :: p' := by
            cases hs : split s sep with
            | nil => exact absurd hs (split_ne_nil s sep)
            | cons p' parts =>
                rw [hs, List.modifyHead_cons, List.cons.injEq] at h
                exact ⟨p', by rw [h.2], h.1.symm⟩
          obtain ⟨rfl, hrest⟩ := ih hs
          refine ⟨rfl, fun hin ↦ ?_⟩
          exact (List.infix_cons_iff.mp hin).elim hpre hrest
  · rintro ⟨hp, hnot⟩
    rw [hp, split_eq_singleton hnot]

/-- No part of a split has the separator in it. -/
theorem not_infix_of_mem_split {sep : GoString} (hsep : sep ≠ []) {s p : GoString}
    (h : p ∈ split s sep) : ¬ sep <:+: p := by
  generalize hparts : split s sep = parts at h
  induction parts generalizing s with
  | nil => simp at h
  | cons q parts ih =>
      cases parts with
      | nil =>
          obtain ⟨rfl, hnot⟩ := (split_eq_singleton_iff hsep).mp hparts
          rwa [List.mem_singleton.mp h]
      | cons r parts =>
          obtain ⟨hfirst, t, -, ht⟩ := split_eq_cons_cons hsep hparts
          obtain rfl | hmem := List.mem_cons.mp h
          · exact fun hin ↦ hfirst (hin.trans (List.prefix_append p _).isInfix)
          · exact ih ht hmem

theorem split_head_isPrefix {sep : GoString} (hsep : sep ≠ []) {s p : GoString}
    {parts : List GoString} (h : split s sep = p :: parts) : p <+: s := by
  cases parts with
  | nil =>
      obtain ⟨rfl, -⟩ := (split_eq_singleton_iff hsep).mp h
      exact List.prefix_rfl
  | cons q parts =>
      obtain ⟨-, t, rfl, -⟩ := split_eq_cons_cons hsep h
      rw [List.append_assoc]
      exact List.prefix_append p _

/-- With a separator of one byte, `strings.Split` is `List.splitOn`. -/
theorem split_singleton (s : GoString) (b : UInt8) : split s [b] = s.splitOn b := by
  induction s with
  | nil => rfl
  | cons c s ih =>
      rw [List.splitOn_eq_splitOnP, List.splitOnP_cons_eq_if_modifyHead,
        ← List.splitOn_eq_splitOnP, ← ih]
      by_cases hcb : c = b
      · subst hcb
        simpa using split_starts (show [c] ≠ [] by simp) s
      · rw [if_neg (by simpa using hcb)]
        apply split_cons_of_not_starts
        intro hpre
        exact hcb (List.cons_prefix_cons.mp hpre).1.symm

/-- Splitting loses the separators only. -/
theorem mem_split_singleton {b c : UInt8} (hbc : b ≠ c) {s : GoString} (h : b ∈ s) :
    ∃ p ∈ split s [c], b ∈ p := by
  induction s with
  | nil => simp at h
  | cons a s ih =>
      by_cases hac : a = c
      · subst hac
        rw [show a :: s = [a] ++ s from rfl, split_starts (by simp)]
        rcases List.mem_cons.mp h with rfl | h
        · exact absurd rfl hbc
        · rcases ih h with ⟨p, hp, hb⟩
          exact ⟨p, List.mem_cons_of_mem _ hp, hb⟩
      · rw [split_cons_of_not_starts fun hpre ↦ hac (List.cons_prefix_cons.mp hpre).1.symm]
        cases hs : split s [c] with
        | nil => exact absurd hs (split_ne_nil s [c])
        | cons q qs =>
            rw [List.modifyHead_cons]
            rcases List.mem_cons.mp h with rfl | h
            · exact ⟨b :: q, by simp, by simp⟩
            · rcases ih h with ⟨p, hp, hb⟩
              rw [hs] at hp
              rcases List.mem_cons.mp hp with rfl | hp
              · exact ⟨a :: p, by simp, List.mem_cons_of_mem _ hb⟩
              · exact ⟨p, List.mem_cons_of_mem _ hp, hb⟩

/-! ## strings.Replace -/

/-- `strings.Replace` with the count `-1`. -/
def replaceAll (s old new : GoString) : GoString := new.intercalate (split s old)

/-- A text in front of a string that does not contain it is removed. -/
theorem replaceAll_starts {old : GoString} (hold : old ≠ []) {s : GoString} (h : ¬ old <:+: s) :
    replaceAll (old ++ s) old [] = s := by
  rw [replaceAll, split_starts hold, split_eq_singleton h]
  simp [List.intercalate]

/-! ## strings.TrimSpace -/

/-- A word without the byte `b` does not reach over it. -/
theorem not_prefix_append_cons {w u v : GoString} {b : UInt8} (hb : b ∉ w) (h : ¬ w <+: u) :
    ¬ w <+: u ++ b :: v := by
  intro hw
  have hu : u ++ [b] <+: u ++ b :: v := ⟨v, by simp⟩
  rcases List.prefix_or_prefix_of_prefix hw hu with hwu | huw
  · rcases List.prefix_concat_iff.mp hwu with rfl | hwu
    · exact hb (by simp)
    · exact h hwu
  · exact hb (huw.subset (by simp))

theorem not_suffix_append_cons {w u v : GoString} {b : UInt8} (hb : b ∉ w) (h : ¬ w <:+ v) :
    ¬ w <:+ u ++ b :: v := by
  intro hw
  rcases List.suffix_or_suffix_of_suffix hw (List.suffix_append u (b :: v)) with hwv | hvw
  · rcases List.suffix_cons_iff.mp hwv with rfl | hwv
    · exact hb (by simp)
    · exact h hwv
  · exact hb (hvw.subset (by simp))

/-- The encodings of the runes of `unicode.IsSpace`. -/
def spaces : List GoString :=
  [[0x09], [0x0a], [0x0b], [0x0c], [0x0d], [0x20], [0xc2, 0x85], [0xc2, 0xa0], [0xe1, 0x9a, 0x80],
   [0xe2, 0x80, 0x80], [0xe2, 0x80, 0x81], [0xe2, 0x80, 0x82], [0xe2, 0x80, 0x83],
   [0xe2, 0x80, 0x84], [0xe2, 0x80, 0x85], [0xe2, 0x80, 0x86], [0xe2, 0x80, 0x87],
   [0xe2, 0x80, 0x88], [0xe2, 0x80, 0x89], [0xe2, 0x80, 0x8a], [0xe2, 0x80, 0xa8],
   [0xe2, 0x80, 0xa9], [0xe2, 0x80, 0xaf], [0xe2, 0x81, 0x9f], [0xe3, 0x80, 0x80]]

/-- Drop words of `ws` from the front of `s`, of which `skip` bytes belong to one already found. -/
def trimFrom (ws : List GoString) : Nat → GoString → GoString
  | _, [] => []
  | skip + 1, _ :: s => trimFrom ws skip s
  | 0, b :: s =>
      match ws.find? (·.isPrefixOf (b :: s)) with
      | some w => trimFrom ws (w.length - 1) s
      | none => b :: s

def trimSpace (s : GoString) : GoString :=
  (trimFrom (spaces.map List.reverse) 0 (trimFrom spaces 0 s).reverse).reverse

theorem trimFrom_eq_self {ws : List GoString} {s : GoString} (h : ∀ w ∈ ws, ¬ w <+: s) :
    trimFrom ws 0 s = s := by
  cases s with
  | nil => rfl
  | cons b s =>
      have hnone : ws.find? (·.isPrefixOf (b :: s)) = none := by
        rw [List.find?_eq_none]
        intro w hw hpre
        exact h w hw (List.isPrefixOf_iff_prefix.mp hpre)
      rw [trimFrom, hnone]

theorem trimSpace_eq_self {s : GoString} (hleft : ∀ w ∈ spaces, ¬ w <+: s)
    (hright : ∀ w ∈ spaces, ¬ w <:+ s) : trimSpace s = s := by
  rw [trimSpace, trimFrom_eq_self hleft, trimFrom_eq_self, List.reverse_reverse]
  intro w hw
  rcases List.mem_map.mp hw with ⟨v, hv, rfl⟩
  rw [List.reverse_prefix]
  exact hright v hv

theorem trimFrom_eq_drop (ws : List GoString) (skip : Nat) (s : GoString) :
    trimFrom ws skip s = trimFrom ws 0 (s.drop skip) := by
  induction s generalizing skip with
  | nil => cases skip <;> rfl
  | cons b s ih =>
      cases skip with
      | zero => rfl
      | succ skip => exact ih skip

theorem trimFrom_suffix (ws : List GoString) (skip : Nat) (s : GoString) :
    trimFrom ws skip s <:+ s := by
  induction s generalizing skip with
  | nil => cases skip <;> exact List.suffix_rfl
  | cons b s ih =>
      cases skip with
      | succ skip => exact (ih skip).trans (List.suffix_cons b s)
      | zero =>
          rw [trimFrom]
          split
          · exact (ih _).trans (List.suffix_cons b s)
          · exact List.suffix_rfl

theorem trimFrom_eq_self_iff {ws : List GoString} (hws : [] ∉ ws) {s : GoString} :
    trimFrom ws 0 s = s ↔ ∀ w ∈ ws, ¬ w <+: s := by
  refine ⟨?_, trimFrom_eq_self⟩
  intro h w hw hpre
  cases s with
  | nil => exact hws (List.prefix_nil.mp hpre ▸ hw)
  | cons b s =>
      -- a word at the front is dropped, and nothing comes back
      rw [trimFrom] at h
      split at h
      · rename_i v hfind
        have hlen := (trimFrom_suffix ws (v.length - 1) s).length_le
        rw [h, List.length_cons] at hlen
        omega
      · rename_i hnone
        rw [List.find?_eq_none] at hnone
        exact hnone w hw (List.isPrefixOf_iff_prefix.mpr hpre)

theorem trimSpace_isInfix (s : GoString) : trimSpace s <:+: s := by
  have hright := trimFrom_suffix (spaces.map List.reverse) 0 (trimFrom spaces 0 s).reverse
  rw [← List.reverse_prefix, List.reverse_reverse] at hright
  exact hright.isInfix.trans (trimFrom_suffix spaces 0 s).isInfix

theorem trimSpace_eq_self_iff {s : GoString} :
    trimSpace s = s ↔ (∀ w ∈ spaces, ¬ w <+: s) ∧ ∀ w ∈ spaces, ¬ w <:+ s := by
  refine ⟨?_, fun h ↦ trimSpace_eq_self h.1 h.2⟩
  intro h
  have hright := trimFrom_suffix (spaces.map List.reverse) 0 (trimFrom spaces 0 s).reverse
  have hleft := trimFrom_suffix spaces 0 s
  -- both trims keep the length
  have hlen := congrArg List.length h
  rw [trimSpace, List.length_reverse] at hlen
  have hle := hright.length_le
  rw [hlen, List.length_reverse] at hle
  have hself := hleft.eq_of_length_le hle
  rw [trimSpace, hself, List.reverse_eq_iff] at h
  refine ⟨(trimFrom_eq_self_iff (by decide)).mp hself, fun w hw ↦ ?_⟩
  have hnot := (trimFrom_eq_self_iff (by decide)).mp h w.reverse (List.mem_map_of_mem hw)
  rwa [List.reverse_prefix] at hnot

/-- A byte of `s` that is in no word of `ws` is not dropped. -/
theorem mem_trimFrom {ws : List GoString} (hws : [] ∉ ws) {b : UInt8} (hb : ∀ w ∈ ws, b ∉ w)
    (s : GoString) (h : b ∈ s) : b ∈ trimFrom ws 0 s := by
  -- on the length of what is left, since a word may have several bytes
  induction hn : s.length using Nat.strong_induction_on generalizing s with
  | _ n ih =>
      cases s with
      | nil => simp at h
      | cons c s =>
          rw [trimFrom]
          cases hfind : ws.find? (·.isPrefixOf (c :: s)) with
          | none => exact h
          | some w =>
              have hw := List.mem_of_find?_eq_some hfind
              have hpre := List.isPrefixOf_iff_prefix.mp (List.find?_some
                (p := fun w => List.isPrefixOf w (c :: s)) hfind)
              rcases w with - | ⟨a, w⟩
              · exact absurd hw hws
              · rcases hpre with ⟨u, hu⟩
                rw [List.cons_append, List.cons.injEq] at hu
                rcases hu with ⟨rfl, rfl⟩
                dsimp only
                rw [trimFrom_eq_drop]
                simp only [List.length_cons, Nat.add_sub_cancel, List.drop_left]
                refine ih u.length ?_ u ?_ rfl
                · simp only [← hn, List.length_cons, List.length_append]
                  omega
                · have hno := hb _ hw
                  simp only [List.mem_cons, List.mem_append, not_or] at h hno
                  rcases h with rfl | h | h
                  · exact absurd rfl hno.1
                  · exact absurd h hno.2
                  · exact h

theorem mem_trimSpace {b : UInt8} (hb : ∀ w ∈ spaces, b ∉ w) {s : GoString} (h : b ∈ s) :
    b ∈ trimSpace s := by
  rw [trimSpace, List.mem_reverse]
  apply mem_trimFrom (by decide)
  · intro w hw
    rcases List.mem_map.mp hw with ⟨v, hv, rfl⟩
    rw [List.mem_reverse]
    exact hb v hv
  · rw [List.mem_reverse]
    exact mem_trimFrom (by decide) hb s h

/-! ## filepath.Glob -/

/-- `filepath.Match` for patterns whose only special byte is `*`, which stands for any bytes other
than `/`. -/
def globMatch : GoString → GoString → Bool
  | [], s => s.isEmpty
  | p :: ps, s =>
      if p = 42 then
        -- the star ends here or takes one more byte
        starMatch (globMatch ps) s
      else s.head? = some p && globMatch ps s.tail
where
  starMatch (rest : GoString → Bool) : GoString → Bool
    | [] => rest []
    | b :: s => rest (b :: s) || (b ≠ 47 && starMatch rest s)

/-- A pattern that starts with bytes that stand for themselves. -/
theorem globMatch_append {u : GoString} (hu : 42 ∉ u) (ps s : GoString) :
    globMatch (u ++ ps) s = true ↔ ∃ t, s = u ++ t ∧ globMatch ps t = true := by
  induction u generalizing s with
  | nil => simp
  | cons c u ih =>
      rw [List.mem_cons, not_or] at hu
      rw [List.cons_append, globMatch, if_neg (Ne.symm hu.1)]
      cases s with
      | nil => simp
      | cons b s =>
          rw [Bool.and_eq_true, decide_eq_true_eq, List.tail_cons, ih hu.2, List.head?_cons,
            Option.some.injEq]
          constructor
          · rintro ⟨rfl, t, rfl, ht⟩
            exact ⟨t, rfl, ht⟩
          · rintro ⟨t, heq, ht⟩
            rw [List.cons_append, List.cons.injEq] at heq
            exact ⟨heq.1, t, heq.2, ht⟩

theorem globMatch_star (ps s : GoString) :
    globMatch (42 :: ps) s = true ↔ ∃ u t, s = u ++ t ∧ 47 ∉ u ∧ globMatch ps t = true := by
  rw [globMatch, if_pos rfl]
  induction s with
  | nil => simp [globMatch.starMatch]
  | cons b s ih =>
      rw [globMatch.starMatch, Bool.or_eq_true, Bool.and_eq_true, decide_eq_true_eq, ih]
      constructor
      · rintro (hhere | ⟨hb, u, t, rfl, hu, ht⟩)
        · exact ⟨[], b :: s, rfl, by simp, hhere⟩
        · exact ⟨b :: u, t, rfl, by simp [hu, Ne.symm hb], ht⟩
      · rintro ⟨u, t, heq, hu, ht⟩
        cases u with
        | nil => exact .inl (by rw [heq]; exact ht)
        | cons c u =>
            rw [List.cons_append, List.cons.injEq] at heq
            rw [List.mem_cons, not_or] at hu
            exact .inr ⟨by rw [heq.1]; exact Ne.symm hu.1, u, t, heq.2, hu.2, ht⟩

/-! ## The `%d` verb -/

/-- A natural number in decimal. -/
def dec (n : Nat) : GoString := (Nat.toDigits 10 n).map fun c => c.toNat.toUInt8

theorem mem_dec {n : Nat} {b : UInt8} (h : b ∈ dec n) : 48 ≤ b ∧ b ≤ 57 := by
  rcases List.mem_map.mp h with ⟨c, hc, rfl⟩
  have hd := Nat.isDigit_of_mem_toDigits (by decide) (by decide) hc
  rw [Char.isDigit, Bool.and_eq_true, decide_eq_true_eq, decide_eq_true_eq] at hd
  rcases hd with ⟨hlo, hhi⟩
  have hlo' : 48 ≤ c.toNat := hlo
  have hhi' : c.toNat ≤ 57 := hhi
  rw [UInt8.le_iff_toNat_le, UInt8.le_iff_toNat_le, Nat.toUInt8_eq, UInt8.toNat_ofNat']
  constructor
  · change 48 ≤ c.toNat % 256
    omega
  · change c.toNat % 256 ≤ 57
    omega

theorem dec_injective : Function.Injective dec := by
  intro n m h
  have hinj : ∀ c ∈ Nat.toDigits 10 n, ∀ d ∈ Nat.toDigits 10 m,
      c.toNat.toUInt8 = d.toNat.toUInt8 → c = d := by
    intro c hc d hd hcd
    have hcd' := congrArg UInt8.toNat hcd
    have hc' := Nat.isDigit_of_mem_toDigits (by decide) (by decide) hc
    have hd' := Nat.isDigit_of_mem_toDigits (by decide) (by decide) hd
    rw [Char.isDigit, Bool.and_eq_true, decide_eq_true_eq, decide_eq_true_eq] at hc' hd'
    have h1 : c.toNat ≤ 57 := hc'.2
    have h2 : d.toNat ≤ 57 := hd'.2
    rw [Nat.toUInt8_eq, Nat.toUInt8_eq, UInt8.toNat_ofNat', UInt8.toNat_ofNat'] at hcd'
    apply Char.toNat_inj.mp
    omega
  have hlist : Nat.toDigits 10 n = Nat.toDigits 10 m := by
    apply List.ext_getElem
    · simpa [dec] using congrArg List.length h
    · intro i hi hj
      apply hinj _ (List.getElem_mem hi) _ (List.getElem_mem hj)
      have hget := congrArg (fun l ↦ l[i]?) h
      simpa [dec, hi, hj] using hget
  rw [← Nat.ofDigitChars_toDigits (b := 10) (n := n) (by decide) (by decide), hlist,
    Nat.ofDigitChars_toDigits (by decide) (by decide)]

end GoLabs.Reasoning
