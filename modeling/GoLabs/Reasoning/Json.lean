import GoLabs.Reasoning.Strings

/-!
# JSON texts

The text that `json.Marshal` gives for numbers, slices and structs, and a reader of just these
texts.  A format reads its own text off the front of a longer one, if no digit follows; so formats
can be put together, and one that is read to the end is a codec.
-/

namespace GoLabs.Reasoning

variable {α β : Type}

def isDigit (b : UInt8) : Bool := 48 ≤ b && b ≤ 57

/-- What follows is not a part of the same number. -/
def Ends (s : GoString) : Prop := ∀ b ∈ s.head?, isDigit b = false

theorem ends_nil : Ends [] := by simp [Ends]

theorem ends_cons {b : UInt8} {s : GoString} (hb : isDigit b = false) : Ends (b :: s) := by
  simpa [Ends] using hb

/-- Read a text that is known. -/
def strip : GoString → GoString → Option GoString
  | [], s => some s
  | _ :: _, [] => none
  | a :: l, b :: s => if a = b then strip l s else none

@[simp] theorem strip_append (l s : GoString) : strip l (l ++ s) = some s := by
  induction l with
  | nil => rfl
  | cons a l ih => simp [strip, ih]

structure Format (α : Type) where
  write : α → GoString
  read : GoString → Option (α × GoString)
  round : ∀ a rest, Ends rest → read (write a ++ rest) = some (a, rest)
  /-- A slice that has an element does not end at once. -/
  begins : ∀ a rest, strip (lit "]") (write a ++ rest) = none

namespace Format

def codec (F : Format α) : Codec α where
  marshal := F.write
  unmarshal s :=
    match F.read s with
    | some (a, []) => some a
    | _ => none
  round a := by
    have hread := F.round a [] ends_nil
    rw [List.append_nil] at hread
    rw [hread]

/-- The same text for another type. -/
def map (F : Format α) (f : α → β) (g : β → α) (hfg : ∀ b, f (g b) = b) : Format β where
  write b := F.write (g b)
  read s := (F.read s).map fun p => (f p.1, p.2)
  round b rest hrest := by
    rw [F.round _ _ hrest, Option.map_some, hfg]
  begins b rest := F.begins (g b) rest

/-! ## Numbers -/

/-- The value of a sequence of digits. -/
def value (digits : GoString) : Nat := digits.foldl (fun n b => 10 * n + (b.toNat - 48)) 0

theorem value_dec (n : Nat) : value (dec n) = n := by
  have hdigit : ∀ c ∈ Nat.toDigits 10 n, c.toNat.toUInt8.toNat = c.toNat := by
    intro c hc
    have hd := Nat.isDigit_of_mem_toDigits (by decide) (by decide) hc
    rw [Char.isDigit, Bool.and_eq_true, decide_eq_true_eq, decide_eq_true_eq] at hd
    have hle : c.toNat ≤ 57 := hd.2
    rw [Nat.toUInt8_eq, UInt8.toNat_ofNat', Nat.mod_eq_of_lt (by omega)]
  calc value (dec n)
      = (Nat.toDigits 10 n).foldl (fun n c => 10 * n + (c.toNat.toUInt8.toNat - 48)) 0 := by
        rw [value, dec, List.foldl_map]
    _ = Nat.ofDigitChars 10 (Nat.toDigits 10 n) 0 := by
        rw [Nat.ofDigitChars]
        exact List.foldl_ext _ _ _ fun k c hc ↦ by rw [hdigit c hc]; rfl
    _ = n := Nat.ofDigitChars_toDigits (by decide) (by decide)

theorem isDigit_of_mem_dec {n : Nat} {b : UInt8} (h : b ∈ dec n) : isDigit b = true := by
  obtain ⟨hlo, hhi⟩ := mem_dec h
  simp [isDigit, hlo, hhi]

theorem takeWhile_of_ends {s : GoString} (h : Ends s) :
    s.takeWhile isDigit = [] ∧ s.dropWhile isDigit = s := by
  cases s with
  | nil => exact ⟨rfl, rfl⟩
  | cons b s =>
      have hb : isDigit b = false := h b rfl
      simp [hb]

def number : Format Nat where
  write := dec
  read s :=
    match s.takeWhile isDigit with
    | [] => none
    | digits => some (value digits, s.dropWhile isDigit)
  round n rest hrest := by
    obtain ⟨htake, hdrop⟩ := takeWhile_of_ends hrest
    have hdigits : ∀ b ∈ dec n, isDigit b = true := fun b hb ↦ isDigit_of_mem_dec hb
    have hne : dec n ≠ [] := by simp [dec, Nat.toDigits_ne_nil]
    rw [List.takeWhile_append_of_pos hdigits, List.dropWhile_append_of_pos hdigits, htake, hdrop,
      List.append_nil]
    split
    · contradiction
    · rw [value_dec]
  begins n rest := by
    cases hdec : dec n with
    | nil => simp [dec, Nat.toDigits_ne_nil] at hdec
    | cons b s =>
        have hb : 93 ≠ b := by
          rintro rfl
          have hdigit := isDigit_of_mem_dec (n := n) (hdec ▸ List.mem_cons_self)
          cases hdigit
        exact if_neg hb

/-! ## Structs of two fields -/

/-- `{"f":a,"g":b}` -/
def object (f g : GoString) (F : Format α) (G : Format β) : Format (α × β) where
  write p := lit "\x7b\"" ++ (f ++ (lit "\":" ++ (F.write p.1 ++ (lit ",\"" ++ (g ++ (lit "\":" ++
    (G.write p.2 ++ lit "\x7d")))))))
  read s := do
    let s ← strip (lit "\x7b\"") s
    let s ← strip f s
    let (a, s) ← strip (lit "\":") s >>= F.read
    let s ← strip (lit ",\"") s
    let s ← strip g s
    let (b, s) ← strip (lit "\":") s >>= G.read
    let s ← strip (lit "\x7d") s
    return ((a, b), s)
  round p rest _ := by
    obtain ⟨a, b⟩ := p
    have hcomma : ∀ s, Ends (lit ",\"" ++ s) := fun s ↦ ends_cons (by decide)
    have hbrace : Ends (lit "\x7d" ++ rest) := ends_cons (by decide)
    simp [List.append_assoc, F.round _ _ (hcomma _), G.round _ _ hbrace]
  begins _ _ := rfl

/-! ## Slices -/

/-- The elements after the first one. -/
def writeMore (F : Format α) : List α → GoString
  | [] => lit "]"
  | a :: l => lit "," ++ (F.write a ++ writeMore F l)

/-- `fuel` bounds the number of elements. -/
def readMore (F : Format α) : Nat → GoString → Option (List α × GoString)
  | 0, _ => none
  | fuel + 1, s =>
      match strip (lit "]") s with
      | some s => some ([], s)
      | none => do
          let (a, s) ← strip (lit ",") s >>= F.read
          let (l, s) ← readMore F fuel s
          return (a :: l, s)

theorem ends_writeMore (F : Format α) (l : List α) (rest : GoString) :
    Ends (writeMore F l ++ rest) := by
  cases l <;> exact ends_cons (by decide)

theorem readMore_writeMore (F : Format α) (l : List α) {fuel : Nat} (hfuel : l.length < fuel)
    (rest : GoString) : readMore F fuel (writeMore F l ++ rest) = some (l, rest) := by
  induction l generalizing fuel with
  | nil =>
      obtain ⟨k, rfl⟩ := Nat.exists_eq_succ_of_ne_zero (Nat.ne_of_gt hfuel)
      simp [readMore, writeMore]
  | cons a l ih =>
      obtain ⟨k, rfl⟩ := Nat.exists_eq_succ_of_ne_zero (Nat.ne_of_gt (Nat.zero_lt_of_lt hfuel))
      have hcomma : strip (lit "]") (writeMore F (a :: l) ++ rest) = none := rfl
      rw [readMore, hcomma, writeMore]
      simp [List.append_assoc, F.round _ _ (ends_writeMore F l rest),
        ih (Nat.lt_of_succ_lt_succ hfuel)]

theorem length_le_writeMore (F : Format α) (l : List α) : l.length < (writeMore F l).length := by
  induction l with
  | nil => exact Nat.zero_lt_one
  | cons a l ih =>
      rw [writeMore, List.length_append, List.length_append, List.length_cons]
      have hone : (lit ",").length = 1 := by decide
      omega

def slice (F : Format α) : Format (List α) where
  write
    | [] => lit "[]"
    | a :: l => lit "[" ++ (F.write a ++ writeMore F l)
  read s := do
    let s ← strip (lit "[") s
    match strip (lit "]") s with
    | some s => return ([], s)
    | none =>
        let (a, s) ← F.read s
        let (l, s) ← readMore F s.length s
        return (a :: l, s)
  round l rest _ := by
    cases l with
    | nil => rfl
    | cons a l =>
        have hfuel : l.length < (writeMore F l ++ rest).length := by
          rw [List.length_append]
          exact Nat.lt_add_right _ (length_le_writeMore F l)
        simp only [List.append_assoc, strip_append, F.begins, F.round _ _ (ends_writeMore F l rest),
          readMore_writeMore F l hfuel, Option.bind_eq_bind, Option.bind_some, Option.pure_def]
  begins l _ := by cases l <;> rfl

end Format

end GoLabs.Reasoning
