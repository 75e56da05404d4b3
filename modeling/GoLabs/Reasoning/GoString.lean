import Mathlib.Data.List.Basic

/-! Go strings: arbitrary byte sequences, compared byte by byte. -/

namespace GoLabs.Reasoning

abbrev GoString := List UInt8

instance lawfulBEqGoString : LawfulBEq GoString := inferInstance

/-- The bytes of a string literal of the Go source. -/
def lit (s : String) : GoString := s.toUTF8.data.toList

/-- An encoding of the values of one type, such as `encoding/json` or `labgob` give it. -/
structure Codec (α : Type) where
  marshal : α → GoString
  unmarshal : GoString → Option α
  round : ∀ a, unmarshal (marshal a) = some a

theorem Codec.marshal_inj {α : Type} (J : Codec α) {a b : α} (h : J.marshal a = J.marshal b) :
    a = b := by
  have hround := J.round a
  rw [h, J.round, Option.some.injEq] at hround
  exact hround.symm

end GoLabs.Reasoning
