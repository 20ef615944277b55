import Mathlib.Algebra.Group.Nat.Defs
import Mathlib.Data.List.Basic
import ShellInliner.Text.Utf8

/-! # Decoding

    Decoding gives a text back just where the bytes are those of the text.  A
    character of several bytes is a first byte and the last digits of its number to
    the base 64, one digit a byte; the first byte says how many they are and, by the
    range of the next one, which numbers are too small for so many bytes, too large,
    or halves of a pair. -/

namespace ShellInliner.Text

/-! ### Bytes of texts -/

namespace Begun

variable {s : Begun} {b : UInt8} {v k : Nat}

/-- The character after one more byte. -/
def next (s : Begun) (k : Nat) (b : UInt8) : Begun :=
  { s with seen := s.seen + 1, more := k, least := 0x80, greatest := 0xBF
           bits := s.bits * 64 + (b.toNat - 0x80) }

end Begun

section

variable {s : Begun} {b : UInt8} {p v k : Nat} {bytes : List UInt8} {cs : List Char}

theorem map_eq_ok {α β ε : Type} {x : Except ε α} {f : α → β} {y : β} :
    x.map f = .ok y ↔ ∃ a, x = .ok a ∧ f a = y := by
  cases x <;> simp [Except.map]

end

/-! ### The first byte -/

end ShellInliner.Text
