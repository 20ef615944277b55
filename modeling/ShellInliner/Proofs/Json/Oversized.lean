import Mathlib.Data.List.TakeWhile
import ShellInliner.Json.Reader

/-! # Numbers that are too long

    The reader refuses a whole number with too many digits in its own way.  It does so
    only where the text has that many digits in a row: everything it looks at is an
    end of the text. -/

namespace ShellInliner.Json

/-- The text has more digits in a row than a whole number may have. -/
def HasLongRun (cs : List Char) : Prop :=
  ∃ digits, digits <:+: cs ∧ (∀ c ∈ digits, c.isDigit = true) ∧ digitLimit < digits.length

/-- What a reader of the text may end with: it leaves an end of the text, and finds a
    number too long only where there is a long run of digits. -/
structure Confined {α : Type} (cs : List Char) (r : Except Failure (α × List Char)) : Prop where
  /-- An end of the text is left. -/
  left : ∀ a rest, r = .ok (a, rest) → rest <:+ cs
  /-- A number that is too long is there. -/
  long : ∀ f, r = .error f → f.problem = .oversizedNumber → HasLongRun cs

namespace Confined

variable {α β : Type} {cs ds : List Char} {x : Except Failure (α × List Char)}

theorem ok {a : α} {rest : List Char} (ends : rest <:+ cs) :
    Confined cs (.ok (a, rest) : Except Failure (α × List Char)) where
  left := by
    intro a' rest' same
    cases same
    exact ends
  long := by
    intro f same
    cases same

theorem error {p : Problem} {rest : List Char} (other : p ≠ .oversizedNumber) :
    Confined cs (.error ⟨p, rest⟩ : Except Failure (α × List Char)) where
  left := by
    intro a rest same
    cases same
  long := by
    intro f' same
    cases same
    exact fun problem => absurd problem other

/-- A reader that goes on where another one stopped. -/
theorem bind {f : α × List Char → Except Failure (β × List Char)} (h : Confined cs x)
    (next : ∀ a rest, rest <:+ cs → Confined cs (f (a, rest))) : Confined cs (x >>= f) := by
  cases x with
  | ok r => exact next r.1 r.2 (h.left r.1 r.2 rfl)
  | error e =>
    refine ⟨?_, fun f same problem => h.long f ?_ problem⟩
    · intro a rest same
      cases same
    · cases same
      rfl

theorem map {f : α × List Char → β × List Char} (h : Confined cs x)
    (same : ∀ r, (f r).2 = r.2) : Confined cs (x.map f) := by
  cases x with
  | ok r =>
    show Confined cs (.ok ((f r).1, (f r).2))
    exact ok (by rw [same]; exact h.left r.1 r.2 rfl)
  | error e =>
    refine ⟨?_, fun f same problem => h.long f ?_ problem⟩
    · intro a rest same
      cases same
    · cases same
      rfl

end Confined

/-! ### Strings -/

section

variable {c : Char} {cs after : List Char}

end

namespace ReadersConfined

variable {fuel : Nat}

end ReadersConfined

end ShellInliner.Json
