import ShellInliner.Text.Literal

/-! # UTF-8

    Files hold bytes and scripts are texts, rows of characters without surrogates.
    A file that is no UTF-8 is refused with the bytes that rule it out: those of the
    sequence that was begun, up to the byte that does not continue it. -/

namespace ShellInliner.Text

/-- Why bytes are no UTF-8. -/
inductive DecodeProblem
  | invalidStart
  | invalidContinuation
  | unexpectedEnd
  deriving DecidableEq, Repr

def DecodeProblem.message : DecodeProblem → String
  | invalidStart => "invalid start byte"
  | invalidContinuation => "invalid continuation byte"
  | unexpectedEnd => "unexpected end of data"

/-- The bytes that cannot be decoded. -/
structure DecodeFault where
  problem : DecodeProblem
  lead : UInt8
  /-- The number of bytes before the sequence. -/
  position : Nat
  /-- The number of bytes of the sequence. -/
  length : Nat
  deriving DecidableEq, Repr

def DecodeFault.message (f : DecodeFault) : String :=
  let place :=
    if f.length = 1 then
      s!"byte 0x{String.ofList (hexDigits 2 f.lead.toNat)} in position {f.position}"
    else s!"bytes in position {f.position}-{f.position + f.length - 1}"
  s!"'utf-8' codec can't decode {place}: {f.problem.message}"

/-- A character of several bytes that has been begun. -/
structure Begun where
  lead : UInt8
  /-- The number of bytes before the first one. -/
  position : Nat
  seen : Nat
  /-- The number of bytes still to come, less one. -/
  more : Nat
  least : UInt8
  greatest : UInt8
  bits : Nat

/-- The character that a byte begins: how many bytes follow the next one, the
    range of the next one, and the bits of the first. -/
def begun? (b : UInt8) (position : Nat) : Option Begun :=
  let n := b.toNat
  let start := fun more least greatest bits => some ⟨b, position, 1, more, least, greatest, bits⟩
  -- No character starts with a byte that continues one, and 0xC0 and 0xC1 would only spell
  -- ASCII characters once more.
  if n < 0xC2 then none
  else if n ≤ 0xDF then start 0 0x80 0xBF (n - 0xC0)
  -- After 0xE0 a byte below 0xA0 would make the form too long; after 0xED one above 0x9F
  -- would make a surrogate.
  else if n = 0xE0 then start 1 0xA0 0xBF 0
  else if n = 0xED then start 1 0x80 0x9F 0xD
  else if n ≤ 0xEF then start 1 0x80 0xBF (n - 0xE0)
  -- After 0xF0 a byte below 0x90 would make the form too long; after 0xF4 one above 0x8F
  -- would go beyond the last code point.
  else if n = 0xF0 then start 2 0x90 0xBF 0
  else if n ≤ 0xF3 then start 2 0x80 0xBF (n - 0xF0)
  else if n = 0xF4 then start 2 0x80 0x8F 4
  else none

/-- Decode bytes, given the number of bytes before them and the character that
    they are inside of, if they are. -/
def decodeFrom : Nat → Option Begun → List UInt8 → Except DecodeFault (List Char)
  | _, none, [] => .ok []
  | _, some s, [] => .error ⟨.unexpectedEnd, s.lead, s.position, s.seen⟩
  | position, none, b :: bs =>
    if b < 0x80 then (decodeFrom (position + 1) none bs).map (Char.ofNat b.toNat :: ·)
    else
      match begun? b position with
      | none => .error ⟨.invalidStart, b, position, 1⟩
      | some s => decodeFrom (position + 1) (some s) bs
  | position, some s, b :: bs =>
    if s.least ≤ b ∧ b ≤ s.greatest then
      let bits := s.bits * 64 + (b.toNat - 0x80)
      match s.more with
      | 0 => (decodeFrom (position + 1) none bs).map (Char.ofNat bits :: ·)
      | k + 1 =>
        decodeFrom (position + 1)
          (some { s with seen := s.seen + 1, more := k, least := 0x80, greatest := 0xBF, bits })
          bs
    else .error ⟨.invalidContinuation, s.lead, s.position, s.seen⟩

/-- The text that bytes spell. -/
def decode (bytes : List UInt8) : Except DecodeFault (List Char) :=
  decodeFrom 0 none bytes

/-- The bytes of a text. -/
def encode (s : String) : List UInt8 :=
  s.toUTF8.toList

end ShellInliner.Text
