import ShellInliner.Text.Printable

/-! # Quoted literals

    Messages show a text or a character between quotes, with everything that
    cannot be shown as itself escaped.  Single quotes are used unless the text
    holds a single quote and no double quote. -/

namespace ShellInliner.Text

/-- The lower-case hexadecimal digits of a number, padded with zeros on the
    left to at least `width` digits. -/
def hexDigits (width n : Nat) : List Char :=
  let digits := Nat.toDigits 16 n
  List.replicate (width - digits.length) '0' ++ digits

/-- One character inside a literal delimited by `quote`. -/
def escapeIn (quote c : Char) : List Char :=
  if c == quote || c == '\\' then ['\\', c]
  else if c == '\t' then ['\\', 't']
  else if c == '\n' then ['\\', 'n']
  else if c == '\r' then ['\\', 'r']
  else if isPrintable c then [c]
  -- What cannot be shown is named by its code point, in the shortest of three forms.
  else if c.toNat ≤ 0xFF then '\\' :: 'x' :: hexDigits 2 c.toNat
  else if c.toNat ≤ 0xFFFF then '\\' :: 'u' :: hexDigits 4 c.toNat
  else '\\' :: 'U' :: hexDigits 8 c.toNat

/-- The delimiter of a literal: a double quote exactly when the text holds a
    single quote and no double quote. -/
def literalQuote (cs : List Char) : Char :=
  if cs.contains '\'' && !cs.contains '"' then '"' else '\''

/-- A text as a quoted literal. -/
def literalOf (cs : List Char) : List Char :=
  let quote := literalQuote cs
  quote :: cs.flatMap (escapeIn quote) ++ [quote]

/-- A text as a quoted literal. -/
def literal (s : String) : String :=
  String.ofList (literalOf s.toList)

/-- A single character as a quoted literal. -/
def charLiteral (c : Char) : String :=
  String.ofList (literalOf [c])

end ShellInliner.Text
