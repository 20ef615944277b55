import ShellInliner.Json.Value
import ShellInliner.Text.Literal

/-! # Writing JSON

    Two layouts of one format: everything on one line, or one member or element
    a line with two more blanks for each level.  Only ASCII characters are
    written; a character above U+FFFF is written as a pair of surrogates. -/

namespace ShellInliner.Json

/-- A code unit as an escape of four hexadecimal digits. -/
def unitEscape (n : Nat) : List Char :=
  '\\' :: 'u' :: Text.hexDigits 4 n

/-- One character inside a JSON string. -/
def escapeChar (c : Char) : List Char :=
  if c == '"' then ['\\', '"']
  else if c == '\\' then ['\\', '\\']
  else if c == '\n' then ['\\', 'n']
  else if c == '\r' then ['\\', 'r']
  else if c == '\t' then ['\\', 't']
  else if c == '\x0c' then ['\\', 'f']
  else if c == '\x08' then ['\\', 'b']
  else if 0x20 ≤ c.toNat ∧ c.toNat ≤ 0x7E then [c]
  else if c.toNat ≤ 0xFFFF then unitEscape c.toNat
  else
    -- The two halves of a surrogate pair, ten bits in each.
    let n := c.toNat - 0x10000
    unitEscape (0xD800 + n / 0x400) ++ unitEscape (0xDC00 + n % 0x400)

/-- A text between double quotes. -/
def quoteString (s : String) : List Char :=
  '"' :: s.toList.flatMap escapeChar ++ ['"']

/-- Texts with a separator between each two. -/
def joinWith (separator : List Char) : List (List Char) → List Char
  | [] => []
  | [x] => x
  | x :: xs => x ++ separator ++ joinWith separator xs

/-- The digits of a whole number, with a minus sign if it is negative. -/
def intDigits (n : Int) : List Char :=
  (toString n).toList

/-- The layout of a JSON text. -/
inductive Layout
  | compact
  | indented

/-- The line break before something at a level, if the layout breaks lines. -/
def Layout.break : Layout → Nat → List Char
  | compact, _ => []
  | indented, level => '\n' :: List.replicate (2 * level) ' '

/-- What stands between the name and the value of a member. -/
def Layout.colon : Layout → List Char
  | compact => [':']
  | indented => [':', ' ']

/-- Items between two brackets; nothing but the brackets if there are none. -/
def Layout.enclose (layout : Layout) (level : Nat) (left right : Char)
    (items : List (List Char)) : List Char :=
  if items.isEmpty then [left, right]
  else
    left :: layout.break (level + 1) ++ joinWith (',' :: layout.break (level + 1)) items ++
      layout.break level ++ [right]

mutual

/-- A value at a level. -/
def writeAt (layout : Layout) (level : Nat) : Value → List Char
  | .null => "null".toList
  | .bool b => (if b then "true" else "false").toList
  | .int n => intDigits n
  | .real d => intDigits d.mantissa ++ 'e' :: intDigits d.exponent
  | .notFinite => "NaN".toList
  | .string s => quoteString s
  | .array vs => layout.enclose level '[' ']' (writeElements layout (level + 1) vs)
  | .object ms => layout.enclose level '\x7b' '\x7d' (writeMembers layout (level + 1) ms)

/-- The elements of an array, each at a level. -/
def writeElements (layout : Layout) (level : Nat) : List Value → List (List Char)
  | [] => []
  | v :: vs => writeAt layout level v :: writeElements layout level vs

/-- The members of an object, each at a level. -/
def writeMembers (layout : Layout) (level : Nat) : List (String × Value) → List (List Char)
  | [] => []
  | (k, v) :: ms =>
    (quoteString k ++ layout.colon ++ writeAt layout level v) :: writeMembers layout level ms

end

/-- A value in a layout. -/
def write (layout : Layout) (v : Value) : String :=
  String.ofList (writeAt layout 0 v)

end ShellInliner.Json
