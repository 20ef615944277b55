import ShellInliner.Error
import ShellInliner.Text.Blank

/-! # Checking values

    Plain values are taken from JSON generously: a flag may be spelled as a
    word, a number as a text.  Checks do not stop at the first fault; two
    checks side by side give the faults of both, in order. -/

namespace ShellInliner.Json

/-- A value that passed all checks, or every fault found. -/
abbrev Checked (α : Type) := Except (List Issue) α

namespace Checked

/-- Two checks side by side. -/
def both {α β : Type} : Checked α → Checked β → Checked (α × β)
  | .ok a, .ok b => .ok (a, b)
  | .ok _, .error f => .error f
  | .error e, .ok _ => .error e
  | .error e, .error f => .error (e ++ f)

/-- A row of checks. -/
def all {α : Type} : List (Checked α) → Checked (List α)
  | [] => .ok []
  | c :: cs => (both c (all cs)).map fun p => p.1 :: p.2

end Checked

/-- The way to a part of a value, the last step first. -/
abbrev Trail := List Step

/-- A single fault at the end of a trail. -/
def refuse {α : Type} (trail : Trail) (type : IssueType) : Checked α :=
  .error [⟨trail.reverse, type⟩]

/-- A member under its name or its second name. -/
def memberEither? (members : List (String × Value)) (key longKey : String) : Option Value :=
  (member? members key).or (member? members longKey)

/-! ### Flags -/

/-- The words that spell a flag, in lower case. -/
def flagWords : List (String × Bool) :=
  [("0", false), ("off", false), ("f", false), ("false", false), ("n", false), ("no", false),
   ("1", true), ("on", true), ("t", true), ("true", true), ("y", true), ("yes", true)]

/-- Take a flag. -/
def checkFlag (trail : Trail) : Value → Checked Bool
  | .bool b => .ok b
  | .int n => if n = 0 then .ok false else if n = 1 then .ok true else refuse trail .boolParsing
  -- A decimal counts by its value, however it is written.
  | .real d =>
    match d.toInt? with
    | some 0 => .ok false
    | some 1 => .ok true
    | _ => refuse trail .boolType
  | .string s =>
    match flagWords.lookup s.toLower with
    | some b => .ok b
    | none => refuse trail .boolParsing
  | _ => refuse trail .boolType

/-! ### Whole numbers -/

/-- Blanks that may surround a number; information separators are none. -/
def isOuterBlank (c : Char) : Bool :=
  Text.isBlank c && !(0x1C ≤ c.toNat && c.toNat ≤ 0x1F)

/-- The text without the blanks around it. -/
def trimOuter (cs : List Char) : List Char :=
  ((cs.dropWhile isOuterBlank).reverse.dropWhile isOuterBlank).reverse

/-- The digits of a number, with at most one underscore between each two.  The
    flag says whether a digit came right before. -/
def groupedDigits? : Bool → List Char → Option (List Char)
  | afterDigit, [] => if afterDigit then some [] else none
  | afterDigit, c :: cs =>
    if c.isDigit then (groupedDigits? true cs).map (c :: ·)
    else if c = '_' ∧ afterDigit then groupedDigits? false cs
    else none

/-- The text before a point that only zeros follow. -/
def dropZeroFraction (cs : List Char) : List Char :=
  match cs.dropWhile (· != '.') with
  | '.' :: zeros => if zeros.all (· == '0') then cs.takeWhile (· != '.') else cs
  | _ => cs

/-- The whole number that a text spells. -/
def wholeNumber? (s : String) : Option Int :=
  let cs := trimOuter s.toList
  let (negative, body) :=
    match cs with
    | '-' :: rest => (true, rest)
    | '+' :: rest => (false, rest)
    | _ => (false, cs)
  (groupedDigits? false (dropZeroFraction body)).map fun ds =>
    let n : Int := natOfDigits ds
    if negative then -n else n

/-- Take a whole number. -/
def checkInt (trail : Trail) : Value → Checked Int
  | .bool b => .ok (if b then 1 else 0)
  | .int n => .ok n
  | .real d =>
    match d.toInt? with
    -- Decimals are held to 64 bits; whole numbers and texts are not.
    | some n => if n.natAbs < Nat.pow 2 63 then .ok n else refuse trail .intParsingSize
    -- A decimal beyond double precision is an infinity, not a fraction.
    | none => refuse trail (if 309 < d.exponent then .finiteNumber else .intFromFloat)
  | .notFinite => refuse trail .finiteNumber
  | .string s =>
    match wholeNumber? s with
    | some n => .ok n
    | none => refuse trail .intParsing
  | _ => refuse trail .intType

/-! ### Texts -/

/-- Take a text. -/
def checkText (trail : Trail) : Value → Checked String
  | .string s => .ok s
  | _ => refuse trail .stringType

/-- Take anything or nothing. -/
def checkOptional {α : Type} (check : Value → Checked α) : Option Value → Checked (Option α)
  | none | some .null => .ok none
  | some v => (check v).map some

end ShellInliner.Json
