import ShellInliner.Json.Value
import ShellInliner.Text.Lines

/-! # Reading JSON

    The reader works on what is left of the text.  A failure keeps what was
    left at the point it is about, so its place is the length of the text less
    the length of that rest.  Beside the standard's values the names of the
    values that are no numbers are read too, and of two members with one name
    the last wins.

    Values may be nested to any depth.  A text is made of characters, so half of a
    surrogate pair, which an escape can spell, is read as the replacement
    character. -/

namespace ShellInliner.Json

/-- Why a text is no JSON document. -/
inductive Problem
  | expectingValue
  | expectingName
  | expectingColon
  | expectingComma
  | unterminatedString
  | controlCharacter
  | invalidEscape
  | invalidUnit
  | extraData
  | byteOrderMark
  | oversizedNumber
  deriving DecidableEq, Repr

def Problem.message : Problem → String
  | expectingValue => "Expecting value"
  | expectingName => "Expecting property name enclosed in double quotes"
  | expectingColon => "Expecting ':' delimiter"
  | expectingComma => "Expecting ',' delimiter"
  | unterminatedString => "Unterminated string starting at"
  | controlCharacter => "Invalid control character at"
  | invalidEscape => "Invalid \\escape"
  | invalidUnit => "Invalid \\uXXXX escape"
  | extraData => "Extra data"
  | byteOrderMark => "Unexpected UTF-8 BOM (decode using utf-8-sig)"
  | oversizedNumber => "Exceeds the limit for integer string conversion"

/-- A problem and what was left of the text where it lies. -/
structure Failure where
  problem : Problem
  /-- The rest of the text, from the place the problem is about. -/
  rest : List Char

/-- The most digits a whole number may have. -/
def digitLimit : Nat := 4300

/-- Blanks between the parts of a document. -/
def isSpace (c : Char) : Bool :=
  c == ' ' || c == '\t' || c == '\n' || c == '\r'

def skipSpace (cs : List Char) : List Char :=
  cs.dropWhile isSpace

/-! ### Strings -/

/-- The value of a hexadecimal digit. -/
def hexValue? (c : Char) : Option Nat :=
  if '0' ≤ c ∧ c ≤ '9' then some (c.toNat - '0'.toNat)
  else if 'a' ≤ c ∧ c ≤ 'f' then some (c.toNat - 'a'.toNat + 10)
  else if 'A' ≤ c ∧ c ≤ 'F' then some (c.toNat - 'A'.toNat + 10)
  else none

/-- The code unit that four hexadecimal digits spell. -/
def unit? (a b c d : Char) : Option Nat := do
  return (((← hexValue? a) * 16 + (← hexValue? b)) * 16 + (← hexValue? c)) * 16 + (← hexValue? d)

def isHighSurrogate (n : Nat) : Bool := 0xD800 ≤ n && n ≤ 0xDBFF

def isLowSurrogate (n : Nat) : Bool := 0xDC00 ≤ n && n ≤ 0xDFFF

/-- The character of a single code unit; half a pair has none and gives the
    replacement character. -/
def charOfUnit (n : Nat) : Char :=
  if isHighSurrogate n || isLowSurrogate n then '\ufffd' else Char.ofNat n

/-- The character that a letter after a backslash stands for. -/
def simpleEscape? : Char → Option Char
  | '"' => some '"'
  | '\\' => some '\\'
  | '/' => some '/'
  | 'b' => some '\x08'
  | 'f' => some '\x0c'
  | 'n' => some '\n'
  | 'r' => some '\r'
  | 't' => some '\t'
  | _ => none

/-- Read the rest of a string whose opening quote starts `opening`; the
    characters read so far are held in reverse. -/
def readString (opening : List Char) : List Char → List Char → Except Failure (String × List Char)
  | held, '"' :: rest => .ok (String.ofList held.reverse, rest)
  -- Two escapes in a row may be the halves of one character.  A further character is asked
  -- for in each case: an escape at the very end of the text is not looked into.
  | held, '\\' :: 'u' :: a :: b :: c :: d :: '\\' :: 'u' :: e :: f :: g :: h :: x :: rest =>
    match unit? a b c d with
    | none => .error ⟨.invalidUnit, 'u' :: a :: b :: c :: d :: '\\' :: 'u' :: e :: f :: g :: h :: x :: rest⟩
    | some n =>
      if isHighSurrogate n then
        match unit? e f g h with
        | none => .error ⟨.invalidUnit, 'u' :: e :: f :: g :: h :: x :: rest⟩
        | some m =>
          if isLowSurrogate m then
            let joined := 0x10000 + (n - 0xD800) * 0x400 + (m - 0xDC00)
            readString opening (Char.ofNat joined :: held) (x :: rest)
          else
            -- The second escape is a character of its own and is read again.
            readString opening (charOfUnit n :: held) ('\\' :: 'u' :: e :: f :: g :: h :: x :: rest)
      else readString opening (charOfUnit n :: held) ('\\' :: 'u' :: e :: f :: g :: h :: x :: rest)
  | held, '\\' :: 'u' :: a :: b :: c :: d :: x :: rest =>
    match unit? a b c d with
    | none => .error ⟨.invalidUnit, 'u' :: a :: b :: c :: d :: x :: rest⟩
    | some n => readString opening (charOfUnit n :: held) (x :: rest)
  | held, '\\' :: c :: rest =>
    if c == 'u' then .error ⟨.invalidUnit, c :: rest⟩
    else
      match simpleEscape? c with
      | none => .error ⟨.invalidEscape, '\\' :: c :: rest⟩
      | some e => readString opening (e :: held) rest
  | _, ['\\'] => .error ⟨.unterminatedString, opening⟩
  | held, c :: rest =>
    if c.toNat ≤ 0x1F then .error ⟨.controlCharacter, c :: rest⟩
    else readString opening (c :: held) rest
  | _, [] => .error ⟨.unterminatedString, opening⟩

/-! ### Numbers -/

/-- The ASCII digits a text starts with, and the rest. -/
def spanDigits (cs : List Char) : List Char × List Char :=
  (cs.takeWhile Char.isDigit, cs.dropWhile Char.isDigit)

/-- The number that ASCII digits spell. -/
def natOfDigits (cs : List Char) : Nat :=
  cs.foldl (fun n c => n * 10 + (c.toNat - '0'.toNat)) 0

/-- The whole part of a number: a zero, or digits that do not start with one. -/
def readWhole? (cs : List Char) : Option (List Char × List Char) :=
  match cs with
  | '0' :: rest => some (['0'], rest)
  | c :: _ => if '1' ≤ c ∧ c ≤ '9' then some (spanDigits cs) else none
  | [] => none

/-- The digits of a fraction and the rest; no digits if none starts here. -/
def readFraction (cs : List Char) : List Char × List Char :=
  match cs with
  | '.' :: rest =>
    let (digits, after) := spanDigits rest
    -- A point that no digit follows is left to what comes after the number.
    if digits.isEmpty then ([], cs) else (digits, after)
  | _ => ([], cs)

/-- The exponent that starts here, if one does, and the rest. -/
def readExponent (cs : List Char) : Option Int × List Char :=
  match cs with
  | e :: rest =>
    if e == 'e' || e == 'E' then
      let (negative, body) :=
        match rest with
        | '-' :: r => (true, r)
        | '+' :: r => (false, r)
        | r => (false, r)
      let (digits, after) := spanDigits body
      if digits.isEmpty then (none, cs)
      else
        let n : Int := natOfDigits digits
        (some (if negative then -n else n), after)
    else (none, cs)
  | [] => (none, cs)

def readNumber (cs : List Char) : Except Failure (Value × List Char) :=
  let (negative, body) :=
    match cs with
    | '-' :: rest => (true, rest)
    | _ => (false, cs)
  match readWhole? body with
  | none => .error ⟨.expectingValue, cs⟩
  | some (whole, afterWhole) =>
    let (fraction, afterFraction) := readFraction afterWhole
    let (exponent, rest) := readExponent afterFraction
    let magnitude : Int := natOfDigits (whole ++ fraction)
    let signed := if negative then -magnitude else magnitude
    if fraction.isEmpty && exponent.isNone then
      -- Only whole numbers are limited: a decimal may have any number of digits.
      if digitLimit < whole.length then .error ⟨.oversizedNumber, cs⟩
      else .ok (.int signed, rest)
    else .ok (.real ⟨signed, exponent.getD 0 - fraction.length⟩, rest)

/-! ### Values -/

/-- The values that are written as names. -/
def namedValues : List (String × Value) :=
  [("null", .null), ("true", .bool true), ("false", .bool false), ("NaN", .notFinite),
   ("Infinity", .notFinite), ("-Infinity", .notFinite)]

/-- The named value that a text starts with, if it does, and the rest. -/
def readNamed? (cs : List Char) : Option (Value × List Char) :=
  (namedValues.find? fun n => n.1.toList.isPrefixOf cs).map fun n => (n.2, cs.drop n.1.length)

mutual

/-- Read a value; no value is nested deeper than the fuel allows. -/
def readValue : Nat → List Char → Except Failure (Value × List Char)
  | 0, cs => .error ⟨.expectingValue, cs⟩
  | fuel + 1, cs =>
    match cs with
    | '"' :: rest => (readString cs [] rest).map fun r => (.string r.1, r.2)
    | '{' :: rest =>
      match skipSpace rest with
      | '}' :: after => .ok (.object [], after)
      | inside => readMembers fuel [] inside
    | '[' :: rest =>
      match skipSpace rest with
      | ']' :: after => .ok (.array [], after)
      | inside => readElements fuel [] inside
    | _ =>
      match readNamed? cs with
      | some r => .ok r
      | none => readNumber cs

/-- Read the members of an object up to its closing brace. -/
def readMembers : Nat → List (String × Value) → List Char → Except Failure (Value × List Char)
  | 0, _, cs => .error ⟨.expectingName, cs⟩
  | fuel + 1, members, cs =>
    match cs with
    | '"' :: rest => do
      let (name, afterName) ← readString cs [] rest
      match skipSpace afterName with
      | ':' :: afterColon => do
        let (value, afterValue) ← readValue fuel (skipSpace afterColon)
        let read := setMember members name value
        match skipSpace afterValue with
        | '}' :: after => .ok (.object read, after)
        | ',' :: after => readMembers fuel read (skipSpace after)
        | other => .error ⟨.expectingComma, other⟩
      | other => .error ⟨.expectingColon, other⟩
    | _ => .error ⟨.expectingName, cs⟩

/-- Read the elements of an array up to its closing bracket. -/
def readElements : Nat → List Value → List Char → Except Failure (Value × List Char)
  | 0, _, cs => .error ⟨.expectingValue, cs⟩
  | fuel + 1, elements, cs => do
    let (value, afterValue) ← readValue fuel cs
    match skipSpace afterValue with
    | ']' :: after => .ok (.array (value :: elements).reverse, after)
    | ',' :: after => readElements fuel (value :: elements) (skipSpace after)
    | other => .error ⟨.expectingComma, other⟩

end

/-- Read a whole document.  Every step takes a character, so the length of the
    text is fuel enough. -/
def readDocument (cs : List Char) : Except Failure Value :=
  -- Refused before anything else, so that it is not taken for an unknown value.
  if cs.head? == some '\ufeff' then .error ⟨.byteOrderMark, cs⟩
  else do
    let (value, after) ← readValue (cs.length + 1) (skipSpace cs)
    match skipSpace after with
    | [] => .ok value
    | rest => .error ⟨.extraData, rest⟩

/-! ### Places -/

/-- The line and the column of a failure in a text. -/
def Failure.place (f : Failure) (text : List Char) : Nat × Nat :=
  Text.placeAfter (text.take (text.length - f.rest.length))

end ShellInliner.Json
