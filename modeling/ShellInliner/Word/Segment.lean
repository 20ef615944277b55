import ShellInliner.Text.Blank

/-! # Segments of words

    A word is a run of segments: quoted spans, escaped characters, expansions
    and plain characters.  Every function here looks at the start of a text and
    gives the number of characters that the segment there takes, so what it
    says depends on nothing before the text. -/

namespace ShellInliner.Word

/-! ### Characters -/

/-- Does the character end a word when it is not quoted? -/
def isMeta (c : Char) : Bool :=
  Text.isBlank c || c == ';' || c == '&' || c == '|' || c == '<' || c == '>' || c == '(' || c == ')'

/-- Can an identifier start with the character? -/
def isIdentifierStart (c : Char) : Bool :=
  c.isAlpha || c == '_'

/-- Can an identifier go on with the character? -/
def isIdentifierPart (c : Char) : Bool :=
  c.isAlphanum || c == '_'

/-- The length of the identifier that a text starts with; zero if none. -/
def identifierLength : List Char → Nat
  | [] => 0
  | c :: cs => if isIdentifierStart c then 1 + (cs.takeWhile isIdentifierPart).length else 0

/-- May a backslash escape a line feed? -/
inductive LineFeeds
  | escapable
  | bare
  deriving DecidableEq, Repr

/-- Can a backslash escape the character? -/
def LineFeeds.escapes (mode : LineFeeds) (c : Char) : Bool :=
  match mode with
  | escapable => true
  | bare => c != '\n'

/-! ### Spans -/

/-- The length up to and including the first `stop`. -/
def spanTo (stop : Char) : List Char → Option Nat
  | [] => none
  | c :: cs => if c = stop then some 1 else (spanTo stop cs).map (· + 1)

/-- The length up to and including the first `stop` that no backslash escapes;
    none if a backslash escapes nothing. -/
def escapedSpanTo (mode : LineFeeds) (stop : Char) : List Char → Option Nat
  | [] => none
  | [c] => if c = stop then some 1 else none
  | c :: d :: cs =>
    if c = stop then some 1
    else if c = '\\' then
      if mode.escapes d then (escapedSpanTo mode stop cs).map (· + 2) else none
    else (escapedSpanTo mode stop (d :: cs)).map (· + 1)

/-- The length of the longest text without parentheses but for groups that hold
    none themselves.  The argument counts the characters of a group that is
    open; a group that is not closed is not taken. -/
def groupsLength : Option Nat → List Char → Nat
  | _, [] => 0
  | none, c :: cs =>
    if c = ')' then 0
    else if c = '(' then groupsLength (some 1) cs
    else 1 + groupsLength none cs
  | some taken, c :: cs =>
    -- A group inside a group spoils the open one, and nothing of it is taken.
    if c = '(' then 0
    else if c = ')' then taken + 1 + groupsLength none cs
    else groupsLength (some (taken + 1)) cs

/-- The length of the inside of `$((...))` if the text after its opening starts
    with one. -/
def arithmeticInside? (cs : List Char) : Option Nat :=
  let n := groupsLength none cs
  match cs.drop n with
  | ')' :: ')' :: _ => some n
  | _ => none

/-- The length of the inside of `$(...)` if the text after its opening starts
    with one. -/
def commandInside? (cs : List Char) : Option Nat :=
  let n := groupsLength none cs
  match cs.drop n with
  | ')' :: _ => some n
  | _ => none

/-! ### Segments -/

/-- The length of the segment after a dollar sign: an expansion, or nothing but
    the dollar sign itself. -/
def dollarLength (cs : List Char) : Nat :=
  match cs with
  | '(' :: '(' :: rest =>
    match arithmeticInside? rest with
    | some n => n + 5
    | none =>
      match commandInside? ('(' :: rest) with
      | some n => n + 3
      | none => 1
  | '(' :: rest =>
    match commandInside? rest with
    | some n => n + 3
    | none => 1
  | '{' :: rest =>
    match spanTo '}' rest with
    | some n => n + 2
    | none => 1
  | _ => 1

/-- The length of the segment that a text starts with, if it starts with one. -/
def segment? : List Char → Option Nat
  | [] => none
  | c :: cs =>
    if c = '\'' then (spanTo '\'' cs).map (· + 1)
    else if c = '"' then (escapedSpanTo .bare '"' cs).map (· + 1)
    else if c = '`' then (escapedSpanTo .bare '`' cs).map (· + 1)
    else if c = '\\' then
      match cs with
      | [] => none
      -- Before a line feed the backslash continues the line and belongs to no word.
      | d :: _ => if d = '\n' then none else some 2
    else if c = '$' then some (dollarLength cs)
    else if isMeta c then none
    else some 1

/-- The length of the longest run of segments.  The first argument counts the
    characters that still belong to the segment before. -/
def runLength (segment : List Char → Option Nat) : Nat → List Char → Nat
  | _, [] => 0
  | k + 1, _ :: cs => 1 + runLength segment k cs
  | 0, c :: cs =>
    match segment (c :: cs) with
    | some (n + 1) => 1 + runLength segment n cs
    | _ => 0

/-- The length of the run of segments that a text starts with. -/
def segmentsLength (cs : List Char) : Nat :=
  runLength segment? 0 cs

end ShellInliner.Word
