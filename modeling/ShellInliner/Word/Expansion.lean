import ShellInliner.Node.Basic
import ShellInliner.Word.Segment

/-! # Expansions of a word

    The expansions of a word are found from left to right.  What stands between
    single quotes is literal, unless the single quotes stand inside double
    quotes; an escaped character is skipped. -/

namespace ShellInliner.Word

/-! ### Parameters -/

/-- The characters that name a parameter by themselves, digits apart. -/
def isSpecialParameter (c : Char) : Bool :=
  c == '@' || c == '*' || c == '#' || c == '?' || c == '$' || c == '!' || c == '-'

/-- The length of the parameter that the inside of braces starts with: an
    identifier, a number or a special character. -/
def parameterLength (cs : List Char) : Nat :=
  match cs with
  | [] => 0
  | c :: _ =>
    if isIdentifierStart c then identifierLength cs
    else if c.isDigit then (cs.takeWhile Char.isDigit).length
    else if isSpecialParameter c then 1
    else 0

/-- The operators that may follow a parameter, with what they do.  Where one
    starts another, the longer comes first. -/
def operators : List (String × String) :=
  [(":-", "default-value"), (":=", "assign-default-value"), (":?", "indicate-error-if-null"),
   (":+", "use-alternative-value"), ("-", "default-value"), ("=", "assign-default-value"),
   ("?", "indicate-error-if-null"), ("+", "use-alternative-value"),
   ("##", "remove-largest-prefix-pattern"), ("#", "remove-smallest-prefix-pattern"),
   ("%%", "remove-largest-suffix-pattern"), ("%", "remove-smallest-suffix-pattern"),
   ("//", "replace-all"), ("/", "replace-first")]

/-- The operator that a text starts with, with what it does. -/
def operator? (cs : List Char) : Option (String × String) :=
  operators.find? fun o => o.1.toList.isPrefixOf cs

/-- The head of a parameter expansion, given the inside of its braces: the
    length of a parameter, a parameter with an operator and a word, or, where
    no parameter is found, the inside as it is. -/
def bracedParameter (inside : List Char) : Head :=
  match inside with
  | '#' :: rest =>
    -- A `#` that no parameter follows is a parameter itself.
    if parameterLength rest = 0 then parameterAndOperator inside
    -- Whatever follows the parameter stays with it.
    else .parameterExpansion (String.ofList rest) (some "string-length") none (some "#") true
  | _ => parameterAndOperator inside
where
  /-- A parameter, the operator after it if there is one, and the rest. -/
  parameterAndOperator (inside : List Char) : Head :=
    let n := parameterLength inside
    if n = 0 then .parameterExpansion (String.ofList inside) none none none true
    else
      let after := inside.drop n
      let parameter := String.ofList (inside.take n)
      match operator? after with
      | none => .parameterExpansion parameter none (wordOf after) none true
      | some (op, kind) =>
        .parameterExpansion parameter (some kind) (wordOf (after.drop op.length)) (some op) true
  /-- The word after an operator; an empty one counts as none. -/
  wordOf (cs : List Char) : Option String :=
    if cs.isEmpty then none else some (String.ofList cs)

/-! ### Pieces -/

/-- What a text starts with when its expansions are looked for. -/
inductive Piece
  | literal (length : Nat)
  | doubleQuote
  | expansion (head : Head) (length : Nat)
  deriving DecidableEq, Repr

/-- The number of characters of a piece. -/
def Piece.length : Piece → Nat
  | literal n => n
  | doubleQuote => 1
  | expansion _ n => n

/-- The expansion or lone dollar sign that a text after a dollar sign makes. -/
def dollarPiece (cs : List Char) : Piece :=
  match cs with
  | '(' :: '(' :: rest =>
    match arithmeticInside? rest with
    | some n => .expansion (.arithmeticExpansion (String.ofList (rest.take n)) false) (n + 5)
    -- Without its own end it may still be a command that starts with a parenthesis.
    | none => commandPiece ('(' :: rest)
  | '(' :: rest => commandPiece rest
  | '{' :: rest =>
    match spanTo '}' rest with
    | some n => .expansion (bracedParameter (rest.take (n - 1))) (n + 2)
    | none => .literal 1
  | c :: rest =>
    if isIdentifierStart c then plain (identifierLength (c :: rest)) (c :: rest)
    -- Without braces a single digit is the whole parameter.
    else if c.isDigit || isSpecialParameter c then plain 1 (c :: rest)
    else .literal 1
  | [] => .literal 1
where
  /-- A command substitution, if the text after its opening ends it. -/
  commandPiece (cs : List Char) : Piece :=
    match commandInside? cs with
    | some n => .expansion (.commandExpansion (String.ofList (cs.take n)) false false) (n + 3)
    | none => .literal 1
  /-- A parameter without braces. -/
  plain (n : Nat) (cs : List Char) : Piece :=
    .expansion (.parameterExpansion (String.ofList (cs.take n)) none none none false) (n + 1)

/-- The piece that a text starts with; the flag says whether the text stands
    between double quotes. -/
def piece (quoted : Bool) : List Char → Piece
  | [] => .literal 0
  | c :: cs =>
    if c = '\\' then .literal (if cs.isEmpty then 1 else 2)
    else if c = '"' then .doubleQuote
    else if c = '\'' then
      -- Between double quotes a single quote is a plain character.
      match quoted, spanTo '\'' cs with
      | false, some n => .literal (n + 1)
      | _, _ => .literal 1
    else if c = '`' then
      match escapedSpanTo .escapable '`' cs with
      | some n => .expansion (.commandExpansion (String.ofList (cs.take (n - 1))) true false) (n + 1)
      | none => .literal 1
    else if c = '$' then dollarPiece cs
    else .literal 1

/-- An expansion as a node, from one offset of its word to another. -/
def expansionNode (h : Head) (start stop : Nat) : Node :=
  .mk h (some (.offsets start stop)) []

/-- The expansions of a text.  `offset` is the place of the text in the word,
    and `skip` counts the characters that belong to the piece before. -/
def expansionsFrom (quoted : Bool) (offset : Nat) : Nat → List Char → List Node
  | _, [] => []
  | skip + 1, _ :: cs => expansionsFrom quoted (offset + 1) skip cs
  | 0, c :: cs =>
    match piece quoted (c :: cs) with
    | .literal n => expansionsFrom quoted (offset + 1) (n - 1) cs
    | .doubleQuote => expansionsFrom (!quoted) (offset + 1) 0 cs
    | .expansion h n =>
      expansionNode h offset (offset + n) :: expansionsFrom quoted (offset + 1) (n - 1) cs

/-- The expansions of a word, in order of appearance. -/
def expansions (cs : List Char) : List Node :=
  expansionsFrom false 0 0 cs

/-- The children of a word: its expansions. -/
def expansionChildren (cs : List Char) : List (Field × Node) :=
  (expansions cs).map (.expansion, ·)

end ShellInliner.Word
