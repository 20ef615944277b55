import ShellInliner.Text.Digit
import ShellInliner.Word.Segment

/-! # Terminals

    The smallest parts of a script.  Which terminals can stand at a place is
    decided by the grammar, so one text may be a reserved word at one place and
    a plain word at another; here each terminal only says how many characters
    it takes at the start of a text.  Blanks, comments and continued lines may
    be skipped before every terminal. -/

namespace ShellInliner.Grammar

open Word (isMeta isIdentifierPart isIdentifierStart identifierLength segmentsLength)

/-! ### Reserved words and signs -/

/-- The reserved words, braces and the exclamation mark included. -/
inductive Reserved
  | ifWord
  | thenWord
  | elseWord
  | elifWord
  | fiWord
  | doWord
  | doneWord
  | caseWord
  | esacWord
  | whileWord
  | untilWord
  | forWord
  | inWord
  | functionWord
  | bang
  | openBrace
  | closeBrace
  deriving DecidableEq, Repr

/-- All reserved words. -/
def Reserved.all : List Reserved :=
  [ifWord, thenWord, elseWord, elifWord, fiWord, doWord, doneWord, caseWord, esacWord, whileWord,
   untilWord, forWord, inWord, functionWord, bang, openBrace, closeBrace]

/-- How a reserved word is written. -/
def Reserved.spelling : Reserved → List Char
  | ifWord => ['i', 'f']
  | thenWord => ['t', 'h', 'e', 'n']
  | elseWord => ['e', 'l', 's', 'e']
  | elifWord => ['e', 'l', 'i', 'f']
  | fiWord => ['f', 'i']
  | doWord => ['d', 'o']
  | doneWord => ['d', 'o', 'n', 'e']
  | caseWord => ['c', 'a', 's', 'e']
  | esacWord => ['e', 's', 'a', 'c']
  | whileWord => ['w', 'h', 'i', 'l', 'e']
  | untilWord => ['u', 'n', 't', 'i', 'l']
  | forWord => ['f', 'o', 'r']
  | inWord => ['i', 'n']
  | functionWord => ['f', 'u', 'n', 'c', 't', 'i', 'o', 'n']
  | bang => ['!']
  | openBrace => ['{']
  | closeBrace => ['}']

/-- The signs that separate and join commands. -/
inductive Sign
  | andIf
  | orIf
  | ampersand
  | semicolon
  | doubleSemicolon
  | bar
  | openParen
  | closeParen
  deriving DecidableEq, Repr

/-- How a sign is written. -/
def Sign.spelling : Sign → List Char
  | andIf => ['&', '&']
  | orIf => ['|', '|']
  | ampersand => ['&']
  | semicolon => [';']
  | doubleSemicolon => [';', ';']
  | bar => ['|']
  | openParen => ['(']
  | closeParen => [')']

/-- A terminal of the grammar. -/
inductive Terminal
  /-- A reserved word on its own. -/
  | reserved (w : Reserved)
  | sign (s : Sign)
  /-- The file descriptor in front of a redirection. -/
  | ioNumber
  | redirectOperator
  | name
  | functionName
  | assignmentWord
  | commandWord
  | word
  /-- Line ends, with the blanks after each. -/
  | newline
  deriving DecidableEq, Repr

/-! ### Lookahead -/

/-- Does a word end here: at the end of the text or before a meta character? -/
def endsWord (cs : List Char) : Bool :=
  cs.head?.all isMeta

/-- The length of a reserved word that stands here on its own. -/
def Reserved.length? (w : Reserved) (cs : List Char) : Option Nat :=
  if w.spelling.isPrefixOf cs && endsWord (cs.drop w.spelling.length) then
    some w.spelling.length
  else none

/-- Does a reserved word stand here on its own? -/
def startsReserved (cs : List Char) : Bool :=
  Reserved.all.any fun w => (w.length? cs).isSome

/-- Is the character one that a redirection starts with? -/
def isAngle (c : Char) : Bool :=
  c == '<' || c == '>'

/-- The length of a file descriptor: digits right before a redirection. -/
def ioNumberLength? (cs : List Char) : Option Nat :=
  let n := (cs.takeWhile Text.isDigit).length
  if n ≠ 0 ∧ (cs.drop n).head?.any isAngle then some n else none

/-- A length, unless it is zero. -/
def positive? (n : Nat) : Option Nat :=
  if n = 0 then none else some n

/-! ### Words -/

/-- The length of a word: a run of segments that starts neither a comment nor a
    redirection. -/
def wordLength? (cs : List Char) : Option Nat :=
  -- A `#` starts a comment only where a word could start; inside a word it is plain.
  if cs.head? = some '#' ∨ (ioNumberLength? cs).isSome then none
  else positive? (segmentsLength cs)

/-- The length of what an assignment starts with: an identifier and the sign
    after it. -/
def assigneeLength? (cs : List Char) : Option Nat :=
  let n := identifierLength cs
  if n ≠ 0 ∧ (cs.drop n).head? = some '=' then some (n + 1) else none

/-- The length of the name of a command: a word that is no reserved word and
    starts no assignment. -/
def commandWordLength? (cs : List Char) : Option Nat :=
  if startsReserved cs || (assigneeLength? cs).isSome then none else wordLength? cs

/-- The length of an assignment with its value. -/
def assignmentLength? (cs : List Char) : Option Nat :=
  (assigneeLength? cs).map fun n => n + segmentsLength (cs.drop n)

/-- Can the name of a function go on with the character? -/
def isFunctionNamePart (c : Char) : Bool :=
  isIdentifierPart c || c == ':' || c == '.' || c == '@' || c == '+' || c == '-'

/-- The length of the name of a function: no reserved word, and a letter or an
    underscore at the start. -/
def functionNameLength? (cs : List Char) : Option Nat :=
  if startsReserved cs then none
  else
    match cs with
    | [] => none
    | c :: rest =>
      if isIdentifierStart c then some (1 + (rest.takeWhile isFunctionNamePart).length) else none

/-- The operators of redirections; where one starts another, the longer comes
    first. -/
def redirectOperators : List (List Char) :=
  [['>', '>'], ['>', '&'], ['>', '|'], ['<', '<', '-'], ['<', '<'], ['<', '&'], ['<', '>'],
   ['>'], ['<']]

/-- The length of the operator of a redirection. -/
def redirectOperatorLength? (cs : List Char) : Option Nat :=
  (redirectOperators.find? (·.isPrefixOf cs)).map List.length

/-! ### Line ends -/

/-- Is the character a blank inside a line? -/
def isLineBlank (c : Char) : Bool :=
  c == ' ' || c == '\t'

/-- The length of a run of line ends, each with the blanks after it.  The flag
    says whether a line end came before, so that blanks may follow. -/
def newlinesLength : Bool → List Char → Nat
  | _, [] => 0
  | after, c :: cs =>
    if c = '\n' then 1 + newlinesLength true cs
    else if c = '\r' then
      -- A carriage return counts only together with the line feed after it.
      match cs with
      | [] => 0
      | d :: rest => if d = '\n' then 2 + newlinesLength true rest else 0
    else if after && isLineBlank c then 1 + newlinesLength true cs
    else 0

/-! ### Matches -/

/-- The number of characters that a terminal takes at the start of a text, if
    it can stand there. -/
def Terminal.length? (t : Terminal) (cs : List Char) : Option Nat :=
  match t with
  | reserved w => w.length? cs
  | sign s => if s.spelling.isPrefixOf cs then some s.spelling.length else none
  | ioNumber => ioNumberLength? cs
  | redirectOperator => redirectOperatorLength? cs
  | name => positive? (identifierLength cs)
  | functionName => functionNameLength? cs
  | assignmentWord => assignmentLength? cs
  | commandWord => commandWordLength? cs
  | word => wordLength? cs
  | newline => positive? (newlinesLength false cs)

/-! ### Gaps -/

/-- The number of characters of what may be skipped at the start of a text:
    blanks, a comment up to the end of its line, or a continued line. -/
def skip? : List Char → Option Nat
  | [] => none
  | c :: cs =>
    if isLineBlank c then some (1 + (cs.takeWhile isLineBlank).length)
    -- The line end after a comment is not skipped: it may separate statements.
    else if c = '#' then some (1 + (cs.takeWhile (· != '\n')).length)
    else if c = '\\' then
      match cs with
      | '\n' :: _ => some 2
      | '\r' :: '\n' :: _ => some 3
      | _ => none
    else none

/-- The places that skipping can reach from the start of a text, the nearest
    first.  `offset` is the place of the text, and `inside` counts the
    characters that still belong to what is being skipped. -/
def gapsFrom : (offset inside : Nat) → List Char → List Nat
  | offset, 0, [] => [offset]
  -- Never met: what is skipped ends inside the text.
  | _, _ + 1, [] => []
  | offset, k + 1, _ :: cs => gapsFrom (offset + 1) k cs
  | offset, 0, c :: cs =>
    -- A skip is taken whole, so the places form a single chain.
    offset ::
      match skip? (c :: cs) with
      | some (n + 1) => gapsFrom (offset + 1) n cs
      | _ => []

/-- The places that skipping can reach from the start of a text, the start
    included. -/
def gaps (cs : List Char) : List Nat :=
  gapsFrom 0 0 cs

/-- The furthest place that skipping can reach. -/
def furthestGap (cs : List Char) : Nat :=
  (gaps cs).foldl max 0

/-- Can the whole text be skipped? -/
def isSkippable (cs : List Char) : Bool :=
  (gaps cs).contains cs.length

end ShellInliner.Grammar
