import ShellInliner.Word.Segment

/-! # Removing quotes

    A literal word stands for the text without its quotes: between single
    quotes every character stands for itself, between double quotes a backslash
    escapes only the characters that are special there, and elsewhere it
    escapes every character.  A quote without its partner stands for itself. -/

namespace ShellInliner.Word

/-- The characters that a backslash escapes between double quotes. -/
def isEscapedInQuotes (c : Char) : Bool :=
  c == '$' || c == '`' || c == '"' || c == '\\' || c == '\n'

/-- The inside of double quotes with its escapes resolved. -/
def unescape : List Char → List Char
  | [] => []
  | [c] => [c]
  | c :: d :: cs =>
    if c = '\\' ∧ isEscapedInQuotes d then d :: unescape cs else c :: unescape (d :: cs)

/-- What the quoted piece at the start of a text stands for, and its length. -/
def unquotePiece : List Char → List Char × Nat
  | [] => ([], 0)
  | c :: cs =>
    if c = '\'' then
      match spanTo '\'' cs with
      | some n => (cs.take (n - 1), n + 1)
      | none => ([c], 1)
    else if c = '"' then
      match escapedSpanTo .escapable '"' cs with
      | some n => (unescape (cs.take (n - 1)), n + 1)
      | none => ([c], 1)
    else if c = '\\' then
      match cs with
      | [] => ([c], 1)
      -- Outside quotes a continued line keeps its line end.
      | d :: _ => ([d], 2)
    else ([c], 1)

/-- What a text stands for.  The first argument counts the characters that
    belong to the piece before. -/
def unquoteFrom : Nat → List Char → List Char
  | _, [] => []
  | k + 1, _ :: cs => unquoteFrom k cs
  | 0, c :: cs =>
    let (text, n) := unquotePiece (c :: cs)
    text ++ unquoteFrom (n - 1) cs

/-- The text a literal word stands for. -/
def unquote (cs : List Char) : List Char :=
  unquoteFrom 0 cs

end ShellInliner.Word
