import ShellInliner.Text.Blank

/-! # Lines

    A text is cut into lines at every line feed; the text after the last line
    feed is a line too, so there is always at least one. -/

namespace ShellInliner.Text

/-- The lines of a text, without their line feeds. -/
def lines : List Char → List (List Char)
  | [] => [[]]
  | c :: cs =>
    if c == '\n' then [] :: lines cs
    else
      match lines cs with
      -- Never met: a text has at least one line.
      | [] => [[c]]
      | l :: ls => (c :: l) :: ls

/-- The number of line feeds in a text. -/
def lineFeeds (cs : List Char) : Nat :=
  cs.count '\n'

/-- The line and the column of a place, both counted from one, given the text
    before it. -/
def placeAfter (before : List Char) : Nat × Nat :=
  (lineFeeds before + 1, (before.reverse.takeWhile (· != '\n')).length + 1)

/-- The text without the line feeds at its end. -/
def dropFinalLineFeeds (cs : List Char) : List Char :=
  (cs.reverse.dropWhile (· == '\n')).reverse

/-- Line number `n` of a text, counted from one and trimmed of blanks.  An
    empty text and a number out of range have no such line. -/
def lineContext? (source : List Char) (n : Int) : Option (List Char) :=
  if source.isEmpty || n ≤ 0 then none
  else (lines source)[n.toNat - 1]?.map trim

/-- Line endings of all three conventions become single line feeds. -/
def unifyLineEnds : List Char → List Char
  | [] => []
  | '\r' :: '\n' :: cs => '\n' :: unifyLineEnds cs
  | c :: cs => (if c == '\r' then '\n' else c) :: unifyLineEnds cs

end ShellInliner.Text
