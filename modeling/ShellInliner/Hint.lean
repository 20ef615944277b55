import ShellInliner.Text.WordCharacter

/-! # Hints about common mistakes

    A script that cannot be read often lacks one end of a pair: a quote, a
    keyword, a brace.  The text is stripped of what does not count (escaped
    characters, comments, quoted spans) and the two ends of each kind of pair
    are counted; the first pair that does not balance gives the hint. -/

namespace ShellInliner

/-- A guess at what a script lacks. -/
inductive Hint
  | singleQuote
  | doubleQuote
  | unbalancedIf (opened closed : Nat)
  | unbalancedCase (opened closed : Nat)
  | unbalancedLoop (loops done : Nat)
  | unmatchedBraces (opened closed : Int)
  | unmatchedParens (opened closed : Nat)
  deriving DecidableEq, Repr

namespace Hint

/-- The short name of a kind of hint. -/
def label : Hint → String
  | singleQuote => "unterminated_single_quote"
  | doubleQuote => "unterminated_double_quote"
  | unbalancedIf .. => "unbalanced_if"
  | unbalancedCase .. => "unbalanced_case"
  | unbalancedLoop .. => "unbalanced_loop"
  | unmatchedBraces .. => "unmatched_braces"
  | unmatchedParens .. => "unmatched_parens"

/-- The advice to the writer of the script. -/
def advice : Hint → String
  | singleQuote => "Unterminated single quote: add the closing '"
  | doubleQuote => "Unterminated double quote: add the closing \""
  | unbalancedIf o c => s!"Unbalanced 'if': found {o} 'if' but {c} 'fi'"
  | unbalancedCase o c => s!"Unbalanced 'case': found {o} 'case' but {c} 'esac'"
  | unbalancedLoop l d => s!"Every loop needs 'do ... done': found {l} loops but {d} 'done'"
  | unmatchedBraces o c => s!"Unmatched braces: found {o} '\x7b' but {c} '\x7d'"
  | unmatchedParens o c => s!"Unmatched parentheses: found {o} '(' but {c} ')'"

/-! ### Stripping -/

/-- Remove every backslash together with the character it escapes; a backslash
    before a line feed or at the end escapes nothing. -/
def dropEscapes : List Char → List Char
  | [] => []
  | [c] => [c]
  | c :: d :: cs =>
    if c = '\\' ∧ d ≠ '\n' then dropEscapes cs else c :: dropEscapes (d :: cs)

/-- Remove everything from a `#` to the end of its line.  The flag says whether
    a comment is open. -/
def dropComments : Bool → List Char → List Char
  | _, [] => []
  | true, c :: cs => if c = '\n' then c :: dropComments false cs else dropComments true cs
  -- A `#` opens a comment here even in the middle of a word.
  | false, c :: cs => if c = '#' then dropComments true cs else c :: dropComments false cs

/-- Replace every span from one `quote` to the next by `fill`.  The span that
    is open, if one is, is held in reverse; it stays as it is when the text
    ends before it does. -/
def replaceSpans (quote : Char) (fill : List Char) : Option (List Char) → List Char → List Char
  | none, [] => []
  | none, c :: cs =>
    if c = quote then replaceSpans quote fill (some []) cs
    else c :: replaceSpans quote fill none cs
  | some held, [] => quote :: held.reverse
  | some held, c :: cs =>
    if c = quote then fill ++ replaceSpans quote fill none cs
    else replaceSpans quote fill (some (c :: held)) cs

/-- The text without escaped characters and comments. -/
def uncommented (source : List Char) : List Char :=
  dropComments false (dropEscapes source)

/-- The text without single-quoted spans as well. -/
def withoutSingleQuoted (source : List Char) : List Char :=
  replaceSpans '\'' [] none (uncommented source)

/-- The text with every double-quoted span emptied as well. -/
def bareCode (source : List Char) : List Char :=
  replaceSpans '"' ['"', '"'] none (withoutSingleQuoted source)

/-! ### Counting -/

/-- Can a keyword not start after this character? -/
def joinsBefore (c : Char) : Bool :=
  Text.isWordCharacter c || c == '$' || c == '-'

/-- Can a keyword not end before this character? -/
def joinsAfter (c : Char) : Bool :=
  Text.isWordCharacter c || c == '-'

/-- How often a keyword stands on its own in a text, given the character
    before the text. -/
def countKeyword (keyword : List Char) : Option Char → List Char → Nat
  | _, [] => 0
  | before, c :: cs =>
    let here := !before.any joinsBefore && keyword.isPrefixOf (c :: cs) &&
      !((c :: cs).drop keyword.length).head?.any joinsAfter
    (if here then 1 else 0) + countKeyword keyword (some c) cs

/-- How often a keyword stands on its own in a text. -/
def keywords (keyword : String) (code : List Char) : Nat :=
  countKeyword keyword.toList none code

/-- How often a dollar sign stands right before an opening brace. -/
def dollarBraces : List Char → Nat
  | '$' :: '{' :: cs => 1 + dollarBraces cs
  | _ :: cs => dollarBraces cs
  | [] => 0

/-- How many spans go from a dollar sign and opening brace to the next closing
    brace.  The flag says whether such a span is open. -/
def braceSpans : Bool → List Char → Nat
  | true, c :: cs => if c = '}' then 1 + braceSpans false cs else braceSpans true cs
  | false, '$' :: '{' :: cs => braceSpans true cs
  | false, _ :: cs => braceSpans false cs
  | _, [] => 0

/-! ### The verdict -/

/-- The hint that the counts in stripped code give, if one does. -/
def ofCode? (code : List Char) : Option Hint :=
  let ifs := keywords "if" code
  let fis := keywords "fi" code
  let cases := keywords "case" code
  let esacs := keywords "esac" code
  let loops := keywords "for" code + keywords "while" code + keywords "until" code
  let dones := keywords "done" code
  -- Braces of parameter expansions are no groups.
  let openBraces : Int := code.count '{' - dollarBraces code
  let closeBraces : Int := code.count '}' - braceSpans false code
  let openParens := code.count '('
  let closeParens := code.count ')'
  if ifs ≠ fis then some (unbalancedIf ifs fis)
  else if cases ≠ esacs then some (unbalancedCase cases esacs)
  else if loops ≠ dones then some (unbalancedLoop loops dones)
  else if openBraces ≠ closeBraces then some (unmatchedBraces openBraces closeBraces)
  -- The patterns of a choice end with a parenthesis that nothing opens.
  else if openParens ≠ closeParens ∧ cases = 0 then
    some (unmatchedParens openParens closeParens)
  else none

/-- The first pair of a script that does not balance, if there is one. -/
def detect? (source : List Char) : Option Hint :=
  let unpaired := withoutSingleQuoted source
  -- What is left after whole spans are gone are quotes without a partner.
  if unpaired.count '\'' % 2 ≠ 0 then some singleQuote
  else if (replaceSpans '"' [] none unpaired).count '"' % 2 ≠ 0 then some doubleQuote
  else ofCode? (bareCode source)

end Hint

end ShellInliner
