import ShellInliner.Grammar.Terminal

/-! # Rules of the grammar

    Each symbol has a list of alternatives, and each alternative is a row of
    elements, some of which are choices of their own.  Written out, with the
    earlier choice first, the alternatives become numbered productions.  When a
    text can be read in several ways, the production with the lower number
    wins, so the order of the alternatives is part of the language.

    No symbol but the whole script can be empty, and a symbol starts with
    itself or with symbols that stand before it in `Symbol.all`. -/

namespace ShellInliner.Grammar

/-- A symbol of the grammar. -/
inductive Symbol
  | newlines
  -- Simple commands: leading items are assignments and redirections, suffix items words
  -- and redirections.
  | redirect
  | leadingItem
  | leadingItems
  | suffixItem
  | suffixItems
  | simpleCommand
  -- Parts of compound commands.  A tail is what follows the first element of a row.
  | redirects
  | wordRun
  | forIn
  | separator
  | sequentialSeparator
  | forWords
  | doGroup
  | patternTail
  | pattern
  | caseItem
  | caseTail
  -- Compound commands; a further condition is one of its own in the else branch.
  | braceGroup
  | subshell
  | forClause
  | caseClause
  | ifClause
  | elsePart
  | elifPart
  | elseBranch
  | whileClause
  | untilClause
  | compoundBody
  | compoundCommand
  | functionDefinition
  -- What commands make up.
  | command
  | pipeTail
  | pipeSequence
  | pipeline
  | andOr
  | termTail
  | term
  | compoundList
  | script
  deriving DecidableEq, Repr

/-- All symbols, each after those it can start with. -/
def Symbol.all : List Symbol :=
  [.newlines, .redirect, .leadingItem, .leadingItems, .suffixItem, .suffixItems, .simpleCommand,
   .redirects, .wordRun, .forIn, .separator, .sequentialSeparator, .forWords, .doGroup,
   .patternTail, .pattern, .caseItem, .caseTail, .braceGroup, .subshell, .forClause, .caseClause,
   .ifClause, .elsePart, .elifPart, .elseBranch, .whileClause, .untilClause, .compoundBody,
   .compoundCommand, .functionDefinition, .command, .pipeTail, .pipeSequence, .pipeline, .andOr,
   .termTail, .term, .compoundList, .script]

/-- One item of a production. -/
inductive Item
  | token (t : Terminal)
  | symbol (s : Symbol)
  deriving DecidableEq, Repr

/-- One element of an alternative. -/
inductive Element
  | token (t : Terminal)
  | symbol (s : Symbol)
  /-- One of several rows of elements. -/
  | choice (alternatives : List (List Element))

namespace Element

/-- A reserved word. -/
abbrev reserved (w : Reserved) : Element := token (.reserved w)

/-- A sign. -/
abbrev sign (s : Sign) : Element := token (.sign s)

/-- A row of elements that may be left out. -/
abbrev maybe (es : List Element) : Element := choice [es, []]

/-- Line ends that may be left out. -/
abbrev linebreak : Element := maybe [symbol .newlines]

mutual

/-- Every way to write out an element. -/
def writings : Element → List (List Item)
  | token t => [[.token t]]
  | symbol s => [[.symbol s]]
  | choice alternatives => choiceWritings alternatives

/-- Every way to write out one of several rows, the first row first. -/
def choiceWritings : List (List Element) → List (List Item)
  | [] => []
  | row :: rows => rowWritings row ++ choiceWritings rows

/-- Every way to write out a row; the choice of its first element counts most. -/
def rowWritings : List Element → List (List Item)
  | [] => [[]]
  | e :: es => (writings e).flatMap fun a => (rowWritings es).map (a ++ ·)

end

end Element

open Element in
/-- The alternatives of a symbol. -/
def Symbol.alternatives : Symbol → List (List Element)
  -- Only a script may be empty; any other list holds a statement.
  | script => [[linebreak, maybe [symbol .term]]]
  | compoundList => [[linebreak, symbol .term]]
  -- The last separator may be missing before a reserved word too, so `else` after an
  -- argument can be read as the keyword.
  | term => [[symbol .andOr, maybe [symbol .termTail], maybe [symbol .separator]]]
  | termTail =>
    [[symbol .separator, symbol .andOr], [symbol .termTail, symbol .separator, symbol .andOr]]
  | separator =>
    [[sign .semicolon, linebreak], [sign .ampersand, linebreak], [symbol .newlines]]
  -- The words of a loop are no statement: they cannot be sent to the background.
  | sequentialSeparator => [[sign .semicolon, linebreak], [symbol .newlines]]
  | andOr =>
    [[symbol .pipeline],
     [symbol .andOr, sign .andIf, linebreak, symbol .pipeline],
     [symbol .andOr, sign .orIf, linebreak, symbol .pipeline]]
  | pipeline => [[symbol .pipeSequence], [reserved .bang, symbol .pipeSequence]]
  | pipeSequence => [[symbol .command, maybe [symbol .pipeTail]]]
  | pipeTail =>
    [[sign .bar, linebreak, symbol .command],
     [symbol .pipeTail, sign .bar, linebreak, symbol .command]]
  | command => [[symbol .simpleCommand], [symbol .compoundCommand], [symbol .functionDefinition]]
  | simpleCommand =>
    [[symbol .leadingItems, maybe [token .commandWord, maybe [symbol .suffixItems]]],
     [token .commandWord, maybe [symbol .suffixItems]]]
  | leadingItem => [[token .assignmentWord], [symbol .redirect]]
  | leadingItems => [[symbol .leadingItem], [symbol .leadingItems, symbol .leadingItem]]
  | suffixItem => [[token .word], [symbol .redirect]]
  | suffixItems => [[symbol .suffixItem], [symbol .suffixItems, symbol .suffixItem]]
  | redirect => [[maybe [token .ioNumber], token .redirectOperator, token .word]]
  | redirects => [[symbol .redirect], [symbol .redirects, symbol .redirect]]
  | compoundCommand => [[symbol .compoundBody, maybe [symbol .redirects]]]
  | compoundBody =>
    [[symbol .braceGroup], [symbol .subshell], [symbol .forClause], [symbol .caseClause],
     [symbol .ifClause], [symbol .whileClause], [symbol .untilClause]]
  | braceGroup => [[reserved .openBrace, symbol .compoundList, reserved .closeBrace]]
  | subshell => [[sign .openParen, symbol .compoundList, sign .closeParen]]
  | forClause =>
    [[reserved .forWord, token .name, maybe [symbol .forWords], linebreak, symbol .doGroup]]
  | forWords =>
    [[linebreak, symbol .forIn, symbol .sequentialSeparator], [symbol .sequentialSeparator]]
  | forIn => [[reserved .inWord, maybe [symbol .wordRun]]]
  | wordRun => [[token .word], [symbol .wordRun, token .word]]
  | doGroup => [[reserved .doWord, symbol .compoundList, reserved .doneWord]]
  | caseClause =>
    [[reserved .caseWord, token .word, linebreak, reserved .inWord, linebreak,
      maybe [symbol .caseItem, maybe [symbol .caseTail],
             maybe [sign .doubleSemicolon, linebreak]],
      reserved .esacWord]]
  | caseTail =>
    [[sign .doubleSemicolon, linebreak, symbol .caseItem],
     [symbol .caseTail, sign .doubleSemicolon, linebreak, symbol .caseItem]]
  -- A branch without statements may still hold line ends.
  | caseItem =>
    [[maybe [sign .openParen], symbol .pattern, sign .closeParen,
      choice [[symbol .compoundList], [symbol .newlines], []]]]
  | pattern => [[token .word, maybe [symbol .patternTail]]]
  | patternTail =>
    [[sign .bar, token .word], [symbol .patternTail, sign .bar, token .word]]
  | ifClause =>
    [[reserved .ifWord, symbol .compoundList, reserved .thenWord, symbol .compoundList,
      maybe [symbol .elseBranch], reserved .fiWord]]
  | elseBranch => [[symbol .elifPart], [symbol .elsePart]]
  | elifPart =>
    [[reserved .elifWord, symbol .compoundList, reserved .thenWord, symbol .compoundList,
      maybe [symbol .elseBranch]]]
  | elsePart => [[reserved .elseWord, symbol .compoundList]]
  -- Line ends before the body can belong to the clause or stand for themselves: one text,
  -- two derivations.
  | whileClause => [[reserved .whileWord, symbol .compoundList, linebreak, symbol .doGroup]]
  | untilClause => [[reserved .untilWord, symbol .compoundList, linebreak, symbol .doGroup]]
  | functionDefinition =>
    [[token .functionName, sign .openParen, sign .closeParen, linebreak, symbol .compoundBody,
      maybe [symbol .redirects]],
     [reserved .functionWord, token .functionName,
      maybe [sign .openParen, sign .closeParen], linebreak, symbol .compoundBody,
      maybe [symbol .redirects]]]
  | newlines => [[token .newline], [symbol .newlines, token .newline]]

/-- The productions of a symbol, in order. -/
def Symbol.productions (s : Symbol) : List (List Item) :=
  Element.choiceWritings s.alternatives

/-! ### Seeds and growths -/

/-- A production with its number. -/
structure Numbered where
  number : Nat
  /-- The items of the production, without the symbol itself at their start if
      the production extends a text that is one already. -/
  items : List Item
  deriving DecidableEq, Repr

/-- The productions of a symbol, told apart by whether they start with the
    symbol itself. -/
structure Rule where
  symbol : Symbol
  seeds : List Numbered
  /-- The productions that do, each without its first item. -/
  growths : List Numbered

/-- The productions of a symbol with their numbers. -/
def Symbol.numbered (s : Symbol) : List Numbered :=
  s.productions.zipIdx.map fun p => ⟨p.2, p.1⟩

/-- The rule of a symbol. -/
def Symbol.rule (s : Symbol) : Rule where
  symbol := s
  seeds := s.numbered.filter fun p => p.items.head? != some (.symbol s)
  growths := s.numbered.filterMap fun p =>
    match p.items with
    | .symbol t :: rest => if t = s then some ⟨p.number, rest⟩ else none
    | _ => none

/-- The rules of all symbols, each after those of the symbols it can start
    with. -/
def rules : List Rule :=
  Symbol.all.map Symbol.rule

end ShellInliner.Grammar
