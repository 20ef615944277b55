import ShellInliner.Grammar.Rule

/-! # Derivations

    A derivation says how a text is made: its leaves are tokens, each with the
    text that was skipped before it, and each inner node applies a production.
    A derivation holds no positions, so it does not depend on what stands before
    its text. -/

namespace ShellInliner.Grammar

/-- A terminal as it stands in a text. -/
structure Token where
  terminal : Terminal
  /-- What was skipped before it. -/
  gap : List Char
  text : List Char
  deriving DecidableEq, Repr

/-- The number of characters of a token, with what was skipped before it. -/
def Token.length (t : Token) : Nat :=
  t.gap.length + t.text.length

/-- A derivation. -/
inductive Tree
  | leaf (token : Token)
  /-- A production of a symbol, with the derivations of its items. -/
  | node (symbol : Symbol) (number : Nat) (children : List Tree)

/-- The item that a derivation derives. -/
def Tree.item : Tree → Item
  | leaf t => .token t.terminal
  | node s _ _ => .symbol s

mutual

/-- The tokens of a derivation, in order. -/
def Tree.tokens : Tree → List Token
  | .leaf t => [t]
  | .node _ _ ts => tokensOf ts

/-- The tokens of a row of derivations, in order. -/
def tokensOf : List Tree → List Token
  | [] => []
  | t :: ts => t.tokens ++ tokensOf ts

end

/-- The characters of a row of tokens, with what was skipped before each. -/
def spelling (ts : List Token) : List Char :=
  ts.flatMap fun t => t.gap ++ t.text

/-! ### Derivations of a text -/

/-- The token takes its place at the start of a text and leaves the rest: what
    is skipped can be skipped, and the terminal takes exactly the characters of
    the token. -/
structure Token.Fits (t : Token) (text rest : List Char) : Prop where
  text_eq : text = t.gap ++ t.text ++ rest
  /-- What stands before the terminal is reached by skipping. -/
  gap_mem : t.gap.length ∈ gaps text
  length_eq : t.terminal.length? (t.text ++ rest) = some t.text.length

mutual

/-- The derivation derives the start of a text and leaves the rest. -/
inductive Tree.Derives : Tree → List Char → List Char → Prop
  | leaf {t : Token} {text rest : List Char} (fits : t.Fits text rest) :
      Tree.Derives (.leaf t) text rest
  | node {s : Symbol} {n : Nat} {ts : List Tree} {text rest : List Char}
      (production : s.productions[n]? = some (ts.map Tree.item))
      (row : RowDerives ts text rest) :
      Tree.Derives (.node s n ts) text rest

/-- The derivations derive the start of a text one after the other and leave
    the rest. -/
inductive RowDerives : List Tree → List Char → List Char → Prop
  | nil {text : List Char} : RowDerives [] text text
  | cons {t : Tree} {ts : List Tree} {text middle rest : List Char}
      (first : Tree.Derives t text middle) (others : RowDerives ts middle rest) :
      RowDerives (t :: ts) text rest

end

/-- The derivation derives a whole script: what it leaves can be skipped. -/
def Tree.DerivesScript (t : Tree) (text : List Char) : Prop :=
  t.item = .symbol .script ∧ ∃ rest, t.Derives text rest ∧ isSkippable rest = true

end ShellInliner.Grammar
