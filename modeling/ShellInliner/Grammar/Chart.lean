import ShellInliner.Grammar.Tree

/-! # The chart of a text

    For every place of a text the chart has a row, and the row says for every
    symbol which texts starting there it derives, with one derivation for each
    length.  Rows are built from the end of the text to its start: a symbol at
    a place needs only symbols that stand before it in the grammar at the same
    place, and rows of later places.  So a row depends on nothing before its
    place.

    Of several derivations of one symbol over one text the one that applies the
    production with the lowest number is kept.  Entries are computed when they
    are asked for, once. -/

namespace ShellInliner.Grammar

/-- A text that an item derives at a place. -/
structure Entry where
  length : Nat
  tree : Tree

/-- The row of a place. -/
structure Row where
  /-- The text from the place on. -/
  text : List Char
  /-- For each symbol, what it derives at the place, the shortest first. -/
  entries : List (Symbol × Thunk (List Entry))

def Row.get (row : Row) (s : Symbol) : List Entry :=
  ((row.entries.lookup s).map Thunk.get).getD []

/-- The tokens of a terminal at the start of a text, one for each gap after
    which the terminal stands. -/
def tokenEntries (t : Terminal) (text : List Char) : List Entry :=
  (gaps text).filterMap fun g =>
    (t.length? (text.drop g)).map fun n =>
      ⟨g + n, .leaf ⟨t, text.take g, (text.drop g).take n⟩⟩

/-- What an item derives at a place. -/
def Row.derive (row : Row) : Item → List Entry
  | .token t => tokenEntries t row.text
  | .symbol s => row.get s

/-- A row of derivations and the number of characters they take. -/
structure Span where
  length : Nat
  trees : List Tree

/-- A derivation put before a row of derivations. -/
def Span.push (tree : Tree) (s : Span) : Span :=
  ⟨s.length, tree :: s.trees⟩

/-- Everything that a row of items derives after `offset` characters, given the
    rows of the places after the first one. -/
def follow (later : List Row) : List Item → (offset : Nat) → List Span
  | [], offset => [⟨offset, []⟩]
  | x :: xs, offset =>
    -- The rows start at the place after the first one.  The offset is at least one, as no
    -- item is empty.
    match later[offset - 1]? with
    | none => []
    | some row =>
      (row.derive x).flatMap fun e =>
        (follow later xs (offset + e.length)).map (Span.push e.tree)

/-- Everything that a row of items derives at a place, given the row of the
    place so far and the rows of the later places. -/
def spans (row : Row) (later : List Row) : List Item → List Span
  | [] => [⟨0, []⟩]
  | x :: xs =>
    -- Only the first item is looked up in the unfinished row.
    (row.derive x).flatMap fun e => (follow later xs e.length).map (Span.push e.tree)

/-- A derivation of a symbol that may be kept. -/
structure Candidate where
  /-- The number of the production it applies. -/
  number : Nat
  entry : Entry

/-- Is the first candidate to be taken before the second: is it shorter, or of
    the same length by a production with a lower number? -/
def Candidate.precedes (a b : Candidate) : Bool :=
  a.entry.length < b.entry.length ||
    (a.entry.length == b.entry.length && a.number < b.number)

/-- The candidate that is to be taken first. -/
def best? : List Candidate → Option Candidate
  | [] => none
  | c :: cs =>
    match best? cs with
    | none => some c
    -- In a tie the earlier candidate stays.
    | some d => if d.precedes c then some d else some c

/-- The seeds of a symbol: candidates by the productions that do not start with
    the symbol itself. -/
def seedCandidates (rule : Rule) (row : Row) (later : List Row) : List Candidate :=
  rule.seeds.flatMap fun p =>
    (spans row later p.items).map fun s => ⟨p.number, s.length, .node rule.symbol p.number s.trees⟩

/-- The candidates that extend an entry by the productions that start with the
    symbol itself. -/
def grownCandidates (rule : Rule) (later : List Row) (e : Entry) : List Candidate :=
  rule.growths.flatMap fun p =>
    (follow later p.items e.length).map fun s =>
      ⟨p.number, s.length, .node rule.symbol p.number (e.tree :: s.trees)⟩

/-- Keep the best candidate of the least length, drop the others of that length
    and go on with those that extend it.  Every round keeps a longer entry than
    the one before, so the length of the text bounds the rounds. -/
def settle (grow : Entry → List Candidate) : Nat → List Candidate → List Entry
  | 0, _ => []
  | rounds + 1, pending =>
    match best? pending with
    | none => []
    | some c =>
      -- The losers of this length are dropped before they can grow.
      c.entry ::
        settle grow rounds
          (pending.filter (fun d => d.entry.length != c.entry.length) ++ grow c.entry)

/-- What a symbol derives at a place, given the row of the place with all
    symbols before it and the rows of the later places. -/
def entriesOf (rule : Rule) (row : Row) (later : List Row) : List Entry :=
  settle (grownCandidates rule later) (row.text.length + 1) (seedCandidates rule row later)

def Row.add (later : List Row) (row : Row) (rule : Rule) : Row :=
  { row with entries := (rule.symbol, Thunk.mk fun _ => entriesOf rule row later) :: row.entries }

/-- The row of a place, given the text from it on and the rows of the later
    places. -/
def rowOf (text : List Char) (later : List Row) : Row :=
  rules.foldl (Row.add later) ⟨text, []⟩

/-- The rows of all places of a text, the end included. -/
def chart : List Char → List Row
  | [] => [rowOf [] []]
  | c :: cs =>
    let later := chart cs
    rowOf (c :: cs) later :: later

/-- What the whole script derives at the start of a text, the shortest first. -/
def scriptEntries (text : List Char) : List Entry :=
  match chart text with
  | [] => []
  | row :: _ => row.get .script

/-- The derivation of a script: of those that leave only what can be skipped
    the one that takes the least. -/
def derivation? (text : List Char) : Option Tree :=
  ((scriptEntries text).find? fun e => isSkippable (text.drop e.length)).map Entry.tree

end ShellInliner.Grammar
