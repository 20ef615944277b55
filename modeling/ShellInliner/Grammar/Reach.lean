import ShellInliner.Grammar.Chart

/-! # The furthest place

    Where a text is no script, the place that matters is the furthest one that
    tokens and skips can reach while the grammar allows them.  It is computed
    from the chart, again from the end of the text to its start: how far an
    item reaches at a place is how far the first items of its productions
    reach, or, where they are complete, what comes after them.

    A dead end shows only after everything skippable that began before it has
    ended.  What can be skipped is looked for at every place, inside words too,
    so a `#` in a word puts the dead end off to the end of the line. -/

namespace ShellInliner.Grammar

/-- The furthest reach of each symbol at a place, beside the row of the place. -/
structure ReachRow where
  row : Row
  /-- For each symbol, the furthest place it reaches, counted from this one. -/
  reaches : List (Symbol × Thunk Nat)

/-- The greatest of some numbers. -/
def furthest (ns : List Nat) : Nat :=
  ns.foldl max 0

/-- How far an item reaches at a place.  A terminal reaches what can be skipped
    before it, and its own end where it stands. -/
def ReachRow.reach (r : ReachRow) : Item → Nat
  | .token t =>
    max (furthestGap r.row.text) (furthest ((tokenEntries t r.row.text).map Entry.length))
  | .symbol s => ((r.reaches.lookup s).map Thunk.get).getD 0

/-- How far a row of items reaches after `offset` characters. -/
def reachAfter (later : List ReachRow) : List Item → (offset : Nat) → Nat
  | [], offset => offset
  | x :: xs, offset =>
    match later[offset - 1]? with
    | none => offset
    | some r =>
      max (offset + r.reach x)
        (furthest ((r.row.derive x).map fun e => reachAfter later xs (offset + e.length)))

/-- How far a row of items reaches at a place. -/
def reachHere (r : ReachRow) (later : List ReachRow) : List Item → Nat
  | [] => 0
  | x :: xs =>
    -- What comes after the first item starts at a later place, where all reaches are known.
    max (r.reach x) (furthest ((r.row.derive x).map fun e => reachAfter later xs e.length))

/-- How far a symbol reaches at a place. -/
def reachOf (rule : Rule) (r : ReachRow) (later : List ReachRow) : Nat :=
  max (furthest (rule.seeds.map fun p => reachHere r later p.items))
    (furthest ((r.row.get rule.symbol).map fun e =>
      furthest (rule.growths.map fun p => reachAfter later p.items e.length)))

def ReachRow.add (later : List ReachRow) (r : ReachRow) (rule : Rule) : ReachRow :=
  { r with reaches := (rule.symbol, Thunk.mk fun _ => reachOf rule r later) :: r.reaches }

/-- The reaches at all places of a chart. -/
def reachChart : List Row → List ReachRow
  | [] => []
  | row :: rows =>
    let later := reachChart rows
    rules.foldl (ReachRow.add later) ⟨row, []⟩ :: later

/-- The furthest place of a text, counted from its start, that tokens and skips
    reach; after a complete script more may be skipped. -/
def furthestReach (text : List Char) : Nat :=
  match reachChart (chart text) with
  | [] => 0
  | r :: _ =>
    max (r.reach (.symbol .script))
      (furthest ((r.row.get .script).map fun e =>
        e.length + furthestGap (text.drop e.length)))

/-- The first place, from `reached` on, at which nothing skippable is open: all
    that began there or before ends there at the latest.  `offset` is the place
    of the text, and `covered` the furthest end of what began before it. -/
def firstUncovered (reached : Nat) : (offset covered : Nat) → List Char → Nat
  | offset, _, [] => offset
  | offset, covered, c :: cs =>
    -- A skip that begins here counts as well, whether or not the grammar allows it here.
    let covered := max covered (offset + (skip? (c :: cs)).getD 0)
    if reached ≤ offset ∧ covered ≤ offset + 1 then offset
    else firstUncovered reached (offset + 1) covered cs

/-- The place at which a text that is no script is found to be none. -/
def deadEnd (text : List Char) : Nat :=
  firstUncovered (furthestReach text) 0 0 text

end ShellInliner.Grammar
