import ShellInliner.Error
import ShellInliner.Node.Basic

/-! # Visitors

    A visitor has handlers for kinds of nodes.  A handler says what becomes of
    the node it is given: the node stays, another node takes its place, several
    nodes do, or it goes.  Handlers may keep a state of their own and may fail. -/

namespace ShellInliner

/-- What a handler decides about a node.  Nodes are trees, or handles of nodes in
    a workspace. -/
inductive Outcome (α : Type)
  | keep
  | replace (n : α)
  /-- Several nodes take its place; the empty ones among them vanish. -/
  | splice (ns : List (Option α))
  | remove

/-- What a visit leaves. -/
inductive Visited (α : Type)
  | one (n : α)
  /-- Several nodes, some of which may be empty. -/
  | several (ns : List (Option α))
  | nothing

/-- What is left of a node after its handler's decision. -/
def Outcome.apply {α : Type} (n : α) : Outcome α → Visited α
  | keep => .one n
  | replace m => .one m
  | splice ns => .several ns
  | remove => .nothing

namespace Visited

variable {α : Type}

/-- The nodes that a visit leaves for a sequence. -/
def sequence : Visited α → List α
  | one n => [n]
  | several ns => ns.filterMap id
  | nothing => []

/-- The node that a visit leaves for a single field of a kind, if any. -/
def single (k : Kind) (f : Field) : Visited α → Except Error (Option α)
  | one n => .ok (some n)
  | several [some n] => .ok (some n)
  -- One empty node is as good as a removal; any other row is of the wrong length.
  | several [none] | nothing =>
    if k.requires f then .error (.removedRequired k f) else .ok none
  | several ns => .error (.wrongCount ns.length k f)

end Visited

/-! ### Tables -/

/-- A table by the names of kinds.  A name without an entry counts as one that is
    not there, but has to be a name all the same. -/
abbrev Table (α : Type) := List (String × Option α)

namespace Table

variable {α : Type}

/-- The name under which the entry of all other kinds stands. -/
def defaultName : String := "defaultMethod"

/-- The entry under a name. -/
def under (t : Table α) (name : String) : Option α :=
  -- An empty entry and no entry are the same here.
  (t.lookup name).join

/-- The entry of a kind: its own, or the one of all other kinds. -/
def entry? (t : Table α) (k : Kind) : Option α :=
  (t.under k.label).or (t.under defaultName)

/-- Is the name that of a kind, or the one for all other kinds? -/
def isKnown (name : String) : Bool :=
  (Kind.ofLabel? name).isSome || name == defaultName

/-- Put a name into a sorted list that does not hold it twice. -/
def insertName (name : String) : List String → List String
  | [] => [name]
  | x :: xs =>
    if name < x then name :: x :: xs
    else if name = x then x :: xs
    else x :: insertName name xs

/-- The names in a table that belong to no kind, sorted. -/
def unknownNames (t : Table α) : List String :=
  ((t.map (·.1)).filter (!isKnown ·)).foldr insertName []

end Table

/-! ### Visits -/

/-- A computation with a state that may fail; the state at the failure stays. -/
abbrev Run (σ : Type) := ExceptT Error (StateM σ)

/-- A result or a failure that leaves the state alone. -/
def Run.lift {σ α : Type} : Except Error α → Run σ α
  | .ok a => pure a
  | .error e => throw e

/-- A handler is given the node, its parent and the root of the tree. -/
abbrev Handler (σ : Type) := Node → Option Node → Node → Run σ (Outcome Node)

/-- A table of handlers. -/
abbrev Visitor (σ : Type) := Table (Handler σ)

namespace Visitor

variable {σ : Type}

/-- Visit what an earlier visit has left.  Only a single node is visited;
    several nodes and nothing stay as they are. -/
def visit (v : Visitor σ) (parent : Option Node) (root : Node) : Visited Node → Run σ (Visited Node)
  | .nothing => pure .nothing
  | .several ns => pure (.several ns)
  | .one n =>
    match Table.entry? v n.kind with
    | none => pure (.one n)
    | some h => return (← h n parent root).apply n

end Visitor

/-- Visitors that are applied one after the other. -/
inductive VisitorTree (σ : Type)
  | table (v : Visitor σ)
  | row (ts : List (VisitorTree σ))

namespace VisitorTree

variable {σ : Type}

mutual

/-- Visit with one visitor after the other. -/
def visit (parent : Option Node) (root : Node) : VisitorTree σ → Visited Node → Run σ (Visited Node)
  | .table v, x => v.visit parent root x
  | .row ts, x => visitRow parent root ts x

/-- Visit with a row of visitors. -/
def visitRow (parent : Option Node) (root : Node) : List (VisitorTree σ) → Visited Node → Run σ (Visited Node)
  | [], x => pure x
  | t :: ts, x => do
    let y ← visit parent root t x
    visitRow parent root ts y

end

mutual

/-- The single visitors, in the order in which they are applied. -/
def flatten : VisitorTree σ → List (Visitor σ)
  | .table v => [v]
  | .row ts => flattenRow ts

/-- The single visitors of a row. -/
def flattenRow : List (VisitorTree σ) → List (Visitor σ)
  | [] => []
  | t :: ts => flatten t ++ flattenRow ts

end

end VisitorTree

end ShellInliner
