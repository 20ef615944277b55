import ShellInliner.Node.Scalar
import ShellInliner.Visit.Table

/-! # Workspaces

    In a workspace nodes have identity: one node may be a child of several
    others, and a change to it shows everywhere.  A node is a cell, known by its
    handle; its single children are handles, and each of its sequences is a row,
    which has an identity of its own, because nodes that are copies of one
    another share their rows until one of them gets new ones.

    A cell also remembers how its source is to be laid out, once that has been
    installed, and the text itself, once that has been read. -/

namespace ShellInliner

/-- The handle of a node. -/
abbrev Handle := Nat

/-- The handle of a row of nodes. -/
abbrev RowHandle := Nat

/-- How the source of a node is laid out: by its kind, or, for a list of
    statements, between braces. -/
inductive Style
  | plain
  | braced
  deriving DecidableEq, Repr

/-- A node of a workspace. -/
structure Cell where
  head : Head
  loc : Option Extent
  singles : List (Field × Option Handle)
  sequences : List (Field × RowHandle)
  /-- How the source is laid out, if that has been installed. -/
  style : Option Style
  /-- The source, if it has been read. -/
  memo : Option String
  deriving DecidableEq, Repr

/-- What a slot or a path leads to. -/
inductive Ref
  | node (h : Handle)
  | row (r : RowHandle)
  | null
  | scalar (s : Scalar)
  deriving DecidableEq, Repr

/-- A workspace. -/
structure Workspace where
  cells : Array Cell := #[]
  /-- The rows of nodes; an element may be empty. -/
  rows : Array (List (Option Handle)) := #[]
  /-- What the slots hold, the last assignment first. -/
  slots : List (String × Ref) := []
  /-- The calls of handlers in the last traversal, the last first. -/
  trace : Trace := []

/-- Work in a workspace. -/
abbrev Work := Run Workspace

namespace Workspace

/-! ### Cells and rows -/

def cell (h : Handle) : Work Cell := do
  match (← get).cells[h]? with
  | some c => return c
  | none => throw .missingPart

def row (r : RowHandle) : Work (List (Option Handle)) := do
  match (← get).rows[r]? with
  | some xs => return xs
  | none => throw .missingPart

def newCell (c : Cell) : Work Handle := do
  let w ← get
  set { w with cells := w.cells.push c }
  return w.cells.size

def newRow (xs : List (Option Handle)) : Work RowHandle := do
  let w ← get
  set { w with rows := w.rows.push xs }
  return w.rows.size

def changeCell (h : Handle) (f : Cell → Cell) : Work Unit :=
  modify fun w => { w with cells := w.cells.modify h f }

def changeRow (r : RowHandle) (f : List (Option Handle) → List (Option Handle)) : Work Unit :=
  modify fun w => { w with rows := w.rows.modify r f }

/-- The children of a cell in a field, some of which may be empty. -/
def children (c : Cell) (f : Field) : Work (List (Option Handle)) :=
  match c.sequences.lookup f with
  | some r => row r
  | none => return ((c.singles.lookup f).join.toList.map some)

/-- The single child of a cell in a field. -/
def child? (c : Cell) (f : Field) : Option Handle :=
  (c.singles.lookup f).join

/-! ### Trees -/

mutual

/-- Put a tree into the workspace, every node of it as a new one. -/
def addTree : Node → Work Handle
  | .mk h l cs => do
    -- Children are made before their parent, so a new tree cannot lie below itself.
    let ds ← addChildren cs
    let inField := fun f => ds.filterMap fun d => if d.1 = f then some d.2 else none
    let sequences ← h.kind.sequenceFields.mapM fun f => do
      return (f, ← newRow ((inField f).map some))
    let singles := h.kind.singleFields.map fun f => (f, (inField f).head?)
    newCell ⟨h, l, singles, sequences, none, none⟩

/-- Put the children of a node into the workspace. -/
def addChildren : List (Field × Node) → Work (List (Field × Handle))
  | [] => return []
  | (f, n) :: cs => do
    let h ← addTree n
    let others ← addChildren cs
    return (f, h) :: others

end

/-- The tree below a node.  The fuel bounds its depth; there is no tree if the
    node lies below itself. -/
def tree? (w : Workspace) : Nat → Handle → Option Node
  | 0, _ => none
  | fuel + 1, h => do
    let c ← w.cells[h]?
    let singles ← (c.singles.filterMap fun s => s.2.map (s.1, ·)).mapM fun s => do
      return (s.1, ← tree? w fuel s.2)
    let sequences ← c.sequences.mapM fun s => do
      -- Empty elements are passed over.
      let xs ← w.rows[s.2]?
      (xs.filterMap id).mapM fun x => do return (s.1, ← tree? w fuel x)
    return .mk c.head c.loc (singles ++ sequences.flatten)

/-- Enough fuel for every tree in the workspace. -/
def fuel (w : Workspace) : Nat :=
  -- A way down that is longer meets some node twice.
  w.cells.size + 1

/-- The tree below a node. -/
def tree (e : Error) (h : Handle) : Work Node := do
  let w ← get
  match w.tree? w.fuel h with
  | some n => return n
  | none => throw e

end Workspace

end ShellInliner
