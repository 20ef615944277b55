import ShellInliner.Source.Layout
import ShellInliner.Workspace.Basic

/-! # Traversals in a workspace

    A traversal visits nodes in the same order as the traversal of a tree.  A
    node with children is not changed: a copy of it, with rows of its own and
    no source kept, takes what the visits of its children leave.  Leaves are
    handed on as they are, so they stay shared. -/

namespace ShellInliner.Workspace

/-- A handler is given the node, its parent and the root. -/
abbrev WorkHandler := Handle → Option Handle → Handle → Work (Outcome Handle)

/-- Traverse a single field. -/
def traverseSingle (visit : Handle → Work (Visited Handle)) (k : Kind)
    (s : Field × Option Handle) : Work (Field × Option Handle) := do
  match s.2 with
  | none => return (s.1, none)
  | some h => return (s.1, ← Run.lift ((← visit h).single k s.1))

/-- Traverse a sequence into a new row. -/
def traverseSequence (visit : Handle → Work (Visited Handle)) (s : Field × RowHandle) :
    Work (Field × RowHandle) := do
  let left ← (← row s.2).mapM fun
    | none => return []
    | some h => return (← visit h).sequence
  return (s.1, ← newRow (left.flatten.map some))

/-- Traverse the children of a node and put what is left of them into a copy of
    it; a leaf stays itself. -/
def descend (visit : Handle → Work (Visited Handle)) (h : Handle) : Work Handle := do
  let c ← cell h
  if c.head.kind.isLeaf then return h
  else
    let singles ← c.singles.mapM (traverseSingle visit c.head.kind)
    let sequences ← c.sequences.mapM (traverseSequence visit)
    -- The copy keeps the layout of the node, but its text has to be made anew.
    newCell { c with singles, sequences, memo := none }

/-- Visit a node and everything below it.  The fuel bounds the depth. -/
def traverseAt (table : Table WorkHandler) (root : Handle) :
    Nat → Option Handle → Handle → Work (Visited Handle)
  | 0, _, _ => throw .endless
  | fuel + 1, parent, h => do
    let d ← descend (traverseAt table root fuel (some h)) h
    match Table.entry? table (← cell d).head.kind with
    | none => return .one d
    | some handler => return (← handler d parent root).apply d

/-- Traverse the tree below a node. -/
def traverse (table : Table WorkHandler) (root : Handle) : Work (Visited Handle) := do
  match Table.unknownNames table with
  | [] => traverseAt table root (← get).fuel none root
  | names => throw (.unknownKinds names)

/-! ### Installing layouts -/

def install (style : Style) (h : Handle) : Work Unit :=
  changeCell h fun c => { c with style := some style }

/-- The handler that installs layouts: a list of statements stands between braces
    under some parents, and the expansions of a word get theirs with the word. -/
def installer : WorkHandler := fun h parent _ => do
  let c ← cell h
  let parentKind ← parent.mapM fun p => return (← cell p).head.kind
  -- Words are leaves, so their expansions are never visited on their own.
  let expansions ← match c.sequences.lookup .expansion with
    | some r => row r
    | none => pure []
  for e in expansions do
    match e with
    | some x => install .plain x
    | none => throw .missingPart
  install (if Source.isBraced parentKind c.head.kind then .braced else .plain) h
  return .replace h

/-- The table that installs the layouts of all kinds. -/
def installers : Table WorkHandler :=
  Kind.all.map fun k => (k.label, some installer)

/-- Install layouts on a copy of the tree below a node. -/
def generate (h : Handle) : Work (Visited Handle) :=
  traverse installers h

/-! ### Handlers given as rules -/

/-- The text that a node is known by. -/
def label? (h : Handle) : Work (Option String) := do
  let c ← cell h
  match c.head.kind with
  | .word | .assignmentWord | .name => return c.head.text?
  | .command | .function | .forLoop =>
    match child? c .name with
    | none => return none
    | some n => return (← cell n).head.text?
  | _ => return none

def callOf (h : Handle) (parent : Option Handle) (root : Handle) : Work Call := do
  let kindOf := fun h => do return (← cell h).head.kind
  return ⟨← kindOf h, ← label? h, ← parent.mapM kindOf,
    (← parent.mapM label?).join, ← kindOf root⟩

def loadTree (v : Json.Value) : Work Handle := do
  addTree (← Run.lift (Node.load v))

/-- Put a written tree into the workspace, or nothing for null. -/
def loadOptionalTree : Json.Value → Work (Option Handle)
  | .null => return none
  | v => return some (← loadTree v)

/-- A copy of a word or a name with more text.  The copy shares the rows of the
    node and keeps its layout and its source. -/
def appendText (h : Handle) (text : String) : Work Handle := do
  let c ← cell h
  match c.head.text? with
  | some t => newCell { c with head := c.head.withText (t ++ text) }
  | none => throw .missingPart

/-- What an action decides about a node. -/
def perform (h : Handle) : Action → Work (Outcome Handle)
  | .keep => return .keep
  | .same => return .replace h
  | .remove => return .remove
  | .replace tree => return .replace (← loadTree tree)
  | .splice trees => return .splice (← trees.mapM loadOptionalTree)
  | .wrap before after => do
    let b ← before.mapM loadOptionalTree
    let a ← after.mapM loadOptionalTree
    return .splice (b ++ some h :: a)
  | .append text => return .replace (← appendText h text)

/-- The handler that a list of rules gives. -/
def ruleHandler (rules : List VisitRule) : WorkHandler := fun h parent root => do
  let call ← callOf h parent root
  modify fun w => { w with trace := call :: w.trace }
  match decide? rules call with
  | none => return .keep
  | some action => perform h action

/-- The handlers that a table of rules gives. -/
def ruleHandlers (t : RuleTable) : Table WorkHandler :=
  t.map fun e => (e.1, e.2.map ruleHandler)

end ShellInliner.Workspace
