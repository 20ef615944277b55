import ShellInliner.Functions
import ShellInliner.Parse.Script
import ShellInliner.Workspace.Source
import ShellInliner.Workspace.Traverse

/-! # Sessions

    A session is a row of steps on one workspace.  Slots hold nodes under names,
    and a step reaches any part of a tree by a path from a slot.  A step that
    fails gives its error, and the session goes on with the workspace as the
    step has left it. -/

namespace ShellInliner

/-- One step of a path. -/
inductive PathStep
  | key (name : String)
  /-- Into an element of a row; negative numbers count from its end. -/
  | index (i : Int)
  deriving DecidableEq, Repr

/-- A part of what a slot holds. -/
structure Address where
  slot : String
  path : List PathStep
  deriving DecidableEq, Repr

/-- A step of a session. -/
inductive SessionStep
  | parse (source : List Char) (options : Json.Value) (slot : String)
  | load (tree : Json.Value) (slot : String)
  | generate (target : Address) (slot : String)
  | source (target : Address)
  | assign (target : Address) (field : String) (value : Json.Value)
  /-- Put a node at the end of a row as well. -/
  | move (target item : Address)
  | pop (target : Address)
  | forget (target : Address)
  /-- Make a renamed copy of a function. -/
  | qualify (target : Address) (moduleName separator : String) (slot : String)
  | traverse (target : Address) (table : RuleTable) (slot : String)
  | functions (target : Address)
  /-- Are two parts the very same? -/
  | same (left right : Address)
  | dump (target : Address)

/-- The answer to a step. -/
inductive SessionAnswer
  /-- The number of statements read. -/
  | statements (n : Nat)
  | kind (k : Kind)
  | source (text : String)
  | length (n : Nat)
  | name (text : String)
  /-- The calls of handlers, the last first. -/
  | trace (calls : Trace)
  | functions (infos : List FunctionInfo)
  | same (b : Bool)
  | tree (v : Json.Value)

namespace Workspace

/-! ### Slots and paths -/

/-- What a slot holds. -/
def slot (name : String) : Work Ref := do
  match (← get).slots.lookup name with
  | some r => return r
  | none => throw (.missingKey (Text.literal name))

def assignSlot (name : String) (r : Ref) : Work Unit :=
  modify fun w => { w with slots := (name, r) :: w.slots }

/-- A node or nothing. -/
def refOf : Option Handle → Ref
  | some h => .node h
  | none => .null

def field? (fs : List Field) (name : String) : Option Field :=
  fs.find? fun f => f.key = name || f.longKey = name

def attribute? (k : Kind) (name : String) : Option (Attribute × AttributeType) :=
  k.attributes.find? fun a => a.1.key = name || a.1.longKey = name

/-- The member of a cell under a name. -/
def member (c : Cell) (name : String) : Work Ref :=
  match field? (c.singles.map (·.1)) name, field? (c.sequences.map (·.1)) name,
    attribute? c.head.kind name with
  | some f, _, _ => return refOf (child? c f)
  | none, some f, _ =>
    match c.sequences.lookup f with
    | some r => return .row r
    | none => throw .missingPart
  | none, none, some a =>
    match c.head.attributes.lookup a.1 with
    | some s => return .scalar s
    | none => throw .missingPart
  | none, none, none => throw .missingPart

/-- The element of a row at a number. -/
def element (xs : List (Option Handle)) (i : Int) : Work Ref :=
  let j := if i < 0 then i + xs.length else i
  if j < 0 then throw .outOfRange
  else
    match xs[j.toNat]? with
    | some x => return refOf x
    | none => throw .outOfRange

/-- What a path leads to. -/
def followPath : Ref → List PathStep → Work Ref
  | r, [] => return r
  | .node h, .key name :: rest => do followPath (← member (← cell h) name) rest
  | .row r, .index i :: rest => do followPath (← element (← row r) i) rest
  | _, .key _ :: _ => throw .missingPart
  | _, .index _ :: _ => throw .wrongForm

def resolve (a : Address) : Work Ref := do
  followPath (← slot a.slot) a.path

def nodeAt (a : Address) : Work Handle := do
  match ← resolve a with
  | .node h => return h
  | _ => throw .missingPart

def rowAt (a : Address) : Work RowHandle := do
  match ← resolve a with
  | .row r => return r
  | _ => throw .missingPart

/-- What a visit leaves, as something a slot can hold. -/
def keepVisited : Visited Handle → Work Ref
  | .one h => return .node h
  | .several hs => return .row (← newRow hs)
  | .nothing => return .null

/-! ### Changes -/

/-- A plain value of a type, taken as it is. -/
def scalarOf? : AttributeType → Json.Value → Option Scalar
  | .flag, .bool b => some (.flag b)
  | .text, .string s => some (.text s)
  | .connective, .string s => (Connective.ofLabel? s).map .connective
  | .optionalNumber, .null => some (.optionalNumber none)
  | .optionalNumber, .int n => some (.optionalNumber (some n))
  | .optionalText, .null => some (.optionalText none)
  | .optionalText, .string s => some (.optionalText (some s))
  | _, _ => none

/-- Change a member of a node: a plain value, or a single child to nothing. -/
def assignMember (h : Handle) (name : String) (v : Json.Value) : Work Unit := do
  let c ← cell h
  match attribute? c.head.kind name, field? (c.singles.map (·.1)) name with
  | some (a, type), _ =>
    match (scalarOf? type v).bind (c.head.set? a) with
    | some head => changeCell h fun c => { c with head }
    | none => throw .wrongForm
  | none, some f =>
    match v with
    | .null =>
      changeCell h fun c =>
        { c with singles := c.singles.map fun s => if s.1 = f then (f, none) else s }
    | _ => throw .wrongForm
  | none, none => throw .unknownMember

/-- A copy of a node whose name is a copy with the module and the separator
    before it.  Everything else is shared, and the source is not kept. -/
def qualifyCell (h : Handle) (moduleName separator : String) : Work (Handle × String) := do
  let c ← cell h
  match child? c .name with
  | none => throw .missingPart
  | some n =>
    let d ← cell n
    match d.head.text? with
    | none => throw .missingPart
    | some t =>
      let text := moduleName ++ separator ++ t
      -- The copy of the name keeps its layout and its text; only the function is printed anew.
      let renamed ← newCell { d with head := d.head.withText text }
      let singles := c.singles.map fun s => if s.1 = .name then (s.1, some renamed) else s
      return (← newCell { c with singles, memo := none }, text)

/-- A part, written without members that hold nothing. -/
def dumpRef : Ref → Work Json.Value
  | .null => return .null
  | .scalar s => return s.dump
  | .node h => return (← tree .circular h).dump .drop
  | .row r => do
    return .array (← (← row r).mapM fun
      | none => return .null
      | some h => return (← tree .circular h).dump .drop)

/-! ### Steps -/

def carryOut : SessionStep → Work SessionAnswer
  | .parse source options slot => do
    let options ← Run.lift (ParseOptions.load options none)
    let script ← Run.lift (ShellInliner.parse source options)
    assignSlot slot (.node (← addTree script))
    return .statements (script.all .commands).length
  | .load v slot => do
    let n ← Run.lift (Node.load v)
    assignSlot slot (.node (← addTree n))
    return .kind n.kind
  | .generate a slot => do
    match ← keepVisited (← generate (← nodeAt a)) with
    | .node h =>
      assignSlot slot (.node h)
      return .kind (← cell h).head.kind
    | _ => throw .missingPart
  | .source a => do return .source (← read (← nodeAt a))
  | .assign a name v => do
    let h ← nodeAt a
    assignMember h name v
    return .kind (← cell h).head.kind
  | .move a item => do
    let r ← rowAt a
    match ← resolve item with
    | .node h => changeRow r (· ++ [some h])
    | _ => throw .missingPart
    return .length (← row r).length
  | .pop a => do
    let r ← rowAt a
    -- An empty row is left alone: there is nothing to drop.
    match ← row r with
    | [] => throw .outOfRange
    | _ => changeRow r List.dropLast
    return .length (← row r).length
  | .forget a => do
    let h ← nodeAt a
    forget h
    return .kind (← cell h).head.kind
  | .qualify a moduleName separator slot => do
    let (h, text) ← qualifyCell (← nodeAt a) moduleName separator
    assignSlot slot (.node h)
    return .name text
  | .traverse a table slot => do
    let h ← nodeAt a
    -- The trace is that of the last traversal, even if it fails.
    modify fun w => { w with trace := [] }
    let r ← keepVisited (← traverse (ruleHandlers table) h)
    assignSlot slot r
    return .trace (← get).trace
  | .functions a => do
    return .functions (← Run.lift (← tree .endless (← nodeAt a)).functions)
  | .same a b => do return .same ((← resolve a) = (← resolve b))
  | .dump a => do return .tree (← dumpRef (← resolve a))

end Workspace

/-- The answers to the steps of a session, from a workspace on. -/
def runSession (w : Workspace) : List SessionStep → List (Except Error SessionAnswer)
  | [] => []
  | s :: ss =>
    let (answer, w) := (Workspace.carryOut s).run.run w
    answer :: runSession w ss

end ShellInliner
