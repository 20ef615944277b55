import ShellInliner.Node.Kind

/-! # Syntax trees

    A node has a head, which gives its kind and its plain values, a place in
    the source, which may be unknown, and its children, each with the field it
    fills.  The children stand in visiting order, field by field, so that every
    walk over a tree is one recursion over lists of children.  Trees may be nested
    to any depth: there is no stack here that a deep one could exhaust.

    A visitor may put any node into any field; `Node.isWellTyped` tells the
    trees that keep to the table of members. -/

namespace ShellInliner

/-- How two statements are joined. -/
inductive Connective
  | and
  | or
  deriving DecidableEq, Repr, Inhabited

/-- The word for a connective in a written tree. -/
def Connective.label : Connective → String
  | and => "and"
  | or => "or"

def Connective.ofLabel? (s : String) : Option Connective :=
  if s = "and" then some and else if s = "or" then some or else none

/-- A point in a text: row and column count from one, characters from zero. -/
structure Position where
  row : Int
  col : Int
  char : Int
  deriving DecidableEq, Repr, Inhabited

/-- The place of a node. -/
inductive Extent
  | between (start stop : Position)
  /-- A part of the word that an expansion belongs to. -/
  | offsets (start stop : Int)
  deriving DecidableEq, Repr, Inhabited

/-- The kind of a node and its plain values. -/
inductive Head
  | script
  | pipeline (async bang : Bool)
  | logicalExpression (async : Bool) (op : Connective)
  | command (async : Bool)
  | function (async : Bool)
  | name (text : String)
  | compoundList (async : Bool)
  | subshell (async : Bool)
  | forLoop (async : Bool)
  | caseOf (async : Bool)
  | caseItem
  | ifElse (async : Bool)
  | whileLoop (async : Bool)
  | untilLoop (async : Bool)
  | redirect (op : String) (number : Option Int)
  | word (text : String)
  | assignmentWord (text : String)
  | arithmeticExpansion (expression : String) (resolved : Bool)
  | commandExpansion (command : String) (backquoted resolved : Bool)
  | parameterExpansion (parameter : String) (kind word op : Option String) (braced : Bool)
  deriving DecidableEq, Repr, Inhabited

namespace Head

/-- The kind a head belongs to. -/
def kind : Head → Kind
  | script => .script
  | pipeline .. => .pipeline
  | logicalExpression .. => .logicalExpression
  | command .. => .command
  | function .. => .function
  | name .. => .name
  | compoundList .. => .compoundList
  | subshell .. => .subshell
  | forLoop .. => .forLoop
  | caseOf .. => .caseOf
  | caseItem => .caseItem
  | ifElse .. => .ifElse
  | whileLoop .. => .whileLoop
  | untilLoop .. => .untilLoop
  | redirect .. => .redirect
  | word .. => .word
  | assignmentWord .. => .assignmentWord
  | arithmeticExpansion .. => .arithmeticExpansion
  | commandExpansion .. => .commandExpansion
  | parameterExpansion .. => .parameterExpansion

/-- The text of a word or a name. -/
def text? : Head → Option String
  | name t | word t | assignmentWord t => some t
  | _ => none

/-- The same head with another text, if it has one. -/
def withText (h : Head) (t : String) : Head :=
  match h with
  | name _ => name t
  | word _ => word t
  | assignmentWord _ => assignmentWord t
  | _ => h

/-- Does the statement run in the background? -/
def async : Head → Bool
  | pipeline a _ | logicalExpression a _ | command a | function a | compoundList a | subshell a
  | forLoop a | caseOf a | ifElse a | whileLoop a | untilLoop a => a
  | _ => false

/-- The same head, running in the background if it is a statement. -/
def inBackground : Head → Head
  | pipeline _ b => pipeline true b
  | logicalExpression _ o => logicalExpression true o
  | command _ => command true
  | function _ => function true
  | compoundList _ => compoundList true
  | subshell _ => subshell true
  | forLoop _ => forLoop true
  | caseOf _ => caseOf true
  | ifElse _ => ifElse true
  | whileLoop _ => whileLoop true
  | untilLoop _ => untilLoop true
  | h => h

end Head

/-- A node of a syntax tree. -/
inductive Node
  | mk (head : Head) (loc : Option Extent) (children : List (Field × Node))
  deriving Inhabited

namespace Node

def head : Node → Head
  | mk h _ _ => h

def loc : Node → Option Extent
  | mk _ l _ => l

/-- The children of a node, each with the field it fills. -/
def children : Node → List (Field × Node)
  | mk _ _ cs => cs

def kind (n : Node) : Kind :=
  n.head.kind

/-- The text of a word or a name. -/
def text? (n : Node) : Option String :=
  n.head.text?

/-- The children that fill a field, in order. -/
def within (f : Field) (cs : List (Field × Node)) : List Node :=
  cs.filterMap fun c => if c.1 = f then some c.2 else none

/-- The children of a node that fill a field, in order. -/
def all (n : Node) (f : Field) : List Node :=
  within f n.children

/-- The first child of a node that fills a field. -/
def one? (n : Node) (f : Field) : Option Node :=
  (n.all f).head?

def withHead (n : Node) (h : Head) : Node :=
  mk h n.loc n.children

def withLoc (n : Node) (l : Option Extent) : Node :=
  mk n.head l n.children

def withChildren (n : Node) (cs : List (Field × Node)) : Node :=
  mk n.head n.loc cs

/-- The same node with other children in one sequence that stands last. -/
def withLast (n : Node) (f : Field) (ns : List Node) : Node :=
  n.withChildren (n.children.filter (·.1 ≠ f) ++ ns.map (f, ·))

/-- The row on which a node starts, if its place in the source is known. -/
def row? (n : Node) : Option Int :=
  match n.loc with
  | some (.between start _) => some start.row
  | _ => none

/-- The text a node is known by: that of a word or a name, or that of the name
    of a command, a function or a loop. -/
def label? (n : Node) : Option String :=
  match n.kind with
  | .word | .assignmentWord | .name => n.text?
  | .command | .function | .forLoop => (n.one? .name).bind text?
  | _ => none

/-! ### Well-typed trees -/

/-- Does a place have the form that places of this kind of node have? -/
def fitsLoc (k : Kind) : Option Extent → Bool
  | none => true
  | some (.between _ _) => !k.isExpansion
  | some (.offsets _ _) => k.isExpansion

/-- Do the kinds of the children fit one member of the table? -/
def fitsMember (cs : List (Field × Kind)) : Member → Bool
  | .attribute _ _ => true
  | .child f arity admission =>
    let here := cs.filterMap fun c => if c.1 = f then some c.2 else none
    here.all admission.kinds.contains &&
      match arity with
      | .required => here.length = 1
      | .optional => here.length ≤ 1
      | .many => true

/-- Do the children stand field by field in visiting order, in fields that the
    kind has? -/
def fitsOrder (k : Kind) (fs : List Field) : Bool :=
  -- Fields that the kind does not have are lost on the right, so they make this false.
  fs = k.fieldOrder.flatMap fun f => fs.filter (· = f)

/-- Do the children of a node fit the table of members? -/
def fitsChildren (k : Kind) (cs : List (Field × Kind)) : Bool :=
  fitsOrder k (cs.map (·.1)) && k.members.all (fitsMember cs)

mutual

/-- Does the tree keep to the table of members everywhere? -/
def isWellTyped : Node → Bool
  | mk h l cs =>
    fitsLoc h.kind l && fitsChildren h.kind (cs.map fun c => (c.1, c.2.kind)) && areWellTyped cs

/-- Do all these trees keep to the table of members? -/
def areWellTyped : List (Field × Node) → Bool
  | [] => true
  | (_, n) :: cs => isWellTyped n && areWellTyped cs

end

end Node

end ShellInliner
