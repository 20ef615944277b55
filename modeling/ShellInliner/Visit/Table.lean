import ShellInliner.Node.Load
import ShellInliner.Visit.Traverse

/-! # Visitors given as data

    A handler may be given as a list of rules, the first of which that applies
    decides.  Every call is recorded in a trace. -/

namespace ShellInliner

/-- When a rule applies: every condition that is given has to hold.  A
    condition may ask for the absence of a label or a parent. -/
structure Condition where
  label : Option (Option String) := none
  type : Option (Option String) := none
  parent : Option (Option String) := none

/-- What a rule does. -/
inductive Action
  | keep
  /-- Put the node in its own place. -/
  | same
  | remove
  | replace (tree : Json.Value)
  /-- Put several trees in its place; empty ones are given as null. -/
  | splice (trees : List Json.Value)
  | wrap (before after : List Json.Value)
  | append (text : String)

structure VisitRule where
  condition : Condition
  action : Action

/-- The record of one call of a handler. -/
structure Call where
  kind : Kind
  label : Option String
  parentKind : Option Kind
  parentLabel : Option String
  rootKind : Kind

/-- The calls so far, the last first. -/
abbrev Trace := List Call

/-- Does a condition hold of a call? -/
def Condition.holds (c : Condition) (call : Call) : Bool :=
  c.label.all (· == call.label) && c.type.all (· == some call.kind.label) &&
    c.parent.all (· == call.parentKind.map Kind.label)

/-- The action of the first rule that applies. -/
def decide? (rules : List VisitRule) (call : Call) : Option Action :=
  (rules.find? (·.condition.holds call)).map VisitRule.action

/-- A tree, or nothing for null. -/
def loadOptional : Json.Value → Except Error (Option Node)
  | .null => .ok none
  | v => (Node.load v).map some

/-- What an action decides about a node. -/
def Action.outcome (n : Node) : Action → Except Error (Outcome Node)
  | keep => .ok .keep
  | same => .ok (.replace n)
  | remove => .ok .remove
  | replace tree => (Node.load tree).map .replace
  | splice trees => (trees.mapM loadOptional).map .splice
  | wrap before after => do
    let b ← before.mapM loadOptional
    let a ← after.mapM loadOptional
    return .splice (b ++ some n :: a)
  | append text =>
    match n.text? with
    | some t => .ok (.replace (n.withHead (n.head.withText (t ++ text))))
    | none => .error .missingPart

def Call.of (n : Node) (parent : Option Node) (root : Node) : Call :=
  ⟨n.kind, n.label?, parent.map Node.kind, parent.bind Node.label?, root.kind⟩

/-- The handler that a list of rules gives. -/
def ruleHandler (rules : List VisitRule) : Handler Trace := fun n parent root => do
  let call := Call.of n parent root
  -- A call is recorded even where no rule applies or the action fails.
  modify (call :: ·)
  match decide? rules call with
  | none => return .keep
  | some action => Run.lift (action.outcome n)

/-- A table of rules by the names of kinds. -/
abbrev RuleTable := Table (List VisitRule)

/-- The visitor that a table of rules gives. -/
def RuleTable.visitor (t : RuleTable) : Visitor Trace :=
  t.map fun e => (e.1, e.2.map ruleHandler)

/-! ### Reading tables -/

/-- A condition that may be given, as a text or as null. -/
def givenText (v : Json.Value) (key : String) : Option (Option String) :=
  match v.get? key with
  | none => none
  | some (.string s) => some (some s)
  | some _ => some none

/-- The elements of an array; none if there is no array. -/
def elements : Option Json.Value → List Json.Value
  | some (.array vs) => vs
  | _ => []

/-- The text of a member; empty if there is none. -/
def textMember (v : Json.Value) (key : String) : String :=
  match v.get? key with
  | some (.string s) => s
  | _ => ""

/-- The action that a value describes. -/
def Action.ofJson (v : Json.Value) : Action :=
  match textMember v "do" with
  | "same" => same
  | "remove" => remove
  | "replace" => replace ((v.get? "tree").getD .null)
  | "splice" => splice (elements (v.get? "trees"))
  | "wrap" => wrap (elements (v.get? "before")) (elements (v.get? "after"))
  | "append" => append (textMember v "text")
  | _ => keep

/-- The rule that a value describes. -/
def VisitRule.ofJson (v : Json.Value) : VisitRule :=
  let condition := (v.get? "when").getD .null
  ⟨⟨givenText condition "label", givenText condition "type", givenText condition "parent"⟩,
   Action.ofJson v⟩

/-- The table that a value describes. -/
def RuleTable.ofJson : Json.Value → RuleTable
  | .object members =>
    members.map fun m =>
      (m.1, match m.2 with
        | .array rules => some (rules.map VisitRule.ofJson)
        | _ => none)
  | _ => []

mutual

/-- The visitors that a value describes: an array stands for visitors in a row. -/
def VisitorTree.ofJson : Json.Value → VisitorTree Trace
  | .array vs => .row (VisitorTree.rowOfJson vs)
  | v => .table (RuleTable.ofJson v).visitor

/-- The visitors that a row of values describes. -/
def VisitorTree.rowOfJson : List Json.Value → List (VisitorTree Trace)
  | [] => []
  | v :: vs => VisitorTree.ofJson v :: VisitorTree.rowOfJson vs

end

end ShellInliner
