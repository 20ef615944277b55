import ShellInliner.Node.Basic

/-! # The plain values of a head

    A head is taken apart into the row of its plain values, in the order of the
    table of members, and put together from such a row.  Reading, writing and
    changing single attributes all go through the row. -/

namespace ShellInliner

/-- A plain value. -/
inductive Scalar
  | flag (b : Bool)
  | text (s : String)
  | connective (c : Connective)
  | optionalNumber (n : Option Int)
  | optionalText (s : Option String)
  deriving DecidableEq, Repr

namespace Head

/-- The plain values of a head, in the order of the table of members. -/
def scalars : Head → List Scalar
  | script | caseItem => []
  | pipeline a b => [.flag a, .flag b]
  | logicalExpression a o => [.flag a, .connective o]
  | command a | function a | compoundList a | subshell a | forLoop a | caseOf a | ifElse a
  | whileLoop a | untilLoop a => [.flag a]
  | name t | word t | assignmentWord t => [.text t]
  | redirect o n => [.text o, .optionalNumber n]
  | arithmeticExpansion e r => [.text e, .flag r]
  | commandExpansion c b r => [.text c, .flag b, .flag r]
  | parameterExpansion p k w o b =>
    [.text p, .optionalText k, .optionalText w, .optionalText o, .flag b]

/-- The head of a kind with a row of plain values. -/
def ofScalars? : Kind → List Scalar → Option Head
  | .script, [] => some script
  | .caseItem, [] => some caseItem
  | .pipeline, [.flag a, .flag b] => some (pipeline a b)
  | .logicalExpression, [.flag a, .connective o] => some (logicalExpression a o)
  | .command, [.flag a] => some (command a)
  | .function, [.flag a] => some (function a)
  | .compoundList, [.flag a] => some (compoundList a)
  | .subshell, [.flag a] => some (subshell a)
  | .forLoop, [.flag a] => some (forLoop a)
  | .caseOf, [.flag a] => some (caseOf a)
  | .ifElse, [.flag a] => some (ifElse a)
  | .whileLoop, [.flag a] => some (whileLoop a)
  | .untilLoop, [.flag a] => some (untilLoop a)
  | .name, [.text t] => some (name t)
  | .word, [.text t] => some (word t)
  | .assignmentWord, [.text t] => some (assignmentWord t)
  | .redirect, [.text o, .optionalNumber n] => some (redirect o n)
  | .arithmeticExpansion, [.text e, .flag r] => some (arithmeticExpansion e r)
  | .commandExpansion, [.text c, .flag b, .flag r] => some (commandExpansion c b r)
  | .parameterExpansion,
    [.text p, .optionalText k, .optionalText w, .optionalText o, .flag b] =>
    some (parameterExpansion p k w o b)
  | _, _ => none

/-- Taking a head apart and putting it together gives the head. -/
@[simp] theorem ofScalars?_scalars (h : Head) : ofScalars? h.kind h.scalars = some h := by
  cases h <;> rfl

end Head

/-- The attributes of a kind with their types, in order. -/
def Kind.attributes (k : Kind) : List (Attribute × AttributeType) :=
  k.members.filterMap fun
    | .attribute a t => some (a, t)
    | _ => none

/-- The attributes of a head with their values, in order. -/
def Head.attributes (h : Head) : List (Attribute × Scalar) :=
  (h.kind.attributes.map (·.1)).zip h.scalars

/-- The head with another value for an attribute, if it has the attribute and
    the value is of its type. -/
def Head.set? (h : Head) (a : Attribute) (v : Scalar) : Option Head :=
  -- A value of another type makes a row that is not one of the kind.
  Head.ofScalars? h.kind (h.attributes.map fun e => if e.1 = a then v else e.2)

end ShellInliner
