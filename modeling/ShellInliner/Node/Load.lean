import ShellInliner.Json.Check
import ShellInliner.Node.Dump

/-! # Reading trees

    A tree is read from the form in which it is written.  Unknown members are
    passed over, members may go by their second name, plain values are taken
    generously, and every fault is found: members in the order of the table,
    parts before what follows them. -/

namespace ShellInliner.Node

open Json (Value Checked Trail checkFlag checkInt checkText checkOptional refuse member?
  memberEither?)

/-! ### Places and plain values -/

/-- A member that has to be given. -/
def checkRequired {α : Type} (trail : Trail) (members : List (String × Value)) (key : String)
    (check : Trail → Value → Checked α) : Checked α :=
  match member? members key with
  | none => refuse (.key key :: trail) .missing
  | some v => check (.key key :: trail) v

/-- An object. -/
def checkObject {α : Type} (trail : Trail) (v : Value)
    (check : List (String × Value) → Checked α) : Checked α :=
  match v with
  | .object members => check members
  | _ => refuse trail .modelType

/-- A point in the source. -/
def checkPosition (trail : Trail) (v : Value) : Checked Position :=
  checkObject trail v fun members =>
    (Checked.both (checkRequired trail members "row" checkInt)
      (Checked.both (checkRequired trail members "col" checkInt)
        (checkRequired trail members "char" checkInt))).map
      fun p => ⟨p.1, p.2.1, p.2.2⟩

/-- The place of a node of a kind. -/
def checkExtent (k : Kind) (trail : Trail) (v : Value) : Checked Extent :=
  checkObject trail v fun members =>
    if k.isExpansion then
      (Checked.both (checkRequired trail members "start" checkInt)
        (checkRequired trail members "end" checkInt)).map fun p => .offsets p.1 p.2
    else
      (Checked.both (checkRequired trail members "start" checkPosition)
        (checkRequired trail members "end" checkPosition)).map fun p => .between p.1 p.2

/-- One of the two connectives. -/
def checkConnective (trail : Trail) : Value → Checked Connective
  | .string s =>
    match Connective.ofLabel? s with
    | some c => .ok c
    | none => refuse trail .literalError
  | _ => refuse trail .literalError

/-- A plain value of a type, which may not be given. -/
def checkScalar (trail : Trail) (type : AttributeType) (v : Option Value) : Checked Scalar :=
  match type, v with
  | .flag, none => .ok (.flag false)
  | .flag, some v => (checkFlag trail v).map .flag
  | .text, none => refuse trail .missing
  | .text, some v => (checkText trail v).map .text
  | .connective, none => refuse trail .missing
  | .connective, some v => (checkConnective trail v).map .connective
  | .optionalNumber, v => (checkOptional (checkInt trail) v).map .optionalNumber
  | .optionalText, v => (checkOptional (checkText trail) v).map .optionalText

/-- The kind that a node states has to be the one that is read. -/
def checkStated (k : Kind) (trail : Trail) (members : List (String × Value)) : Checked Unit :=
  match member? members "type" with
  | none => .ok ()
  | some (.string s) =>
    if s = k.label then .ok () else refuse (.key "type" :: trail) .literalError
  | some _ => refuse (.key "type" :: trail) .literalError

/-! ### Nodes -/

/-- What one member of the table gives: a plain value or children. -/
inductive Part
  | scalar (s : Scalar)
  | children (cs : List (Field × Node))

/-- The plain values among the parts. -/
def partScalars (ps : List Part) : List Scalar :=
  ps.filterMap fun
    | .scalar s => some s
    | _ => none

/-- The children among the parts. -/
def partChildren (ps : List Part) : List (Field × Node) :=
  ps.flatMap fun
    | .children cs => cs
    | _ => []

/-- Children in visiting order. -/
def inVisitingOrder (k : Kind) (cs : List (Field × Node)) : List (Field × Node) :=
  k.fieldOrder.flatMap fun f => cs.filter (·.1 = f)

/-- A node put together from its parts. -/
def ofParts (k : Kind) (l : Option Extent) (ps : List Part) : Node :=
  mk ((Head.ofScalars? k (partScalars ps)).getD default) l (inVisitingOrder k (partChildren ps))

/-- The kind that a value states, among those that are admitted. -/
def statedKind (kinds : List Kind) (trail : Trail) (members : List (String × Value)) :
    Checked Kind :=
  match member? members "type" with
  | none => refuse trail .tagNotFound
  | some (.string s) =>
    match kinds.find? (·.label = s) with
    | some k => .ok k
    | none => refuse trail .tagInvalid
  | some _ => refuse trail .tagInvalid

/-- How the members of a node of a kind are read. -/
abbrev Loader := Kind → Trail → List (String × Value) → Checked Node

/-- Read one child, given how nodes are read. -/
def loadChild (load : Loader) (admission : Admission) (trail : Trail) (v : Value) :
    Checked Node :=
  match admission, v with
  -- Where only one kind can stand, the kind need not be stated.
  | .only k, v => checkObject trail v (load k trail)
  | .oneOf ks, .object members =>
    match statedKind ks trail members with
    | .error issues => .error issues
    | .ok k => load k (.key k.label :: trail) members
  | .oneOf _, _ => refuse trail .modelAttributesType

/-- Read the elements of a sequence, given the number of those before them. -/
def loadElements (load : Loader) (admission : Admission) (trail : Trail) :
    Nat → List Value → Checked (List Node)
  | _, [] => .ok []
  | i, v :: vs =>
    (Checked.both (loadChild load admission (.index i :: trail) v)
      (loadElements load admission trail (i + 1) vs)).map fun p => p.1 :: p.2

/-- Read one member of the table. -/
def loadMember (load : Loader) (trail : Trail) (members : List (String × Value)) :
    Member → Checked Part
  | .attribute a type =>
    (checkScalar (.key a.key :: trail) type (memberEither? members a.key a.longKey)).map .scalar
  | .child f arity admission =>
    let here := Step.key f.key :: trail
    match memberEither? members f.key f.longKey, arity with
    | none, .required => refuse here .missing
    | none, _ => .ok (.children [])
    -- Null is as good as nothing for an optional child, and a fault everywhere else.
    | some .null, .optional => .ok (.children [])
    | some (.array vs), .many =>
      (loadElements load admission here 0 vs).map fun ns => .children (ns.map (f, ·))
    | some _, .many => refuse here .listType
    | some v, _ => (loadChild load admission here v).map fun n => .children [(f, n)]

/-- Read the members of a node of a kind.  The fuel bounds how deep nodes may
    lie in one another. -/
def loadAs : Nat → Loader
  -- Never met: the fuel is the depth of the whole value.
  | 0, _, trail, _ => refuse trail .modelType
  | fuel + 1, k, trail, members =>
    (Checked.both (checkStated k trail members)
      (Checked.both
        (checkOptional (checkExtent k (.key "loc" :: trail)) (member? members "loc"))
        (Checked.all (k.members.map (loadMember (loadAs fuel) trail members))))).map
      fun p => ofParts k p.2.1 p.2.2

/-! ### Trees -/

mutual

/-- How deep values lie in one another. -/
def depth : Value → Nat
  | .array vs => 1 + depthOfElements vs
  | .object ms => 1 + depthOfMembers ms
  | _ => 1

/-- The greatest depth in a row of values. -/
def depthOfElements : List Value → Nat
  | [] => 0
  | v :: vs => max (depth v) (depthOfElements vs)

/-- The greatest depth in a row of members. -/
def depthOfMembers : List (String × Value) → Nat
  | [] => 0
  | (_, v) :: ms => max (depth v) (depthOfMembers ms)

end

/-- The digits of a decimal with a point among them. -/
def shownDecimal (d : Json.Decimal) : String :=
  let digits := (Nat.toDigits 10 d.mantissa.natAbs)
  let places := d.exponent.natAbs
  let padded := List.replicate (places + 1 - digits.length) '0' ++ digits
  let whole := padded.take (padded.length - places)
  let fraction := padded.drop (padded.length - places)
  (if d.mantissa < 0 then "-" else "") ++ String.ofList whole ++ "." ++ String.ofList fraction

/-- A value that is no kind, as it is shown in a message. -/
def shownKind? : Value → Option String
  | .null => some "None"
  | .bool b => some (if b then "True" else "False")
  | .int n => some (toString n)
  | .real d => some (shownDecimal d)
  | .notFinite => some "nan"
  | .string s => some (Text.literal s)
  | .array _ | .object _ => none

/-- Read a tree of any kind. -/
def load (v : Value) : Except Error Node :=
  match v with
  | .object members =>
    match member? members "type" with
    | none => .error (.missingKey (Text.literal "type"))
    | some stated =>
      let kind? := match stated with
        | .string s => Kind.ofLabel? s
        | _ => none
      match kind? with
      | some k =>
        match loadAs (depth v) k [] members with
        | .ok n => .ok n
        | .error issues => .error (.invalid issues)
      | none =>
        -- Kinds are looked up by name, and a sequence or an object can be no name.
        match shownKind? stated with
        | some shown => .error (.missingKey shown)
        | none => .error .wrongForm
  | _ => .error .wrongForm

end ShellInliner.Node
