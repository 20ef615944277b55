import ShellInliner.Json.Value
import ShellInliner.Node.Scalar

/-! # Writing trees

    A node is written as an object: its kind, its place, then its members in
    the order of the table.  Members that hold nothing are written as null or
    left out. -/

namespace ShellInliner

/-- What to do with members that hold nothing. -/
inductive Nulls
  | keep
  | drop
  deriving DecidableEq, Repr

/-- One member, or none if it holds nothing and is to be left out. -/
def Nulls.entry (nulls : Nulls) (key : String) (v : Json.Value) : List (String × Json.Value) :=
  match nulls, v with
  | drop, .null => []
  | _, v => [(key, v)]

/-- A point as a value. -/
def Position.dump (p : Position) : Json.Value :=
  .object [("row", .int p.row), ("col", .int p.col), ("char", .int p.char)]

/-- A place as a value. -/
def Extent.dump : Extent → Json.Value
  | between s e => .object [("start", s.dump), ("end", e.dump)]
  | offsets s e => .object [("start", .int s), ("end", .int e)]

/-- A plain value as a value. -/
def Scalar.dump : Scalar → Json.Value
  | flag b => .bool b
  | text s => .string s
  | connective c => .string c.label
  | optionalNumber n => Json.ofInt? n
  | optionalText s => Json.ofText? s

namespace Node

/-- The members of a node, given its plain values and its written children. -/
def dumpMembers (nulls : Nulls) (cs : List (Field × Json.Value)) :
    List Member → List Scalar → List (String × Json.Value)
  | [], _ => []
  -- Never met: a head has a value for each attribute of its kind.
  | .attribute _ _ :: ms, [] => dumpMembers nulls cs ms []
  | .attribute a _ :: ms, s :: ss => nulls.entry a.key s.dump ++ dumpMembers nulls cs ms ss
  | .child f arity _ :: ms, ss =>
    let here := cs.filterMap fun c => if c.1 = f then some c.2 else none
    let value :=
      match arity with
      | .many => .array here
      | _ => here.head?.getD .null
    nulls.entry f.key value ++ dumpMembers nulls cs ms ss

mutual

/-- A tree as a value. -/
def dump (nulls : Nulls) : Node → Json.Value
  | mk h l cs =>
    .object (("type", .string h.kind.label) ::
      (nulls.entry "loc" ((l.map Extent.dump).getD .null) ++
        dumpMembers nulls (dumpChildren nulls cs) h.kind.members h.scalars))

/-- The children of a node as values. -/
def dumpChildren (nulls : Nulls) : List (Field × Node) → List (Field × Json.Value)
  | [] => []
  | (f, n) :: cs => (f, dump nulls n) :: dumpChildren nulls cs

end

end Node

end ShellInliner
