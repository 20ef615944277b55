import ShellInliner.Visit.Traverse

/-! # The functions of a script

    A listing of all function definitions of a tree, made by a visitor that
    changes nothing: inner functions come before the functions they stand in. -/

namespace ShellInliner

/-- A function definition. -/
structure FunctionInfo where
  name : String
  line : Option Int
  /-- Does it stand inside something other than the script itself? -/
  nested : Bool
  deriving DecidableEq, Repr

namespace FunctionInfo

/-- Record a function; one whose name has no text cannot be. -/
def collect : Handler (List FunctionInfo) := fun n parent _ => do
  match (n.one? .name).bind Node.text? with
  | none => throw .missingPart
  | some name =>
    -- A definition that is the root has no parent and is not nested.
    modify (· ++ [⟨name, n.row?, parent.any (·.kind != .script)⟩])
    return .keep

def visitor : Visitor (List FunctionInfo) :=
  [(Kind.function.label, some collect)]

end FunctionInfo

/-- The functions of a tree, in the order in which a traversal completes them. -/
def Node.functions (n : Node) : Except Error (List FunctionInfo) :=
  match (Visitor.traverse FunctionInfo.visitor n).run.run [] with
  | (.ok _, infos) => .ok infos
  | (.error e, _) => .error e

/-- The function definitions that stand directly in a script. -/
def Node.topLevelFunctions (n : Node) : List Node :=
  (n.all .commands).filter (·.kind == .function)

end ShellInliner
