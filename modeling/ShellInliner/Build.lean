import ShellInliner.Import
import ShellInliner.Node.Dump
import ShellInliner.Source.Render

/-! # Building scripts

    A script is read, its imports are resolved, and its source is made anew; or
    its tree is written as JSON.  Progress is noted along the way. -/

namespace ShellInliner

/-- The script that is built. -/
structure Target where
  /-- Its file; none if it comes from the standard input. -/
  file : Option String
  /-- Its text; none if it is to be read from its file. -/
  source : Option (List Char)
  settings : Settings

namespace Target

/-- The text of the script. -/
def text (t : Target) (d : Disk) : Except Error (List Char) :=
  match t.source, t.file with
  | some cs, _ => .ok cs
  | none, some f => d.readText f.toList
  | none, none => .error .wrongForm

/-- The number of statements of a script. -/
def statementCount (n : Node) : Nat :=
  (n.all .commands).length

/-- Read the script. -/
def read (t : Target) (d : Disk) (locate : Bool) : Run Log Node := do
  let source ← Run.lift (t.text d)
  note ("Parsing: " ++ (Report.filled t.file).getD "<stdin>")
  let script ← Run.lift (parse source { locate, file := t.file })
  note s!"Parsed {statementCount script} top-level statement(s)"
  return script

/-- Resolve the imports of the script. -/
def resolveImports (t : Target) (d : Disk) (script : Node) : Run Log Node := do
  let importer : Importer := ⟨t.file, t.settings⟩
  match ← Visitor.traverse (importer.visitor d) script with
  | .one n =>
    note s!"After imports: {statementCount n} top-level statement(s)"
    return n
  -- Never met: the importer has no handler for scripts.
  | _ => throw .missingPart

/-- The source of the script with its imports resolved. -/
def compile (t : Target) (d : Disk) : Run Log String := do
  let script ← t.read d false
  let resolved ← t.resolveImports d script
  note "Generating source"
  Run.lift (resolved.source none)

/-- The tree of the script as JSON, with its imports resolved if wanted. -/
def ast (t : Target) (d : Disk) (resolve : Bool) : Run Log String := do
  let script ← t.read d true
  let tree ← if resolve then t.resolveImports d script else pure script
  return Json.write .indented (tree.dump .drop)

end Target

end ShellInliner
