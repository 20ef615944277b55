import ShellInliner.Functions
import ShellInliner.Parse.Script
import ShellInliner.Settings
import ShellInliner.Word.Quote

/-! # Imports

    An import is a command whose name is `import` and whose first word names a
    file.  Its place is taken by the functions that stand at the top level of
    that file, each renamed to the module, the separator and its own name.
    Imports inside the file are left as they are. -/

namespace ShellInliner

/-- Messages about the progress, the last first. -/
abbrev Log := List String

/-- Note a message. -/
def note (message : String) : Run Log Unit :=
  modify (message :: ·)

/-- A function renamed to the module, the separator and its own name.  Nothing
    else about it changes. -/
def qualify (moduleName separator : String) (n : Node) : Node :=
  n.withChildren (n.children.map fun c =>
    if c.1 = .name then
      (c.1, c.2.withHead
        (c.2.head.withText (moduleName ++ separator ++ (c.2.text?.getD ""))))
    else c)

/-- The module that a file holds. -/
def moduleOf (path : List Char) : String :=
  String.ofList (Path.moduleName path)

/-- The resolver of the imports of a script. -/
structure Importer where
  /-- The file of the script, if it has one. -/
  file : Option String
  settings : Settings

namespace Importer

/-- The directory that imports are relative to: that of the script, or the
    working directory. -/
def baseDirectory (i : Importer) (d : Disk) : List Char :=
  match Report.filled i.file with
  | some f => Path.directory (Path.absolute d.cwd f.toList)
  | none => d.cwd

/-- The files that an argument may mean. -/
def candidates (i : Importer) (d : Disk) (argument : List Char) : List (List Char) :=
  Path.candidates d.cwd (i.baseDirectory d) argument i.settings.extension.toList

/-- The file that an argument means: the first candidate that is a file. -/
def resolvePath (i : Importer) (d : Disk) (argument : List Char) (line : Option Int) :
    Except Error (List Char) :=
  let cs := i.candidates d argument
  match cs.find? d.isFile with
  | some p => .ok p
  | none => .error (.importNotFound (String.ofList argument) (cs.map String.ofList) line i.file)

/-- The argument of an import: its first word without quotes. -/
def argument (i : Importer) (n : Node) : Except Error (List Char) :=
  -- Redirections may stand before the word.
  match (n.all .suffix).find? (·.kind == .word) with
  | some w => .ok (Word.unquote (w.text?.getD "").toList)
  | none => .error (.importWithoutPath n.row? i.file)

/-- The functions that a file defines, renamed. -/
def functionsOf (i : Importer) (d : Disk) (path : List Char) : Except Error (List Node) := do
  let code ← d.readText path
  -- Read without places: they would be places in another file.
  let script ← parse code { file := some (String.ofList path) }
  return script.topLevelFunctions.map (qualify (moduleOf path) i.settings.separator)

/-- The functions that an import brings in. -/
def importFunctions (i : Importer) (d : Disk) (n : Node) : Run Log (List Node) := do
  -- An import without an argument fails before the disk is asked for anything.
  let argument ← Run.lift (i.argument n)
  let path ← Run.lift (i.resolvePath d argument n.row?)
  let functions ← Run.lift (i.functionsOf d path)
  note s!"import {String.ofList argument}: {functions.length} function(s) from {String.ofList path}"
  return functions

/-- Is the command an import? -/
def isImport (n : Node) : Bool :=
  (n.one? .name).bind Node.text? == some "import"

/-- The handler of commands: an import gives way to its functions. -/
def handler (i : Importer) (d : Disk) : Handler Log := fun n _ _ => do
  if isImport n then return .splice ((← i.importFunctions d n).map some)
  else return .keep

/-- The visitor that resolves imports. -/
def visitor (i : Importer) (d : Disk) : Visitor Log :=
  [(Kind.command.label, some (i.handler d))]

end Importer

/-! ### Previews -/

/-- A function that an import would define. -/
structure Export where
  name : String
  qualified : String
  line : Option Int
  deriving DecidableEq, Repr

/-- The functions that an import of a file would define. -/
def exportsOf (d : Disk) (settings : Settings) (path : List Char) : Except Error (List Export) := do
  let code ← d.readText path
  let script ← parse code { locate := true, file := some (String.ofList path) }
  return script.topLevelFunctions.map fun f =>
    let name := ((f.one? .name).bind Node.text?).getD ""
    ⟨name, moduleOf path ++ settings.separator ++ name, f.row?⟩

end ShellInliner
