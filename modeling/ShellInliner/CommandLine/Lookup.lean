import ShellInliner.CommandLine.Run

/-! # Lookups

    Which paths a run looks at, so that the part of a disk that matters to it can
    be brought together beforehand: first the paths that the arguments name and
    the usual places of settings, then the files that the imports of the script
    may mean. -/

namespace ShellInliner

/-- The files that the imports of a script may mean. -/
def Importer.lookups (i : Importer) (d : Disk) (script : Node) : List (List Char) :=
  let handler : Handler (List (List Char)) := fun n _ _ => do
    if isImport n then
      match i.argument n with
      | .ok a => modify (· ++ i.candidates d a)
      | .error _ => pure ()
    return .keep
  ((Visitor.traverse [(Kind.command.label, some handler)] script).run.run []).2

namespace CommandLine

/-- The beginnings of a path that end with a component, the path itself last. -/
def stages (p : List Char) : List (List Char) :=
  let cs := Path.components p
  ((List.range cs.length).map fun n => Path.joinComponents (cs.take (n + 1))).filter (!·.isEmpty)

namespace Request

/-- The file that a script is read from. -/
def file? : Request → Option String
  | overview => none
  | build file _ => file
  | ast file _ => file
  | functions file => some file
  | init => none

/-- The file that a result is written to. -/
def output? : Request → Option String
  | build _ output => output
  | _ => none

/-- Is a script read from the standard input? -/
def readsInput : Request → Bool
  | build file _ => file.isNone
  | ast file _ => file.isNone
  | _ => false

end Request

namespace Invocation

/-- The paths that the arguments name, and the usual places of settings. -/
def lookups (i : Invocation) (home : List Char) : List (List Char) :=
  let named := i.config.toList ++ i.request.file?.toList ++ i.request.output?.toList
  named.map String.toList ++ Settings.usualPaths.map fun p => Path.expandHome home p.toList

/-- The files that the imports of the script may mean. -/
def importLookups (i : Invocation) (d : Disk) (input : List Char) : List (List Char) :=
  let world : World := { disk := d, verbose := false }
  let target := (targetOf input i.config i.request.file?).run.run world
  match target.1 with
  | .error _ => []
  | .ok t =>
    match t.source.map fun source => parse source {} with
    | some (.ok script) => (Importer.mk t.file t.settings).lookups d script
    | _ => []

end Invocation

end CommandLine

end ShellInliner
