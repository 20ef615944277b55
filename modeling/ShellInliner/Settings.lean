import ShellInliner.Disk.Basic
import ShellInliner.Json.Check
import ShellInliner.Json.Writer

/-! # Settings

    Settings say how the argument of an import becomes a file, and how the
    names of imported functions are made.  They are read from a file of JSON: a
    given one, or the first of two usual ones that is there. -/

namespace ShellInliner

/-- How imports are resolved. -/
structure Settings where
  /-- What is added to a path that leads to no file. -/
  extension : String := ".sh"
  /-- What stands between the name of a module and the name of a function. -/
  separator : String := "::"
  deriving DecidableEq, Repr

namespace Settings

open Json (Value Checked checkText member?)

/-- The usual name of the file with settings. -/
def fileName : String := "shinline.json"

/-- Where settings are looked for when no file is given. -/
def usualPaths : List String := [fileName, "~/.shinline/config.json"]

/-- A text member, or a default where it is not given. -/
def checkMember (members : List (String × Value)) (key default : String) : Checked String :=
  match member? members key with
  | none => .ok default
  | some v => checkText [.key key] v

/-- Settings given as an object; other members are passed over. -/
def check (v : Value) : Checked Settings :=
  match v with
  | .object members =>
    (Checked.both (checkMember members "extension" ".sh")
      (checkMember members "separator" "::")).map fun p => ⟨p.1, p.2⟩
  | _ => Json.refuse [] .modelType

/-- Settings as an object. -/
def dump (s : Settings) : Value :=
  .object [("extension", .string s.extension), ("separator", .string s.separator)]

/-- Settings as the text of a file. -/
def text (s : Settings) : String :=
  Json.write .indented s.dump

/-- The wording of a fault in settings. -/
def issueText (i : Issue) : String :=
  let path := i.path.map fun
    | .key k => k
    | .index n => toString n
  let wording := match i.type with
    | .stringType => "Input should be a valid string"
    | _ => "Input should be a valid dictionary or instance of ResolverConfig"
  String.intercalate "." path ++ ": " ++ wording

/-- The first of some paths that leads to anything, with the home directory
    filled in. -/
def find? (d : Disk) (paths : List String) : Option String :=
  -- No paths at all are as good as the usual ones.
  let usual := if paths.isEmpty then usualPaths else paths
  let expanded := usual.map fun p => Path.expandHome d.home p.toList
  (expanded.find? d.pathExists).map String.ofList

/-- The settings in a text. -/
def ofText (file : String) (cs : List Char) : Except Error Settings :=
  match Json.readDocument cs with
  | .error f =>
    -- The limit on digits is not one of JSON, and its fault is not reported as one of the
    -- settings.
    if f.problem = .oversizedNumber then .error .oversizedNumber
    else
      let (line, column) := f.place cs
      .error (.settingsMalformed f.problem line column file)
  | .ok v =>
    match check v with
    | .ok s => .ok s
    | .error issues =>
      .error (.settingsInvalid issues.length ((issues.head?.map issueText).getD "") file)

/-- The settings in a file. -/
def ofFile (d : Disk) (file : String) : Except Error Settings :=
  match d.readBytes file.toList with
  -- Only what a disk answers is reported as a fault of the settings, not what is wrong with
  -- the path itself.
  | .error f => .error (if f.refusal.isAnswer then .settingsUnreadable f else .access f)
  | .ok bytes => do ofText file (← Disk.textOf bytes)

/-- The settings in the given file, in a usual one, or the defaults. -/
def load (d : Disk) (file : Option String) : Except Error Settings :=
  match file.or (find? d []) with
  | none => .ok {}
  | some f => ofFile d f

/-- Write the default settings to a file. -/
def writeDefault (d : Disk) (file : String) : Except Error Disk :=
  d.writeText file.toList ({} : Settings).text

end Settings

end ShellInliner
