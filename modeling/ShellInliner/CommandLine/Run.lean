import ShellInliner.Build
import ShellInliner.CommandLine.Invocation

/-! # Runs of the program

    A run takes a disk, the text of the standard input and a list of arguments.
    It ends with an exit status, or with the cause that broke it off, and leaves
    an output, messages and a disk.  A command works step by step, and what it has
    printed, told and written by the time it fails stays so.

    The standard input is a text here: bytes that spell none are refused before the
    run, and whatever is printed can be encoded. -/

namespace ShellInliner.CommandLine

/-! ### Messages -/

/-- A message to the user. -/
inductive Message
  /-- About the progress; told only if wanted. -/
  | progress (text : String)
  | news (text : String)
  | complaint (text : String)
  deriving DecidableEq, Repr

def Message.isProgress : Message → Bool
  | progress _ => true
  | _ => false

/-- A message as it is printed: progress and news after a coloured word. -/
def Message.print : Message → String
  | progress text => "\x1b[94mDEBUG:\x1b[0m " ++ text ++ "\n"
  | news text => "\x1b[92m\x1b[1mINFO:\x1b[0m " ++ text ++ "\n"
  | complaint text => text ++ "\n"

/-! ### Failures -/

/-- Why a command fails. -/
inductive Failure
  | noFile (file : String)
  | cause (e : Error)
  deriving DecidableEq, Repr

namespace Failure

/-- The exit status; a cause that is not reported breaks the run off. -/
def status : Failure → Except Error Nat
  | noFile _ => .ok 1
  | cause e => if e.report?.isSome then .ok 1 else .error e

/-- The complaints about a failure. -/
def messages : Failure → List Message
  | noFile file => [.complaint s!"Error: File '{file}' not found."]
  | cause e =>
    (e.report?.map fun r => Message.complaint ("Error: Transform Failed:\n" ++ r.text)).toList

end Failure

/-! ### Actions -/

/-- What a command works on. -/
structure World where
  disk : Disk
  verbose : Bool
  output : String := ""
  messages : List Message := []

/-- Tell a message; one about the progress is told only if it is wanted. -/
def World.tell (w : World) (m : Message) : World :=
  if m.isProgress && !w.verbose then w else { w with messages := w.messages ++ [m] }

/-- Work on a world that may fail. -/
abbrev Action := ExceptT Failure (StateM World)

def disk : Action Disk :=
  return (← get).disk

def tell (m : Message) : Action Unit :=
  modify (·.tell m)

def printText (text : String) : Action Unit :=
  modify fun w => { w with output := w.output ++ text }

def printLine (text : String) : Action Unit :=
  printText (text ++ "\n")

/-- Work on a script: its progress is told, and its failure is a failure of the
    command. -/
def attempt {α : Type} (r : Run Log α) : Action α := ExceptT.mk fun w =>
  let (result, log) := r.run.run []
  -- What was noted before a failure is told all the same.
  (result.mapError Failure.cause, (log.reverse.map Message.progress).foldl World.tell w)

/-- Write to the disk. -/
def change (f : Disk → Except Error Disk) : Action Unit := do
  let written ← attempt (Run.lift (f (← disk)))
  modify fun w => { w with disk := written }

/-! ### Commands -/

/-- Refuse a file that is not there. -/
def requireFile (file : String) : Action Unit := do
  unless (← disk).pathExists file.toList do throw (.noFile file)

/-- The text of a script, from its file or from the standard input. -/
def scriptText (input : List Char) : Option String → Action (List Char)
  | none => return Text.unifyLineEnds input
  | some file => do
    requireFile file
    attempt (Run.lift ((← disk).readText file.toList))

/-- The script to work on, with the settings for it. -/
def targetOf (input : List Char) (config file : Option String) : Action Target := do
  let source ← scriptText input file
  -- The script is read before the settings, so a missing script is what is complained about.
  let settings ← attempt (Run.lift (Settings.load (← disk) config))
  return ⟨file, some source, settings⟩

/-- Put a text into a file, or print it if no file is named. -/
def deliver (text : String) (file : Option String) : Action Unit :=
  -- An empty name is as good as none.
  match Report.filled file with
  | none => printLine text
  | some f => do
    change (·.writeText f.toList (text ++ "\n"))
    tell (.news s!"Wrote {f}")

/-- The line of the list of functions for one of them. -/
def exportLine (e : Export) : String :=
  let line := (e.line.map fun n => toString n).getD "None"
  s!"{e.qualified}\t(line {line})"

/-- List the functions that an import of a file would define. -/
def listExports (config : Option String) (file : String) : Action Unit := do
  requireFile file
  let settings ← attempt (Run.lift (Settings.load (← disk) config))
  let exports ← attempt (Run.lift (exportsOf (← disk) settings file.toList))
  if exports.isEmpty then tell (.news s!"No functions defined in {file}")
  printText (lines (exports.map exportLine))

/-- Write the default settings, unless something stands in their place. -/
def writeSettings : Action Unit := do
  let name := Settings.fileName
  if (← disk).pathExists name.toList then
    tell (.news s!"{name} already exists, leaving it untouched")
  else
    change (Settings.writeDefault · name)
    let settings : Settings := {}
    tell (.news
      s!"Created {name} (extension '{settings.extension}', separator '{settings.separator}')")

def perform (input : List Char) (config : Option String) : Request → Action Unit
  | .overview => printText Scope.program.help
  | .build file output => do
    let target ← targetOf input config file
    deliver (← attempt (target.compile (← disk))) output
  | .ast file resolve => do
    let target ← targetOf input config file
    deliver (← attempt (target.ast (← disk) resolve)) none
  | .functions file => listExports config file
  | .init => writeSettings

/-! ### Runs -/

/-- What a run leaves. -/
structure Ending where
  /-- The exit status, or the cause that broke the run off. -/
  status : Except Error Nat
  output : String
  messages : List Message
  disk : Disk

/-- What is printed on the standard error. -/
def Ending.errorOutput (e : Ending) : String :=
  String.join (e.messages.map Message.print)

/-- What a world comes to when a command has ended. -/
def World.ending (w : World) : Except Failure Unit → Ending
  | .ok _ => ⟨.ok 0, w.output, w.messages, w.disk⟩
  | .error f => ⟨f.status, w.output, w.messages ++ f.messages, w.disk⟩

def Invocation.run (i : Invocation) (d : Disk) (input : List Char) : Ending :=
  let (result, w) := (perform input i.config i.request).run.run { disk := d, verbose := i.verbose }
  w.ending result

/-- End without carrying out a command: with a help text, or with a complaint
    after the usage of the scope. -/
def Stop.ending (d : Disk) : Stop → Ending
  | .help s => ⟨.ok 0, s.help, [], d⟩
  | .refused s f =>
    ⟨.ok 2, "", [.complaint (s.usage ++ s!"{s.title}: error: {f.message}")], d⟩

/-- Run the program. -/
def run (d : Disk) (input : List Char) (args : List String) : Ending :=
  match Invocation.read args with
  | .ok i => i.run d input
  | .error stop => stop.ending d

/-! ### One run after the other -/

/-- What the user gives to a run. -/
structure Order where
  input : List Char
  args : List String

/-- A run between two others. -/
structure Stage where
  before : Disk
  order : Order
  ending : Ending

/-- Run the program several times, each time on the disk that the run before has
    left. -/
def runAll (d : Disk) : List Order → List Stage
  | [] => []
  | o :: os =>
    let ending := run d o.input o.args
    ⟨d, o, ending⟩ :: runAll ending.disk os

end ShellInliner.CommandLine
