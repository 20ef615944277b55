import ShellInliner.CommandLine.Scope
import ShellInliner.Text.Digit
import ShellInliner.Text.Literal

/-! # Marks on arguments

    Before arguments are read each gets a mark: it is an option of the scope, an
    option of no scope, the separator `--`, or plain.  After the separator all
    arguments are plain.  A long option may be shortened as long as only one
    option of the scope begins so. -/

namespace ShellInliner.CommandLine

/-! ### Faults -/

/-- Why arguments cannot be used. -/
inductive UsageFault
  | ambiguous (argument : String) (names : List String)
  | valueMissing (s : Switch)
  | valueIgnored (s : Switch) (value : String)
  | unknownCommand (name : String)
  | fileMissing
  | unrecognized (arguments : List String)
  deriving DecidableEq, Repr

def UsageFault.message : UsageFault → String
  | ambiguous argument names =>
    s!"ambiguous option: {argument} could match " ++ String.intercalate ", " names
  | valueMissing s => s!"argument {s.title}: expected one argument"
  | valueIgnored s value =>
    s!"argument {s.title}: ignored explicit argument {Text.literal value}"
  | unknownCommand name =>
    s!"argument command: invalid choice: {Text.literal name} (choose from " ++
      String.intercalate ", " (Command.all.map fun c => Text.literal c.name) ++ ")"
  | fileMissing => "the following arguments are required: filename"
  | unrecognized arguments => "unrecognized arguments: " ++ String.intercalate " " arguments

/-! ### Marks -/

/-- What is written to an option in the same argument. -/
inductive Attached
  | nothing
  /-- What follows the letter of a short option. -/
  | joined (text : List Char)
  /-- What follows an equals sign. -/
  | assigned (text : List Char)
  deriving DecidableEq, Repr

/-- An option with what is written to it. -/
structure Use where
  switch : Switch
  attached : Attached
  deriving DecidableEq, Repr

/-- What an argument is. -/
inductive Mark
  | plain
  | separator
  | known (use : Use)
  /-- An option of no scope, or of another one. -/
  | unknown
  deriving DecidableEq, Repr

/-- The separator, after which no argument is an option. -/
def separatorText : String := "--"

/-- The part before the first equals sign, and what is assigned after it. -/
def splitAssigned (arg : List Char) : List Char × Attached :=
  match arg.span (· != '=') with
  | (name, _ :: value) => (name, .assigned value)
  | (name, []) => (name, .nothing)

/-- The options that an argument may be short for, each by its full name.  A long
    option is known by a beginning, a short one by its letter. -/
def matching (s : Scope) (arg : List Char) : List (List Char × Use) :=
  match arg with
  | '-' :: '-' :: _ =>
    let (start, attached) := splitAssigned arg
    (s.names.filter fun n => start.isPrefixOf n.1).map fun n => (n.1, ⟨n.2, attached⟩)
  | _ =>
    (s.names.filter fun n => n.1 == arg.take 2).map fun n => (n.1, ⟨n.2, .joined (arg.drop 2)⟩)

/-- Is the text a number with a sign before it?  A line end after it is passed
    over. -/
def isNegativeNumber (arg : List Char) : Bool :=
  let body := if arg.getLast? = some '\n' then arg.dropLast else arg
  match body with
  | '-' :: cs =>
    match cs.dropWhile Text.isDigit with
    | [] => !cs.isEmpty
    | '.' :: places => !places.isEmpty && places.all Text.isDigit
    | _ => false
  | _ => false

/-- The mark of an argument that is no option in full. -/
def markShortened (s : Scope) (arg : List Char) : Except UsageFault Mark :=
  match matching s arg with
  -- No option of the program looks like a number or holds a blank, so these are values.
  | [] => .ok (if isNegativeNumber arg || arg.contains ' ' then .plain else .unknown)
  | [m] => .ok (.known m.2)
  | ms => .error (.ambiguous (String.ofList arg) (ms.map fun m => String.ofList m.1))

/-- The mark of an argument that begins with a hyphen. -/
def markHyphened (s : Scope) (arg : List Char) : Except UsageFault Mark :=
  match s.named? arg with
  | some w => .ok (.known ⟨w, .nothing⟩)
  | none =>
    -- A hyphen alone names the standard input.
    if arg.length = 1 then .ok .plain
    else
      let (name, attached) := splitAssigned arg
      match attached, s.named? name with
      -- A name in full wins over longer names that begin so.
      | .assigned value, some w => .ok (.known ⟨w, .assigned value⟩)
      | _, _ => markShortened s arg

def mark (s : Scope) (arg : List Char) : Except UsageFault Mark :=
  match arg with
  | '-' :: _ => markHyphened s arg
  | _ => .ok .plain

def markAll (s : Scope) : List String → Except UsageFault (List (String × Mark))
  | [] => .ok []
  | a :: as =>
    if a = separatorText then .ok ((a, .separator) :: as.map fun b => (b, .plain))
    else do
      let m ← mark s a.toList
      return (a, m) :: (← markAll s as)

end ShellInliner.CommandLine
