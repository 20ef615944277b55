import ShellInliner.Disk.Fault
import ShellInliner.Json.Reader
import ShellInliner.Node.Kind
import ShellInliner.Report
import ShellInliner.Text.Utf8

/-! # Errors

    Everything that can go wrong, as causes.  The wording is in one place: a
    cause that is reported to the user has a `Report`, the others have at most
    a message. -/

namespace ShellInliner

/-! ### Faults in written trees -/

/-- One step from a value to a part of it. -/
inductive Step
  /-- Into a member, or into the kind that a node states. -/
  | key (name : String)
  | index (i : Nat)
  deriving DecidableEq, Repr

/-- Why a part of a written tree cannot be used. -/
inductive IssueType
  | missing
  | stringType
  | listType
  | modelType
  | modelAttributesType
  | tagNotFound
  | tagInvalid
  | literalError
  -- A value may be of a type that is taken at all and still spell nothing.
  | boolType
  | boolParsing
  | intType
  | intParsing
  | intParsingSize
  | intFromFloat
  | finiteNumber
  deriving DecidableEq, Repr

def IssueType.label : IssueType → String
  | missing => "missing"
  | stringType => "string_type"
  | listType => "list_type"
  | modelType => "model_type"
  | modelAttributesType => "model_attributes_type"
  | tagNotFound => "union_tag_not_found"
  | tagInvalid => "union_tag_invalid"
  | literalError => "literal_error"
  | boolType => "bool_type"
  | boolParsing => "bool_parsing"
  | intType => "int_type"
  | intParsing => "int_parsing"
  | intParsingSize => "int_parsing_size"
  | intFromFloat => "int_from_float"
  | finiteNumber => "finite_number"

/-- A fault in a written tree. -/
structure Issue where
  /-- The way from the root to the part. -/
  path : List Step
  type : IssueType
  deriving DecidableEq, Repr

/-! ### Causes -/

/-- Where a script cannot be read.  The line and the column count from one. -/
structure SyntaxPlace where
  line : Nat
  column : Option Nat
  context : Option String
  advice : String
  file : Option String
  deriving DecidableEq, Repr

/-- The cause of a failure. -/
inductive Error
  | unexpectedCharacter (c : Char) (place : SyntaxPlace)
  | unexpectedEnd (place : SyntaxPlace)
  /-- A file descriptor has too many digits. -/
  | numberTooLong
  | importNotFound (argument : String) (candidates : List String) (line : Option Int)
      (file : Option String)
  | importWithoutPath (line : Option Int) (file : Option String)
  | unknownKinds (labels : List String)
  /-- A visitor gave several nodes, or none, for a field that holds one. -/
  | wrongCount (count : Nat) (kind : Kind) (field : Field)
  | removedRequired (kind : Kind) (field : Field)
  /-- The source of a node is asked for before it has a rule. -/
  | noSource (kind : Kind)
  | settingsUnreadable (fault : Disk.Fault)
  | settingsMalformed (problem : Json.Problem) (line column : Nat) (file : String)
  | settingsInvalid (count : Nat) (first : String) (file : String)
  -- None of the causes from here on is reported: they break a run off.
  /-- Something is looked up by a name that does not exist. -/
  | missingKey (shown : String)
  | invalid (issues : List Issue)
  | access (fault : Disk.Fault)
  | undecodable (fault : Text.DecodeFault)
  /-- A node lacks a part that its place in the tree asks for. -/
  | missingPart
  /-- A tree that holds itself has no end. -/
  | endless
  /-- A tree that holds itself cannot be written. -/
  | circular
  | unknownMember
  /-- A value has the wrong form for what is asked of it. -/
  | wrongForm
  | oversizedNumber
  | outOfRange
  deriving DecidableEq, Repr

namespace Error

def syntaxReport (message : String) (place : SyntaxPlace) : Report where
  topic := .syntaxError
  message := message
  line := some place.line
  column := place.column.map Int.ofNat
  context := place.context
  suggestion := some place.advice
  file := place.file

/-- The report of a cause, if the cause is one that is reported. -/
def report? : Error → Option Report
  | unexpectedCharacter c place =>
    some (syntaxReport s!"Unexpected character {Text.charLiteral c}" place)
  | unexpectedEnd place => some (syntaxReport "Unexpected end of input" place)
  | importNotFound argument candidates line file =>
    some { topic := .importResolution, message := s!"Import not found: {argument}", line, file
           context := some ("tried " ++ String.intercalate " and " candidates)
           suggestion := some "Import paths are relative to the importing file" }
  | importWithoutPath line file =>
    some { topic := .malformedImport, message := "'import' needs a path argument", line, file
           suggestion := some "Use: import <path>" }
  | unknownKinds labels =>
    some { topic := .traversal
           message := "Unknown node type(s) in visitor: " ++ String.intercalate ", " labels
           suggestion := some "Valid keys are node type names or 'defaultMethod'" }
  | wrongCount count kind field =>
    some { topic := .traversal
           message := s!"Visitor returned {count} nodes for {kind.label}.{field.longKey}, " ++
             "which holds a single node"
           suggestion := some "Return a list only for sequence fields such as 'commands'" }
  | removedRequired kind field =>
    some { topic := .traversal
           message := s!"Visitor removed the required {kind.label}.{field.longKey}" }
  | noSource kind =>
    some { topic := .generation
           message := s!"No source available for {kind.label} node"
           suggestion := some "Run codegen() on the tree before reading .source" }
  | settingsUnreadable fault =>
    some { topic := .settings, message := s!"Cannot read configuration: {fault.message}"
           file := some fault.path }
  | settingsMalformed problem line column file =>
    some { topic := .settings, message := s!"Invalid JSON: {problem.message}"
           line := some line, column := some column, file := some file }
  | settingsInvalid count first file =>
    some { topic := .settings, message := s!"Invalid configuration: {count} error(s)"
           context := some first
           suggestion := some "Known settings are 'extension' and 'separator'"
           file := some file }
  | _ => none

/-- The wording of a cause, if it has one. -/
def message? (e : Error) : Option String :=
  match e with
  | missingKey shown => some shown
  | access fault => some fault.message
  | undecodable fault => some fault.message
  | e => e.report?.map Report.text

end Error

end ShellInliner
