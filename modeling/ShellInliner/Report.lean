/-! # Reports

    A report tells the user what went wrong, where, and what to do about it.
    Parts that are empty or zero are left out. -/

namespace ShellInliner

/-- What a report is about. -/
inductive Topic
  | transform
  | syntaxError
  | importResolution
  | malformedImport
  | traversal
  | generation
  | settings
  deriving DecidableEq, Repr

def Topic.title : Topic → String
  | transform => "Transform Error"
  | syntaxError => "Syntax Error"
  | importResolution | malformedImport => "Import Error"
  | traversal => "Traversal Error"
  | generation => "Code Generation Error"
  | settings => "Configuration Error"

/-- A report of an error.  Lines and columns count from one. -/
structure Report where
  topic : Topic
  message : String
  line : Option Int := none
  column : Option Int := none
  /-- The line of the source, or other words on the circumstances. -/
  context : Option String := none
  suggestion : Option String := none
  file : Option String := none
  deriving DecidableEq, Repr

namespace Report

/-- A text that is there and not empty. -/
def filled (s : Option String) : Option String :=
  s.filter (· ≠ "")

/-- A number that is there and not zero. -/
def nonzero (n : Option Int) : Option Int :=
  n.filter (· ≠ 0)

/-- A part of a report, or nothing. -/
def part {α : Type} (x : Option α) (f : α → String) : String :=
  (x.map f).getD ""

/-- Where the error lies. -/
def place (r : Report) : String :=
  part (filled r.file) (fun f => s!" in {f}") ++
    part (nonzero r.line) fun l =>
      s!" at line {l}" ++ part (nonzero r.column) fun c => s!", column {c}"

/-- The text of a report. -/
def text (r : Report) : String :=
  s!"\n❌ {r.topic.title}" ++ r.place ++ ":\n" ++ s!"   {r.message}\n" ++
    part (filled r.context) (fun c => s!"   > {c}\n") ++
    part (filled r.suggestion) fun s => s!"   💡 {s}\n"

end Report

end ShellInliner
