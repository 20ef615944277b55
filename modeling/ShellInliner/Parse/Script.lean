import ShellInliner.Grammar.Reach
import ShellInliner.Hint
import ShellInliner.Json.Check
import ShellInliner.Parse.Piece
import ShellInliner.Text.Lines

/-! # Reading scripts

    A text that the grammar derives is read as the tree of its derivation.  For
    any other text the error tells the place where reading came to a dead end, and
    what may be missing.

    Scripts may be of any length, and their constructs nested to any depth. -/

namespace ShellInliner

/-- How a script is read. -/
structure ParseOptions where
  /-- Do nodes get their places? -/
  locate : Bool := false
  file : Option String := none

/-- Options as they are given from outside: an object whose other members are
    passed over, or nothing. -/
def ParseOptions.load (v : Json.Value) (file : Option String) : Except Error ParseOptions :=
  match v with
  | .object members =>
    match Json.member? members "insert_loc" with
    | none => .ok { file }
    | some flag =>
      match Json.checkFlag [.key "insert_loc"] flag with
      | .ok locate => .ok { locate, file }
      | .error issues => .error (.invalid issues)
  | .null => .ok { file }
  | _ => .error .missingPart

namespace Parse

/-- What is advised when nothing better is known. -/
def defaultAdvice : String := "Check syntax around this line"

/-- Where a text cannot be read. -/
def syntaxPlace (source : List Char) (line : Nat) (column : Option Nat) (file : Option String) :
    SyntaxPlace where
  line := line
  column := column
  context := (Text.lineContext? source line).map String.ofList
  advice := ((Hint.detect? source).map Hint.advice).getD defaultAdvice
  file := file

/-- Why a text that is no script cannot be read. -/
def syntaxError (source : List Char) (file : Option String) : Error :=
  let reached := Grammar.deadEnd source
  match source.drop reached with
  | c :: _ =>
    let (line, column) := Text.placeAfter (source.take reached)
    .unexpectedCharacter c (syntaxPlace source line (some column) file)
  | [] =>
    -- The end is on the last line that holds anything, and no column is given.
    let line := Text.lineFeeds (Text.dropFinalLineFeeds source) + 1
    .unexpectedEnd (syntaxPlace source line none file)

/-- The script that built pieces hold. -/
def scriptOf (ps : List Piece) : Node :=
  -- Never missing: a derivation of a script gives one node.
  (nodesOf ps).head?.getD (assemble .script none [])

end Parse

/-- Read a script. -/
def parse (source : List Char) (options : ParseOptions) : Except Error Node :=
  match Grammar.derivation? source with
  | none => .error (Parse.syntaxError source options.file)
  | some tree => (Parse.build options.locate Parse.origin tree).map fun b => Parse.scriptOf b.pieces

end ShellInliner
