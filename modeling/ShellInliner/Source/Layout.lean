import ShellInliner.Error
import ShellInliner.Node.Basic

/-! # The layout of source text

    How the text of a node is made from the texts of its children, kind by
    kind.  The children's texts are asked for one after the other, in a fixed
    order, through `Parts`; so the same layout serves a plain recursion over a
    tree and a workspace in which texts are kept once they have been made. -/

namespace ShellInliner.Source

/-- The texts a layout may ask for. -/
structure Parts (m : Type → Type) where
  /-- The texts of all children in a field, in order. -/
  all : Field → m (List String)
  /-- The texts of the statements of the child in a field; nothing if the field
      is empty. -/
  statements : Field → m (Option (List String))
  /-- The bare text of the child in a field, which has to be a word or a name. -/
  bare : Field → m String

/-- The kinds of parents under which a list of statements is a command of its
    own, between braces. -/
def isGroupParent : Kind → Bool
  | .script | .compoundList | .pipeline | .logicalExpression => true
  | _ => false

/-- Does a node of this kind stand between braces under this parent? -/
def isBraced (parent : Option Kind) (k : Kind) : Bool :=
  k == .compoundList && parent.any isGroupParent

/-- A row of texts with a separator between each two. -/
def join (separator : String) (texts : List String) : String :=
  String.intercalate separator texts

section

variable {m : Type → Type} [Monad m] [MonadExcept Error m]

/-- The text of the child in a field that has to be filled. -/
def Parts.one (parts : Parts m) (f : Field) : m String := do
  match ← parts.all f with
  | s :: _ => pure s
  | [] => throw .missingPart

/-- The redirections and the mark of a background command, which follow a
    statement. -/
def tail (h : Head) (parts : Parts m) : m String := do
  let redirections ←
    -- A kind without such a field has nothing to ask for.
    if h.kind.sequenceFields.contains .redirections then parts.all .redirections else pure []
  let text := if redirections.isEmpty then "" else " " ++ join " " redirections
  pure (text ++ if h.async then " &" else "")

/-- A simple command.  The blanks around the name stand even where nothing
    comes before or after it. -/
def command (h : Head) (parts : Parts m) : m String := do
  let name ← parts.all .name
  let leading ← parts.all .leading
  let suffix ← parts.all .suffix
  let rest ← tail h parts
  pure (join " " leading ++ " " ++ join "" (name.take 1) ++ " " ++ join " " suffix ++ rest)

/-- A conditional.  The statements of its condition and of its other branch
    stand on one line each, those of its first branch on lines of their own; a
    branch without text is left out. -/
def conditional (h : Head) (parts : Parts m) : m String := do
  match ← parts.statements .clause with
  | none => throw .missingPart
  | some clause =>
    let positive := join "\n" ((← parts.statements .thenBranch).getD [])
    -- A blank joins the statements of this branch and of the condition: nothing ends them.
    let negative := join " " ((← parts.statements .elseBranch).getD [])
    let rest ← tail h parts
    pure ("if " ++ join " " clause ++ "\n" ++
      -- A branch that prints nothing loses its keyword too.
      (if positive = "" then "" else "then\n" ++ positive ++ "\n") ++
      (if negative = "" then "" else "else\n" ++ negative ++ "\n") ++ "\nfi" ++ rest)

/-- A loop over words. -/
def forLoop (h : Head) (parts : Parts m) : m String := do
  let name ← parts.bare .name
  let words ← parts.all .wordlist
  let body ← parts.one .loopBody
  let rest ← tail h parts
  -- Without words `in` is not printed, whether it was written or not.
  pure ("for " ++ name ++ (if words.isEmpty then "" else " in " ++ join " " words) ++
    "\ndo\n" ++ body ++ "\ndone" ++ rest)

/-- A loop with a condition. -/
def conditionLoop (keyword : String) (h : Head) (parts : Parts m) : m String := do
  let clause ← parts.one .clause
  let body ← parts.one .loopBody
  let rest ← tail h parts
  pure (keyword ++ " " ++ clause ++ "\ndo\n" ++ body ++ "\ndone" ++ rest)

/-- A function definition. -/
def function (h : Head) (parts : Parts m) : m String := do
  let name ← parts.bare .name
  let body ← parts.one .body
  let rest ← tail h parts
  pure (name ++ "() \x7b\n  " ++ body ++ "\n\x7d" ++ rest)

/-- A parameter expansion. -/
def parameter (name : String) (kind word op : Option String) (braced : Bool) : String :=
  if kind = some "string-length" then "$\x7b#" ++ name ++ "\x7d"
  else if !braced then "$" ++ name
  else "$\x7b" ++ name ++ op.getD "" ++ word.getD "" ++ "\x7d"

/-- The text of a node, given its head, whether it stands between braces, and
    the texts of its children. -/
def layout (braced : Bool) (h : Head) (parts : Parts m) : m String :=
  match h with
  | .script => return join "\n" (← parts.all .commands)
  | .compoundList _ => do
    let body := join "\n" (← parts.all .commands)
    if braced then
      let rest ← tail h parts
      pure ("\x7b\n" ++ body ++ "\n\x7d" ++ rest)
    else pure body
  | .function _ => function h parts
  | .command _ => command h parts
  | .pipeline _ bang => do
    let commands ← parts.all .commands
    let rest ← tail h parts
    pure ((if bang then "! " else "") ++ join " | " commands ++ rest)
  | .logicalExpression _ op => do
    let left ← parts.one .left
    let right ← parts.one .right
    let rest ← tail h parts
    pure (left ++ (if op = .and then " && " else " || ") ++ right ++ rest)
  | .subshell _ => do
    let body ← parts.one .list
    let rest ← tail h parts
    pure ("(" ++ body ++ ")" ++ rest)
  | .ifElse _ => conditional h parts
  | .forLoop _ => forLoop h parts
  | .whileLoop _ => conditionLoop "while" h parts
  | .untilLoop _ => conditionLoop "until" h parts
  | .caseOf _ => do
    -- The branches are asked for before the word, so their failures come first.
    let items := join "\n" (← parts.all .cases)
    let word ← parts.one .clause
    let rest ← tail h parts
    pure ("case " ++ word ++ " in\n" ++ items ++ "\nesac" ++ rest)
  | .caseItem => do
    let patterns ← parts.all .pattern
    let body ← parts.one .body
    pure (join "|" patterns ++ ")\n" ++ body ++ "\n;;")
  | .redirect op number => do
    let file ← parts.one .file
    -- No blank before the file: `<<` and a file that starts with a hyphen make `<<-`.
    pure (((number.map toString).getD "") ++ op ++ file)
  | .word text | .assignmentWord text | .name text => pure text
  | .arithmeticExpansion expression _ => pure ("$((" ++ expression ++ "))")
  | .commandExpansion command backquoted _ =>
    pure (if backquoted then "`" ++ command ++ "`" else "$(" ++ command ++ ")")
  | .parameterExpansion name kind word op braced => pure (parameter name kind word op braced)

end

end ShellInliner.Source
