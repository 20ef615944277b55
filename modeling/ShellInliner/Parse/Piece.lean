import ShellInliner.Error
import ShellInliner.Grammar.Tree
import ShellInliner.Word.Expansion

/-! # From derivations to syntax trees

    Every symbol of a derivation gives a row of pieces, made from the pieces of
    its children: most symbols pass them on, others make one node of them.
    Words and names become leaves, operators are kept until a node needs them,
    and all other tokens vanish.

    The place of a node goes from the start of its first token to the end of
    its last one, vanished tokens included; what is skipped before a token does
    not belong to it. -/

namespace ShellInliner.Parse

open Grammar (Terminal Token Symbol Tree)

/-- What a part of a derivation gives. -/
inductive Piece
  | node (n : Node)
  /-- A row of words. -/
  | words (ns : List Node)
  /-- A token that a node still needs. -/
  | mark (t : Terminal) (text : List Char)

/-- The nodes among the pieces. -/
def nodesOf (ps : List Piece) : List Node :=
  ps.filterMap fun
    | .node n => some n
    | _ => none

/-- A node with its children field by field. -/
def assemble (h : Head) (loc : Option Extent) (fields : List (Field × List Node)) : Node :=
  .mk h loc (fields.flatMap fun f => f.2.map (f.1, ·))

/-! ### Tokens -/

/-- A word with its expansions. -/
def wordNode (h : String → Head) (loc : Option Extent) (text : List Char) : Node :=
  .mk (h (String.ofList text)) loc (Word.expansionChildren text)

/-- The pieces of a token. -/
def tokenPieces (loc : Option Extent) (t : Token) : List Piece :=
  match t.terminal with
  | .word | .commandWord => [.node (wordNode .word loc t.text)]
  | .assignmentWord => [.node (wordNode .assignmentWord loc t.text)]
  | .name | .functionName => [.node (.mk (.name (String.ofList t.text)) loc [])]
  | .sign .andIf | .sign .orIf | .sign .ampersand | .reserved .bang | .ioNumber
  | .redirectOperator => [.mark t.terminal t.text]
  -- The structure of the derivation says all that these say.
  | .sign _ | .reserved _ | .newline => []

/-! ### Symbols -/

/-- The statements of a list, the last first: a mark after a statement sends it
    to the background. -/
def pushStatement (done : List Node) (p : Piece) : List Node :=
  match p, done with
  | .node n, _ => n :: done
  | .mark _ _, last :: before => last.withHead last.head.inBackground :: before
  -- Never met: a mark comes after a statement, and words are no part of a list.
  | _, _ => done

/-- The statements of a list. -/
def statements (ps : List Piece) : List Node :=
  (ps.foldl pushStatement []).reverse

/-- A negated pipeline: of a single command if it is none yet. -/
def negate (loc : Option Extent) (n : Node) : Node :=
  match n.head with
  | .pipeline async _ => .mk (.pipeline async true) loc n.children
  | _ => assemble (.pipeline false true) loc [(.commands, [n])]

/-- Is the piece a word? -/
def Piece.isWord : Piece → Bool
  | .node n => n.kind == .word
  | _ => false

/-- A simple command: the first word is its name. -/
def simpleCommand (loc : Option Extent) (ps : List Piece) : Node :=
  let leading := ps.takeWhile (!·.isWord)
  let rest := nodesOf (ps.dropWhile (!·.isWord))
  assemble (.command false) loc
    [(.name, rest.take 1), (.leading, nodesOf leading), (.suffix, rest.drop 1)]

/-- The most digits a file descriptor may have. -/
def digitLimit : Nat := 4300

/-- A redirection. -/
def redirect (loc : Option Extent) (ps : List Piece) : Except Error (List Piece) :=
  match ps with
  | [.mark _ digits, .mark _ op, .node file] =>
    if digitLimit < digits.length then .error .numberTooLong
    else
      .ok [.node (assemble (.redirect (String.ofList op) (some (Text.digitsValue digits))) loc
        [(.file, [file])])]
  | [.mark _ op, .node file] =>
    .ok [.node (assemble (.redirect (String.ofList op) none) loc [(.file, [file])])]
  | _ => .ok ps

/-- A conditional. -/
def conditional (loc : Option Extent) (ps : List Piece) : Node :=
  let ns := nodesOf ps
  assemble (.ifElse false) loc
    [(.clause, ns.take 1), (.thenBranch, (ns.drop 1).take 1), (.elseBranch, ns.drop 2)]

/-- A body as a list of statements: any other compound command is the only
    statement of its list. -/
def listBody (n : Node) : Node :=
  if n.kind = .compoundList then n
  else assemble (.compoundList false) n.loc [(.commands, [n])]

/-- The pieces of a symbol, given the place of its text and the pieces of its
    children. -/
def symbolPieces (s : Symbol) (loc : Option Extent) (ps : List Piece) :
    Except Error (List Piece) :=
  match s, ps with
  | .script, ps => .ok [.node (assemble .script loc [(.commands, statements ps)])]
  | .compoundList, ps =>
    .ok [.node (assemble (.compoundList false) loc [(.commands, statements ps)])]
  | .andOr, [.node l, .mark t _, .node r] =>
    let op := if t = .sign .andIf then Connective.and else .or
    .ok [.node (assemble (.logicalExpression false op) loc [(.left, [l]), (.right, [r])])]
  | .pipeline, [.mark _ _, .node n] => .ok [.node (negate loc n)]
  | .pipeSequence, [p] => .ok [p]
  | .pipeSequence, ps =>
    .ok [.node (assemble (.pipeline false false) loc [(.commands, nodesOf ps)])]
  | .simpleCommand, ps => .ok [.node (simpleCommand loc ps)]
  | .redirect, ps => redirect loc ps
  -- Redirections belong to the command; without any it goes on as it is.
  | .compoundCommand, .node n :: r :: rs =>
    .ok [.node ((n.withLast .redirections (nodesOf (r :: rs))).withLoc loc)]
  -- Braces make no node of their own: the list gets their place.
  | .braceGroup, [.node n] => .ok [.node (n.withLoc loc)]
  | .subshell, [.node n] => .ok [.node (assemble (.subshell false) loc [(.list, [n])])]
  | .forClause, [.node name, .words ws, .node body] =>
    .ok [.node (assemble (.forLoop false) loc
      [(.name, [name]), (.loopBody, [body]), (.wordlist, ws)])]
  | .forClause, [.node name, .node body] =>
    .ok [.node (assemble (.forLoop false) loc [(.name, [name]), (.loopBody, [body])])]
  | .forIn, ps => .ok [.words (nodesOf ps)]
  | .pattern, ps => .ok [.words (nodesOf ps)]
  | .caseClause, .node w :: rest =>
    .ok [.node (assemble (.caseOf false) loc [(.clause, [w]), (.cases, nodesOf rest)])]
  | .caseItem, [.words ws, .node body] =>
    .ok [.node (assemble .caseItem loc [(.body, [body]), (.pattern, ws)])]
  -- A branch without statements has an empty body, which has no place.
  | .caseItem, [.words ws] =>
    .ok [.node (assemble .caseItem loc
      [(.body, [assemble (.compoundList false) none []]), (.pattern, ws)])]
  | .ifClause, ps => .ok [.node (conditional loc ps)]
  -- A further condition is the only statement of the other branch.
  | .elifPart, ps =>
    .ok [.node (assemble (.compoundList false) loc [(.commands, [conditional loc ps])])]
  | .whileClause, ps =>
    let ns := nodesOf ps
    .ok [.node (assemble (.whileLoop false) loc [(.clause, ns.take 1), (.loopBody, ns.drop 1)])]
  | .untilClause, ps =>
    let ns := nodesOf ps
    .ok [.node (assemble (.untilLoop false) loc [(.clause, ns.take 1), (.loopBody, ns.drop 1)])]
  | .functionDefinition, .node name :: .node body :: rs =>
    .ok [.node (assemble (.function false) loc
      [(.name, [name]), (.body, [listBody body]), (.redirections, nodesOf rs)])]
  -- All other symbols pass on what their children give.
  | _, ps => .ok ps

/-! ### Places -/

/-- The start of a text. -/
def origin : Position := ⟨1, 1, 0⟩

/-- The point after a character. -/
def step (p : Position) (c : Char) : Position :=
  if c = '\n' then ⟨p.row + 1, 1, p.char + 1⟩ else ⟨p.row, p.col + 1, p.char + 1⟩

/-- The point after a text. -/
def advance (p : Position) (cs : List Char) : Position :=
  cs.foldl step p

/-- The end of a token that starts at a point: on the row of its last
    character, one column after it. -/
def tokenEnd (p : Position) (text : List Char) : Position :=
  -- The last character may be a line end, which would begin a new row.
  let last := advance p text.dropLast
  ⟨last.row, last.col + 1, last.char + 1⟩

/-- A part of a derivation, built. -/
structure Built where
  pieces : List Piece
  /-- The start of the first token and the end of the last, if there are any. -/
  place : Option (Position × Position)
  /-- The point after the part. -/
  after : Position

/-- The place that spans two places. -/
def span (a b : Option (Position × Position)) : Option (Position × Position) :=
  match a, b with
  | some x, some y => some (x.1, y.2)
  | some x, none => some x
  | none, b => b

/-- A place as the location of a node, if locations are wanted. -/
def located (wanted : Bool) (place : Option (Position × Position)) : Option Extent :=
  if wanted then place.map fun p => .between p.1 p.2 else none

mutual

/-- Build a derivation whose text starts at a point. -/
def build (wanted : Bool) (p : Position) : Tree → Except Error Built
  | .leaf t =>
    let start := advance p t.gap
    let place := some (start, tokenEnd start t.text)
    .ok ⟨tokenPieces (located wanted place) t, place, advance start t.text⟩
  | .node s _ ts => do
    let inner ← buildRow wanted p ts
    let pieces ← symbolPieces s (located wanted inner.place) inner.pieces
    return { inner with pieces }

/-- Build a row of derivations that follow one another. -/
def buildRow (wanted : Bool) (p : Position) : List Tree → Except Error Built
  | [] => .ok ⟨[], none, p⟩
  | t :: ts => do
    let first ← build wanted p t
    let others ← buildRow wanted first.after ts
    return ⟨first.pieces ++ others.pieces, span first.place others.place, others.after⟩

end

end ShellInliner.Parse
