import ShellInliner.Proofs.Parse.Reading

/-! # The reader

    A machine that takes the lexemes of a script one by one and builds its tree.
    Open lists of statements are kept on a stack; in each of them the reader
    knows the statements it has finished and how far the current one has come.
    The reader never looks ahead, so what it builds depends on the lexemes
    alone. -/

namespace ShellInliner.Parse

open Grammar

/-! ### States -/

/-- The marks of a redirection that is not finished. -/
inductive Marks
  /-- There is none. -/
  | none
  /-- The file descriptor has been read. -/
  | number (digits : List Char)
  /-- The operator has been read. -/
  | operator (number : Option (List Char)) (op : List Char)

/-- What a loop runs, before its body. -/
inductive LoopHead
  /-- A loop over words. -/
  | words (name : Node) (ws : List Node)
  /-- A loop while a condition holds, or until it does. -/
  | condition (isUntil : Bool) (clause : Node)

/-- What a list of statements belongs to.  Conditions that were tried before are
    kept with their branches, the last first. -/
inductive Owner
  /-- The whole script. -/
  | script
  /-- Braces. -/
  | brace
  /-- Parentheses. -/
  | paren
  /-- The condition of a conditional. -/
  | clause (tried : List (Node × Node))
  /-- What a conditional does if its condition holds. -/
  | positive (tried : List (Node × Node)) (clause : Node)
  /-- What a conditional does otherwise. -/
  | negative (tried : List (Node × Node)) (clause positive : Node)
  /-- The condition of a loop. -/
  | loopClause (isUntil : Bool)
  /-- The body of a loop. -/
  | loopBody (head : LoopHead)
  /-- A branch of a choice: the word, the branches before, and the patterns. -/
  | choice (subject : Node) (items : List Node) (patterns : List Node)

/-- How far the current command of a list has come. -/
inductive Mode
  /-- A statement may start. -/
  | start
  /-- The same, right after the parenthesis that follows the name of a function. -/
  | opening
  /-- A command has to follow. -/
  | ahead
  /-- A simple command. -/
  | simple (items : List Piece) (marks : Marks)
  /-- A compound command that is closed, perhaps the body of a function. -/
  | compound (function : Option Node) (body : Node) (redirects : List Node) (marks : Marks)
  /-- The keyword of a function. -/
  | functionKeyword
  /-- The name of a function, which parentheses follow. -/
  | functionName (name : Node)
  /-- The parenthesis after the name of a function. -/
  | functionParen (name : Node)
  /-- The name of a function after the keyword; parentheses may follow. -/
  | functionHead (name : Node)
  /-- A function without its body. -/
  | functionBody (name : Node)

/-- An open list of statements. -/
structure Frame where
  /-- What it belongs to. -/
  owner : Owner
  /-- The statements that are finished, the last first. -/
  done : List Node
  /-- What stands before the last connective of the current statement. -/
  left : Option (Node × Connective)
  /-- Is the current pipeline negated? -/
  bang : Bool
  /-- The commands before the last bar of the current pipeline, the last first. -/
  pipe : List Node
  /-- The current command. -/
  mode : Mode

/-- Where the reader is among the patterns of a branch. -/
inductive Stage
  /-- Before the first pattern. -/
  | first
  /-- Before a pattern that has to come. -/
  | next
  /-- After a pattern. -/
  | after

/-- A loop or a choice whose first list of statements is still to come. -/
inductive Heading
  /-- The name of the loop variable comes next. -/
  | forName
  /-- The words of the loop may come. -/
  | forIn (name : Node)
  /-- The words of the loop. -/
  | forWords (name : Node) (ws : List Node)
  /-- The body of the loop comes next. -/
  | forDo (name : Node) (ws : List Node)
  /-- The word of the choice comes next. -/
  | caseWord
  /-- The word of the choice has been read. -/
  | caseIn (subject : Node)
  /-- The patterns of a branch. -/
  | patterns (subject : Node) (items : List Node) (ws : List Node) (stage : Stage)

/-- What the reader is in the middle of. -/
inductive Top
  /-- A list of statements. -/
  | list (f : Frame)
  /-- The start of a loop or a choice. -/
  | heading (h : Heading)

/-- A state of the reader. -/
structure State where
  /-- What it is in the middle of. -/
  top : Top
  /-- The lists around it. -/
  below : List Frame

/-! ### What has been read -/

/-- A list of statements, given last first. -/
def listNode (ns : List Node) : Node :=
  assemble (.compoundList false) none [(.commands, ns.reverse)]

/-- A conditional. -/
def lastIf (c b : Node) (e : List Node) : Node :=
  assemble (.ifElse false) none [(.clause, [c]), (.thenBranch, [b]), (.elseBranch, e)]

/-- A conditional, given the conditions that were tried before. -/
def ifNode : List (Node × Node) → Node → Node → List Node → Node
  | [], c, b, e => lastIf c b e
  | (c₀, b₀) :: tried, c, b, e => ifNode tried c₀ b₀ [listNode [lastIf c b e]]

/-- A loop, given its body. -/
def loopNode : LoopHead → Node → Node
  | .words name ws, body =>
    assemble (.forLoop false) none [(.name, [name]), (.loopBody, [body]), (.wordlist, ws)]
  | .condition false clause, body =>
    assemble (.whileLoop false) none [(.clause, [clause]), (.loopBody, [body])]
  | .condition true clause, body =>
    assemble (.untilLoop false) none [(.clause, [clause]), (.loopBody, [body])]

/-- A choice, given its branches last first. -/
def caseNode (subject : Node) (items : List Node) : Node :=
  assemble (.caseOf false) none [(.clause, [subject]), (.cases, items.reverse)]

/-- A branch of a choice. -/
def itemNode (patterns ns : List Node) : Node :=
  assemble .caseItem none [(.body, [listNode ns]), (.pattern, patterns)]

/-- A compound command with its redirections, or the function it is the body
    of. -/
def compoundNode (function : Option Node) (body : Node) (redirects : List Node) : Node :=
  match function with
  | none =>
    if redirects.isEmpty then body else (body.withLast .redirections redirects).withLoc none
  | some name =>
    assemble (.function false) none
      [(.name, [name]), (.body, [listBody body]), (.redirections, redirects)]

/-- The command that has been read, if it may end here. -/
def Mode.node? : Mode → Option Node
  | simple (p :: items) .none => some (simpleCommand none (p :: items))
  | compound function body redirects .none => some (compoundNode function body redirects)
  | _ => none

/-- May a command start here? -/
def Mode.isFresh : Mode → Bool
  | start | opening | ahead => true
  | _ => false

/-- The items of a simple command to which others may be added. -/
def Mode.items? : Mode → Option (List Piece)
  | start | opening | ahead => some []
  | simple items .none => some items
  | _ => none

/-- The function whose body has to follow; none if a command may start here. -/
def Mode.opens? : Mode → Option (Option Node)
  | start | opening | ahead => some none
  | functionHead name | functionBody name => some (some name)
  | _ => none

namespace Frame

/-- A list in which the next statement may start. -/
def begin (owner : Owner) (done : List Node) : Frame :=
  ⟨owner, done, none, false, [], .start⟩

/-- The commands joined by bars that have been read. -/
def sequence? (f : Frame) : Option Node :=
  f.mode.node?.map fun n =>
    if f.pipe.isEmpty then n
    else assemble (.pipeline false false) none [(.commands, (n :: f.pipe).reverse)]

/-- The pipeline that has been read. -/
def pipeline? (f : Frame) : Option Node :=
  f.sequence?.map fun n => if f.bang then negate none n else n

/-- The statement that has been read. -/
def andOr? (f : Frame) : Option Node :=
  f.pipeline?.map fun n =>
    match f.left with
    | none => n
    | some (l, op) => assemble (.logicalExpression false op) none [(.left, [l]), (.right, [n])]

/-- The statements that have been read, the last first, if the list may end
    here. -/
def statements? (f : Frame) : Option (List Node) :=
  match f.mode with
  | .start => some f.done
  | _ => f.andOr?.map (· :: f.done)

/-- The conditional that ends with the list. -/
def conditional? (f : Frame) : Option Node :=
  f.statements?.bind fun ns =>
    match f.owner with
    | .positive tried c => some (ifNode tried c (listNode ns) [])
    | .negative tried c b => some (ifNode tried c b [listNode ns])
    | _ => none

/-- The word of the choice whose branch ends with the list, and its branches. -/
def choice? (f : Frame) : Option (Node × List Node) :=
  f.statements?.bind fun ns =>
    match f.owner with
    | .choice subject items patterns => some (subject, itemNode patterns ns :: items)
    | _ => none

/-- The list goes on after a closed compound command. -/
def close (f : Frame) (n : Node) : Option Frame :=
  f.mode.opens?.map fun function => { f with mode := .compound function n [] .none }

end Frame

/-! ### Steps -/

/-- The reader goes on with a list. -/
def State.inList (f : Frame) (below : List Frame) : State := ⟨.list f, below⟩

/-- A compound command is closed, and the list around it goes on. -/
def pop (below : List Frame) (n : Node) : Option State :=
  match below with
  | [] => none
  | f :: below => (f.close n).map (State.inList · below)

/-- A list is opened inside another one. -/
def push (f : Frame) (below : List Frame) (owner : Owner) (mode : Mode) : Option State :=
  f.mode.opens?.map fun _ => ⟨.list { Frame.begin owner [] with mode }, f :: below⟩

/-- The name that a lexeme stands for. -/
def Lexeme.name (l : Lexeme) : Node :=
  .mk (.name (String.ofList l.text)) none []

/-- The word that a lexeme stands for. -/
def Lexeme.word (l : Lexeme) : Node :=
  wordNode .word none l.text

/-- A redirection to a file. -/
def redirectNode? (number : Option (List Char)) (op : List Char) (file : Node) : Option Node :=
  let make (n : Option Int) := assemble (.redirect (String.ofList op) n) none [(.file, [file])]
  match number with
  | none => some (make none)
  | some digits =>
    if digitLimit < digits.length then none else some (make (some (Text.digitsValue digits)))

/-- Take the next lexeme in the middle of a loop's or a choice's start. -/
def stepHeading (below : List Frame) (h : Heading) (l : Lexeme) : Option State :=
  let stay (h : Heading) : Option State := some ⟨.heading h, below⟩
  let body (head : LoopHead) : Option State := some (.inList (.begin (.loopBody head) []) below)
  match h, l.terminal with
  | .forName, .name => stay (.forIn l.name)
  | .forIn name, .newline => stay (.forIn name)
  | .forIn name, .sign .semicolon => stay (.forDo name [])
  | .forIn name, .reserved .inWord => stay (.forWords name [])
  | .forIn name, .reserved .doWord => body (.words name [])
  | .forWords name ws, .word => stay (.forWords name (ws ++ [l.word]))
  | .forWords name ws, .newline | .forWords name ws, .sign .semicolon => stay (.forDo name ws)
  | .forDo name ws, .newline => stay (.forDo name ws)
  | .forDo name ws, .reserved .doWord => body (.words name ws)
  | .caseWord, .word => stay (.caseIn l.word)
  | .caseIn subject, .newline => stay (.caseIn subject)
  | .caseIn subject, .reserved .inWord => stay (.patterns subject [] [] .first)
  | .patterns subject items ws .first, .newline => stay (.patterns subject items ws .first)
  | .patterns subject items ws .first, .sign .openParen => stay (.patterns subject items ws .next)
  | .patterns subject items _ .first, .reserved .esacWord => pop below (caseNode subject items)
  | .patterns subject items ws .first, .word | .patterns subject items ws .next, .word =>
    stay (.patterns subject items (ws ++ [l.word]) .after)
  | .patterns subject items ws .after, .sign .bar => stay (.patterns subject items ws .next)
  | .patterns subject items ws .after, .sign .closeParen =>
    some (.inList (.begin (.choice subject items ws) []) below)
  | _, _ => none

/-- Take the next part of a command or a function. -/
def stepCommand (m : Mode) (l : Lexeme) : Option Mode :=
  match l.terminal, m with
  | .commandWord, m | .assignmentWord, m =>
    m.items?.bind fun items =>
      if items.any Piece.isWord then none else some (.simple (items ++ l.pieces) .none)
  | .word, .simple items .none =>
    if items.any Piece.isWord then some (.simple (items ++ l.pieces) .none) else none
  | .word, .simple items (.operator number op) =>
    (redirectNode? number op l.word).map fun r => .simple (items ++ [.node r]) .none
  | .word, .compound function body redirects (.operator number op) =>
    (redirectNode? number op l.word).map fun r => .compound function body (redirects ++ [r]) .none
  | .ioNumber, .compound function body redirects .none =>
    some (.compound function body redirects (.number l.text))
  | .ioNumber, m => m.items?.map fun items => .simple items (.number l.text)
  | .redirectOperator, .compound function body redirects .none =>
    some (.compound function body redirects (.operator none l.text))
  | .redirectOperator, .compound function body redirects (.number digits) =>
    some (.compound function body redirects (.operator (some digits) l.text))
  | .redirectOperator, .simple items (.number digits) =>
    some (.simple items (.operator (some digits) l.text))
  | .redirectOperator, m => m.items?.map fun items => .simple items (.operator none l.text)
  | .reserved .functionWord, m => if m.isFresh then some .functionKeyword else none
  | .functionName, .functionKeyword => some (.functionHead l.name)
  | .functionName, m => if m.isFresh then some (.functionName l.name) else none
  | _, _ => none

/-- Take a line end. -/
def stepNewline (f : Frame) : Option Frame :=
  match f.mode with
  | .opening => some { f with mode := .start }
  | .start | .ahead | .functionBody _ => some f
  | .functionHead name => some { f with mode := .functionBody name }
  | _ => f.andOr?.map fun n => .begin f.owner (n :: f.done)

/-- Take the next lexeme in a list of statements. -/
def stepList (f : Frame) (below : List Frame) (l : Lexeme) : Option State :=
  let stay (f : Option Frame) : Option State := f.map (State.inList · below)
  match l.terminal with
  | .newline => stay (stepNewline f)
  | .sign .semicolon => stay (f.andOr?.map fun n => .begin f.owner (n :: f.done))
  | .sign .ampersand =>
    stay (f.andOr?.map fun n => .begin f.owner (n.withHead n.head.inBackground :: f.done))
  | .sign .andIf =>
    stay (f.andOr?.map fun n => { Frame.begin f.owner f.done with left := some (n, .and), mode := .ahead })
  | .sign .orIf =>
    stay (f.andOr?.map fun n => { Frame.begin f.owner f.done with left := some (n, .or), mode := .ahead })
  | .sign .bar => stay (f.mode.node?.map fun n => { f with pipe := n :: f.pipe, mode := .ahead })
  | .reserved .bang => stay (if f.mode.isFresh then some { f with bang := true, mode := .ahead } else none)
  | .reserved .openBrace => push f below .brace .start
  | .reserved .ifWord => push f below (.clause []) .start
  | .reserved .whileWord => push f below (.loopClause false) .start
  | .reserved .untilWord => push f below (.loopClause true) .start
  | .reserved .forWord => f.mode.opens?.map fun _ => ⟨.heading .forName, f :: below⟩
  | .reserved .caseWord => f.mode.opens?.map fun _ => ⟨.heading .caseWord, f :: below⟩
  | .sign .openParen =>
    match f.mode with
    | .functionName name => stay (some { f with mode := .functionParen name })
    | .functionHead _ => push f below .paren .opening
    | _ => push f below .paren .start
  | .sign .closeParen =>
    match f.mode, below with
    | .functionParen name, below => some (.inList { f with mode := .functionBody name } below)
    | .opening, g :: below =>
      match g.mode with
      | .functionHead name => some (.inList { g with mode := .functionBody name } below)
      | _ => none
    | _, below =>
      match f.owner with
      | .paren => f.statements?.bind fun ns =>
          pop below (assemble (.subshell false) none [(.list, [listNode ns])])
      | _ => none
  | .reserved .closeBrace =>
    match f.owner with
    | .brace => f.statements?.bind fun ns => pop below (listNode ns)
    | _ => none
  | .reserved .thenWord =>
    match f.owner with
    | .clause tried => stay (f.statements?.map fun ns => .begin (.positive tried (listNode ns)) [])
    | _ => none
  | .reserved .elifWord =>
    match f.owner with
    | .positive tried c => stay (f.statements?.map fun ns => .begin (.clause ((c, listNode ns) :: tried)) [])
    | _ => none
  | .reserved .elseWord =>
    match f.owner with
    | .positive tried c => stay (f.statements?.map fun ns => .begin (.negative tried c (listNode ns)) [])
    | _ => none
  | .reserved .fiWord => f.conditional?.bind (pop below)
  | .reserved .doWord =>
    match f.owner with
    | .loopClause isUntil =>
      stay (f.statements?.map fun ns => .begin (.loopBody (.condition isUntil (listNode ns))) [])
    | _ => none
  | .reserved .doneWord =>
    match f.owner with
    | .loopBody head => f.statements?.bind fun ns => pop below (loopNode head (listNode ns))
    | _ => none
  | .sign .doubleSemicolon =>
    f.choice?.map fun c => ⟨.heading (.patterns c.1 c.2 [] .first), below⟩
  | .reserved .esacWord => f.choice?.bind fun c => pop below (caseNode c.1 c.2)
  | _ => stay ((stepCommand f.mode l).map fun mode => { f with mode })

/-- Take the next lexeme. -/
def next (s : State) (l : Lexeme) : Option State :=
  match s.top with
  | .list f => stepList f s.below l
  | .heading h => stepHeading s.below h l

/-- Take lexemes one after the other. -/
def run (s : State) : List Lexeme → Option State
  | [] => some s
  | l :: w => (next s l).bind (run · w)

/-- The state before the first lexeme. -/
def State.initial : State := .inList (.begin .script []) []

/-- The script that has been read, if it may end here. -/
def State.script? (s : State) : Option Node :=
  match s.top, s.below with
  | .list f, [] =>
    match f.owner with
    | .script => f.statements?.map fun ns => assemble .script none [(.commands, ns.reverse)]
    | _ => none
  | _, _ => none

theorem run_append (s : State) (w₁ w₂ : List Lexeme) :
    run s (w₁ ++ w₂) = (run s w₁).bind (run · w₂) := by
  induction w₁ generalizing s with
  | nil => rfl
  | cons l w ih =>
    simp only [List.cons_append, run]
    cases next s l with
    | none => rfl
    | some s' => exact ih s'

end ShellInliner.Parse
