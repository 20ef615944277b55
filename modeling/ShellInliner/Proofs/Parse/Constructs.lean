import Mathlib.Data.List.Induction
import ShellInliner.Proofs.Parse.Spells

/-! # How constructs are read

    What each symbol reads, given what its parts read: the grammar from the
    bottom up, for lexemes in the order in which they are written.  Where a
    symbol may be read in several ways, the way is the one of written lexemes:
    statements stand on lines of their own. -/

namespace ShellInliner.Parse

open Grammar

section

variable {w w₁ w₂ w₃ : List Lexeme} {ps ps₁ ps₂ : List Piece} {m n : Node}

/-! ### Rows of the same thing -/

/-- A symbol for one thing or more reads them one after the other. -/
theorem reads_many {many : Symbol} {row : List Element}
    (alternatives : many.alternatives = [row, .symbol many :: row])
    (made : ∀ ps, symbolPieces many none ps = .ok ps) {xs : List (List Lexeme × List Piece)}
    (ne : xs ≠ []) (h : ∀ x ∈ xs, rowReads Reads row x.1 x.2) :
    Reads many (xs.flatMap (·.1)) (xs.flatMap (·.2)) := by
  -- The symbol takes the last thing last, so the induction starts at the end.
  induction xs using List.reverseRecOn with
  | nil => exact absurd rfl ne
  | append_singleton xs x ih =>
    have last := h x (by simp)
    by_cases first : xs = []
    · subst first
      apply Reads.of (p := x.2) _ (by simpa using made x.2)
      rw [alternatives, List.nil_append, List.flatMap_cons, List.flatMap_nil, List.append_nil]
      exact .inl last
    · have others := ih first fun y hy => h y (List.mem_append_left _ hy)
      simp only [List.flatMap_append, List.flatMap_cons, List.flatMap_nil, List.append_nil]
      apply Reads.of _ (made _)
      rw [alternatives]
      exact .inr (rowReads_cons.mpr ⟨_, _, _, _, rfl, rfl, others, last⟩)

/-- Things that are each read as one node are read as these nodes. -/
theorem reads_many_nodes {α : Type} {s : Symbol} {row : List Element}
    (alternatives : s.alternatives = [row, .symbol s :: row])
    (made : ∀ ps, symbolPieces s none ps = .ok ps) {xs : List α} (ne : xs ≠ [])
    (lexemes : α → List Lexeme) (node : α → Node)
    (h : ∀ x ∈ xs, rowReads Reads row (lexemes x) [.node (node x)]) :
    Reads s (xs.flatMap lexemes) ((xs.map node).map .node) := by
  have reads := @reads_many _ _ alternatives made (xs.map fun x => (lexemes x, [.node (node x)]))
    (by simpa using ne) (by simpa using h)
  simpa [List.flatMap_map, ← List.map_eq_flatMap, Function.comp_def] using reads

/-! ### Simple commands -/

/-- A redirection as it is read. -/
def redirectOf (number : Option Nat) (op : List Char) (file : List Char) : Node :=
  assemble (.redirect (String.ofList op) (number.map Int.ofNat)) none
    [(.file, [wordNode .word none file])]

/-- The lexemes of a redirection. -/
def redirectLexemes (digits : Option (List Char)) (op file : List Char) : List Lexeme :=
  (digits.map fun ds => ⟨.ioNumber, ds⟩).toList ++ [⟨.redirectOperator, op⟩, ⟨.word, file⟩]

theorem reads_redirect (digits : Option (List Char)) (op file : List Char)
    (few : ∀ ds ∈ digits, ds.length ≤ digitLimit) :
    Reads .redirect (redirectLexemes digits op file)
      [.node (redirectOf (digits.map Text.digitsValue) op file)] := by
  cases digits with
  | none =>
    apply Reads.of (p := [.mark .redirectOperator op, .node (wordNode .word none file)]) _ rfl
    exact ⟨[], _, [], _, rfl, rfl, .inr ⟨rfl, rfl⟩, op, _, _, rfl, rfl, file, rfl, rfl⟩
  | some ds =>
    apply Reads.of
      (p := [.mark .ioNumber ds, .mark .redirectOperator op, .node (wordNode .word none file)])
    · exact ⟨[_], _, [_], _, rfl, rfl, .inl ⟨ds, rfl, rfl⟩, op, _, _, rfl, rfl, file, rfl, rfl⟩
    · -- The limit on digits is the only way in which a redirection can fail.
      have enough : ¬ digitLimit < ds.length := Nat.not_lt.mpr (few ds rfl)
      simp only [symbolPieces, redirect, if_neg enough]
      rfl

theorem reads_suffixWord (text : List Char) :
    Reads .suffixItem [⟨.word, text⟩] [.node (wordNode .word none text)] :=
  .of (p := [.node (wordNode .word none text)]) (.inl ⟨text, rfl, rfl⟩) rfl

theorem reads_suffixRedirect (h : Reads .redirect w ps) : Reads .suffixItem w ps :=
  .of (p := ps) (.inr h) rfl

theorem reads_leadingAssignment (text : List Char) :
    Reads .leadingItem [⟨.assignmentWord, text⟩] [.node (wordNode .assignmentWord none text)] :=
  .of (p := [.node (wordNode .assignmentWord none text)]) (.inl ⟨text, rfl, rfl⟩) rfl

theorem reads_leadingRedirect (h : Reads .redirect w ps) : Reads .leadingItem w ps :=
  .of (p := ps) (.inr h) rfl

/-- Items that may be missing. -/
def MaybeReads (s : Symbol) (w : List Lexeme) (ps : List Piece) : Prop :=
  Reads s w ps ∨ (w = [] ∧ ps = [])

/-- A command without a name. -/
theorem reads_unnamed (h : Reads .leadingItems w ps) :
    Reads .simpleCommand w [.node (simpleCommand none ps)] :=
  .of (p := ps) (.inl ⟨w, [], ps, [], (List.append_nil w).symm, (List.append_nil ps).symm, h,
    .inr ⟨rfl, rfl⟩⟩) rfl

/-- A command with a name. -/
theorem reads_named {text : List Char} (leading : MaybeReads .leadingItems w₁ ps₁)
    (suffix : MaybeReads .suffixItems w₂ ps₂) :
    Reads .simpleCommand (w₁ ++ ⟨.commandWord, text⟩ :: w₂)
      [.node (simpleCommand none (ps₁ ++ .node (wordNode .word none text) :: ps₂))] := by
  apply Reads.of (p := ps₁ ++ .node (wordNode .word none text) :: ps₂) _ rfl
  have named : rowReads Reads [.token .commandWord, .maybe [.symbol .suffixItems]]
      (⟨.commandWord, text⟩ :: w₂) (.node (wordNode .word none text) :: ps₂) :=
    ⟨text, w₂, ps₂, rfl, rfl, suffix⟩
  rcases leading with leading | ⟨rfl, rfl⟩
  · exact .inl ⟨w₁, _, ps₁, _, rfl, rfl, leading, .inl named⟩
  · exact .inr named

/-! ### Pipelines and connectives -/

theorem reads_command_of_simple (h : Reads .simpleCommand w ps) : Reads .command w ps :=
  .of (p := ps) (.inl h) rfl

theorem reads_command_of_compound (h : Reads .compoundCommand w ps) : Reads .command w ps :=
  .of (p := ps) (.inr (.inl h)) rfl

theorem reads_command_of_function (h : Reads .functionDefinition w ps) : Reads .command w ps :=
  .of (p := ps) (.inr (.inr h)) rfl

/-- A single command is a sequence of commands. -/
theorem reads_single (h : Reads .command w [.node n]) : Reads .pipeSequence w [.node n] :=
  .of (p := [.node n]) ⟨w, [], [.node n], [], (List.append_nil w).symm, rfl, h, .inr ⟨rfl, rfl⟩⟩ rfl

theorem reads_pipeline (h : Reads .pipeSequence w [.node n]) : Reads .pipeline w [.node n] :=
  .of (p := [.node n]) (.inl h) rfl

theorem reads_andOr (h : Reads .pipeline w [.node n]) : Reads .andOr w [.node n] :=
  .of (p := [.node n]) (.inl h) rfl

/-- The commands after the first bar of a pipeline. -/
theorem reads_pipeTail {xs : List (List Lexeme × Node)} (ne : xs ≠ [])
    (h : ∀ x ∈ xs, Reads .command x.1 [.node x.2]) :
    Reads .pipeTail (xs.flatMap fun x => punctuation .bar :: x.1) ((xs.map (·.2)).map .node) := by
  apply reads_many_nodes (s := .pipeTail) rfl (fun _ => rfl) ne
    (fun x => punctuation .bar :: x.1) (·.2)
  intro x hx
  exact ⟨_, x.1, [.node x.2], rfl, rfl, [], x.1, [], [.node x.2], rfl, rfl, .inr ⟨rfl, rfl⟩, h x hx⟩

/-- Several commands joined by bars. -/
theorem reads_sequence {x : List Lexeme × Node} {xs : List (List Lexeme × Node)} (ne : xs ≠ [])
    (h : ∀ y ∈ x :: xs, Reads .command y.1 [.node y.2]) :
    Reads .pipeSequence (x.1 ++ xs.flatMap fun x => punctuation .bar :: x.1)
      [.node (assemble (.pipeline false false) none [(.commands, x.2 :: xs.map (·.2))])] := by
  have first := h x (List.mem_cons_self ..)
  have tail := reads_pipeTail ne fun y hy => h y (List.mem_cons_of_mem _ hy)
  have several : xs.map (·.2) ≠ [] := by simpa using ne
  exact .of ⟨x.1, _, [.node x.2], _, rfl, rfl, first, .inl tail⟩ (made_pipeSequence x.2 several)

/-- A pipeline that is negated. -/
theorem reads_bang (h : Reads .pipeSequence w [.node n]) :
    Reads .pipeline (keyword .bang :: w) [.node (negate none n)] := by
  apply Reads.of (p := [.mark (.reserved .bang) Reserved.bang.spelling, .node n]) _ rfl
  exact .inr ⟨_, w, [.node n], rfl, rfl, h⟩

/-- The sign of a connective. -/
def connectiveSign : Connective → Sign
  | .and => .andIf
  | .or => .orIf

/-- Two statements joined by a connective. -/
theorem reads_connective (op : Connective) (left : Reads .andOr w₁ [.node m])
    (right : Reads .pipeline w₂ [.node n]) :
    Reads .andOr (w₁ ++ punctuation (connectiveSign op) :: w₂)
      [.node (assemble (.logicalExpression false op) none [(.left, [m]), (.right, [n])])] := by
  -- The sign, perhaps line ends, and the second statement are read alike for both connectives.
  have tail (s : Sign) : rowReads Reads [.token (.sign s), .linebreak, .symbol .pipeline]
      (punctuation s :: w₂) (Lexeme.pieces (punctuation s) ++ [.node n]) :=
    ⟨_, w₂, [.node n], rfl, rfl, [], w₂, [], [.node n], rfl, rfl, .inr ⟨rfl, rfl⟩, right⟩
  cases op with
  | and =>
    apply Reads.of (p := [.node m, .mark (.sign .andIf) Sign.andIf.spelling, .node n]) _ rfl
    exact .inr (.inl ⟨w₁, _, [.node m], _, rfl, rfl, left, tail .andIf⟩)
  | or =>
    apply Reads.of (p := [.node m, .mark (.sign .orIf) Sign.orIf.spelling, .node n]) _ rfl
    exact .inr (.inr ⟨w₁, _, [.node m], _, rfl, rfl, left, tail .orIf⟩)

/-! ### Lists of statements -/

/-- A statement, with the mark that sends it to the background. -/
structure Said where
  /-- The lexemes of the statement. -/
  lexemes : List Lexeme
  /-- The statement. -/
  node : Node
  /-- Is it sent to the background? -/
  async : Bool

namespace Said

/-- The lexemes of a mark. -/
def mark (async : Bool) : List Lexeme :=
  if async then [punctuation .ampersand] else []

/-- The pieces of a mark. -/
def markPieces (async : Bool) : List Piece :=
  if async then [.mark (.sign .ampersand) Sign.ampersand.spelling] else []

/-- The lexemes of a statement with its mark. -/
def all (x : Said) : List Lexeme := x.lexemes ++ mark x.async

/-- The pieces of a statement with its mark. -/
def pieces (x : Said) : List Piece := .node x.node :: markPieces x.async

/-- The statement as it stands in its list. -/
def statement (x : Said) : Node :=
  if x.async then x.node.withHead x.node.head.inBackground else x.node

theorem foldl_pieces (x : Said) (done : List Node) :
    x.pieces.foldl pushStatement done = x.statement :: done := by
  obtain ⟨w, n, async⟩ := x
  cases async <;> rfl

theorem foldl_flatMap (xs : List Said) (done : List Node) :
    (xs.flatMap pieces).foldl pushStatement done = (xs.map statement).reverse ++ done := by
  induction xs generalizing done with
  | nil => rfl
  | cons x xs ih =>
    rw [List.flatMap_cons, List.foldl_append, foldl_pieces, ih, List.map_cons, List.reverse_cons,
      List.append_assoc]
    rfl

end Said

/-- A line end, after the mark of the statement before it. -/
theorem reads_separator (async : Bool) :
    Reads .separator (Said.mark async ++ [newline]) (Said.markPieces async) := by
  have line : Reads .newlines [newline] [] := .of (p := []) (.inl ⟨[], rfl, rfl⟩) rfl
  cases async with
  | false => exact .of (p := []) (.inr (.inr line)) rfl
  | true =>
    apply Reads.of (p := [.mark (.sign .ampersand) Sign.ampersand.spelling]) _ rfl
    exact .inr (.inl ⟨_, [newline], [], rfl, rfl, .inl line⟩)

/-- A mark at the end of a list. -/
theorem maybe_reads_mark (async : Bool) :
    MaybeReads .separator (Said.mark async) (Said.markPieces async) := by
  cases async with
  | false => exact .inr ⟨rfl, rfl⟩
  | true =>
    left
    apply Reads.of (p := [.mark (.sign .ampersand) Sign.ampersand.spelling]) _ rfl
    exact .inr (.inl ⟨_, [], [], rfl, rfl, .inr ⟨rfl, rfl⟩⟩)

/-- Statements, each on a line of its own. -/
def lineUp (x : Said) (xs : List Said) : List Lexeme :=
  x.all ++ xs.flatMap fun y => newline :: y.all

/-- The statements of a list after the first, up to the mark of the last one. -/
theorem reads_statements_aux (xs : List Said) (h : ∀ y ∈ xs, Reads .andOr y.lexemes [.node y.node]) :
    ∀ (before : List Lexeme) (done : List Piece) (async : Bool), MaybeReads .termTail before done →
      ∃ w ps last, MaybeReads .termTail w ps ∧
        before ++ Said.mark async ++ (xs.flatMap fun y => newline :: y.all) = w ++ Said.mark last ∧
        done ++ Said.markPieces async ++ xs.flatMap Said.pieces = ps ++ Said.markPieces last := by
  -- A tail grows at its end, so the induction carries along what was read before, and the
  -- mark that was held back until a separator or the end of the list follows it.
  induction xs with
  | nil =>
    intro before done async tail
    exact ⟨before, done, async, tail, by simp, by simp⟩
  | cons y xs ih =>
    intro before done async tail
    have statement := h y (List.mem_cons_self ..)
    have row : rowReads Reads [.symbol .separator, .symbol .andOr]
        (Said.mark async ++ [newline] ++ y.lexemes) (Said.markPieces async ++ [.node y.node]) :=
      ⟨_, _, _, _, rfl, rfl, reads_separator async, statement⟩
    have tail' : Reads .termTail (before ++ (Said.mark async ++ [newline] ++ y.lexemes))
        (done ++ (Said.markPieces async ++ [.node y.node])) := by
      rcases tail with tail | ⟨rfl, rfl⟩
      · exact .of (.inr ⟨_, _, _, _, rfl, rfl, tail, row⟩) rfl
      · exact .of (.inl row) rfl
    obtain ⟨w, ps, last, reads, lexemes, pieces⟩ :=
      ih (fun z hz => h z (List.mem_cons_of_mem _ hz)) _ _ y.async (.inl tail')
    refine ⟨w, ps, last, reads, ?_, ?_⟩
    · rw [← lexemes]
      simp [Said.all]
    · rw [← pieces]
      simp [Said.pieces]

/-- Statements on lines of their own are a list of statements, and one more line
    end may follow. -/
theorem reads_term {x : Said} {xs : List Said}
    (h : ∀ y ∈ x :: xs, Reads .andOr y.lexemes [.node y.node]) :
    Reads .term (lineUp x xs) ((x :: xs).flatMap Said.pieces) ∧
      Reads .term (lineUp x xs ++ [newline]) ((x :: xs).flatMap Said.pieces) := by
  have first := h x (List.mem_cons_self ..)
  obtain ⟨w, ps, last, reads, lexemes, pieces⟩ := reads_statements_aux xs
    (fun y hy => h y (List.mem_cons_of_mem _ hy)) [] [] x.async (.inr ⟨rfl, rfl⟩)
  have lexemes' : lineUp x xs = x.lexemes ++ (w ++ Said.mark last) := by
    rw [← lexemes]
    simp [lineUp, Said.all]
  have pieces' : (x :: xs).flatMap Said.pieces = [.node x.node] ++ (ps ++ Said.markPieces last) := by
    rw [← pieces]
    simp [Said.pieces]
  -- The mark of the last statement may be followed by a line end or not.
  constructor
  · rw [lexemes', pieces']
    exact .of ⟨_, _, _, _, rfl, rfl, first, _, _, _, _, rfl, rfl, reads, maybe_reads_mark last⟩ rfl
  · rw [lexemes', pieces', List.append_assoc, List.append_assoc]
    exact .of ⟨_, _, _, _, rfl, rfl, first, _, _, _, _, rfl, rfl, reads, .inl (reads_separator last)⟩
      rfl

end

end ShellInliner.Parse
