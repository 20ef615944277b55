import ShellInliner.Proofs.Node.Fields
import ShellInliner.Proofs.Parse.Constructs

/-! # How compound commands are read

    Groups, subshells, loops, choices, conditionals and functions, given how the
    lists of statements in them are read.  A list stands on lines of its own
    between the reserved words around it, but for conditions and subshells, which
    start on the line of the word before them. -/

namespace ShellInliner.Parse

open Grammar

section

variable {w w₁ w₂ w₃ : List Lexeme} {m n : Node} {rs : List Node}

/-! ### Bodies -/

/-- A list of statements as it is read. -/
def listOf (ns : List Node) : Node :=
  assemble (.compoundList false) none [(.commands, ns)]

theorem all_listOf (ns : List Node) : (listOf ns).all .commands = ns := by
  show Node.within .commands (ns.map (.commands, ·) ++ []) = ns
  rw [List.append_nil, Node.within_map_self]

/-- The lexemes are read as a list, with or without line ends around them. -/
structure ReadsList (w : List Lexeme) (n : Node) : Prop where
  /-- Alone. -/
  alone : Reads .compoundList w [.node n]
  /-- Before a line end. -/
  closed : Reads .compoundList (w ++ [newline]) [.node n]
  /-- On lines of their own. -/
  lined : Reads .compoundList (newline :: (w ++ [newline])) [.node n]
  /-- As a whole script. -/
  whole : Reads .script w [.node (assemble .script none [(.commands, n.all .commands)])]
  /-- Nothing is known of its place. -/
  loc : n.loc = none

theorem reads_line : Reads .newlines [newline] [] :=
  .of (p := []) (.inl ⟨[], rfl, rfl⟩) rfl

/-- Statements on lines of their own are read as their list. -/
theorem reads_list {x : Said} {xs : List Said}
    (h : ∀ y ∈ x :: xs, Reads .andOr y.lexemes [.node y.node]) :
    ReadsList (lineUp x xs) (listOf ((x :: xs).map Said.statement)) := by
  obtain ⟨alone, closed⟩ := reads_term h
  have said : statements ((x :: xs).flatMap Said.pieces) = (x :: xs).map Said.statement := by
    rw [statements, Said.foldl_flatMap, List.append_nil, List.reverse_reverse]
  have made : symbolPieces .compoundList none ((x :: xs).flatMap Said.pieces) =
      .ok [.node (listOf ((x :: xs).map Said.statement))] := by
    rw [symbolPieces, said]
    rfl
  constructor
  · exact .of ⟨[], _, [], _, rfl, rfl, .inr ⟨rfl, rfl⟩, alone⟩ made
  · exact .of ⟨[], _, [], _, rfl, rfl, .inr ⟨rfl, rfl⟩, closed⟩ made
  · exact .of ⟨[newline], _, [], _, rfl, rfl, .inl reads_line, closed⟩ made
  · rw [all_listOf]
    apply Reads.of (s := .script) (p := (x :: xs).flatMap Said.pieces)
    · exact ⟨[], _, [], _, rfl, rfl, .inr ⟨rfl, rfl⟩, .inl alone⟩
    · rw [symbolPieces, said]
  · rfl

theorem withLoc_of_none (h : n.loc = none) : n.withLoc none = n := by
  cases n with
  | mk hd l cs =>
    cases h
    rfl

/-- A list on lines of its own between two lexemes. -/
def enclosed (first : Lexeme) (w : List Lexeme) (last : Lexeme) : List Lexeme :=
  first :: newline :: (w ++ [newline, last])

theorem enclosed_eq (first last : Lexeme) (w : List Lexeme) :
    enclosed first w last = first :: ((newline :: (w ++ [newline])) ++ [last]) := by
  simp [enclosed]

/-- The body of a compound command is one of several constructs. -/
theorem reads_compoundBody {s : Grammar.Symbol}
    (construct : [Item.symbol s] ∈ Grammar.Symbol.compoundBody.productions)
    (h : Reads s w [.node n]) : Reads .compoundBody w [.node n] := by
  have row := RowReads.symbol h .nil
  rw [List.append_nil, List.append_nil] at row
  exact .production construct row rfl

theorem reads_braceGroup (h : ReadsList w n) :
    Reads .compoundBody (enclosed (keyword .openBrace) w (keyword .closeBrace)) [.node n] := by
  have group : Reads .braceGroup (enclosed (keyword .openBrace) w (keyword .closeBrace))
      [.node (n.withLoc none)] := by
    rw [enclosed_eq]
    exact .of (p := [.node n])
      ⟨_, _, [.node n], rfl, rfl, _, _, [.node n], [], rfl, rfl, h.lined, _, rfl, rfl⟩ rfl
  rw [withLoc_of_none h.loc] at group
  exact reads_compoundBody (by decide) group

theorem reads_doGroup (h : ReadsList w n) :
    Reads .doGroup (enclosed (keyword .doWord) w (keyword .doneWord)) [.node n] := by
  rw [enclosed_eq]
  exact .of (p := [.node n])
    ⟨_, _, [.node n], rfl, rfl, _, _, [.node n], [], rfl, rfl, h.lined, _, rfl, rfl⟩ rfl

theorem reads_subshell (h : ReadsList w n) :
    Reads .compoundBody (punctuation .openParen :: (w ++ [punctuation .closeParen]))
      [.node (assemble (.subshell false) none [(.list, [n])])] := by
  have shell : Reads .subshell (punctuation .openParen :: (w ++ [punctuation .closeParen]))
      [.node (assemble (.subshell false) none [(.list, [n])])] :=
    .of (p := [.node n])
      ⟨_, _, [.node n], rfl, rfl, _, _, [.node n], [], rfl, rfl, h.alone, _, rfl, rfl⟩ rfl
  exact reads_compoundBody (by decide) shell

/-! ### Loops -/

/-- The lexemes of a loop with a condition. -/
def conditionLoop (r : Reserved) (clause body : List Lexeme) : List Lexeme :=
  keyword r :: (clause ++ newline :: enclosed (keyword .doWord) body (keyword .doneWord))

theorem conditionLoop_eq (r : Reserved) (clause body : List Lexeme) :
    conditionLoop r clause body = keyword r ::
      ((clause ++ [newline]) ++ enclosed (keyword .doWord) body (keyword .doneWord)) := by
  simp [conditionLoop]

/-- The two loops with a condition differ in their first word only. -/
theorem reads_conditionLoop {r : Reserved} {s : Grammar.Symbol} {h : Head}
    (loop : (r, s, h) ∈ [(.whileWord, .whileClause, .whileLoop false),
      (.untilWord, .untilClause, .untilLoop false)])
    (clause : ReadsList w₁ m) (body : ReadsList w₂ n) :
    Reads s (conditionLoop r w₁ w₂) [.node (assemble h none [(.clause, [m]), (.loopBody, [n])])] := by
  rw [conditionLoop_eq]
  simp only [List.mem_cons, List.not_mem_nil, or_false, Prod.mk.injEq] at loop
  rcases loop with ⟨rfl, rfl, rfl⟩ | ⟨rfl, rfl, rfl⟩
  all_goals
    exact .of (p := [.node m, .node n]) ⟨_, _, [.node m, .node n], rfl, rfl, _, _, [.node m],
      [.node n], rfl, rfl, clause.closed, [], _, [], [.node n], rfl, rfl, .inr ⟨rfl, rfl⟩,
      reads_doGroup body⟩ rfl

theorem reads_while (clause : ReadsList w₁ m) (body : ReadsList w₂ n) :
    Reads .compoundBody (conditionLoop .whileWord w₁ w₂)
      [.node (assemble (.whileLoop false) none [(.clause, [m]), (.loopBody, [n])])] :=
  reads_compoundBody (by decide) (reads_conditionLoop (List.mem_cons_self ..) clause body)

theorem reads_until (clause : ReadsList w₁ m) (body : ReadsList w₂ n) :
    Reads .compoundBody (conditionLoop .untilWord w₁ w₂)
      [.node (assemble (.untilLoop false) none [(.clause, [m]), (.loopBody, [n])])] :=
  reads_compoundBody (by decide)
    (reads_conditionLoop (List.mem_cons_of_mem _ (List.mem_cons_self ..)) clause body)

/-- The lexeme of a word. -/
def wordLexeme (text : List Char) : Lexeme := ⟨.word, text⟩

/-- The lexemes of the words of a loop. -/
def loopWords (texts : List (List Char)) : List Lexeme :=
  if texts.isEmpty then [] else keyword .inWord :: texts.map wordLexeme

theorem nodesOf_words (texts : List (List Char)) :
    nodesOf ((texts.map (wordNode .word none)).map .node) = texts.map (wordNode .word none) :=
  nodesOf_map_node _

theorem reads_wordRun {texts : List (List Char)} (ne : texts ≠ []) :
    Reads .wordRun (texts.map wordLexeme) ((texts.map (wordNode .word none)).map .node) := by
  have run := reads_many_nodes (s := .wordRun) rfl (fun _ => rfl) ne
    (fun text => [wordLexeme text]) (wordNode .word none) fun text _ => ⟨text, rfl, rfl⟩
  rwa [← List.map_eq_flatMap] at run

theorem reads_for (name : List Char) (texts : List (List Char)) (body : ReadsList w n) :
    Reads .compoundBody
      (keyword .forWord :: ⟨.name, name⟩ ::
        (loopWords texts ++ newline :: enclosed (keyword .doWord) w (keyword .doneWord)))
      [.node (assemble (.forLoop false) none
        [(.name, [.mk (.name (String.ofList name)) none []]), (.loopBody, [n]),
          (.wordlist, texts.map (wordNode .word none))])] := by
  have loop : Reads .forClause
      (keyword .forWord :: ⟨.name, name⟩ ::
        (loopWords texts ++ newline :: enclosed (keyword .doWord) w (keyword .doneWord)))
      [.node (assemble (.forLoop false) none
        [(.name, [.mk (.name (String.ofList name)) none []]), (.loopBody, [n]),
          (.wordlist, texts.map (wordNode .word none))])] := by
    -- Without words the list follows at once; with words `in` and a separator come between.
    by_cases none : texts = []
    · subst none
      exact .of (p := [.node (.mk (.name (String.ofList name)) .none []), .node n])
        ⟨_, _, _, rfl, rfl, _, _, [.node n], rfl, rfl, [], _, [], [.node n], rfl, rfl,
          .inr ⟨rfl, rfl⟩, [newline], _, [], [.node n], rfl, rfl, .inl reads_line,
          reads_doGroup body⟩ rfl
    · have words : Reads .forIn (keyword .inWord :: texts.map wordLexeme)
          [.words (texts.map (wordNode .word .none))] := by
        apply Reads.of (p := (texts.map (wordNode .word .none)).map .node)
        · exact ⟨_, _, _, rfl, rfl, .inl (reads_wordRun none)⟩
        · rw [symbolPieces, nodesOf_words]
      have separator : Reads .sequentialSeparator [newline] [] :=
        .of (p := []) (.inr reads_line) rfl
      have lexemes : loopWords texts ++ newline :: enclosed (keyword .doWord) w (keyword .doneWord) =
          (keyword .inWord :: texts.map wordLexeme ++ [newline]) ++
            enclosed (keyword .doWord) w (keyword .doneWord) := by
        simp [loopWords, none]
      have before : Reads .forWords (keyword .inWord :: texts.map wordLexeme ++ [newline])
          [.words (texts.map (wordNode .word .none))] :=
        .of (p := [.words _]) (.inl ⟨[], _, [], [.words _], rfl, rfl, .inr ⟨rfl, rfl⟩, _, _,
          [.words _], [], rfl, rfl, words, separator⟩) rfl
      rw [lexemes]
      exact .of (p := [.node (.mk (.name (String.ofList name)) .none []), .words _, .node n])
        ⟨_, _, _, rfl, rfl, _, _, [.words _, .node n], rfl, rfl, _, _, [.words _], [.node n], rfl,
          rfl, .inl before, [], _, [], [.node n], rfl, rfl, .inr ⟨rfl, rfl⟩, reads_doGroup body⟩ rfl
  exact reads_compoundBody (by decide) loop

/-! ### Choices -/

/-- The lexemes of patterns. -/
def patternLexemes (text : List Char) (texts : List (List Char)) : List Lexeme :=
  wordLexeme text :: texts.flatMap fun t => [punctuation .bar, wordLexeme t]

theorem reads_pattern (text : List Char) (texts : List (List Char)) :
    Reads .pattern (patternLexemes text texts)
      [.words ((text :: texts).map (wordNode .word none))] := by
  apply Reads.of (p := ((text :: texts).map (wordNode .word none)).map .node)
  · refine ⟨_, _, _, rfl, rfl, ?_⟩
    by_cases none : texts = []
    · subst none
      exact .inr ⟨rfl, rfl⟩
    · left
      exact reads_many_nodes (s := .patternTail) rfl (fun _ => rfl) none
        (fun t => [punctuation .bar, wordLexeme t]) (wordNode .word .none)
        fun t _ => ⟨_, _, [.node _], rfl, rfl, t, rfl, rfl⟩
  · rw [symbolPieces, nodesOf_words]

/-- A branch with statements. -/
theorem reads_item (text : List Char) (texts : List (List Char)) (body : ReadsList w n) :
    Reads .caseItem
      (patternLexemes text texts ++ punctuation .closeParen :: newline :: (w ++ [newline]))
      [.node (assemble .caseItem none
        [(.body, [n]), (.pattern, (text :: texts).map (wordNode .word none))])] := by
  apply Reads.of (p := [.words ((text :: texts).map (wordNode .word none)), .node n]) _ rfl
  exact ⟨[], _, [], _, rfl, rfl, .inr ⟨rfl, rfl⟩, _, _, [.words _], [.node n], rfl, rfl,
    reads_pattern text texts, _, _, [.node n], rfl, rfl, .inl body.lined⟩

/-- A branch without statements. -/
theorem reads_item_empty (text : List Char) (texts : List (List Char)) :
    Reads .caseItem (patternLexemes text texts ++ [punctuation .closeParen, newline])
      [.node (assemble .caseItem none
        [(.body, [listOf []]), (.pattern, (text :: texts).map (wordNode .word none))])] := by
  apply Reads.of (p := [.words ((text :: texts).map (wordNode .word none))]) _ rfl
  exact ⟨[], _, [], _, rfl, rfl, .inr ⟨rfl, rfl⟩, _, _, [.words _], [], rfl, rfl,
    reads_pattern text texts, _, _, [], rfl, rfl, .inr (.inl reads_line)⟩

/-- The lexemes of a branch with those that end it. -/
def endedItem (x : List Lexeme × Node) : List Lexeme :=
  x.1 ++ [punctuation .doubleSemicolon, newline]

/-- The lexemes of a choice. -/
def choice (word : List Char) (xs : List (List Lexeme × Node)) : List Lexeme :=
  [keyword .caseWord, wordLexeme word, keyword .inWord, newline] ++
    (xs.flatMap endedItem ++ [keyword .esacWord])

/-- What ends a branch belongs to the branch after it. -/
theorem flatMap_endedItem (x : List Lexeme × Node) (xs : List (List Lexeme × Node)) :
    (x :: xs).flatMap endedItem = x.1 ++
      ((xs.flatMap fun y => punctuation .doubleSemicolon :: newline :: y.1) ++
        [punctuation .doubleSemicolon, newline]) := by
  induction xs generalizing x with
  | nil => simp [endedItem]
  | cons y ys ih =>
    rw [List.flatMap_cons, ih]
    simp [endedItem]

theorem reads_case (word : List Char) (xs : List (List Lexeme × Node))
    (h : ∀ x ∈ xs, Reads .caseItem x.1 [.node x.2]) :
    Reads .compoundBody (choice word xs)
      [.node (assemble (.caseOf false) none
        [(.clause, [wordNode .word none word]), (.cases, xs.map (·.2))])] := by
  have clause : Reads .caseClause (choice word xs)
      [.node (assemble (.caseOf false) none
        [(.clause, [wordNode .word none word]), (.cases, xs.map (·.2))])] := by
    apply Reads.of (p := .node (wordNode .word none word) :: (xs.map (·.2)).map .node)
    · refine ⟨_, _, _, rfl, rfl, _, _, (xs.map (·.2)).map .node, rfl, rfl, [], _, [], _, rfl, rfl,
        .inr ⟨rfl, rfl⟩, _, _, _, rfl, rfl, [newline], _, [], _, rfl, rfl, .inl reads_line,
        xs.flatMap endedItem, _, (xs.map (·.2)).map .node, [], rfl, by simp, ?_, _, rfl, rfl⟩
      -- Branches are optional, and the first one is read apart from the others.
      cases xs with
      | nil => exact .inr ⟨rfl, rfl⟩
      | cons x xs =>
        left
        have first := h x (List.mem_cons_self ..)
        have tail : MaybeReads .caseTail
            (xs.flatMap fun y => punctuation .doubleSemicolon :: newline :: y.1)
            ((xs.map (·.2)).map .node) := by
          by_cases none : xs = []
          · subst none
            exact .inr ⟨rfl, rfl⟩
          · left
            apply reads_many_nodes (s := .caseTail) rfl (fun _ => rfl) none
              (fun y => punctuation .doubleSemicolon :: newline :: y.1) (·.2)
            intro y hy
            exact ⟨_, _, [.node y.2], rfl, rfl, [newline], y.1, [], [.node y.2], rfl, rfl,
              .inl reads_line, h y (List.mem_cons_of_mem _ hy)⟩
        rw [flatMap_endedItem]
        exact ⟨x.1, _, [.node x.2], _, rfl, rfl, first, _, _, _, [], rfl, by simp, tail,
          .inl ⟨_, _, [], rfl, rfl, .inl reads_line⟩⟩
    · rw [symbolPieces, nodesOf_map_node]
  exact reads_compoundBody (by decide) clause

/-! ### Conditionals -/

/-- The lexemes of the part of a conditional that is run otherwise. -/
def otherwise : Option (List Lexeme) → List Lexeme
  | none => []
  | some w => keyword .elseWord :: newline :: (w ++ [newline])

/-- The lexemes of a conditional. -/
def conditionalLexemes (clause positive : List Lexeme) (negative : Option (List Lexeme)) :
    List Lexeme :=
  keyword .ifWord :: ((clause ++ [newline]) ++ keyword .thenWord ::
    ((newline :: (positive ++ [newline])) ++ (otherwise negative ++ [keyword .fiWord])))

/-- The lexemes are read as the other part of a conditional, if there is one. -/
def ReadsOtherwise : Option (List Lexeme) → List Node → Prop
  | none, ns => ns = []
  | some w, ns => ∃ n, ns = [n] ∧ ReadsList w n

theorem reads_if {p : Node} {negative : Option (List Lexeme)} {ns : List Node}
    (clause : ReadsList w₁ m) (positive : ReadsList w₂ p) (other : ReadsOtherwise negative ns) :
    Reads .compoundBody (conditionalLexemes w₁ w₂ negative)
      [.node (assemble (.ifElse false) none
        [(.clause, [m]), (.thenBranch, [p]), (.elseBranch, ns)])] := by
  have conditional : Reads .ifClause (conditionalLexemes w₁ w₂ negative)
      [.node (assemble (.ifElse false) none
        [(.clause, [m]), (.thenBranch, [p]), (.elseBranch, ns)])] := by
    -- A second branch is read as one piece or not at all.
    have branch : MaybeReads .elseBranch (otherwise negative) (ns.map .node) := by
      cases negative with
      | none =>
        obtain rfl : ns = [] := other
        exact .inr ⟨rfl, rfl⟩
      | some w =>
        obtain ⟨n, rfl, list⟩ := other
        have part : Reads .elsePart (otherwise (some w)) [.node n] :=
          .of (p := [.node n]) ⟨_, _, [.node n], rfl, rfl, list.lined⟩ rfl
        exact .inl (.of (p := [.node n]) (.inr part) rfl)
    apply Reads.of (p := .node m :: .node p :: ns.map .node)
    · exact ⟨_, _, _, rfl, rfl, _, _, [.node m], _, rfl, rfl, clause.closed, _, _,
        .node p :: ns.map .node, rfl, rfl, _, _, [.node p], _, rfl, rfl, positive.lined, _, _,
        ns.map .node, [], rfl, by simp, branch, _, rfl, rfl⟩
    · have nodes := nodesOf_map_node (m :: p :: ns)
      simp only [List.map_cons] at nodes
      simp only [symbolPieces, conditional, nodes]
      rfl
  exact reads_compoundBody (by decide) conditional

/-! ### Redirections at the end -/

theorem assemble_append_redirections (h : Head) {fields : List (Field × List Node)}
    (other : ∀ f ∈ fields, f.1 ≠ .redirections) (rs : List Node) :
    ((assemble h none fields).withLast .redirections rs).withLoc none =
      assemble h none (fields ++ [(.redirections, rs)]) := by
  -- No child stands among the redirections yet, so none is taken out.
  have kept : (fields.flatMap fun f => f.2.map (f.1, ·)).filter (·.1 ≠ .redirections) =
      fields.flatMap fun f => f.2.map (f.1, ·) := by
    apply List.filter_eq_self.mpr
    intro c hc
    obtain ⟨f, hf, inside⟩ := List.mem_flatMap.mp hc
    obtain ⟨n, -, rfl⟩ := List.mem_map.mp inside
    simpa using other f hf
  show Node.mk h none (_ ++ _) = Node.mk h none _
  rw [List.flatMap_append]
  show Node.mk h none
    ((fields.flatMap fun f => f.2.map (f.1, ·)).filter (·.1 ≠ .redirections) ++ _) = _
  rw [kept]
  simp

/-- A compound command with its redirections. -/
theorem reads_compoundCommand {h : Head} {fields : List (Field × List Node)}
    (body : Reads .compoundBody w₁ [.node (assemble h none fields)])
    (other : ∀ f ∈ fields, f.1 ≠ .redirections) (tail : MaybeReads .redirects w₂ (rs.map .node)) :
    Reads .compoundCommand (w₁ ++ w₂)
      [.node (assemble h none (fields ++ [(.redirections, rs)]))] := by
  apply Reads.of (p := .node (assemble h none fields) :: rs.map .node)
  · exact ⟨w₁, w₂, [.node _], _, rfl, rfl, body, tail⟩
  · rw [← assemble_append_redirections h other rs]
    cases rs with
    | nil =>
      -- Without redirections the body is passed on as it is.
      show Except.ok [Piece.node (assemble h none fields)] = _
      rw [assemble_append_redirections h other []]
      simp [assemble]
    | cons r rs =>
      have nodes := nodesOf_map_node (r :: rs)
      simp only [List.map_cons] at nodes
      simp only [List.map_cons, symbolPieces, nodes]

/-- A function with the redirections of its body. -/
theorem reads_function (name : List Char) (body : ReadsList w₁ n) (list : n.kind = .compoundList)
    (tail : MaybeReads .redirects w₂ (rs.map .node)) :
    Reads .functionDefinition
      (⟨.functionName, name⟩ :: punctuation .openParen :: punctuation .closeParen ::
        (enclosed (keyword .openBrace) w₁ (keyword .closeBrace) ++ w₂))
      [.node (assemble (.function false) none
        [(.name, [.mk (.name (String.ofList name)) none []]), (.body, [n]),
          (.redirections, rs)])] := by
  apply Reads.of (p := .node (.mk (.name (String.ofList name)) none []) :: .node n :: rs.map .node)
  · exact .inl ⟨_, _, _, rfl, rfl, _, _, _, rfl, rfl, _, _, .node n :: rs.map .node, rfl, rfl, [], _,
      [], _, rfl, rfl, .inr ⟨rfl, rfl⟩, _, _, [.node n], _, rfl, rfl, reads_braceGroup body, tail⟩
  · rw [symbolPieces, nodesOf_map_node, listBody, if_pos list]

end

end ShellInliner.Parse
