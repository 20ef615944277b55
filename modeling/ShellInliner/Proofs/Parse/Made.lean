import ShellInliner.Proofs.Parse.Regular
import ShellInliner.Proofs.Parse.Simulation

/-! # What symbols make

    For each symbol of the grammar `Made` says which pieces come out of it, and that
    they are sound.  Whatever a symbol reads, its pieces are of this form: this
    passes from the parts of each alternative to the symbol. -/

namespace ShellInliner.Parse

open Grammar Node

/-! ### What symbols make -/

/-- One node of these kinds. -/
def IsOne (ks : List Kind) (ps : List Piece) : Prop :=
  ∃ n, ps = [.node n] ∧ IsFresh ks n

/-- One node of these kinds or more. -/
def IsRow (ks : List Kind) (ps : List Piece) : Prop :=
  ∃ ns : List Node, ns ≠ [] ∧ ps = ns.map .node ∧ ∀ n ∈ ns, IsFresh ks n

/-- Words that are kept together. -/
def IsWords (ps : List Piece) : Prop :=
  ∃ ns, ps = [.words ns] ∧ ∀ n ∈ ns, IsFresh [.word] n

/-- A list of statements without redirections. -/
def IsList (ps : List Piece) : Prop :=
  ∃ n, ps = [.node n] ∧ IsFresh [.compoundList] n ∧ n.all .redirections = []

/-- A compound command without redirections. -/
def IsCompound (ps : List Piece) : Prop :=
  ∃ n, ps = [.node n] ∧ IsFresh compounds n ∧ n.all .redirections = []

/-- Statements, with marks after some of them. -/
def IsStatements (ps : List Piece) : Prop :=
  ∀ p ∈ ps, (∃ n, p = .node n ∧ IsItem Kind.statements n) ∨ ∃ t text, p = .mark t text

/-- The kinds of commands that may stand in a pipeline. -/
def commandKinds : List Kind :=
  .command :: .function :: compounds

/-- The pieces that a symbol makes. -/
def Made (s : Symbol) (ps : List Piece) : Prop :=
  match s with
  | .newlines | .sequentialSeparator => ps = []
  | .separator => ps = [] ∨ ∃ text, ps = [.mark (.sign .ampersand) text]
  | .redirect => IsOne [.redirect] ps
  | .redirects => IsRow [.redirect] ps
  | .leadingItem => IsOne [.assignmentWord, .redirect] ps
  | .leadingItems => IsRow [.assignmentWord, .redirect] ps
  | .suffixItem => IsOne [.word, .redirect] ps
  | .suffixItems => IsRow [.word, .redirect] ps
  | .simpleCommand => IsOne [.command] ps
  | .wordRun | .patternTail => IsRow [.word] ps
  | .forIn => IsWords ps
  | .forWords => ps = [] ∨ IsWords ps
  | .pattern => IsWords ps ∧ ps ≠ [.words []]
  | .compoundList | .braceGroup | .doGroup | .elsePart | .elifPart | .elseBranch => IsList ps
  | .caseItem => IsOne [.caseItem] ps
  | .caseTail => IsRow [.caseItem] ps
  | .subshell | .forClause | .caseClause | .ifClause | .whileClause | .untilClause
  | .compoundBody => IsCompound ps
  | .compoundCommand => IsOne compounds ps
  | .functionDefinition => IsOne [.function] ps
  | .command => IsOne commandKinds ps
  | .pipeTail => IsRow commandKinds ps
  | .pipeSequence | .pipeline => IsOne (.pipeline :: commandKinds) ps
  | .andOr => IsOne Kind.statements ps
  | .termTail => IsStatements ps
  | .term => IsStatements ps ∧ ∃ n qs, ps = .node n :: qs
  | .script => ∃ n, ps = [.node n] ∧ n.kind = .script ∧ Sound n

/-- The pieces of a symbol, whatever its lexemes are. -/
def Makings : Meaning :=
  fun s _ ps => Made s ps

section

variable {w : List Lexeme} {ps qs : List Piece} {ks ks' : List Kind} {n : Node}

theorem made_linebreak (h : elementReads Makings .linebreak w ps) : ps = [] := by
  rcases h with h | ⟨-, h⟩ <;> exact h

theorem IsOne.mono (h : IsOne ks ps) (sub : ks ⊆ ks') : IsOne ks' ps := by
  obtain ⟨n, rfl, fresh⟩ := h
  exact ⟨n, rfl, fresh.mono sub⟩

theorem IsOne.row (h : IsOne ks ps) : IsRow ks ps := by
  obtain ⟨n, rfl, fresh⟩ := h
  exact ⟨[n], by simp, rfl, by simpa using fresh⟩

theorem IsRow.append {ps₁ ps₂ : List Piece} (h₁ : IsRow ks ps₁) (h₂ : IsRow ks ps₂) :
    IsRow ks (ps₁ ++ ps₂) := by
  obtain ⟨ns₁, ne, rfl, fresh₁⟩ := h₁
  obtain ⟨ns₂, -, rfl, fresh₂⟩ := h₂
  refine ⟨ns₁ ++ ns₂, by simp [ne], List.map_append.symm, fun n hn => ?_⟩
  exact (List.mem_append.mp hn).elim (fresh₁ n) (fresh₂ n)

theorem isOne_word (text : List Char) : IsOne [.word] (Lexeme.pieces ⟨.word, text⟩) :=
  ⟨_, rfl, fresh_word text⟩

/-! ### Items of commands -/

theorem made_redirect (h : anyReads Makings Symbol.redirect.alternatives w ps)
    (made : symbolPieces .redirect none ps = .ok qs) : Made .redirect qs := by
  have redirect (op : List Char) (number : Option Nat) (text : List Char) :
      IsFresh [.redirect] (assemble (.redirect (String.ofList op) (number.map Int.ofNat)) none
        [(.file, [wordNode .word none text])]) := by
    have word := fresh_word text
    refine fresh_assemble .redirect [.file] rfl rfl (by decide) (by decide) rfl (by decide) ?fills
      ?shapely ?parts
    -- The file is a word and the descriptor is no negative number.
    case fills =>
      have kind := word.kind
      simpa [Kind.members, Fills, all_assemble, Admission.kinds] using kind
    case shapely =>
      intro i hi
      obtain ⟨k, -, rfl⟩ := Option.map_eq_some_iff.mp hi
      exact Int.natCast_nonneg k
    case parts => simpa using ⟨_, word.toIsItem⟩
  obtain ⟨digits, op, file, r, -, redirection, rfl⟩ := exists_redirect_parts h made
  obtain ⟨-, rfl⟩ := redirectNode?_eq_some redirection
  exact ⟨_, rfl, redirect op (digits.map Text.digitsValue) file⟩

theorem made_many (h : IsOne ks ps ∨ ∃ w₁ w₂ ps₁ ps₂, w = w₁ ++ w₂ ∧ ps = ps₁ ++ ps₂ ∧
    IsRow ks ps₁ ∧ IsOne ks ps₂) : IsRow ks ps := by
  rcases h with h | ⟨_, _, _, _, -, rfl, h₁, h₂⟩
  · exact h.row
  · exact h₁.append h₂.row

/-- Things that a sign stands before each, and perhaps a line break: the signs leave no
    pieces. -/
theorem made_run {sign : Sign} {s : Grammar.Symbol}
    (bare : ∀ text, Lexeme.pieces ⟨.sign sign, text⟩ = []) (one : ∀ {ps}, Made s ps → IsOne ks ps)
    (h : rowReads Makings [.sign sign, .linebreak, .symbol s] w ps ∨
      ∃ w₁ w₂ ps₁ ps₂, w = w₁ ++ w₂ ∧ ps = ps₁ ++ ps₂ ∧ IsRow ks ps₁ ∧
        rowReads Makings [.sign sign, .linebreak, .symbol s] w₂ ps₂) : IsRow ks ps := by
  have single {v : List Lexeme} {qs : List Piece}
      (h : rowReads Makings [.sign sign, .linebreak, .symbol s] v qs) : IsOne ks qs := by
    obtain ⟨text, _, _, -, rfl, _, _, _, _, -, rfl, line, thing⟩ := h
    rw [bare, made_linebreak line]
    exact one thing
  rcases h with h | ⟨_, _, _, _, -, rfl, before, h⟩
  · exact (single h).row
  · exact before.append (single h).row

theorem made_leadingItem (h : anyReads Makings Symbol.leadingItem.alternatives w ps)
    (made : symbolPieces .leadingItem none ps = .ok qs) : Made .leadingItem qs := by
  cases made
  rcases h with ⟨t, rfl, rfl⟩ | h
  · exact ⟨_, rfl, (fresh_assignment t).mono (by simp)⟩
  · exact IsOne.mono h (by simp)

theorem made_suffixItem (h : anyReads Makings Symbol.suffixItem.alternatives w ps)
    (made : symbolPieces .suffixItem none ps = .ok qs) : Made .suffixItem qs := by
  cases made
  rcases h with ⟨t, rfl, rfl⟩ | h
  · exact ⟨_, rfl, (fresh_word t).mono (by simp)⟩
  · exact IsOne.mono h (by simp)

/-- The first word divides a command. -/
theorem simpleCommand_eq {leading rest : List Node} (before : ∀ n ∈ leading, n.kind ≠ .word)
    (after : ∀ n ∈ rest.head?, n.kind = .word) :
    simpleCommand none ((leading ++ rest).map .node) = assemble (.command false) none
      [(.name, rest.take 1), (.leading, leading), (.suffix, rest.drop 1)] := by
  -- Nothing before the first word is one, so the division finds it.
  have first : ∀ p ∈ leading.map Piece.node, (!p.isWord) = true := by
    intro p hp
    obtain ⟨n, hn, rfl⟩ := List.mem_map.mp hp
    simpa [Piece.isWord] using before n hn
  have second : (rest.map Piece.node).takeWhile (!·.isWord) = [] ∧
      (rest.map Piece.node).dropWhile (!·.isWord) = rest.map .node := by
    cases rest with
    | nil => exact ⟨rfl, rfl⟩
    | cons n rest => simp [Piece.isWord, after n rfl]
  unfold simpleCommand
  rw [List.map_append, List.takeWhile_append_of_pos first, List.dropWhile_append_of_pos first,
    second.1, second.2, List.append_nil]
  simp only [nodesOf_map_node]

/-- A command has assignments and redirections first, then perhaps its name, which is read
    as such, and further words and redirections. -/
theorem exists_command_parts (h : anyReads Makings Symbol.simpleCommand.alternatives w ps) :
    ∃ leading rest : List Node, ps = (leading ++ rest).map .node ∧
      (∀ n ∈ leading, IsFresh [.assignmentWord, .redirect] n) ∧
      (∀ n ∈ rest.take 1, ∃ t, ⟨.commandWord, t⟩ ∈ w ∧ n = wordNode .word none t) ∧
      (∀ n ∈ rest.drop 1, IsFresh [.word, .redirect] n) ∧ (rest = [] → leading ≠ []) := by
  have named {w : List Lexeme} {ps : List Piece}
      (h : rowReads Makings [.token .commandWord, .maybe [.symbol .suffixItems]] w ps) :
      ∃ t suffix, ps = (wordNode .word none t :: suffix).map .node ∧ ⟨.commandWord, t⟩ ∈ w ∧
        ∀ m ∈ suffix, IsFresh [.word, .redirect] m := by
    obtain ⟨t, _, _, rfl, rfl, ⟨suffix, -, rfl, fresh⟩ | ⟨rfl, rfl⟩⟩ := h
    · exact ⟨t, suffix, rfl, List.mem_cons_self .., fresh⟩
    · exact ⟨t, [], rfl, List.mem_cons_self .., by simp⟩
  -- Items before and perhaps a name; or a name at once.
  rcases h with ⟨_, _, _, _, rfl, rfl, ⟨leading, ne, rfl, before⟩, h | ⟨rfl, rfl⟩⟩ | h
  · obtain ⟨t, suffix, rfl, here, after⟩ := named h
    refine ⟨leading, wordNode .word none t :: suffix, List.map_append.symm, before, ?_, after,
      fun none => by cases none⟩
    simpa using ⟨t, .inr here, rfl⟩
  · exact ⟨leading, [], by simp, before, by simp, by simp, fun _ => ne⟩
  · obtain ⟨t, suffix, rfl, here, after⟩ := named h
    refine ⟨[], wordNode .word none t :: suffix, rfl, by simp, ?_, after, fun none => by cases none⟩
    simpa using ⟨t, here, rfl⟩

/-- A command is put together from such parts. -/
theorem simpleCommand_of_parts {leading rest : List Node}
    (before : ∀ n ∈ leading, IsFresh [.assignmentWord, .redirect] n)
    (named : ∀ n ∈ rest.take 1, ∃ t, (⟨.commandWord, t⟩ : Lexeme) ∈ w ∧ n = wordNode .word none t) :
    simpleCommand none ((leading ++ rest).map .node) = assemble (.command false) none
      [(.name, rest.take 1), (.leading, leading), (.suffix, rest.drop 1)] := by
  apply simpleCommand_eq
  · intro n hn word
    have kind := (before n hn).kind
    rw [word] at kind
    exact absurd kind (by decide)
  · intro n hn
    have here : n ∈ rest.take 1 := by
      cases rest with
      | nil => cases hn
      | cons m rest => simpa using Option.some.inj hn.symm
    obtain ⟨t, -, rfl⟩ := named n here
    rfl

theorem made_simpleCommand (h : anyReads Makings Symbol.simpleCommand.alternatives w ps)
    (made : symbolPieces .simpleCommand none ps = .ok qs) : Made .simpleCommand qs := by
  obtain ⟨leading, rest, rfl, before, named, after, some⟩ := exists_command_parts h
  have first : ∀ n ∈ rest.take 1, IsFresh [.word] n := by
    intro n hn
    obtain ⟨t, -, rfl⟩ := named n hn
    exact fresh_word t
  have made : Except.ok [.node (simpleCommand none ((leading ++ rest).map .node))] = Except.ok qs :=
    made
  rw [simpleCommand_of_parts before named] at made
  cases made
  refine ⟨_, rfl, fresh_assemble .command [.name, .leading, .suffix] rfl rfl (by decide) (by decide) rfl
    (by decide) ?fills ?shapely ?parts⟩
  case fills =>
    have name : ∀ n ∈ rest.take 1, n.kind ∈ [Kind.word] := fun n hn => (first n hn).kind
    have front : ∀ n ∈ leading, n.kind ∈ [Kind.assignmentWord, .redirect] :=
      fun n hn => (before n hn).kind
    have last : ∀ n ∈ rest.drop 1, n.kind ∈ [Kind.word, .redirect] := fun n hn => (after n hn).kind
    simp only [Kind.members, List.forall_mem_cons, Fills, all_assemble, Admission.kinds,
      List.flatMap_cons, List.flatMap_nil, reduceCtorEq, ↓reduceIte, List.nil_append, List.append_nil]
    exact ⟨trivial, ⟨name, List.length_take_le ..⟩, ⟨front, trivial⟩, ⟨last, trivial⟩, by simp⟩
  -- Without a name something else stands before.
  case shapely =>
    intro none
    rw [all_assemble] at none ⊢
    rw [all_assemble]
    have empty : rest = [] := by simpa using none
    subst empty
    simpa using some rfl
  case parts =>
    simp only [List.forall_mem_cons, List.not_mem_nil, false_implies, implies_true, and_true]
    exact ⟨fun c hc => ⟨_, (first c hc).toIsItem⟩, fun c hc => ⟨_, (before c hc).toIsItem⟩,
      fun c hc => ⟨_, (after c hc).toIsItem⟩⟩

/-! ### Words -/

theorem made_wordRun (h : anyReads Makings Symbol.wordRun.alternatives w ps)
    (made : symbolPieces .wordRun none ps = .ok qs) : Made .wordRun qs := by
  cases made
  rcases h with ⟨t, rfl, rfl⟩ | ⟨_, _, _, _, -, rfl, h, t, rfl, rfl⟩
  · exact (isOne_word t).row
  · exact IsRow.append h (isOne_word t).row

theorem made_patternTail (h : anyReads Makings Symbol.patternTail.alternatives w ps)
    (made : symbolPieces .patternTail none ps = .ok qs) : Made .patternTail qs := by
  cases made
  rcases h with ⟨_, _, _, rfl, rfl, t, rfl, rfl⟩ | ⟨_, _, _, _, -, rfl, h, _, _, _, rfl, rfl, t, rfl, rfl⟩
  · exact (isOne_word t).row
  · exact IsRow.append h (isOne_word t).row

theorem made_forIn (h : anyReads Makings Symbol.forIn.alternatives w ps)
    (made : symbolPieces .forIn none ps = .ok qs) : Made .forIn qs := by
  cases made
  obtain ⟨_, _, _, rfl, rfl, ⟨ns, -, rfl, words⟩ | ⟨rfl, rfl⟩⟩ := h
  · exact ⟨_, rfl, (nodesOf_map_node ns).symm ▸ words⟩
  · exact ⟨[], rfl, by simp⟩

theorem made_pattern (h : anyReads Makings Symbol.pattern.alternatives w ps)
    (made : symbolPieces .pattern none ps = .ok qs) : Made .pattern qs := by
  cases made
  obtain ⟨t, _, ps, rfl, rfl, tail⟩ := h
  -- Alternatives of a pattern may follow the first.
  obtain ⟨ns, rfl, words⟩ : ∃ ns : List Node, ps = ns.map .node ∧ ∀ n ∈ ns, IsFresh [.word] n := by
    rcases tail with ⟨ns, -, rfl, words⟩ | ⟨rfl, rfl⟩
    · exact ⟨ns, rfl, words⟩
    · exact ⟨[], rfl, by simp⟩
  have nodes : nodesOf (Lexeme.pieces ⟨.word, t⟩ ++ ns.map .node) = wordNode .word none t :: ns :=
    nodesOf_map_node (wordNode .word none t :: ns)
  rw [nodes]
  refine ⟨⟨_, rfl, fun n hn => ?_⟩, by simp⟩
  rcases List.mem_cons.mp hn with rfl | hn
  · exact fresh_word t
  · exact words n hn

/-! ### Separators -/

theorem made_newlines (h : anyReads Makings Symbol.newlines.alternatives w ps)
    (made : symbolPieces .newlines none ps = .ok qs) : Made .newlines qs := by
  cases made
  rcases h with ⟨_, -, rfl⟩ | ⟨_, _, _, _, -, rfl, rfl, _, -, rfl⟩ <;> rfl

theorem made_separator (h : anyReads Makings Symbol.separator.alternatives w ps)
    (made : symbolPieces .separator none ps = .ok qs) : Made .separator qs := by
  cases made
  rcases h with ⟨t, _, _, -, rfl, line⟩ | ⟨t, _, _, -, rfl, line⟩ | rfl
  · rw [made_linebreak line]
    exact .inl rfl
  · rw [made_linebreak line]
    exact .inr ⟨t, rfl⟩
  · exact .inl rfl

theorem made_sequentialSeparator (h : anyReads Makings Symbol.sequentialSeparator.alternatives w ps)
    (made : symbolPieces .sequentialSeparator none ps = .ok qs) : Made .sequentialSeparator qs := by
  cases made
  rcases h with ⟨t, _, _, -, rfl, line⟩ | rfl
  · rw [made_linebreak line]
    rfl
  · rfl

theorem made_forWords (h : anyReads Makings Symbol.forWords.alternatives w ps)
    (made : symbolPieces .forWords none ps = .ok qs) : Made .forWords qs := by
  cases made
  rcases h with ⟨_, _, _, _, -, rfl, line, _, _, _, _, -, rfl, words, rfl⟩ | rfl
  · rw [made_linebreak line, List.append_nil]
    exact .inr words
  · exact .inl rfl

/-! ### Statements -/

theorem IsStatements.append {ps₁ ps₂ : List Piece} (h₁ : IsStatements ps₁) (h₂ : IsStatements ps₂) :
    IsStatements (ps₁ ++ ps₂) :=
  fun p hp => (List.mem_append.mp hp).elim (h₁ p) (h₂ p)

theorem IsOne.statements (h : IsOne Kind.statements ps) : IsStatements ps := by
  obtain ⟨n, rfl, fresh⟩ := h
  intro p hp
  exact .inl ⟨n, List.mem_singleton.mp hp, fresh.toIsItem⟩

theorem statements_of_separator (h : Made .separator ps) : IsStatements ps := by
  rcases h with rfl | ⟨text, rfl⟩
  · intro p hp
    cases hp
  · intro p hp
    exact .inr ⟨_, text, List.mem_singleton.mp hp⟩

/-- What is made of statements with marks are statements. -/
theorem mem_statements (h : IsStatements ps) : ∀ n ∈ statements ps, IsItem Kind.statements n := by
  -- The statements so far are the state of the fold: a node joins them, and a mark changes
  -- the last one.
  have fold (done : List Node) (before : ∀ n ∈ done, IsItem Kind.statements n) :
      ∀ n ∈ ps.foldl pushStatement done, IsItem Kind.statements n := by
    induction ps generalizing done with
    | nil => exact before
    | cons p ps ih =>
      apply ih fun q hq => h q (List.mem_cons_of_mem _ hq)
      rcases h p (List.mem_cons_self ..) with ⟨n, rfl, item⟩ | ⟨t, text, rfl⟩
      · exact List.forall_mem_cons.mpr ⟨item, before⟩
      · cases done with
        | nil => exact before
        | cons m done =>
          obtain ⟨last, others⟩ := List.forall_mem_cons.mp before
          exact List.forall_mem_cons.mpr ⟨last.inBackground, others⟩
  intro n hn
  exact fold [] (by simp) n (List.mem_reverse.mp hn)

/-- A mark or a statement takes none of the statements before it away. -/
theorem statements_ne_nil (n : Node) (ps : List Piece) : statements (.node n :: ps) ≠ [] := by
  have fold (done : List Node) (some : done ≠ []) : ps.foldl pushStatement done ≠ [] := by
    induction ps generalizing done with
    | nil => exact some
    | cons p ps ih =>
      apply ih
      cases done with
      | nil => exact absurd rfl some
      | cons m done => cases p <;> simp [pushStatement]
  simpa [statements, pushStatement] using fold [n] (by simp)

theorem made_termTail (h : anyReads Makings Symbol.termTail.alternatives w ps)
    (made : symbolPieces .termTail none ps = .ok qs) : Made .termTail qs := by
  cases made
  rcases h with ⟨_, _, _, _, -, rfl, separator, one⟩ |
    ⟨_, _, _, _, -, rfl, before, _, _, _, _, -, rfl, separator, one⟩
  · exact (statements_of_separator separator).append (IsOne.statements one)
  · exact IsStatements.append before
      ((statements_of_separator separator).append (IsOne.statements one))

theorem made_term (h : anyReads Makings Symbol.term.alternatives w ps)
    (made : symbolPieces .term none ps = .ok qs) : Made .term qs := by
  cases made
  obtain ⟨_, _, _, _, -, rfl, ⟨n, rfl, first⟩, _, _, ps₂, ps₃, -, rfl, tail, last⟩ := h
  have none : IsStatements [] := fun p hp => by cases hp
  -- Both the tail and the last mark may be missing.
  have tail : IsStatements ps₂ := by
    rcases tail with tail | ⟨-, rfl⟩
    · exact tail
    · exact none
  have last : IsStatements ps₃ := by
    rcases last with last | ⟨-, rfl⟩
    · exact statements_of_separator last
    · exact none
  exact ⟨(IsOne.statements ⟨n, rfl, first⟩).append (tail.append last), n, _, rfl⟩

/-- A list of items is fresh. -/
theorem fresh_list {ns : List Node} (items : ∀ n ∈ ns, IsItem Kind.statements n) (some : ns ≠ []) :
    IsFresh [.compoundList] (assemble (.compoundList false) none [(.commands, ns)]) := by
  have all : (assemble (.compoundList false) none [(.commands, ns)]).all .commands = ns := by
    simp [all_assemble]
  refine ⟨⟨by exact List.mem_singleton_self _, fun _ => by rwa [all], ?_⟩, rfl⟩
  apply sound_assemble
  case order => exact .cons_cons _ (List.nil_sublist _)
  case fills =>
    have kinds := fun n hn => (items n hn).kind
    show ∀ m ∈ Kind.compoundList.members, _
    simpa [Kind.members, Fills, all_assemble, Admission.kinds] using kinds
  case shapely => trivial
  case below => simpa using fun n hn => (items n hn).sound
  case filled => simpa using fun _ n hn => (items n hn).filled

theorem isList_of_statements {ns : List Node} (items : ∀ n ∈ ns, IsItem Kind.statements n)
    (some : ns ≠ []) : IsList [.node (assemble (.compoundList false) none [(.commands, ns)])] :=
  ⟨_, rfl, fresh_list items some, by simp [all_assemble]⟩

theorem made_compoundList (h : anyReads Makings Symbol.compoundList.alternatives w ps)
    (made : symbolPieces .compoundList none ps = .ok qs) : Made .compoundList qs := by
  cases made
  obtain ⟨_, _, _, _, -, rfl, line, term, n, ps, rfl⟩ := h
  rw [made_linebreak line]
  exact isList_of_statements (mem_statements term) (statements_ne_nil n ps)

theorem made_script (h : anyReads Makings Symbol.script.alternatives w ps)
    (made : symbolPieces .script none ps = .ok qs) : Made .script qs := by
  cases made
  obtain ⟨_, _, _, ps₂, -, rfl, line, term⟩ := h
  rw [made_linebreak line, List.nil_append]
  have items : ∀ n ∈ statements ps₂, IsItem Kind.statements n := by
    rcases term with ⟨term, -⟩ | ⟨-, rfl⟩
    · exact mem_statements term
    · simp [statements]
  refine ⟨_, rfl, rfl, sound_assemble (List.Sublist.refl _) ?fills trivial ?below ?filled⟩
  case fills =>
    have kinds := fun n hn => (items n hn).kind
    show ∀ m ∈ Kind.script.members, _
    simpa [Kind.members, Fills, all_assemble, Admission.kinds] using kinds
  case below => simpa using fun n hn => (items n hn).sound
  case filled => simpa using fun _ n hn => (items n hn).filled

/-! ### Pipelines -/

theorem made_pipeTail (h : anyReads Makings Symbol.pipeTail.alternatives w ps)
    (made : symbolPieces .pipeTail none ps = .ok qs) : Made .pipeTail qs := by
  cases made
  exact made_run (fun _ => rfl) id h

theorem fresh_pipeline {bang : Bool} {ns : List Node} (commands : ∀ n ∈ ns, IsFresh commandKinds n)
    (several : 2 ≤ ns.length ∨ bang = true ∧ 1 ≤ ns.length) :
    IsFresh [.pipeline] (assemble (.pipeline false bang) none [(.commands, ns)]) := by
  have all : (assemble (.pipeline false bang) none [(.commands, ns)]).all .commands = ns := by
    simp [all_assemble]
  have sub : commandKinds ⊆ Kind.statements := by decide
  refine fresh_assemble .pipeline [.commands] rfl rfl (by decide) (by decide) rfl (by decide) ?fills
    ?shapely ?parts
  case fills =>
    have kinds := fun n hn => sub (commands n hn).kind
    simpa [Kind.members, Fills, all_assemble, Admission.kinds] using kinds
  case shapely =>
    -- No part runs in the background, and none is itself a pipeline or a connective.
    unfold IsShapely
    show (2 ≤ (Node.all _ _).length ∨ _) ∧ _
    rw [all]
    refine ⟨several, fun c hc => ⟨(commands c hc).foreground, ?_, ?_⟩⟩ <;>
      exact fun kind => absurd (kind ▸ (commands c hc).kind) (by decide)
  case parts => simpa using fun n hn => ⟨_, (commands n hn).toIsItem⟩

theorem made_sequence (h : anyReads Makings Symbol.pipeSequence.alternatives w ps)
    (made : symbolPieces .pipeSequence none ps = .ok qs) : Made .pipeSequence qs := by
  obtain ⟨_, _, _, _, -, rfl, ⟨n, rfl, command⟩, ⟨ns, ne, rfl, commands⟩ | ⟨-, rfl⟩⟩ := h
  · cases (made_pipeSequence n ne).symm.trans made
    have more := List.length_pos_iff.mpr ne
    refine ⟨_, rfl, (fresh_pipeline (List.forall_mem_cons.mpr ⟨command, commands⟩) (.inl ?_)).mono
      (by simp)⟩
    rw [List.length_cons]
    omega
  · cases made
    exact ⟨n, rfl, command.mono (List.subset_cons_self _ _)⟩

/-- A negated command or pipeline is a pipeline. -/
theorem fresh_negate (fresh : IsFresh (.pipeline :: commandKinds) n) :
    IsFresh [.pipeline] (negate none n) := by
  unfold negate
  split
  · rename_i async bang head
    -- The pipeline itself is negated.
    obtain ⟨hd, l, cs⟩ := n
    obtain rfl : hd = .pipeline async bang := head
    obtain ⟨-, order, fills, below⟩ := isWellTyped_iff.mp fresh.sound.typed
    have regular := fresh.sound.regular
    obtain ⟨several, members⟩ := regular.1.shapely
    refine ⟨⟨by exact List.mem_singleton_self _, fun list => (by cases list), ?_, ?_⟩,
      fresh.foreground⟩
    · exact isWellTyped_iff.mpr ⟨rfl, order, fills, below⟩
    · refine throughout_iff.mpr ⟨⟨regular.1.filled, ?_, members⟩, (throughout_iff.mp regular).2⟩
      exact .inr ⟨rfl, several.elim (fun h => Nat.le_of_succ_le h) And.right⟩
  · rename_i other
    have command : n.kind ∈ commandKinds := by
      rcases List.mem_cons.mp fresh.kind with pipeline | command
      · obtain ⟨async, bang, head⟩ := isHeadOf_kind pipeline
        exact absurd head (other async bang)
      · exact command
    apply fresh_pipeline
    · simpa using ⟨⟨command, fresh.filled, fresh.sound⟩, fresh.foreground⟩
    · exact .inr ⟨rfl, Nat.le_refl _⟩

theorem made_pipeline (h : anyReads Makings Symbol.pipeline.alternatives w ps)
    (made : symbolPieces .pipeline none ps = .ok qs) : Made .pipeline qs := by
  rcases h with ⟨n, rfl, fresh⟩ | ⟨t, _, _, -, rfl, n, rfl, fresh⟩
  · cases made
    exact ⟨n, rfl, fresh⟩
  · cases made
    exact ⟨_, rfl, (fresh_negate fresh).mono (by simp)⟩

theorem fresh_logical {op : Connective} {l r : Node} (left : IsFresh Kind.statements l)
    (right : IsFresh (.pipeline :: commandKinds) r) :
    IsFresh Kind.statements
      (assemble (.logicalExpression false op) none [(.left, [l]), (.right, [r])]) := by
  have all : (assemble (.logicalExpression false op) none [(.left, [l]), (.right, [r])]).all .left = [l]
      ∧ (assemble (.logicalExpression false op) none [(.left, [l]), (.right, [r])]).all .right = [r] := by
    simp [all_assemble]
  have sub : .pipeline :: commandKinds ⊆ Kind.statements := by decide
  refine fresh_assemble .logicalExpression [.left, .right] rfl rfl (by decide) (by decide) rfl
    (by decide) ?fills ?shapely ?parts
  case fills =>
    have kind₁ := left.kind
    have kind₂ := sub right.kind
    simpa [Kind.members, Fills, all_assemble, Admission.kinds] using ⟨kind₁, kind₂⟩
  case shapely =>
    unfold IsShapely
    show (∀ c ∈ Node.all _ .left, _) ∧ ∀ c ∈ Node.all _ .right, _
    rw [all.1, all.2]
    simp only [List.mem_singleton, forall_eq]
    refine ⟨left.foreground, right.foreground, fun kind => ?_⟩
    exact absurd (kind ▸ right.kind) (by decide)
  case parts => simpa using ⟨⟨_, left.toIsItem⟩, ⟨_, right.toIsItem⟩⟩

theorem made_andOr (h : anyReads Makings Symbol.andOr.alternatives w ps)
    (made : symbolPieces .andOr none ps = .ok qs) : Made .andOr qs := by
  rcases h with ⟨n, rfl, fresh⟩ |
    ⟨_, _, _, _, -, rfl, ⟨l, rfl, left⟩, t, _, _, -, rfl, _, _, _, _, -, rfl, line, r, rfl, right⟩ |
    ⟨_, _, _, _, -, rfl, ⟨l, rfl, left⟩, t, _, _, -, rfl, _, _, _, _, -, rfl, line, r, rfl, right⟩
  · cases made
    exact ⟨n, rfl, fresh.mono (by decide)⟩
  · rw [made_linebreak line] at made
    cases made
    exact ⟨_, rfl, fresh_logical left right⟩
  · rw [made_linebreak line] at made
    cases made
    exact ⟨_, rfl, fresh_logical left right⟩

/-! ### Compound commands -/

/-- What a list without redirections is, as the child of another node. -/
theorem isBody_of_isList {b : Node} (fresh : IsFresh [.compoundList] b)
    (plain : b.all .redirections = []) : IsBare b ∧ b.all .commands ≠ [] :=
  have kind := List.mem_singleton.mp fresh.kind
  ⟨⟨kind, plain, fresh.foreground⟩, fresh.filled kind⟩

theorem made_braceGroup (h : anyReads Makings Symbol.braceGroup.alternatives w ps)
    (made : symbolPieces .braceGroup none ps = .ok qs) : Made .braceGroup qs := by
  obtain ⟨_, _, _, -, rfl, _, _, _, _, -, rfl, ⟨n, rfl, fresh, plain⟩, _, -, rfl⟩ := h
  cases made
  exact ⟨_, rfl, fresh.withLoc rfl, plain⟩

theorem made_subshell (h : anyReads Makings Symbol.subshell.alternatives w ps)
    (made : symbolPieces .subshell none ps = .ok qs) : Made .subshell qs := by
  obtain ⟨_, _, _, -, rfl, _, _, _, _, -, rfl, ⟨n, rfl, fresh, plain⟩, _, -, rfl⟩ := h
  cases made
  refine ⟨_, rfl, fresh_assemble .subshell [.list] rfl rfl (by decide) (by decide) rfl (by decide)
    ?fills ?shapely ?parts, by simp [all_assemble]⟩
  case fills =>
    have kind := fresh.kind
    simpa [Kind.members, Fills, all_assemble, Admission.kinds] using kind
  case shapely =>
    intro c hc
    obtain rfl : c = n := by simpa [all_assemble] using hc
    exact isBody_of_isList fresh plain
  case parts => simpa using ⟨_, fresh.toIsItem⟩

/-- A row of lists, each in a field of its own, fills these fields. -/
theorem hasBody_of_all {f : Field} (ns : List Node) (all : n.all f = ns)
    (lists : ∀ c ∈ ns, IsFresh [.compoundList] c ∧ c.all .redirections = []) : HasBody n f := by
  intro c hc
  rw [all] at hc
  exact isBody_of_isList (lists c hc).1 (lists c hc).2

theorem conditional_fresh {c b : Node} {es : List Node} (one : es.length ≤ 1)
    (lists : ∀ m ∈ c :: b :: es, IsFresh [.compoundList] m ∧ m.all .redirections = []) :
    IsFresh [.ifElse] (conditional none ((c :: b :: es).map .node)) ∧
      (conditional none ((c :: b :: es).map .node)).all .redirections = [] := by
  -- With at most three lists the third is the second branch.
  have shape : conditional none ((c :: b :: es).map .node) = assemble (.ifElse false) none
      [(.clause, [c]), (.thenBranch, [b]), (.elseBranch, es)] := by
    unfold conditional
    simp only [nodesOf_map_node]
    rfl
  rw [shape]
  obtain ⟨clause, positive, negative⟩ : (IsFresh [.compoundList] c ∧ c.all .redirections = []) ∧
      (IsFresh [.compoundList] b ∧ b.all .redirections = []) ∧
        ∀ m ∈ es, IsFresh [.compoundList] m ∧ m.all .redirections = [] := by
    simpa using lists
  refine ⟨fresh_assemble .ifElse [.clause, .thenBranch, .elseBranch] rfl rfl (by decide) (by decide) rfl
    (by decide) ?fills ?shapely ?parts, by simp [all_assemble]⟩
  case fills =>
    have kind₁ := clause.1.kind
    have kind₂ := positive.1.kind
    have kinds := fun m hm => (negative m hm).1.kind
    simp only [Kind.members, List.forall_mem_cons, Fills, all_assemble, Admission.kinds]
    simpa using ⟨by simpa using kind₁, by simpa using kind₂, by simpa using kinds, one⟩
  case shapely =>
    refine ⟨hasBody_of_all [c] (by simp [all_assemble]) (by simpa using clause),
      hasBody_of_all [b] (by simp [all_assemble]) (by simpa using positive), ?_,
      hasBody_of_all es (by simp [all_assemble]) negative⟩
    simp [all_assemble]
  case parts =>
    simpa using ⟨⟨_, clause.1.toIsItem⟩, ⟨_, positive.1.toIsItem⟩,
      fun m hm => ⟨_, (negative m hm).1.toIsItem⟩⟩

theorem made_otherwise (h : elementReads Makings (.maybe [.symbol .elseBranch]) w ps) :
    ∃ es : List Node, ps = es.map .node ∧ es.length ≤ 1 ∧
      ∀ m ∈ es, IsFresh [.compoundList] m ∧ m.all .redirections = [] := by
  rcases h with ⟨n, rfl, list⟩ | ⟨-, rfl⟩
  · exact ⟨[n], rfl, Nat.le_refl _, by simpa using list⟩
  · exact ⟨[], rfl, Nat.zero_le _, by simp⟩

theorem made_ifClause (h : anyReads Makings Symbol.ifClause.alternatives w ps)
    (made : symbolPieces .ifClause none ps = .ok qs) : Made .ifClause qs := by
  obtain ⟨_, _, _, -, rfl, _, _, _, _, -, rfl, ⟨c, rfl, clause⟩, _, _, _, -, rfl, _, _, _, _, -, rfl,
    ⟨b, rfl, positive⟩, _, _, _, _, -, rfl, negative, _, -, rfl⟩ := h
  obtain ⟨es, rfl, one, lists⟩ := made_otherwise negative
  have made : Except.ok [.node (conditional none (.node c :: .node b :: (es.map .node ++ [])))] =
      Except.ok qs := made
  rw [List.append_nil] at made
  cases made
  obtain ⟨fresh, plain⟩ := conditional_fresh one
    (List.forall_mem_cons.mpr ⟨clause, List.forall_mem_cons.mpr ⟨positive, lists⟩⟩)
  exact ⟨_, rfl, fresh.mono (by decide), plain⟩

theorem made_elsePart (h : anyReads Makings Symbol.elsePart.alternatives w ps)
    (made : symbolPieces .elsePart none ps = .ok qs) : Made .elsePart qs := by
  cases made
  obtain ⟨_, _, _, -, rfl, list⟩ := h
  exact list

theorem made_elifPart (h : anyReads Makings Symbol.elifPart.alternatives w ps)
    (made : symbolPieces .elifPart none ps = .ok qs) : Made .elifPart qs := by
  obtain ⟨_, _, _, -, rfl, _, _, _, _, -, rfl, ⟨c, rfl, clause⟩, _, _, _, -, rfl, _, _, _, _, -, rfl,
    ⟨b, rfl, positive⟩, negative⟩ := h
  obtain ⟨es, rfl, one, lists⟩ := made_otherwise negative
  cases made
  obtain ⟨fresh, -⟩ := conditional_fresh one
    (List.forall_mem_cons.mpr ⟨clause, List.forall_mem_cons.mpr ⟨positive, lists⟩⟩)
  exact isList_of_statements (by simpa using (fresh.mono (by decide)).toIsItem) (by simp)

theorem made_elseBranch (h : anyReads Makings Symbol.elseBranch.alternatives w ps)
    (made : symbolPieces .elseBranch none ps = .ok qs) : Made .elseBranch qs := by
  cases made
  rcases h with h | h <;> exact h

theorem made_doGroup (h : anyReads Makings Symbol.doGroup.alternatives w ps)
    (made : symbolPieces .doGroup none ps = .ok qs) : Made .doGroup qs := by
  cases made
  obtain ⟨_, _, _, -, rfl, _, _, _, _, -, rfl, ⟨n, rfl, list⟩, _, -, rfl⟩ := h
  exact ⟨n, rfl, list⟩

/-- A loop with a condition is fresh. -/
theorem fresh_conditionLoop {h : Head} {c b : Node}
    (loop : h = .whileLoop false ∨ h = .untilLoop false)
    (clause : IsFresh [.compoundList] c ∧ c.all .redirections = [])
    (body : IsFresh [.compoundList] b ∧ b.all .redirections = []) :
    IsCompound [.node (assemble h none [(.clause, [c]), (.loopBody, [b])])] := by
  have kind₁ := List.mem_singleton.mp clause.1.kind
  have kind₂ := List.mem_singleton.mp body.1.kind
  have bodies : HasBody (assemble h none [(.clause, [c]), (.loopBody, [b])]) .clause ∧
      HasBody (assemble h none [(.clause, [c]), (.loopBody, [b])]) .loopBody :=
    ⟨hasBody_of_all [c] (by simp [all_assemble]) (by simpa using clause),
      hasBody_of_all [b] (by simp [all_assemble]) (by simpa using body)⟩
  refine ⟨_, rfl, fresh_assemble h.kind [.clause, .loopBody] rfl rfl ?order ?mem ?foreground ?other
    ?fills ?shapely ?parts, by simp [all_assemble]⟩
  case parts => simpa using ⟨⟨_, clause.1.toIsItem⟩, ⟨_, body.1.toIsItem⟩⟩
  -- Both kinds of loops have the same parts.
  case fills =>
    rcases loop with rfl | rfl <;>
      simpa [Head.kind, Kind.members, Fills, all_assemble, Admission.kinds] using ⟨kind₁, kind₂⟩
  all_goals rcases loop with rfl | rfl <;> first | exact bodies | rfl | decide

/-- A loop with a condition has that and a body, whichever word it starts with. -/
theorem exists_conditionLoop_parts {r : Reserved} (bare : ∀ text, Lexeme.pieces ⟨.reserved r, text⟩ = [])
    (h : rowReads Makings [.reserved r, .symbol .compoundList, .linebreak, .symbol .doGroup] w ps) :
    ∃ c b : Node, ps = [.node c, .node b] ∧
      (IsFresh [.compoundList] c ∧ c.all .redirections = []) ∧
      (IsFresh [.compoundList] b ∧ b.all .redirections = []) := by
  obtain ⟨text, _, _, -, rfl, _, _, _, _, -, rfl, ⟨c, rfl, clause⟩, _, _, _, _, -, rfl, line, b, rfl,
    body⟩ := h
  rw [bare, made_linebreak line]
  exact ⟨c, b, rfl, clause, body⟩

theorem made_whileClause (h : anyReads Makings Symbol.whileClause.alternatives w ps)
    (made : symbolPieces .whileClause none ps = .ok qs) : Made .whileClause qs := by
  obtain ⟨c, b, rfl, clause, body⟩ := exists_conditionLoop_parts (fun _ => rfl) h
  cases made
  exact fresh_conditionLoop (.inl rfl) clause body

theorem made_untilClause (h : anyReads Makings Symbol.untilClause.alternatives w ps)
    (made : symbolPieces .untilClause none ps = .ok qs) : Made .untilClause qs := by
  obtain ⟨c, b, rfl, clause, body⟩ := exists_conditionLoop_parts (fun _ => rfl) h
  cases made
  exact fresh_conditionLoop (.inr rfl) clause body

/-- A loop over words has a name that is read as such, perhaps words, and a body. -/
theorem exists_forClause_parts (h : anyReads Makings Symbol.forClause.alternatives w ps) :
    ∃ (t : List Char) (b : Node) (ws : List Node),
      (ps = [.node (.mk (.name (String.ofList t)) none []), .words ws, .node b] ∨
        ps = [.node (.mk (.name (String.ofList t)) none []), .node b] ∧ ws = []) ∧
        ⟨.name, t⟩ ∈ w ∧ (IsFresh [.compoundList] b ∧ b.all .redirections = []) ∧
        ∀ w ∈ ws, IsFresh [.word] w := by
  obtain ⟨_, _, _, rfl, rfl, t, _, _, rfl, rfl, _, _, ps₁, _, -, rfl, words, _, _, _, _, -, rfl, line, b,
    rfl, body⟩ := h
  rw [made_linebreak line]
  rcases words with (rfl | ⟨ws, rfl, fresh⟩) | ⟨-, rfl⟩
  · exact ⟨t, b, [], .inr ⟨rfl, rfl⟩, by simp, body, by simp⟩
  · exact ⟨t, b, ws, .inl rfl, by simp, body, fresh⟩
  · exact ⟨t, b, [], .inr ⟨rfl, rfl⟩, by simp, body, by simp⟩

theorem made_forClause (h : anyReads Makings Symbol.forClause.alternatives w ps)
    (made : symbolPieces .forClause none ps = .ok qs) : Made .forClause qs := by
  obtain ⟨t, b, ws, parts, -, ⟨body, plain⟩, fresh⟩ := exists_forClause_parts h
  -- The words stand before the list, or there are none.
  obtain rfl : qs = [.node (assemble (.forLoop false) none
      [(.name, [.mk (.name (String.ofList t)) none []]), (.loopBody, [b]), (.wordlist, ws)])] := by
    rcases parts with rfl | ⟨rfl, rfl⟩
    · cases made
      rfl
    · cases made
      rfl
  have name := fresh_name (String.ofList t)
  refine ⟨_, rfl, fresh_assemble .forLoop [.name, .loopBody, .wordlist] rfl rfl (by decide) (by decide)
    rfl (by decide) ?fills ?shapely ?parts, by simp [all_assemble]⟩
  case fills =>
    have kind₁ := List.mem_singleton.mp name.kind
    have kind₂ := List.mem_singleton.mp body.kind
    have kinds := fun w hw => List.mem_singleton.mp (fresh w hw).kind
    simpa [Kind.members, Fills, all_assemble, Admission.kinds] using ⟨kind₁, kinds, kind₂⟩
  case shapely =>
    exact hasBody_of_all [b] (by simp [all_assemble]) (by simpa using ⟨body, plain⟩)
  case parts =>
    simpa using ⟨⟨_, name.toIsItem⟩, ⟨_, body.toIsItem⟩, fun w hw => ⟨_, (fresh w hw).toIsItem⟩⟩

/-! ### Choices -/

/-- A branch with its patterns and its body. -/
theorem fresh_caseItem {ws : List Node} {b : Node} (patterns : ∀ w ∈ ws, IsFresh [.word] w)
    (some : ws ≠ []) (body : IsBare b) (sound : Sound b) :
    IsFresh [.caseItem] (assemble .caseItem none [(.body, [b]), (.pattern, ws)]) := by
  have all : (assemble .caseItem none [(.body, [b]), (.pattern, ws)]).all .body = [b] ∧
      (assemble .caseItem none [(.body, [b]), (.pattern, ws)]).all .pattern = ws := by
    simp [all_assemble]
  refine ⟨⟨by exact List.mem_singleton_self _, fun list => (by cases list), ?_⟩, rfl⟩
  apply sound_assemble
  case order => exact List.Sublist.refl _
  case fills =>
    have kinds := fun w hw => List.mem_singleton.mp (patterns w hw).kind
    show ∀ m ∈ Kind.caseItem.members, _
    simpa [Kind.members, Fills, all_assemble, Admission.kinds] using ⟨kinds, body.kind⟩
  case shapely =>
    show (∀ c ∈ Node.all _ .body, _) ∧ Node.all _ .pattern ≠ []
    rw [all.1, all.2]
    exact ⟨by simpa using body, some⟩
  case below => simpa using ⟨sound, fun w hw => (patterns w hw).sound⟩
  case filled => exact fun other => absurd rfl other

theorem made_caseItem (h : anyReads Makings Symbol.caseItem.alternatives w ps)
    (made : symbolPieces .caseItem none ps = .ok qs) : Made .caseItem qs := by
  obtain ⟨_, _, ps₁, _, -, rfl, paren, _, _, _, _, -, rfl, ⟨⟨ws, rfl, words⟩, some⟩, _, _, _, -, rfl,
    rest⟩ := h
  obtain rfl : ps₁ = [] := by
    rcases paren with ⟨_, -, rfl⟩ | ⟨-, rfl⟩ <;> rfl
  have patterns : ws ≠ [] := fun none => some (by rw [none])
  -- Without a list the branch gets an empty one of its own.
  have empty : Made .caseItem [.node (assemble .caseItem none
      [(.body, [assemble (.compoundList false) none []]), (.pattern, ws)])] := by
    refine ⟨_, rfl, fresh_caseItem words patterns ⟨rfl, rfl, rfl⟩ ⟨rfl, ?_⟩⟩
    exact throughout_assemble ⟨fun _ f c hc => (by cases hc), trivial⟩ (by simp)
  rcases rest with ⟨b, rfl, fresh, plain⟩ | rfl | ⟨-, rfl⟩
  · cases made
    exact ⟨_, rfl, fresh_caseItem words patterns (isBody_of_isList fresh plain).1 fresh.sound⟩
  · cases made
    exact empty
  · cases made
    exact empty

theorem made_caseTail (h : anyReads Makings Symbol.caseTail.alternatives w ps)
    (made : symbolPieces .caseTail none ps = .ok qs) : Made .caseTail qs := by
  cases made
  exact made_run (fun _ => rfl) id h

theorem made_branches (h : elementReads Makings (.maybe [.symbol .caseItem, .maybe [.symbol .caseTail],
      .maybe [.sign .doubleSemicolon, .linebreak]]) w ps) :
    ∃ items : List Node, ps = items.map .node ∧ ∀ n ∈ items, IsFresh [.caseItem] n := by
  rcases h with ⟨_, _, _, _, -, rfl, ⟨n, rfl, first⟩, _, _, _, ps₃, -, rfl, tail, last⟩ | ⟨-, rfl⟩
  · obtain rfl : ps₃ = [] := by
      rcases last with ⟨_, _, _, -, rfl, line⟩ | ⟨-, rfl⟩
      · rw [made_linebreak line]
      · rfl
    rcases tail with ⟨ns, -, rfl, items⟩ | ⟨-, rfl⟩
    · exact ⟨n :: ns, by simp, List.forall_mem_cons.mpr ⟨first, items⟩⟩
    · exact ⟨[n], rfl, by simpa using first⟩
  · exact ⟨[], rfl, by simp⟩

theorem made_caseClause (h : anyReads Makings Symbol.caseClause.alternatives w ps)
    (made : symbolPieces .caseClause none ps = .ok qs) : Made .caseClause qs := by
  obtain ⟨_, _, _, -, rfl, t, _, _, -, rfl, _, _, _, _, -, rfl, line₁, _, _, _, -, rfl, _, _, _, _, -, rfl,
    line₂, _, _, _, _, -, rfl, branches, _, -, rfl⟩ := h
  obtain ⟨items, rfl, fresh⟩ := made_branches branches
  rw [made_linebreak line₁, made_linebreak line₂] at made
  have made : Except.ok [.node (assemble (.caseOf false) none [(.clause, [wordNode .word none t]),
      (.cases, nodesOf (items.map .node ++ []))])] = Except.ok qs := made
  rw [List.append_nil, nodesOf_map_node] at made
  cases made
  have word := fresh_word t
  refine ⟨_, rfl, fresh_assemble .caseOf [.clause, .cases] rfl rfl (by decide) (by decide) rfl
    (by decide) ?fills trivial ?parts, by simp [all_assemble]⟩
  case fills =>
    have kind := List.mem_singleton.mp word.kind
    have kinds := fun n hn => List.mem_singleton.mp (fresh n hn).kind
    simpa [Kind.members, Fills, all_assemble, Admission.kinds] using ⟨kind, kinds⟩
  case parts => simpa using ⟨⟨_, word.toIsItem⟩, fun n hn => ⟨_, (fresh n hn).toIsItem⟩⟩

/-! ### Commands -/

theorem made_compoundBody (h : anyReads Makings Symbol.compoundBody.alternatives w ps)
    (made : symbolPieces .compoundBody none ps = .ok qs) : Made .compoundBody qs := by
  cases made
  rcases h with ⟨n, rfl, fresh, plain⟩ | h | h | h | h | h | h
  · exact ⟨n, rfl, fresh.mono (by decide), plain⟩
  all_goals exact h

theorem made_compoundCommand (h : anyReads Makings Symbol.compoundCommand.alternatives w ps)
    (made : symbolPieces .compoundCommand none ps = .ok qs) : Made .compoundCommand qs := by
  obtain ⟨_, _, _, _, -, rfl, ⟨n, rfl, fresh, -⟩, ⟨rs, ne, rfl, redirects⟩ | ⟨-, rfl⟩⟩ := h
  · obtain ⟨r, rs, rfl⟩ := List.exists_cons_of_ne_nil ne
    have made : Except.ok [.node ((n.withLast .redirections
        (nodesOf ((r :: rs).map .node))).withLoc none)] = Except.ok qs := made
    rw [nodesOf_map_node] at made
    cases made
    exact ⟨_, rfl, fresh.withRedirections redirects⟩
  · cases made
    exact ⟨n, rfl, fresh⟩

/-- The body of a function is a list, whatever compound command it is written as. -/
theorem fresh_listBody (fresh : IsFresh compounds n) (plain : n.all .redirections = []) :
    IsFresh [.compoundList] (listBody n) ∧ (listBody n).all .redirections = [] := by
  unfold listBody
  split
  · -- A list is taken as it is.
    rename_i list
    exact ⟨⟨⟨by rw [list]; exact List.mem_singleton_self _, fresh.filled, fresh.sound⟩,
      fresh.foreground⟩, plain⟩
  · -- Any other command is put into a list that takes over its place, which is never an offset.
    have fits : fitsLoc .compoundList n.loc = true := by
      have own := (isWellTyped_iff.mp fresh.sound.typed).1
      have other : ∀ k ∈ compounds, k.isExpansion = false := by decide
      cases place : n.loc with
      | none => rfl
      | some l =>
        cases l with
        | between => rfl
        | offsets =>
          rw [place] at own
          exact absurd own (by simp [fitsLoc, other _ fresh.kind])
    have list : IsFresh [.compoundList] (assemble (.compoundList false) none [(.commands, [n])]) :=
      fresh_list (by simpa using fresh.toIsItem.mono (by decide)) (by simp)
    exact ⟨list.withLoc fits, by simp [all_assemble]⟩

theorem fresh_function {t : String} {rs : List Node} (fresh : IsFresh compounds n)
    (plain : n.all .redirections = []) (redirects : ∀ r ∈ rs, IsFresh [.redirect] r) :
    IsFresh [.function] (assemble (.function false) none
      [(.name, [.mk (.name t) none []]), (.body, [listBody n]), (.redirections, rs)]) := by
  obtain ⟨body, bare⟩ := fresh_listBody fresh plain
  have name := fresh_name t
  refine fresh_assemble .function [.name, .body, .redirections] rfl rfl (by decide) (by decide) rfl
    (by decide) ?fills ?shapely ?parts
  case fills =>
    have kind₁ := List.mem_singleton.mp name.kind
    have kind₂ := List.mem_singleton.mp body.kind
    have kinds := fun r hr => List.mem_singleton.mp (redirects r hr).kind
    simpa [Kind.members, Fills, all_assemble, Admission.kinds] using ⟨kind₁, kind₂, kinds⟩
  case shapely =>
    exact hasBody_of_all [listBody n] (by simp [all_assemble]) (by simpa using ⟨body, bare⟩)
  case parts =>
    simpa using ⟨⟨_, name.toIsItem⟩, ⟨_, body.toIsItem⟩, fun r hr => ⟨_, (redirects r hr).toIsItem⟩⟩

/-- A function has a name that is read as such, a compound command and redirections: the
    keyword and the parentheses leave no pieces. -/
theorem exists_function_parts (h : anyReads Makings Symbol.functionDefinition.alternatives w ps) :
    ∃ (t : List Char) (n : Node) (rs : List Node),
      ps = .node (.mk (.name (String.ofList t)) none []) :: .node n :: rs.map .node ∧
        ⟨.functionName, t⟩ ∈ w ∧ IsFresh compounds n ∧ n.all .redirections = [] ∧
        ∀ r ∈ rs, IsFresh [.redirect] r := by
  -- A compound command and redirections end both forms.
  have body {v : List Lexeme} {qs₁ qs₂ : List Piece} (h₁ : IsCompound qs₁)
      (h₂ : elementReads Makings (.maybe [.symbol .redirects]) v qs₂) :
      ∃ (n : Node) (rs : List Node), qs₁ ++ qs₂ = .node n :: rs.map .node ∧ IsFresh compounds n ∧
        n.all .redirections = [] ∧ ∀ r ∈ rs, IsFresh [.redirect] r := by
    obtain ⟨n, rfl, fresh, plain⟩ := h₁
    rcases h₂ with ⟨rs, -, rfl, redirects⟩ | ⟨-, rfl⟩
    · exact ⟨n, rs, rfl, fresh, plain, redirects⟩
    · exact ⟨n, [], rfl, fresh, plain, by simp⟩
  rcases h with ⟨t, _, _, rfl, rfl, _, _, _, -, rfl, _, _, _, -, rfl, _, _, _, _, -, rfl, line,
      _, _, _, _, -, rfl, first, last⟩ |
    ⟨_, _, _, rfl, rfl, t, _, _, rfl, rfl, _, _, ps₁, _, -, rfl, parens, _, _, _, _, -, rfl, line,
      _, _, _, _, -, rfl, first, last⟩
  · obtain ⟨n, rs, same, rest⟩ := body first last
    rw [made_linebreak line, same]
    exact ⟨t, n, rs, rfl, by simp, rest⟩
  · obtain rfl : ps₁ = [] := by
      rcases parens with ⟨_, _, _, -, rfl, _, -, rfl⟩ | ⟨-, rfl⟩ <;> rfl
    obtain ⟨n, rs, same, rest⟩ := body first last
    rw [made_linebreak line, same]
    exact ⟨t, n, rs, rfl, by simp, rest⟩

theorem made_functionDefinition (h : anyReads Makings Symbol.functionDefinition.alternatives w ps)
    (made : symbolPieces .functionDefinition none ps = .ok qs) : Made .functionDefinition qs := by
  obtain ⟨t, n, rs, rfl, -, fresh, plain, redirects⟩ := exists_function_parts h
  have made : Except.ok [.node (assemble (.function false) none
      [(.name, [.mk (.name (String.ofList t)) none []]), (.body, [listBody n]),
        (.redirections, nodesOf (rs.map .node))])] = Except.ok qs := made
  rw [nodesOf_map_node] at made
  cases made
  exact ⟨_, rfl, fresh_function fresh plain redirects⟩

theorem made_command (h : anyReads Makings Symbol.command.alternatives w ps)
    (made : symbolPieces .command none ps = .ok qs) : Made .command qs := by
  cases made
  rcases h with h | h | h
  · exact IsOne.mono h (by decide)
  · exact IsOne.mono h (by decide)
  · exact IsOne.mono h (by decide)

end

/-- What comes out of a reading is what its symbol makes. -/
theorem Reads.made {s : Symbol} {w : List Lexeme} {qs : List Piece} (h : Reads s w qs) :
    Made s qs := by
  refine h.induct (P := Makings) fun s w ps qs h made => ?_
  -- One lemma for each symbol; the many symbols repeat one item.
  cases s with
  | newlines => exact made_newlines h made
  | redirect => exact made_redirect h made
  | leadingItem => exact made_leadingItem h made
  | leadingItems =>
    cases made
    exact made_many h
  | suffixItem => exact made_suffixItem h made
  | suffixItems =>
    cases made
    exact made_many h
  | simpleCommand => exact made_simpleCommand h made
  | redirects =>
    cases made
    exact made_many h
  | wordRun => exact made_wordRun h made
  | forIn => exact made_forIn h made
  | separator => exact made_separator h made
  | sequentialSeparator => exact made_sequentialSeparator h made
  | forWords => exact made_forWords h made
  | doGroup => exact made_doGroup h made
  | patternTail => exact made_patternTail h made
  | pattern => exact made_pattern h made
  | caseItem => exact made_caseItem h made
  | caseTail => exact made_caseTail h made
  | braceGroup => exact made_braceGroup h made
  | subshell => exact made_subshell h made
  | forClause => exact made_forClause h made
  | caseClause => exact made_caseClause h made
  | ifClause => exact made_ifClause h made
  | elsePart => exact made_elsePart h made
  | elifPart => exact made_elifPart h made
  | elseBranch => exact made_elseBranch h made
  | whileClause => exact made_whileClause h made
  | untilClause => exact made_untilClause h made
  | compoundBody => exact made_compoundBody h made
  | compoundCommand => exact made_compoundCommand h made
  | functionDefinition => exact made_functionDefinition h made
  | command => exact made_command h made
  | pipeTail => exact made_pipeTail h made
  | pipeSequence => exact made_sequence h made
  | pipeline => exact made_pipeline h made
  | andOr => exact made_andOr h made
  | termTail => exact made_termTail h made
  | term => exact made_term h made
  | compoundList => exact made_compoundList h made
  | script => exact made_script h made

end ShellInliner.Parse
