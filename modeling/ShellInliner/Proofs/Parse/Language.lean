import Mathlib.Computability.ContextFreeGrammar
import ShellInliner.Proofs.Parse.Script
import ShellInliner.Proofs.Parse.Unplaced

/-! # The language that is read

    The grammar is a context-free grammar over terminals.  A text is a script if it
    can be cut into parts, some of which are skipped while the others are tokens
    whose terminals make up a word of the language.  Every part is what its own
    match takes at its place, so a text has finitely many cuts; but it may have
    several, and which of them are words only the grammar can tell. -/

namespace ShellInliner.Parse

open Grammar hiding Symbol

/-! ### The grammar -/

/-- An item as a symbol of a context-free grammar. -/
def letter : Item → Symbol Terminal Grammar.Symbol
  | .token t => .terminal t
  | .symbol s => .nonterminal s

theorem letter_injective : Function.Injective letter := by
  intro x y same
  cases x <;> cases y <;> simp_all [letter]

/-- The grammar of scripts. -/
def shellGrammar : ContextFreeGrammar Terminal where
  NT := Grammar.Symbol
  initial := .script
  rules := (Grammar.Symbol.all.flatMap fun s =>
    s.productions.map fun items => ⟨s, items.map letter⟩).toFinset

theorem mem_rules {r : ContextFreeRule Terminal Grammar.Symbol} : r ∈ shellGrammar.rules ↔
    ∃ items ∈ r.input.productions, r.output = items.map letter := by
  unfold shellGrammar
  simp only [List.mem_toFinset, List.mem_flatMap, List.mem_map]
  constructor
  · rintro ⟨s, -, items, mem, rfl⟩
    exact ⟨items, mem, rfl⟩
  · rintro ⟨items, mem, same⟩
    refine ⟨r.input, ?_, items, mem, ?_⟩
    · obtain ⟨later, all, -⟩ := Grammar.Symbol.all_eq r.input
      simp [all]
    · rw [← same]

/-! ### Derivations and words -/

mutual

/-- Every inner node of the derivation applies the production that it names. -/
def Applies : Tree → Prop
  | .leaf _ => True
  | .node s n ts => s.productions[n]? = some (ts.map Tree.item) ∧ AllApply ts

/-- Every inner node of the derivations does. -/
def AllApply : List Tree → Prop
  | [] => True
  | t :: ts => Applies t ∧ AllApply ts

end

theorem allApply_append {ts us : List Tree} : AllApply (ts ++ us) ↔ AllApply ts ∧ AllApply us := by
  induction ts with
  | nil => simp [AllApply]
  | cons t ts ih => simp [AllApply, ih, and_assoc]

theorem tokensOf_append (ts us : List Tree) : tokensOf (ts ++ us) = tokensOf ts ++ tokensOf us := by
  induction ts with
  | nil => rfl
  | cons t ts ih => simp [tokensOf, ih]

theorem applies_of_derives {t : Tree} {text rest : List Char} (h : t.Derives text rest) :
    Applies t := by
  -- Only the productions are kept of a derivation, not the texts.
  refine Tree.Derives.rec (motive_1 := fun t _ _ _ => Applies t)
    (motive_2 := fun ts _ _ _ => AllApply ts) ?leaf ?node ?nil ?cons h
  case leaf =>
    intro t text rest _
    exact trivial
  case node =>
    intro s n ts text rest production _ all
    exact ⟨production, all⟩
  case nil =>
    intro text
    exact trivial
  case cons =>
    intro t ts text middle rest _ _ first others
    exact ⟨first, others⟩

mutual

/-- A derivation derives every text that its tokens fit. -/
theorem derives_of_fit : ∀ {t : Tree} {text rest : List Char}, Applies t →
    Fit t.tokens text rest → t.Derives text rest
  | .leaf t, text, rest, _, fit => by
    cases fit with
    | cons first others =>
      cases others
      exact .leaf first
  | .node s n ts, text, rest, applies, fit => .node applies.1 (rowDerives_of_fit applies.2 fit)

theorem rowDerives_of_fit : ∀ {ts : List Tree} {text rest : List Char}, AllApply ts →
    Fit (tokensOf ts) text rest → RowDerives ts text rest
  | [], text, rest, _, fit => by
    cases fit
    exact .nil
  | t :: ts, text, rest, applies, fit => by
    obtain ⟨middle, first, others⟩ := Fit.split fit
    exact .cons (derives_of_fit applies.1 first) (rowDerives_of_fit applies.2 others)

end

/-- The terminals of tokens as a row of symbols. -/
def letters (ts : List Token) : List (Symbol Terminal Grammar.Symbol) :=
  ts.map fun t => .terminal t.terminal

mutual

/-- The grammar rewrites the item of a derivation to the terminals of its tokens. -/
theorem derives_letters : ∀ {t : Tree}, Applies t →
    shellGrammar.Derives [letter t.item] (letters t.tokens)
  | .leaf t, _ => Relation.ReflTransGen.refl
  | .node s n ts, applies => by
    have rule : (⟨s, (ts.map Tree.item).map letter⟩ : ContextFreeRule Terminal Grammar.Symbol) ∈
        shellGrammar.rules :=
      mem_rules.mpr ⟨_, List.mem_of_getElem? applies.1, rfl⟩
    exact .head ⟨_, rule, .input_output⟩ (derives_allLetters applies.2)

theorem derives_allLetters : ∀ {ts : List Tree}, AllApply ts →
    shellGrammar.Derives ((ts.map Tree.item).map letter) (letters (tokensOf ts))
  | [], _ => Relation.ReflTransGen.refl
  | t :: ts, applies => by
    have first := (derives_letters applies.1).append_right ((ts.map Tree.item).map letter)
    have others := (derives_allLetters applies.2).append_left (letters t.tokens)
    have whole := first.trans others
    unfold tokensOf letters
    rw [List.map_append]
    exact whole

end

/-- Where the grammar rewrites a row of symbols to the terminals of some tokens,
    there are derivations of the symbols with these tokens. -/
theorem exists_trees {row : List (Symbol Terminal Grammar.Symbol)} {ts : List Token}
    (h : shellGrammar.Derives row (letters ts)) :
    ∃ us, (us.map Tree.item).map letter = row ∧ tokensOf us = ts ∧ AllApply us := by
  -- The induction goes from the last rewriting to the first.
  induction h using Relation.ReflTransGen.head_induction_on with
  | refl =>
    refine ⟨ts.map .leaf, ?_, ?_, ?_⟩
    · simp [letters, Tree.item, letter, Function.comp_def]
    · induction ts with
      | nil => rfl
      | cons t ts ih => simp [tokensOf, Tree.tokens, ih]
    · induction ts with
      | nil => exact trivial
      | cons t ts ih => exact ⟨trivial, ih⟩
  | head step _ ih =>
    obtain ⟨us, items, tokens, applies⟩ := ih
    obtain ⟨r, rule, rewrites⟩ := step
    obtain ⟨before, after, rfl, rfl⟩ := rewrites.exists_parts
    obtain ⟨production, mem, output⟩ := mem_rules.mp rule
    rw [List.map_map] at items
    obtain ⟨us₁, us₃, rfl, items₁, items₃⟩ := List.map_eq_append_iff.mp items
    obtain ⟨us₁, us₂, rfl, items₁, items₂⟩ := List.map_eq_append_iff.mp items₁
    rw [output, ← List.map_map] at items₂
    -- The derivations that make up the output of the rule become the children of one node.
    have same : us₂.map Tree.item = production := letter_injective.list_map items₂
    obtain ⟨n, here⟩ := List.getElem?_of_mem mem
    rw [allApply_append, allApply_append] at applies
    rw [tokensOf_append, tokensOf_append] at tokens
    refine ⟨us₁ ++ [.node r.input n us₂] ++ us₃, ?_, ?_, ?_⟩
    · rw [List.map_map, List.map_append, List.map_append, items₁, items₃]
      rfl
    · rw [tokensOf_append, tokensOf_append, ← tokens]
      simp [tokensOf, Tree.tokens]
    · rw [allApply_append, allApply_append]
      exact ⟨⟨applies.1.1, ⟨same ▸ here, applies.1.2⟩, trivial⟩, applies.2⟩

/-- The terminals of some tokens are a word of the language if the tokens have a
    derivation of a script. -/
theorem mem_language_iff {ts : List Token} : ts.map Token.terminal ∈ shellGrammar.language ↔
    ∃ t, Applies t ∧ t.item = .symbol .script ∧ t.tokens = ts := by
  have generated : ts.map Token.terminal ∈ shellGrammar.language ↔
      shellGrammar.Derives [letter (.symbol .script)] (letters ts) := by
    rw [ContextFreeGrammar.mem_language_iff, List.map_map]
    exact Iff.rfl
  rw [generated]
  constructor
  · intro derives
    -- The row of trees that the word comes from holds a single one, that of the script.
    obtain ⟨us, items, tokens, applies⟩ := exists_trees derives
    obtain ⟨x, xs, split, first, rest⟩ := List.map_eq_cons_iff.mp items
    obtain ⟨t, ts', rfl, item, others⟩ := List.map_eq_cons_iff.mp split
    have none : xs = [] := List.map_eq_nil_iff.mp rest
    subst none
    have none : ts' = [] := List.map_eq_nil_iff.mp others
    subst none
    refine ⟨t, applies.1, item.trans (letter_injective first), ?_⟩
    simpa [tokensOf] using tokens
  · rintro ⟨t, applies, item, rfl⟩
    have derives := derives_letters applies
    rw [item] at derives
    exact derives

/-! ### Words of the language -/

/-- A text has a derivation of a script if it can be cut into parts that are a word
    of the language. -/
theorem exists_derivation_iff {text : List Char} : (∃ t : Tree, t.DerivesScript text) ↔
    ∃ ps, Cuts ps text [] ∧ ps.filterMap Part.terminal? ∈ shellGrammar.language := by
  constructor
  · rintro ⟨t, derives⟩
    obtain ⟨ps, cuts, same⟩ := exists_cuts_of_derivesScript derives
    obtain ⟨item, left, part, -⟩ := derives
    refine ⟨ps, cuts, ?_⟩
    rw [← map_terminal_tokens, mem_language_iff]
    exact ⟨t, applies_of_derives part, item, same.symm⟩
  · rintro ⟨ps, cuts, word⟩
    rw [← map_terminal_tokens, mem_language_iff] at word
    obtain ⟨t, applies, item, same⟩ := word
    obtain ⟨left, fit, g, mem, drop⟩ := cuts.fit
    -- What the tokens leave is skipped to the very end.
    have all : g = left.length := by
      have bound := le_length_of_mem_gaps mem
      have none := List.drop_eq_nil_iff.mp drop
      omega
    refine ⟨t, item, left, derives_of_fit applies (same ▸ fit), ?_⟩
    rw [isSkippable_iff, ← all]
    exact mem

/-! ### Reading -/

/-- A derivation without long file descriptors can be built, with places or without. -/
theorem exists_build (wanted : Bool) {t : Tree} {text rest : List Char} (derives : t.Derives text rest)
    (short : Short (t.tokens.map lexeme)) (p : Position) : ∃ b, build wanted p t = .ok b := by
  obtain ⟨b, built, -⟩ := build_total derives short p
  rw [build_unplaced wanted] at built
  cases placed : build wanted p t with
  | ok b => exact ⟨b, rfl⟩
  | error e =>
    rw [placed] at built
    cases built

/-- The pieces of a derivation of a script are a script. -/
theorem pieces_script {wanted : Bool} {p : Position} {t : Tree} {b : Built}
    (item : t.item = .symbol .script) (built : build wanted p t = .ok b) :
    ∃ n, b.pieces = [.node n] ∧ n.kind = .script := by
  cases t with
  | leaf x => cases item
  | node s k ts =>
    cases item
    obtain ⟨inner, pieces, -, made, rfl⟩ := exists_of_build_node built
    cases made
    exact ⟨_, rfl, rfl⟩

/-- A script is a cut of the text, a derivation of its tokens, and what is built of
    it. -/
structure ScriptOf (text : List Char) (locate : Bool) (n : Node) (ps : List Part) (t : Tree) :
    Prop where
  /-- The text is cut into the parts. -/
  cuts : Cuts ps text []
  /-- The derivation is one of the grammar. -/
  applies : Applies t
  /-- It derives a script. -/
  item : t.item = .symbol .script
  /-- Its tokens are those of the cut. -/
  tokens : t.tokens = tokens ps
  /-- The script is built of it. -/
  built : ∃ b, build locate origin t = .ok b ∧ b.pieces = [.node n]
  /-- It is a script. -/
  kind : n.kind = .script

/-- A text is read if and only if it can be cut into parts that are a word of the
    language.  The script that is read is built of a derivation of such a cut; any
    other text is reported as one that cannot be read. -/
theorem parse_iff_language (text : List Char) (options : ParseOptions)
    (few : FewDigitsCut text) :
    ((∃ n, parse text options = .ok n) ↔
      ∃ ps, Cuts ps text [] ∧ ps.filterMap Part.terminal? ∈ shellGrammar.language) ∧
    (∀ n, parse text options = .ok n → ∃ ps t, ScriptOf text options.locate n ps t) ∧
    ∀ e, parse text options = .error e →
      e = syntaxError text options.file ∧ ∃ r, e.report? = some r ∧ r.topic = .syntaxError := by
  cases found : derivation? text with
  | none =>
    have fails : parse text options = .error (syntaxError text options.file) := by
      unfold parse
      rw [found]
    have none : ¬ ∃ t : Tree, t.DerivesScript text := by
      rintro ⟨t, derives⟩
      obtain ⟨t', found'⟩ := exists_derivation? derives
      rw [found] at found'
      cases found'
    rw [← exists_derivation_iff, fails]
    refine ⟨⟨?_, fun some => absurd some none⟩, ?_, ?_⟩
    · rintro ⟨n, eq⟩
      cases eq
    · intro n eq
      cases eq
    · intro e eq
      cases eq
      refine ⟨rfl, ?_⟩
      unfold syntaxError
      simp only
      split <;> exact ⟨_, rfl, rfl⟩
  | some t =>
    have derives := derivation?_sound found
    obtain ⟨ps, cuts, same⟩ := exists_cuts_of_derivesScript derives
    obtain ⟨item, rest, part, -⟩ := id derives
    obtain ⟨b, built⟩ := exists_build options.locate part (short_of_derivesScript derives few) origin
    obtain ⟨n, pieces, kind⟩ := pieces_script item built
    have reads : parse text options = .ok n := by
      unfold parse
      simp only [found, built, Except.map, pieces]
      rfl
    rw [← exists_derivation_iff, reads]
    refine ⟨⟨fun _ => ⟨t, derives⟩, fun _ => ⟨n, rfl⟩⟩, ?_, ?_⟩
    · intro n' eq
      cases eq
      exact ⟨ps, t, cuts, applies_of_derives part, item, same.symm, ⟨b, built, pieces⟩, kind⟩
    · intro e eq
      cases eq

/-- A blank and a redirection with its file descriptor are read. -/
theorem parse_iff_language_redirection :
    FewDigitsCut [' ', '2', '>', 'f'] ∧ ∃ n, parse [' ', '2', '>', 'f'] {} = .ok n := by
  have few : FewDigitsCut [' ', '2', '>', 'f'] := fewDigitsCut_of_length_le (by decide)
  refine ⟨few, (parse_iff_language [' ', '2', '>', 'f'] {} few).1.mpr ?_⟩
  let digits : Token := ⟨.ioNumber, [' '], ['2']⟩
  let sign : Token := ⟨.redirectOperator, [], ['>']⟩
  let file : Token := ⟨.word, [], ['f']⟩
  let redirection : Tree := .node .redirect 0 [.leaf digits, .leaf sign, .leaf file]
  let command : Tree :=
    .node .simpleCommand 2 [.node .leadingItems 0 [.node .leadingItem 1 [redirection]]]
  let statement : Tree := .node .andOr 0
    [.node .pipeline 0 [.node .pipeSequence 1 [.node .command 0 [command]]]]
  refine ⟨[.skipped [' '], .token .ioNumber ['2'], .token .redirectOperator ['>'],
    .token .word ['f']], ?_, ?_⟩
  · have last : Cuts [.token .word ['f']] ['f'] [] := .token (by decide) .nil
    have sign : Cuts [.token .redirectOperator ['>'], .token .word ['f']] ['>', 'f'] [] :=
      .token (by decide) last
    exact .skipped (by decide) (.token (by decide) sign)
  · rw [← map_terminal_tokens, mem_language_iff]
    refine ⟨.node .script 2 [.node .term 3 [statement]], ?_, rfl, rfl⟩
    simp only [statement, command, redirection, Applies, AllApply, and_true]
    decide

end ShellInliner.Parse
