import Mathlib.Order.Bounds.Basic
import ShellInliner.Proofs.Grammar.Reach
import ShellInliner.Proofs.Parse.Language
import ShellInliner.Proofs.Text.Lines

/-! # Texts that are rejected

    A place is within reach if the text before it can be cut into parts that begin a
    word of the language.  The report of a text that is no script is about the
    furthest of these places: it tells its line, and if the text ends there it says
    so.  Otherwise it shows a character of that line, the first one after which
    nothing that can be skipped goes on. -/

namespace ShellInliner.Parse

open Grammar hiding Symbol

/-! ### Every item derives something -/

/-- The symbols, each after those of one of its productions. -/
def simplestFirst : List Grammar.Symbol :=
  [.newlines, .redirect, .leadingItem, .leadingItems, .suffixItem, .suffixItems, .simpleCommand,
   .redirects, .wordRun, .forIn, .separator, .sequentialSeparator, .forWords, .command,
   .pipeSequence, .pipeline, .andOr, .termTail, .term, .compoundList, .script, .pipeTail, .doGroup,
   .patternTail, .pattern, .caseItem, .caseTail, .braceGroup, .subshell, .forClause, .caseClause,
   .ifClause, .elsePart, .elifPart, .elseBranch, .whileClause, .untilClause, .compoundBody,
   .compoundCommand, .functionDefinition]

/-- The place of a symbol among them. -/
def rank (s : Grammar.Symbol) : Nat :=
  simplestFirst.idxOf s

/-- Is the item a terminal or a simpler symbol? -/
def isSimpler (s : Grammar.Symbol) : Item → Bool
  | .token _ => true
  | .symbol u => rank u < rank s

theorem exists_simpler (s : Grammar.Symbol) :
    ∃ items ∈ s.productions, ∀ x ∈ items, isSimpler s x = true := by
  have check : s.productions.any (fun items => items.all (isSimpler s)) = true := by
    cases s <;> rfl
  simpa using check

theorem exists_treeRow {items : List Item}
    (each : ∀ x ∈ items, ∃ t, Applies t ∧ t.item = x) :
    ∃ ts, AllApply ts ∧ ts.map Tree.item = items := by
  induction items with
  | nil => exact ⟨[], trivial, rfl⟩
  | cons x xs ih =>
    obtain ⟨t, applies, item⟩ := each x (List.mem_cons_self ..)
    obtain ⟨ts, all, row⟩ := ih fun y mem => each y (List.mem_cons_of_mem _ mem)
    exact ⟨t :: ts, ⟨applies, all⟩, by rw [List.map_cons, item, row]⟩

/-- Every item has a derivation. -/
theorem exists_tree (x : Item) : ∃ t, Applies t ∧ t.item = x := by
  cases x with
  | token k => exact ⟨.leaf ⟨k, [], []⟩, trivial, rfl⟩
  | symbol s =>
    -- Every symbol has a production of simpler items, so the induction is on the rank.
    induction hm : rank s using Nat.strongRecOn generalizing s with
    | ind m ih =>
      obtain ⟨items, mem, simpler⟩ := exists_simpler s
      obtain ⟨n, production⟩ := List.getElem?_of_mem mem
      have each : ∀ x ∈ items, ∃ t, Applies t ∧ t.item = x := by
        intro x mem
        have lower := simpler x mem
        cases x with
        | token k => exact ⟨.leaf ⟨k, [], []⟩, trivial, rfl⟩
        | symbol u => exact ih _ (hm ▸ of_decide_eq_true lower) u rfl
      obtain ⟨ts, all, row⟩ := exists_treeRow each
      exact ⟨.node s n ts, ⟨row ▸ production, all⟩, rfl⟩

/-! ### Places within reach -/

/-- The text before the place can be cut into parts that begin a word of the
    language. -/
def WithinReach (text : List Char) (place : Nat) : Prop :=
  place ≤ text.length ∧ ∃ ps more, Cuts ps text (text.drop place) ∧
    ps.filterMap Part.terminal? ++ more ∈ shellGrammar.language

/-- Some of the tokens fit the start of the text, and skipping goes on from them to
    the place. -/
def Begins (ts : List Token) (text : List Char) (n : Nat) : Prop :=
  ∃ as ds left g, ts = as ++ ds ∧ Fit as text left ∧ g ∈ gaps left ∧ left.drop g = text.drop n

/-- The tokens of a derivation begin wherever its item gets. -/
theorem begins_of_getsTo {x : Item} {text : List Char} {n : Nat} (gets : x.GetsTo text n) :
    ∃ t, Applies t ∧ t.item = x ∧ Begins t.tokens text n := by
  refine Item.GetsTo.rec
    (motive_1 := fun x text n _ => ∃ t, Applies t ∧ t.item = x ∧ Begins t.tokens text n)
    (motive_2 := fun items text n _ =>
      ∃ ts, AllApply ts ∧ ts.map Tree.item = items ∧ Begins (tokensOf ts) text n)
    ?gap ?token ?production ?nil ?first ?others gets
  case gap =>
    intro k text g mem
    exact ⟨.leaf ⟨k, [], []⟩, trivial, rfl, [], _, text, g, rfl, .nil, mem, rfl⟩
  case token =>
    intro t text rest fits
    exact ⟨.leaf t, trivial, rfl, [t], [], rest, 0, rfl, .cons fits .nil, zero_mem_gaps _,
      fits.rest_eq⟩
  case production =>
    rintro s items text n mem _ ⟨ts, all, row, begins⟩
    obtain ⟨k, production⟩ := List.getElem?_of_mem mem
    exact ⟨.node s k ts, ⟨row ▸ production, all⟩, rfl, begins⟩
  case nil =>
    intro text
    exact ⟨[], trivial, rfl, [], [], text, 0, rfl, .nil, zero_mem_gaps _, rfl⟩
  -- Items that have not been reached are filled in with any derivation.
  case first =>
    rintro x xs text n _ ⟨t, applies, item, as, ds, left, g, tokens, fit, mem, drop⟩
    have each : ∀ y ∈ xs, ∃ t, Applies t ∧ t.item = y := fun y _ => exists_tree y
    obtain ⟨ts, all, row⟩ := exists_treeRow each
    refine ⟨t :: ts, ⟨applies, all⟩, by rw [List.map_cons, item, row], as, ds ++ tokensOf ts, left,
      g, ?_, fit, mem, drop⟩
    show t.tokens ++ tokensOf ts = _
    rw [tokens, List.append_assoc]
  case others =>
    rintro t xs text m n derives inside _ ⟨ts, all, row, as, ds, left, g, tokens, fit, mem, drop⟩
    refine ⟨t :: ts, ⟨applies_of_derives derives, all⟩, by rw [List.map_cons, row],
      t.tokens ++ as, ds, left, g, ?_, (fit_tokens derives).append fit, mem, ?_⟩
    · show t.tokens ++ tokensOf ts = _
      rw [tokens, List.append_assoc]
    · rw [drop, List.drop_drop]

theorem Fit.exists_drop {ts : List Token} {text rest : List Char} (fit : Fit ts text rest) :
    ∃ m ≤ text.length, rest = text.drop m := by
  induction fit with
  | nil => exact ⟨0, Nat.zero_le _, rfl⟩
  | @cons t ts text middle rest first _ ih =>
    obtain ⟨m, le, rfl⟩ := ih
    have bounds := first.length_bounds
    have after := first.rest_eq
    refine ⟨t.length + m, ?_, ?_⟩
    · rw [after, List.length_drop] at le
      omega
    · rw [after, List.drop_drop]

theorem drop_eq_drop {text : List Char} {m n : Nat} (same : text.drop m = text.drop n)
    (left : m ≤ text.length) (right : n ≤ text.length) : m = n := by
  have lengths := congrArg List.length same
  rw [List.length_drop, List.length_drop] at lengths
  omega

mutual

/-- An item gets to where some of its tokens end, and over what is skipped before
    the next. -/
theorem getsTo_of_fit : ∀ {t : Tree} {as ds : List Token} {d : Token} {text : List Char} {m g : Nat},
    Applies t → t.tokens = as ++ d :: ds → Fit as text (text.drop m) → m ≤ text.length →
    g ∈ gaps (text.drop m) → t.item.GetsTo text (m + g)
  | .leaf x, as, ds, d, text, m, g, _, tokens, fit, inside, mem => by
    cases as with
    | nil =>
      -- No token comes before, so the gap is at the start of the text.
      have start : text = text.drop m := by
        generalize text.drop m = left at fit
        cases fit
        rfl
      have zero : m = 0 := drop_eq_drop start.symm inside (Nat.zero_le _)
      subst zero
      rw [Nat.zero_add]
      exact .gap mem
    | cons a as =>
      have lengths := congrArg List.length tokens
      simp [Tree.tokens] at lengths
  | .node s n ts, as, ds, d, text, m, g, applies, tokens, fit, inside, mem =>
    .production (List.mem_of_getElem? applies.1) (rowGetsTo_of_fit applies.2 tokens fit inside mem)

theorem rowGetsTo_of_fit : ∀ {ts : List Tree} {as ds : List Token} {d : Token} {text : List Char}
    {m g : Nat}, AllApply ts → tokensOf ts = as ++ d :: ds → Fit as text (text.drop m) →
    m ≤ text.length → g ∈ gaps (text.drop m) → RowGetsTo (ts.map Tree.item) text (m + g)
  | [], as, ds, d, text, m, g, _, tokens, _, _, _ => by
    have lengths := congrArg List.length tokens
    simp [tokensOf] at lengths
  | t :: ts, as, ds, d, text, m, g, applies, tokens, fit, inside, mem => by
    rcases List.append_eq_append_iff.mp tokens with ⟨bs, rfl, others⟩ | ⟨bs, first, others⟩
    · -- The first derivation is complete.
      obtain ⟨middle, fit₁, fit₂⟩ := Fit.split fit
      obtain ⟨k, le, rfl⟩ := fit₁.exists_drop
      obtain ⟨j, le', eq⟩ := fit₂.exists_drop
      rw [List.length_drop] at le'
      rw [List.drop_drop] at eq
      have same : m = k + j := drop_eq_drop eq inside (by omega)
      subst same
      rw [← List.drop_drop] at fit₂ mem
      have row := rowGetsTo_of_fit applies.2 others fit₂ (by rw [List.length_drop]; exact le') mem
      rw [Nat.add_assoc]
      exact .others (derives_of_fit applies.1 fit₁) le row
    · cases bs with
      | nil =>
        -- The tokens end with the first derivation, so the next is in the others.
        rw [List.append_nil] at first
        subst first
        have next : tokensOf ts = [] ++ d :: ds := others.symm
        have row := rowGetsTo_of_fit (m := 0) applies.2 next .nil (Nat.zero_le _) mem
        rw [Nat.zero_add] at row
        exact .others (derives_of_fit applies.1 fit) inside row
      | cons b bs => exact .first (getsTo_of_fit applies.1 first fit inside mem)

end

/-- A place is within reach if a script gets to it. -/
theorem withinReach_iff {text : List Char} {place : Nat} :
    WithinReach text place ↔ ScriptGetsTo text place := by
  constructor
  · rintro ⟨inside, ps, more, cuts, word⟩
    obtain ⟨left, fit, g, mem, drop⟩ := cuts.fit
    obtain ⟨m, le, rfl⟩ := fit.exists_drop
    rw [List.drop_drop] at drop
    have bound := le_length_of_mem_gaps mem
    rw [List.length_drop] at bound
    have same : m + g = place := drop_eq_drop drop (by omega) inside
    -- The terminals that are still to come are taken as tokens without a text.
    have terminals : ps.filterMap Part.terminal? ++ more =
        (tokens ps ++ more.map fun k => (⟨k, [], []⟩ : Token)).map Token.terminal := by
      rw [List.map_append, map_terminal_tokens, List.map_map]
      simp [Function.comp_def]
    rw [terminals, mem_language_iff] at word
    obtain ⟨t, applies, item, tokens_eq⟩ := word
    cases more with
    | nil =>
      rw [List.map_nil, List.append_nil] at tokens_eq
      exact .inr ⟨t, m, g, item, le, derives_of_fit applies (tokens_eq ▸ fit), mem, same.symm⟩
    | cons k more =>
      have gets := getsTo_of_fit applies tokens_eq fit le mem
      rw [item, same] at gets
      exact .inl gets
  · intro gets
    refine ⟨gets.le_length, ?_⟩
    have begins : ∃ t, Applies t ∧ t.item = .symbol .script ∧ Begins t.tokens text place := by
      rcases gets with gets | ⟨t, m, g, item, -, derives, mem, rfl⟩
      · exact begins_of_getsTo gets
      · exact ⟨t, applies_of_derives derives, item, t.tokens, [], _, g, (List.append_nil _).symm,
          fit_tokens derives, mem, List.drop_drop⟩
    obtain ⟨t, applies, item, as, ds, left, g, tokens_eq, fit, mem, drop⟩ := begins
    obtain ⟨ps, cuts, same⟩ := exists_cuts_of_fit fit mem drop
    refine ⟨ps, ds.map Token.terminal, cuts, ?_⟩
    rw [← map_terminal_tokens, same, ← List.map_append, ← tokens_eq, mem_language_iff]
    exact ⟨t, applies, item, rfl⟩

/-- The furthest place is the greatest one within reach. -/
theorem furthest_withinReach (text : List Char) :
    IsGreatest {p | WithinReach text p} (furthestReach text) := by
  simp only [withinReach_iff]
  exact furthestReach_isGreatest text

/-! ### Why reading fails -/

theorem error_of_redirect {loc : Option Extent} {ps : List Piece} {e : Error}
    (h : redirect loc ps = .error e) : e = .numberTooLong := by
  unfold redirect at h
  split at h
  · split at h
    · cases h
      rfl
    · cases h
  · cases h
  · cases h

theorem error_of_symbolPieces {s : Grammar.Symbol} {loc : Option Extent} {ps : List Piece}
    {e : Error} (h : symbolPieces s loc ps = .error e) : e = .numberTooLong := by
  by_cases redirection : s = .redirect
  · subst redirection
    exact error_of_redirect h
  · obtain ⟨qs, made⟩ := exists_symbolPieces redirection loc ps
    rw [made] at h
    cases h

mutual

/-- Only a number can keep a derivation from being built. -/
theorem error_of_build {wanted : Bool} {e : Error} : ∀ {t : Tree} {p : Position},
    build wanted p t = .error e → e = .numberTooLong
  | .leaf t, p, h => by cases h
  | .node s n ts, p, h => by
    cases row : buildRow wanted p ts with
    | error e' =>
      simp only [build, row, bind, Except.bind] at h
      cases h
      exact error_of_buildRow row
    | ok inner =>
      -- Either a part fails or the pieces cannot be made.
      cases made : symbolPieces s (located wanted inner.place) inner.pieces with
      | error e' =>
        simp only [build, row, made, bind, Except.bind] at h
        cases h
        exact error_of_symbolPieces made
      | ok pieces =>
        simp only [build, row, made, bind, Except.bind, pure, Except.pure] at h
        cases h

theorem error_of_buildRow {wanted : Bool} {e : Error} : ∀ {ts : List Tree} {p : Position},
    buildRow wanted p ts = .error e → e = .numberTooLong
  | [], p, h => by cases h
  | t :: ts, p, h => by
    cases built : build wanted p t with
    | error e' =>
      simp only [buildRow, built, bind, Except.bind] at h
      cases h
      exact error_of_build built
    | ok first =>
      cases row : buildRow wanted first.after ts with
      | error e' =>
        simp only [buildRow, built, row, bind, Except.bind] at h
        cases h
        exact error_of_buildRow row
      | ok others =>
        simp only [buildRow, built, row, bind, Except.bind, pure, Except.pure] at h
        cases h

end

/-- A text is rejected because of a number, or because it is no script; then it is
    not empty. -/
theorem parse_error {text : List Char} {options : ParseOptions} {e : Error}
    (h : parse text options = .error e) :
    e = .numberTooLong ∨ e = syntaxError text options.file ∧ text ≠ [] := by
  unfold parse at h
  cases found : derivation? text with
  | none =>
    rw [found] at h
    refine .inr ⟨(Except.error.inj h).symm, ?_⟩
    rintro rfl
    -- The last production of a script is empty.
    have empty : Tree.DerivesScript (.node .script 3 []) [] :=
      ⟨rfl, [], .node (by decide) .nil, rfl⟩
    obtain ⟨t, some⟩ := exists_derivation? empty
    rw [found] at some
    cases some
  | some t =>
    rw [found] at h
    cases built : build options.locate origin t with
    | error e' =>
      simp only [built, Except.map] at h
      cases h
      exact .inl (error_of_build built)
    | ok b =>
      simp only [built, Except.map] at h
      cases h

/-! ### The report -/

/-- The report is about a character: the first one, from the furthest place on, at
    which nothing is open. -/
structure AtCharacter (text : List Char) (reached : Nat) (r : Report) : Prop where
  /-- The furthest place is inside the text. -/
  inside : reached < text.length
  /-- The line is that of the furthest place. -/
  line_eq : r.line = some ((1 + Text.lineFeeds (text.take reached) : Nat) : Int)
  /-- The message shows the character, and the column is counted from the start of the
      line. -/
  character : ∃ place c start, IsLeast {p | reached ≤ p ∧ ¬ IsOpen text p} place ∧
    text[place]? = some c ∧ r.message = "Unexpected character " ++ Text.charLiteral c ∧
    IsGreatest {s | s ≤ reached ∧ Text.StartsLine text s} start ∧
    r.column = some ((place - start + 1 : Nat) : Int)

/-- The report is about the end of the text. -/
structure AtEnd (text : List Char) (reached : Nat) (r : Report) : Prop where
  /-- The furthest place is the end of the text. -/
  reached_eq : reached = text.length
  /-- The message says so. -/
  message_eq : r.message = "Unexpected end of input"
  /-- The line is the last one that is not empty up to its end. -/
  line_eq : r.line =
    some ((1 + Text.lineFeeds (Text.dropFinalLineFeeds text) : Nat) : Int)
  /-- There is no column. -/
  column_eq : r.column = none

/-- The report quotes a line of the text. -/
structure Quotes (text : List Char) (r : Report) (line : Nat) (quoted : List Char) : Prop where
  /-- It names the line. -/
  line_eq : r.line = some (line : Int)
  /-- Lines are counted from one. -/
  one_le : 1 ≤ line
  /-- The text has the line. -/
  le_length : line ≤ (Text.lines text).length
  /-- The line is trimmed. -/
  quoted_eq : (Text.lines text)[line - 1]?.map Text.trim = some quoted
  /-- It is the context of the report. -/
  context_eq : r.context = some (String.ofList quoted)
  /-- It is shown unless it is empty. -/
  text_eq : r.text = "\n❌ Syntax Error" ++ r.place ++ ":\n" ++ ("   " ++ r.message ++ "\n") ++
    (if quoted = [] then "" else "   > " ++ String.ofList quoted ++ "\n") ++
    Report.part (Report.filled r.suggestion) fun s => "   💡 " ++ s ++ "\n"

theorem quotes_syntaxReport {text : List Char} {line : Nat} {column : Option Nat}
    {file : Option String} {message : String} (some_text : text ≠ []) (one_le : 1 ≤ line)
    (le : line ≤ Text.lineFeeds text + 1) :
    ∃ quoted, Quotes text (Error.syntaxReport message (syntaxPlace text line column file)) line
      quoted := by
  have inside : line - 1 < (Text.lines text).length := by
    rw [Text.length_lines]
    omega
  -- The line is there, so it is the context, which is left out only if it is empty.
  obtain ⟨quoted, line_quoted, context⟩ : ∃ quoted,
      (Text.lines text)[line - 1]?.map Text.trim = some quoted ∧
      Text.lineContext? text line = some quoted := by
    have filled : text.isEmpty = false := List.isEmpty_eq_false_iff.mpr some_text
    have positive : decide ((line : Int) ≤ 0) = false := by
      apply decide_eq_false
      omega
    refine ⟨Text.trim (Text.lines text)[line - 1], ?_, ?_⟩
    · rw [List.getElem?_eq_getElem inside]
      rfl
    · unfold Text.lineContext?
      rw [filled, positive]
      simp only [Bool.or_false, Bool.false_eq_true, if_false, Int.toNat_natCast]
      rw [List.getElem?_eq_getElem inside]
      rfl
  have same : (Text.lineContext? text line).map String.ofList = some (String.ofList quoted) := by
    rw [context]
    rfl
  refine ⟨quoted, rfl, one_le, ?_, line_quoted, same, ?_⟩
  · rw [Text.length_lines]
    exact le
  · unfold Report.text
    simp only [Error.syntaxReport, syntaxPlace, same]
    by_cases empty : quoted = []
    · subst empty
      rfl
    · have kept : Report.filled (some (String.ofList quoted)) = some (String.ofList quoted) := by
        have filled : String.ofList quoted ≠ "" := by
          intro eq
          have none := congrArg String.toList eq
          rw [String.toList_ofList] at none
          exact empty none
        simp [Report.filled, filled]
      rw [kept, if_neg empty]
      rfl

/-- The report of a text that is rejected as no script is about the furthest place
    within reach. -/
theorem rejection_report (text : List Char) (options : ParseOptions) (e : Error) (r : Report)
    (rejected : parse text options = .error e) (reported : e.report? = some r) :
    r.topic = .syntaxError ∧ ∃ reached, IsGreatest {p | WithinReach text p} reached ∧
      (AtCharacter text reached r ∨ AtEnd text reached r) ∧ ∃ line quoted, Quotes text r line quoted := by
  rcases parse_error rejected with rfl | ⟨rfl, some_text⟩
  · cases reported
  -- The furthest place and the dead end are on one line.
  have within := furthestReach_le_length text
  have free : ∀ p, furthestReach text ≤ p → p < deadEnd text → text[p]? ≠ some '\n' :=
    fun p above below => ne_lineFeed_of_lt_deadEnd above below
  have least := deadEnd_isLeast text
  cases rest : text.drop (deadEnd text) with
  | cons c cs =>
    have here : text[deadEnd text]? = some c := by
      rw [← List.head?_drop, rest]
      rfl
    have inside : deadEnd text < text.length := (List.getElem?_eq_some_iff.mp here).1
    obtain ⟨start, greatest, column⟩ := Text.exists_lineStart inside.le
    have line : (Text.placeAfter (text.take (deadEnd text))).1 =
        1 + Text.lineFeeds (text.take (furthestReach text)) := by
      rw [← Text.lineFeeds_take_eq least.1.1 free, Nat.add_comm]
      rfl
    have error : syntaxError text options.file = .unexpectedCharacter c
        (syntaxPlace text (1 + Text.lineFeeds (text.take (furthestReach text)))
          (some (deadEnd text - start + 1)) options.file) := by
      rw [← line, ← column]
      unfold syntaxError
      simp only [rest]
    rw [error] at reported
    cases reported
    refine ⟨rfl, furthestReach text, furthest_withinReach text, .inl ⟨?_, rfl, ?_⟩,
      1 + Text.lineFeeds (text.take (furthestReach text)), ?_⟩
    · exact deadEnd_lt_iff.mp inside
    · exact ⟨deadEnd text, c, start, least, here, rfl,
        Text.lineStart_eq least.1.1 free greatest, rfl⟩
    · have le := Text.lineFeeds_take_le text (furthestReach text)
      exact quotes_syntaxReport some_text (by omega) (by omega)
  | nil =>
    have error : syntaxError text options.file = .unexpectedEnd
        (syntaxPlace text (1 + Text.lineFeeds (Text.dropFinalLineFeeds text)) none
          options.file) := by
      unfold syntaxError
      simp only [rest]
      rw [Nat.add_comm]
    rw [error] at reported
    cases reported
    have beyond := List.drop_eq_nil_iff.mp rest
    have reached : furthestReach text = text.length := by
      apply Nat.le_antisymm within
      apply Nat.not_lt.mp
      intro lt
      have inside := deadEnd_lt_iff.mpr lt
      omega
    refine ⟨rfl, furthestReach text, furthest_withinReach text, .inr ⟨reached, rfl, rfl, rfl⟩,
      1 + Text.lineFeeds (Text.dropFinalLineFeeds text), ?_⟩
    have le := Text.lineFeeds_dropFinalLineFeeds_le text
    exact quotes_syntaxReport some_text (by omega) (by omega)

/-- On the second line the furthest place is the closing parenthesis.  The report shows
    the letter after it, since the number sign may still begin a comment, and quotes the
    line. -/
theorem rejection_report_second_line :
    let text := ['a', '\n', '1', '#', ')', 'b']
    ∃ e r, parse text {} = .error e ∧ e.report? = some r ∧ r.topic = .syntaxError ∧
      IsGreatest {p | WithinReach text p} 4 ∧ AtCharacter text 4 r ∧
      r.message = "Unexpected character " ++ Text.charLiteral 'b' ∧ r.column = some 4 ∧
      Quotes text r 2 ['1', '#', ')', 'b'] := by
  intro text
  have missing : (derivation? text).isNone = true := by decide +kernel
  have rejected : parse text {} = .error (syntaxError text none) := by
    unfold parse
    rw [Option.isNone_iff_eq_none.mp missing]
  have furthest : furthestReach text = 4 := by decide +kernel
  have place : syntaxError text none =
      .unexpectedCharacter 'b' (syntaxPlace text 2 (some 4) none) := by
    have dead : deadEnd text = 5 := by
      unfold deadEnd
      rw [furthest]
      decide
    unfold syntaxError
    rw [dead]
    rfl
  have reported := congrArg Error.report? place
  obtain ⟨topic, reached, greatest, about, line, quoted, quotes⟩ :=
    rejection_report text {} _ _ rejected reported
  obtain rfl : reached = 4 := greatest.unique (furthest ▸ furthest_withinReach text)
  have character : AtCharacter text 4 _ := about.resolve_right fun ends => by
    have length := ends.reached_eq
    cases length
  obtain rfl : line = 2 := by
    have named : some ((2 : Nat) : Int) = some (line : Int) := quotes.line_eq
    exact (Int.ofNat.inj (Option.some.inj named)).symm
  obtain rfl : quoted = ['1', '#', ')', 'b'] := by
    have trimmed := quotes.quoted_eq
    have second : (Text.lines text)[2 - 1]?.map Text.trim = some ['1', '#', ')', 'b'] := by decide
    exact Option.some.inj (trimmed.symm.trans second)
  exact ⟨_, _, rejected, reported, topic, greatest, character, rfl, rfl, quotes⟩

/-- A number sign in a word puts the dead end off: the furthest place holds a closing
    parenthesis, but the report shows the letter after it. -/
theorem report_after_furthest : ∃ e r, parse ['1', '#', ')', 'b'] {} = .error e ∧
    e.report? = some r ∧ r.topic = .syntaxError ∧
    IsGreatest {p | WithinReach ['1', '#', ')', 'b'] p} 2 ∧
    ['1', '#', ')', 'b'][2]? = some ')' ∧
    r.message ≠ "Unexpected character " ++ Text.charLiteral ')' ∧ r.column ≠ some 3 := by
  have missing : (derivation? ['1', '#', ')', 'b']).isNone = true := by rfl
  have furthest : furthestReach ['1', '#', ')', 'b'] = 2 := by decide +kernel
  have dead : deadEnd ['1', '#', ')', 'b'] = 3 := by
    unfold deadEnd
    rw [furthest]
    decide
  have place : syntaxError ['1', '#', ')', 'b'] none =
      .unexpectedCharacter 'b' (syntaxPlace ['1', '#', ')', 'b'] 1 (some 4) none) := by
    unfold syntaxError
    rw [dead]
    rfl
  refine ⟨_, _, ?_, congrArg Error.report? place, rfl, ?_, rfl, ?_, ?_⟩
  · unfold parse
    rw [Option.isNone_iff_eq_none.mp missing]
  · rw [← furthest]
    exact furthest_withinReach _
  · show "Unexpected character " ++ Text.charLiteral 'b' ≠ _
    decide +kernel
  · show some (4 : Int) ≠ some 3
    decide

end ShellInliner.Parse
