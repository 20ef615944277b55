import ShellInliner.Proofs.Parse.Simulation

/-! # Phases of the reader

    Which terminals the reader takes next depends on little of its state: on how
    far the current command, loop or choice has come.  A phase keeps just that,
    so there are finitely many of them, and what two readers of one text can do
    at the same time is decided by running through all pairs. -/

namespace ShellInliner.Parse

open Grammar

/-! ### Phases -/

/-- The marks of a redirection that is not finished. -/
inductive Mark
  /-- There is none. -/
  | none
  /-- The file descriptor has been read. -/
  | number
  /-- The operator has been read. -/
  | operator
  deriving DecidableEq, Repr

/-- How far the current command, loop or choice has come. -/
inductive Phase
  /-- A statement may start. -/
  | start
  /-- The same, right after the parenthesis that follows the name of a function. -/
  | opening
  /-- A command has to follow. -/
  | ahead
  /-- A simple command, with or without its name. -/
  | simple (named : Bool) (m : Mark)
  /-- A compound command that is closed. -/
  | compound (m : Mark)
  /-- The keyword of a function. -/
  | functionKeyword
  /-- The name of a function, which parentheses follow. -/
  | functionName
  /-- The parenthesis after the name of a function. -/
  | functionParen
  /-- The name of a function after the keyword. -/
  | functionHead
  /-- A function without its body. -/
  | functionBody
  /-- The name of the loop variable comes next. -/
  | forName
  /-- The words of the loop may come. -/
  | forIn
  /-- The words of the loop. -/
  | forWords
  /-- The body of the loop comes next. -/
  | forDo
  /-- The word of the choice comes next. -/
  | caseWord
  /-- The word of the choice has been read. -/
  | caseIn
  /-- Before the first pattern of a branch. -/
  | firstPattern
  /-- Before a pattern that has to come. -/
  | nextPattern
  /-- After a pattern. -/
  | afterPattern
  deriving DecidableEq, Repr

/-- All phases. -/
def Phase.all : List Phase :=
  [.start, .opening, .ahead, .simple false .none, .simple false .number, .simple false .operator,
   .simple true .none, .simple true .number, .simple true .operator, .compound .none,
   .compound .number, .compound .operator, .functionKeyword, .functionName, .functionParen,
   .functionHead, .functionBody, .forName, .forIn, .forWords, .forDo, .caseWord, .caseIn,
   .firstPattern, .nextPattern, .afterPattern]

theorem Phase.mem_all (p : Phase) : p ∈ Phase.all := by
  cases p with
  | simple named m => cases named <;> cases m <;> decide
  | compound m => cases m <;> decide
  | _ => decide

/-- The marks of a redirection, without their characters. -/
def Marks.mark : Marks → Mark
  | none => .none
  | number _ => .number
  | operator _ _ => .operator

/-- The phase of a list of statements. -/
def Mode.phase : Mode → Phase
  | start => .start
  | opening => .opening
  | ahead => .ahead
  | simple items marks => .simple (items.any Piece.isWord) marks.mark
  | compound _ _ _ marks => .compound marks.mark
  | functionKeyword => .functionKeyword
  | functionName _ => .functionName
  | functionParen _ => .functionParen
  | functionHead _ => .functionHead
  | functionBody _ => .functionBody

/-- The phase of the start of a loop or a choice. -/
def Heading.phase : Heading → Phase
  | forName => .forName
  | forIn _ => .forIn
  | forWords _ _ => .forWords
  | forDo _ _ => .forDo
  | caseWord => .caseWord
  | caseIn _ => .caseIn
  | patterns _ _ _ .first => .firstPattern
  | patterns _ _ _ .next => .nextPattern
  | patterns _ _ _ .after => .afterPattern

/-- The phase of a state. -/
def State.phase (s : State) : Phase :=
  match s.top with
  | .list f => f.mode.phase
  | .heading h => h.phase

namespace Phase

/-- May a command start here? -/
def isFresh : Phase → Bool
  | start | opening | ahead => true
  | _ => false

/-- May a compound command start here? -/
def opens : Phase → Bool
  | functionHead | functionBody => true
  | p => p.isFresh

/-- May a command end here? -/
def isComplete : Phase → Bool
  | simple _ .none | compound .none => true
  | _ => false

/-- May a list of statements end here? -/
def ends (p : Phase) : Bool :=
  p == start || p.isComplete

/-- The phase after a terminal, if the terminal is taken. -/
def next (p : Phase) (t : Terminal) : Option Phase :=
  match t with
  | .newline =>
    match p with
    | opening => some start
    | start | ahead | functionBody | forIn | forDo | caseIn | firstPattern => some p
    | functionHead => some functionBody
    | forWords => some forDo
    | _ => if p.isComplete then some start else none
  | .sign .semicolon =>
    match p with
    | forIn | forWords => some forDo
    | _ => if p.isComplete then some start else none
  | .sign .ampersand => if p.isComplete then some start else none
  | .sign .andIf | .sign .orIf => if p.isComplete then some ahead else none
  | .sign .bar =>
    match p with
    | afterPattern => some nextPattern
    | _ => if p.isComplete then some ahead else none
  | .sign .openParen =>
    match p with
    | functionName => some functionParen
    | functionHead => some opening
    | firstPattern => some nextPattern
    | _ => if p.opens then some start else none
  | .sign .closeParen =>
    match p with
    | functionParen | opening => some functionBody
    | afterPattern => some start
    | _ => if p.ends then some (compound .none) else none
  | .sign .doubleSemicolon => if p.ends then some firstPattern else none
  | .reserved .bang => if p.isFresh then some ahead else none
  | .reserved .openBrace | .reserved .ifWord | .reserved .whileWord | .reserved .untilWord =>
    if p.opens then some start else none
  | .reserved .forWord => if p.opens then some forName else none
  | .reserved .caseWord => if p.opens then some caseWord else none
  | .reserved .functionWord => if p.isFresh then some functionKeyword else none
  | .reserved .closeBrace | .reserved .fiWord | .reserved .doneWord =>
    if p.ends then some (compound .none) else none
  | .reserved .esacWord => if p.ends || p == firstPattern then some (compound .none) else none
  | .reserved .thenWord | .reserved .elseWord | .reserved .elifWord =>
    if p.ends then some start else none
  | .reserved .doWord => if p.ends || p == forIn || p == forDo then some start else none
  | .reserved .inWord =>
    match p with
    | forIn => some forWords
    | caseIn => some firstPattern
    | _ => none
  | .commandWord => if p.isFresh || p == simple false .none then some (simple true .none) else none
  | .assignmentWord =>
    if p.isFresh || p == simple false .none then some (simple false .none) else none
  | .ioNumber =>
    match p with
    | simple named .none => some (simple named .number)
    | compound .none => some (compound .number)
    | _ => if p.isFresh then some (simple false .number) else none
  | .redirectOperator =>
    match p with
    | simple named .none | simple named .number => some (simple named .operator)
    | compound .none | compound .number => some (compound .operator)
    | _ => if p.isFresh then some (simple false .operator) else none
  | .word =>
    match p with
    | simple named .operator => some (simple named .none)
    | simple true .none => some (simple true .none)
    | compound .operator => some (compound .none)
    | forWords => some forWords
    | caseWord => some caseIn
    | firstPattern | nextPattern => some afterPattern
    | _ => none
  | .name => if p == forName then some forIn else none
  | .functionName =>
    if p == functionKeyword then some functionHead else if p.isFresh then some functionName else none

end Phase

/-! ### The reader keeps to the phases -/

section

variable {m m' : Mode} {f f' : Frame} {σ : List Frame} {l : Lexeme} {s s' : State} {n : Node}

theorem isFresh_phase (m : Mode) : m.phase.isFresh = m.isFresh := by
  cases m <;> rfl

theorem opens_of_opens? {function : Option Node} (h : m.opens? = some function) :
    m.phase.opens = true := by
  cases m <;> first | rfl | cases h

theorem isComplete_of_node? (h : m.node? = some n) : m.phase.isComplete = true := by
  cases m with
  | simple items marks =>
    cases marks with
    | none => rfl
    | number d => cases items <;> cases h
    | operator d o => cases items <;> cases h
  | compound function body rs marks => cases marks <;> first | rfl | cases h
  | _ => cases h

theorem isComplete_of_andOr? (h : f.andOr? = some n) : f.mode.phase.isComplete = true := by
  cases hm : f.mode.node? with
  | none =>
    rw [andOr?_eq_none hm] at h
    cases h
  | some m => exact isComplete_of_node? hm

theorem ends_of_statements? {ns : List Node} (h : f.statements? = some ns) :
    f.mode.phase.ends = true := by
  unfold Frame.statements? at h
  split at h
  · rename_i hm
    rw [hm]
    rfl
  · obtain ⟨n, hn, -⟩ := Option.map_eq_some_iff.mp h
    rw [Phase.ends, isComplete_of_andOr? hn, Bool.or_true]

/-- A phase in which a statement is complete is one of these. -/
theorem Phase.eq_of_isComplete {p : Phase} (h : p.isComplete = true) :
    (∃ named, p = simple named .none) ∨ p = compound .none := by
  unfold isComplete at h
  split at h
  · exact .inl ⟨_, rfl⟩
  · exact .inr rfl
  · cases h

/-- After a statement the reader goes on with the next one. -/
theorem next_of_isComplete {p : Phase} (h : p.isComplete = true) :
    p.next .newline = some .start ∧ p.next (.sign .semicolon) = some .start ∧
      p.next (.sign .ampersand) = some .start ∧ p.next (.sign .andIf) = some .ahead ∧
      p.next (.sign .orIf) = some .ahead ∧ p.next (.sign .bar) = some .ahead := by
  rcases Phase.eq_of_isComplete h with ⟨named, rfl⟩ | rfl
  · cases named <;> decide
  · decide

/-- Where a list of statements may end, whatever closes it is taken. -/
theorem next_of_ends {p : Phase} (h : p.ends = true) :
    p.next (.sign .closeParen) = some (.compound .none) ∧
      p.next (.sign .doubleSemicolon) = some .firstPattern ∧
      p.next (.reserved .closeBrace) = some (.compound .none) ∧
      p.next (.reserved .fiWord) = some (.compound .none) ∧
      p.next (.reserved .doneWord) = some (.compound .none) ∧
      p.next (.reserved .esacWord) = some (.compound .none) ∧
      p.next (.reserved .thenWord) = some .start ∧ p.next (.reserved .elseWord) = some .start ∧
      p.next (.reserved .elifWord) = some .start ∧ p.next (.reserved .doWord) = some .start := by
  have cases : p = .start ∨ p.isComplete = true := by
    simpa [Phase.ends] using h
  rcases cases with rfl | complete
  · decide
  · rcases Phase.eq_of_isComplete complete with ⟨named, rfl⟩ | rfl
    · cases named <;> decide
    · decide

/-- A list that is popped goes on after a compound command. -/
theorem phase_pop (h : pop σ n = some s') : s'.phase = .compound .none := by
  unfold pop at h
  split at h
  · cases h
  · obtain ⟨g, hg, rfl⟩ := Option.map_eq_some_iff.mp h
    obtain ⟨function, -, rfl⟩ := Option.map_eq_some_iff.mp hg
    rfl

/-- A list is opened where a compound command may start. -/
theorem phase_push {owner : Owner} (h : push f σ owner m = some s') :
    f.mode.phase.opens = true ∧ s'.phase = m.phase := by
  obtain ⟨function, hf, rfl⟩ := Option.map_eq_some_iff.mp h
  exact ⟨opens_of_opens? hf, rfl⟩

/-- The items that a command may go on from, with the phases they belong to. -/
theorem phase_of_items? {items : List Piece} (h : m.items? = some items) :
    (m.phase.isFresh = true ∧ items = []) ∨ m.phase = .simple (items.any Piece.isWord) .none := by
  cases m with
  | start => cases h; exact .inl ⟨rfl, rfl⟩
  | opening => cases h; exact .inl ⟨rfl, rfl⟩
  | ahead => cases h; exact .inl ⟨rfl, rfl⟩
  | simple items' marks =>
    cases marks with
    | none => cases h; exact .inr rfl
    | number d => cases h
    | operator d o => cases h
  | _ => cases h

/-- A fresh phase is one of these. -/
theorem Phase.eq_of_isFresh {p : Phase} (h : p.isFresh = true) :
    p = .start ∨ p = .opening ∨ p = .ahead := by
  cases p with
  | start => exact .inl rfl
  | opening => exact .inr (.inl rfl)
  | ahead => exact .inr (.inr rfl)
  | _ => cases h

/-- From a fresh phase, or one with the same items, a simple command goes on. -/
theorem next_items {p : Phase} {named : Bool}
    (h : (p.isFresh = true ∧ named = false) ∨ p = .simple named .none) :
    p.next .ioNumber = some (.simple named .number) ∧
      p.next .redirectOperator = some (.simple named .operator) ∧
      (named = false → p.next .commandWord = some (.simple true .none) ∧
        p.next .assignmentWord = some (.simple false .none)) := by
  rcases h with ⟨fresh, rfl⟩ | rfl
  · rcases Phase.eq_of_isFresh fresh with rfl | rfl | rfl <;> decide
  · cases named <;> decide

theorem phase_items {items : List Piece} (h : m.items? = some items) :
    (m.phase.isFresh = true ∧ items.any Piece.isWord = false) ∨
      m.phase = .simple (items.any Piece.isWord) .none := by
  rcases phase_of_items? h with ⟨fresh, rfl⟩ | h
  · exact .inl ⟨fresh, rfl⟩
  · exact .inr h

/-- A part of a command leads from phase to phase. -/
theorem phase_stepCommand (h : stepCommand m l = some m') :
    m.phase.next l.terminal = some m'.phase := by
  obtain ⟨t, text⟩ := l
  unfold stepCommand at h
  split at h
  case h_1 =>
    -- The name of the command: the items before it are no words.
    rename_i ht
    cases ht
    obtain ⟨items, hi, h⟩ := Option.bind_eq_some_iff.mp h
    split at h
    · cases h
    · rename_i hw
      cases h
      have unnamed : items.any Piece.isWord = false := by simpa using hw
      rw [((next_items (phase_items hi)).2.2 unnamed).1, Mode.phase, List.any_append]
      simp [Marks.mark, Lexeme.pieces, tokenPieces, Piece.isWord, wordNode, Node.kind, Node.head,
        Head.kind]
  case h_2 =>
    -- An assignment, which leaves the command without a name.
    rename_i ht
    cases ht
    obtain ⟨items, hi, h⟩ := Option.bind_eq_some_iff.mp h
    split at h
    · cases h
    · rename_i hw
      cases h
      have unnamed : items.any Piece.isWord = false := by simpa using hw
      rw [((next_items (phase_items hi)).2.2 unnamed).2, Mode.phase, List.any_append, unnamed]
      rfl
  case h_3 =>
    -- A word after the name.
    rename_i ht
    cases ht
    split at h
    · rename_i named
      cases h
      rw [Mode.phase, Mode.phase, List.any_append, named]
      rfl
    · cases h
  case h_4 =>
    -- The file of a redirection, which is no word of the command.
    rename_i ht
    cases ht
    obtain ⟨r, hr, rfl⟩ := Option.map_eq_some_iff.mp h
    have none : List.any [Piece.node r] Piece.isWord = false := by
      rw [List.any_cons, isWord_redirect (kind_redirectNode? hr)]
      rfl
    rw [Mode.phase, Mode.phase, List.any_append, none, Bool.or_false]
    rfl
  case h_5 =>
    -- The same after a compound command.
    rename_i ht
    cases ht
    obtain ⟨r, hr, rfl⟩ := Option.map_eq_some_iff.mp h
    rfl
  case h_7 =>
    -- A file descriptor in a simple command.
    rename_i ht _
    cases ht
    obtain ⟨items, hi, rfl⟩ := Option.map_eq_some_iff.mp h
    exact (next_items (phase_items hi)).1
  case h_11 =>
    -- An operator in a simple command.
    rename_i ht _ _ _
    cases ht
    obtain ⟨items, hi, rfl⟩ := Option.map_eq_some_iff.mp h
    exact (next_items (phase_items hi)).2.1
  case h_12 =>
    -- The keyword of a function.
    rename_i ht
    cases ht
    split at h
    · rename_i fresh
      cases h
      rw [Phase.next, isFresh_phase, fresh]
      rfl
    · cases h
  case h_14 =>
    -- The name of a function without the keyword.
    rename_i k _ _ ht _
    cases ht
    split at h
    · rename_i fresh
      cases h
      have other : k.phase ≠ .functionKeyword := by
        intro same
        rw [← isFresh_phase, same] at fresh
        cases fresh
      simp only [Phase.next, beq_iff_eq, other, if_false, isFresh_phase, fresh, if_true]
      rfl
    · cases h
  case h_15 => cases h
  -- Where the mode settles the phase there is nothing to ask of the items: at a redirection
  -- that has begun or stands behind a compound command, and at a name behind the keyword.
  all_goals
    rename_i ht
    cases ht
    cases h
    rfl

/-- A line end leads from phase to phase. -/
theorem phase_stepNewline (h : stepNewline f = some f') :
    f.mode.phase.next .newline = some f'.mode.phase := by
  unfold stepNewline at h
  split at h
  case h_6 =>
    obtain ⟨n, hn, rfl⟩ := Option.map_eq_some_iff.mp h
    exact (next_of_isComplete (isComplete_of_andOr? hn)).1
  all_goals
    rename_i hm
    cases h
    rw [hm]
    rfl

/-- A statement is finished, and the list goes on. -/
theorem phase_finish {k : Node → Frame} {p : Phase} (hk : ∀ n, (k n).mode.phase = p)
    (h : (f.andOr?.map k).map (State.inList · σ) = some s') :
    f.mode.phase.isComplete = true ∧ s'.phase = p := by
  obtain ⟨g, hg, rfl⟩ := Option.map_eq_some_iff.mp h
  obtain ⟨n, hn, rfl⟩ := Option.map_eq_some_iff.mp hg
  exact ⟨isComplete_of_andOr? hn, hk n⟩

/-- A list of statements is finished, and another one follows it. -/
theorem phase_switch {k : List Node → Owner}
    (h : (f.statements?.map fun ns => Frame.begin (k ns) []).map (State.inList · σ) = some s') :
    f.mode.phase.ends = true ∧ s'.phase = .start := by
  obtain ⟨g, hg, rfl⟩ := Option.map_eq_some_iff.mp h
  obtain ⟨ns, hns, rfl⟩ := Option.map_eq_some_iff.mp hg
  exact ⟨ends_of_statements? hns, rfl⟩

/-- A list of statements is finished, and the list around it goes on. -/
theorem phase_leave {k : List Node → Node}
    (h : (f.statements?.bind fun ns => pop σ (k ns)) = some s') :
    f.mode.phase.ends = true ∧ s'.phase = .compound .none := by
  obtain ⟨ns, hns, h⟩ := Option.bind_eq_some_iff.mp h
  exact ⟨ends_of_statements? hns, phase_pop h⟩

/-- A closing parenthesis leads from phase to phase. -/
theorem phase_closeParen {text : List Char} (h : stepList f σ ⟨.sign .closeParen, text⟩ = some s') :
    f.mode.phase.next (.sign .closeParen) = some s'.phase := by
  simp only [stepList] at h
  split at h
  · rename_i hm
    cases h
    rw [hm]
    rfl
  · rename_i hm
    split at h
    · cases h
      rw [hm]
      rfl
    · cases h
  · split at h
    · obtain ⟨ends, hp⟩ := phase_leave h
      rw [hp, (next_of_ends ends).1]
    · cases h

/-- An opening parenthesis leads from phase to phase. -/
theorem phase_openParen {text : List Char} (h : stepList f σ ⟨.sign .openParen, text⟩ = some s') :
    f.mode.phase.next (.sign .openParen) = some s'.phase := by
  simp only [stepList] at h
  split at h
  · rename_i hm
    cases h
    rw [hm]
    rfl
  · rename_i hm
    obtain ⟨-, hp⟩ := phase_push h
    rw [hm, hp]
    rfl
  · -- Only a mode that opens a construct pushes, and its phase takes the parenthesis.
    rename_i hname hhead
    obtain ⟨opens, hp⟩ := phase_push h
    rw [hp]
    revert opens
    cases hm : f.mode with
    | functionName name => exact absurd hm (hname name)
    | functionHead name => exact absurd hm (hhead name)
    | simple items marks => intro opens; cases opens
    | compound function body rs marks => intro opens; cases opens
    | functionKeyword => intro opens; cases opens
    | functionParen name => intro opens; cases opens
    | _ => intro _; rfl

/-- A reserved word leads from phase to phase. -/
theorem phase_reserved {r : Reserved} {text : List Char}
    (h : stepList f σ ⟨.reserved r, text⟩ = some s') :
    f.mode.phase.next (.reserved r) = some s'.phase := by
  -- A word opens a list, turns to the next one of its construct, or closes the construct.
  cases r with
  | ifWord | whileWord | untilWord | openBrace =>
    obtain ⟨opens, hp⟩ := phase_push h
    rw [hp, Phase.next, opens]
    rfl
  | forWord | caseWord =>
    obtain ⟨function, hf, rfl⟩ := Option.map_eq_some_iff.mp h
    rw [Phase.next, opens_of_opens? hf]
    rfl
  | bang =>
    simp only [stepList] at h
    split at h
    · rename_i fresh
      cases h
      rw [Phase.next, isFresh_phase, fresh]
      rfl
    · cases h
  | thenWord | elifWord | elseWord | doWord =>
    simp only [stepList] at h
    split at h
    · obtain ⟨ends, hp⟩ := phase_switch h
      simp only [hp, next_of_ends ends]
    · cases h
  | closeBrace | doneWord =>
    simp only [stepList] at h
    split at h
    · obtain ⟨ends, hp⟩ := phase_leave h
      simp only [hp, next_of_ends ends]
    · cases h
  | fiWord =>
    obtain ⟨n, hn, h⟩ := Option.bind_eq_some_iff.mp h
    obtain ⟨ns, hns, -⟩ := Option.bind_eq_some_iff.mp hn
    rw [phase_pop h, (next_of_ends (ends_of_statements? hns)).2.2.2.1]
  | esacWord =>
    obtain ⟨c, hc, h⟩ := Option.bind_eq_some_iff.mp h
    obtain ⟨ns, hns, -⟩ := Option.bind_eq_some_iff.mp hc
    rw [phase_pop h, (next_of_ends (ends_of_statements? hns)).2.2.2.2.2.1]
  | functionWord =>
    obtain ⟨g, hg, rfl⟩ := Option.map_eq_some_iff.mp h
    obtain ⟨m, hm, rfl⟩ := Option.map_eq_some_iff.mp hg
    exact phase_stepCommand hm
  | inWord => simp [stepList, stepCommand] at h

/-- A sign leads from phase to phase. -/
theorem phase_sign {sign : Sign} {text : List Char}
    (h : stepList f σ ⟨.sign sign, text⟩ = some s') :
    f.mode.phase.next (.sign sign) = some s'.phase := by
  cases sign with
  | semicolon | ampersand =>
    simp only [stepList] at h
    obtain ⟨complete, hp⟩ := phase_finish (p := .start) (fun _ => rfl) h
    simp only [hp, next_of_isComplete complete]
  | andIf | orIf =>
    simp only [stepList] at h
    obtain ⟨complete, hp⟩ := phase_finish (p := .ahead) (fun _ => rfl) h
    simp only [hp, next_of_isComplete complete]
  | bar =>
    obtain ⟨g, hg, rfl⟩ := Option.map_eq_some_iff.mp h
    obtain ⟨n, hn, rfl⟩ := Option.map_eq_some_iff.mp hg
    exact (next_of_isComplete (isComplete_of_node? hn)).2.2.2.2.2
  | doubleSemicolon =>
    obtain ⟨c, hc, rfl⟩ := Option.map_eq_some_iff.mp h
    obtain ⟨ns, hns, -⟩ := Option.bind_eq_some_iff.mp hc
    exact (next_of_ends (ends_of_statements? hns)).2.1
  | openParen => exact phase_openParen h
  | closeParen => exact phase_closeParen h

/-- In a list of statements the reader keeps to the phases. -/
theorem phase_stepList (h : stepList f σ l = some s') :
    f.mode.phase.next l.terminal = some s'.phase := by
  obtain ⟨t, text⟩ := l
  cases t with
  | newline =>
    obtain ⟨g, hg, rfl⟩ := Option.map_eq_some_iff.mp h
    exact phase_stepNewline hg
  | sign sign => exact phase_sign h
  | reserved r => exact phase_reserved h
  | name => simp [stepList, stepCommand] at h
  | _ =>
    obtain ⟨g, hg, rfl⟩ := Option.map_eq_some_iff.mp h
    obtain ⟨m, hm, rfl⟩ := Option.map_eq_some_iff.mp hg
    exact phase_stepCommand hm

/-- At the start of a loop or a choice the reader keeps to the phases. -/
theorem phase_stepHeading {h : Heading} (hs : stepHeading σ h l = some s') :
    h.phase.next l.terminal = some s'.phase := by
  obtain ⟨t, text⟩ := l
  unfold stepHeading at hs
  split at hs
  -- The arms that go on are alike; this one ends the construct, and the last one takes nothing.
  case h_16 =>
    rename_i ht
    cases ht
    rw [phase_pop hs]
    rfl
  case h_21 => cases hs
  all_goals
    rename_i ht
    cases ht
    cases hs
    rfl

/-- The reader keeps to the phases. -/
theorem next_phase (h : next s l = some s') : s.phase.next l.terminal = some s'.phase := by
  obtain ⟨top, σ⟩ := s
  cases top with
  | list f => exact phase_stepList h
  | heading k => exact phase_stepHeading h

/-- Where a script may end, its phase allows it. -/
theorem ends_of_script? (h : s.script? = some n) : s.phase.ends = true := by
  obtain ⟨top, σ⟩ := s
  cases top with
  | heading k => cases h
  | list f =>
    cases σ with
    | cons g σ => cases h
    | nil =>
      simp only [State.script?] at h
      split at h
      · obtain ⟨ns, hns, -⟩ := Option.map_eq_some_iff.mp h
        exact ends_of_statements? hns
      · cases h

end

end ShellInliner.Parse
