import ShellInliner.Proofs.Parse.Reader

/-! # The reader follows every reading

    Whatever symbols read, the reader takes the same lexemes and builds the same
    pieces.  For each symbol `Followed` says from which states it is read, and
    where the reader is afterwards; a reading of a whole script ends with its
    tree.  Since the reader is a function, all readings of the same lexemes give
    the same tree. -/

namespace ShellInliner.Parse

open Grammar

/-! ### What the reader does for each symbol -/

/-- The list is at the start of a statement. -/
structure Frame.Ready (f : Frame) : Prop where
  /-- A statement may start. -/
  mode_eq : f.mode = .start ∨ f.mode = .opening
  /-- There is no connective before. -/
  left_eq : f.left = none
  /-- There is no negation before. -/
  bang_eq : f.bang = false
  /-- There is no bar before. -/
  pipe_eq : f.pipe = []

/-- Only line ends. -/
def Blank (w : List Lexeme) : Prop :=
  ∀ l ∈ w, l.terminal = .newline

/-- The items are added to a simple command, or to the redirections of a
    compound one. -/
structure FollowsRedirects (w : List Lexeme) (ns : List Node) : Prop where
  /-- They are redirections. -/
  kind_eq : ∀ n ∈ ns, n.kind = .redirect
  /-- In a simple command they join its items. -/
  simple : ∀ f σ items, f.mode.items? = some items → ns ≠ [] →
    run (.inList f σ) w = some (.inList { f with mode := .simple (items ++ ns.map .node) .none } σ)
  /-- After a compound command they join its redirections. -/
  compound : ∀ f σ function body rs, f.mode = .compound function body rs .none →
    run (.inList f σ) w = some (.inList { f with mode := .compound function body (rs ++ ns) .none } σ)

/-- Items before the name of a command are added. -/
def FollowsLeading (w : List Lexeme) (ps : List Piece) : Prop :=
  ps ≠ [] ∧ ps.any Piece.isWord = false ∧ ∀ f σ items, f.mode.items? = some items →
    items.any Piece.isWord = false →
    run (.inList f σ) w = some (.inList { f with mode := .simple (items ++ ps) .none } σ)

/-- Items after the name of a command are added. -/
def FollowsSuffix (w : List Lexeme) (ps : List Piece) : Prop :=
  ∀ f σ items, f.mode = .simple items .none → items.any Piece.isWord = true →
    run (.inList f σ) w = some (.inList { f with mode := .simple (items ++ ps) .none } σ)

/-- A command is read. -/
def FollowsCommand (w : List Lexeme) (n : Node) : Prop :=
  ∀ f σ, f.mode.isFresh = true →
    ∃ m, run (.inList f σ) w = some (.inList { f with mode := m } σ) ∧ m.node? = some n

/-- A compound command is read up to its end, perhaps as the body of a
    function. -/
def FollowsBody (w : List Lexeme) (n : Node) : Prop :=
  n.loc = none ∧ ∀ f σ function, f.mode.opens? = some function →
    run (.inList f σ) w = some (.inList { f with mode := .compound function n [] .none } σ)

/-- The commands after the first bar of a pipeline are read. -/
def FollowsPipes (w : List Lexeme) (ns : List Node) : Prop :=
  ns ≠ [] ∧ ∀ f σ n, f.mode.node? = some n →
    ∃ m pipe n', run (.inList f σ) w = some (.inList { f with mode := m, pipe } σ) ∧
      m.node? = some n' ∧ n' :: pipe = ns.reverse ++ n :: f.pipe

/-- Commands joined by bars are read. -/
def FollowsSequence (w : List Lexeme) (n : Node) : Prop :=
  ∀ f σ, f.mode.isFresh = true → f.pipe = [] →
    ∃ f', run (.inList f σ) w = some (.inList f' σ) ∧ f'.sequence? = some n ∧
      f'.owner = f.owner ∧ f'.done = f.done ∧ f'.left = f.left ∧ f'.bang = f.bang

/-- A pipeline is read. -/
def FollowsPipeline (w : List Lexeme) (n : Node) : Prop :=
  ∀ f σ, f.mode.isFresh = true → f.pipe = [] → f.bang = false →
    ∃ f', run (.inList f σ) w = some (.inList f' σ) ∧ f'.pipeline? = some n ∧
      f'.owner = f.owner ∧ f'.done = f.done ∧ f'.left = f.left

/-- A statement is read. -/
def FollowsAndOr (w : List Lexeme) (n : Node) : Prop :=
  ∀ f σ, f.Ready →
    ∃ f', run (.inList f σ) w = some (.inList f' σ) ∧ f'.andOr? = some n ∧
      f'.owner = f.owner ∧ f'.done = f.done

/-- What separates statements is read: the statement before it is finished. -/
def FollowsSeparator (w : List Lexeme) (ps : List Piece) : Prop :=
  ∀ f σ n, f.andOr? = some n →
    run (.inList f σ) w =
      some (.inList (.begin f.owner (ps.foldl pushStatement (n :: f.done))) σ)

/-- The statements after the first are read. -/
def FollowsTail (w : List Lexeme) (ps : List Piece) : Prop :=
  ∀ f σ n, f.andOr? = some n →
    ∃ f' n', run (.inList f σ) w = some (.inList f' σ) ∧ f'.andOr? = some n' ∧
      f'.owner = f.owner ∧ n' :: f'.done = ps.foldl pushStatement (n :: f.done)

/-- Statements are read. -/
def FollowsTerm (w : List Lexeme) (ps : List Piece) : Prop :=
  ∀ f σ, f.Ready →
    ∃ f', run (.inList f σ) w = some (.inList f' σ) ∧ f'.owner = f.owner ∧
      f'.mode ≠ .opening ∧ f'.statements? = some (ps.foldl pushStatement f.done)

/-- A list of statements is read. -/
def FollowsList (w : List Lexeme) (n : Node) : Prop :=
  ∃ ns, n = listNode ns ∧ ∀ f σ, f.Ready → f.done = [] →
    ∃ f', run (.inList f σ) w = some (.inList f' σ) ∧ f'.owner = f.owner ∧
      f'.mode ≠ .opening ∧ f'.statements? = some ns

/-- The body of a loop is read between its reserved words. -/
def FollowsGroup (w : List Lexeme) (n : Node) : Prop :=
  ∃ t₁ w' t₂, w = ⟨.reserved .doWord, t₁⟩ :: (w' ++ [⟨.reserved .doneWord, t₂⟩]) ∧ FollowsList w' n

/-- A continuation of a conditional is read. -/
def FollowsElse (w : List Lexeme) (n : Node) : Prop :=
  ∀ f σ tried c ns, f.owner = .positive tried c → f.statements? = some ns →
    ∃ f', run (.inList f σ) w = some (.inList f' σ) ∧
      f'.conditional? = some (ifNode tried c (listNode ns) [n])

/-- The words of a loop may be missing. -/
def FollowsNoWords (w : List Lexeme) : Prop :=
  ∀ σ name, ∃ h, (h = .forIn name ∨ h = .forDo name []) ∧
    run ⟨.heading (.forIn name), σ⟩ w = some ⟨.heading h, σ⟩

/-- What the reader does for each symbol. -/
def Followed : Meaning := fun s w ps =>
  match s with
  | .newlines => ps = [] ∧ w ≠ [] ∧ Blank w
  | .redirect => ∃ n, ps = [.node n] ∧ FollowsRedirects w [n]
  | .redirects => ∃ ns : List Node, ns ≠ [] ∧ ps = ns.map .node ∧ FollowsRedirects w ns
  | .leadingItem | .leadingItems => FollowsLeading w ps
  | .suffixItem | .suffixItems => FollowsSuffix w ps
  | .simpleCommand | .compoundCommand | .functionDefinition | .command =>
    ∃ n, ps = [.node n] ∧ FollowsCommand w n
  | .braceGroup | .subshell | .forClause | .caseClause | .ifClause | .whileClause | .untilClause
  | .compoundBody => ∃ n, ps = [.node n] ∧ FollowsBody w n
  | .pipeTail => ∃ ns : List Node, ps = ns.map .node ∧ FollowsPipes w ns
  | .pipeSequence => ∃ n, ps = [.node n] ∧ FollowsSequence w n
  | .pipeline => ∃ n, ps = [.node n] ∧ FollowsPipeline w n
  | .andOr => ∃ n, ps = [.node n] ∧ FollowsAndOr w n
  | .separator => FollowsSeparator w ps
  | .termTail => FollowsTail w ps
  | .term => FollowsTerm w ps
  | .compoundList => ∃ n, ps = [.node n] ∧ FollowsList w n
  | .doGroup => ∃ n, ps = [.node n] ∧ FollowsGroup w n
  | .elsePart | .elifPart | .elseBranch => ∃ n, ps = [.node n] ∧ FollowsElse w n
  | .wordRun => ∃ ns : List Node, ps = ns.map .node ∧ ∀ σ name ws,
      run ⟨.heading (.forWords name ws), σ⟩ w = some ⟨.heading (.forWords name (ws ++ ns)), σ⟩
  | .forIn => ∃ ns, ps = [.words ns] ∧ ∀ σ name,
      run ⟨.heading (.forIn name), σ⟩ w = some ⟨.heading (.forWords name ns), σ⟩
  | .sequentialSeparator => ps = [] ∧ FollowsNoWords w ∧ ∀ σ name ws,
      run ⟨.heading (.forWords name ws), σ⟩ w = some ⟨.heading (.forDo name ws), σ⟩
  | .forWords => (∃ ns, ps = [.words ns] ∧ ∀ σ name,
      run ⟨.heading (.forIn name), σ⟩ w = some ⟨.heading (.forDo name ns), σ⟩) ∨
        (ps = [] ∧ FollowsNoWords w)
  | .patternTail => ∃ ns : List Node, ps = ns.map .node ∧ ∀ σ subject items ws,
      run ⟨.heading (.patterns subject items ws .after), σ⟩ w =
        some ⟨.heading (.patterns subject items (ws ++ ns) .after), σ⟩
  | .pattern => ∃ ns, ps = [.words ns] ∧ ∀ σ subject items stage, stage ≠ .after →
      run ⟨.heading (.patterns subject items [] stage), σ⟩ w =
        some ⟨.heading (.patterns subject items ns .after), σ⟩
  | .caseItem => ∃ n, ps = [.node n] ∧ ∀ σ subject items,
      ∃ f, run ⟨.heading (.patterns subject items [] .first), σ⟩ w = some (.inList f σ) ∧
        f.choice? = some (subject, n :: items)
  | .caseTail => ∃ ns : List Node, ps = ns.map .node ∧ ∀ f σ subject items,
      f.choice? = some (subject, items) →
      ∃ f', run (.inList f σ) w = some (.inList f' σ) ∧
        f'.choice? = some (subject, ns.reverse ++ items)
  | .script => ∃ s n, ps = [.node n] ∧ run .initial w = some s ∧ s.script? = some n

-- In this module `simp` opens the steps of the reader and what symbols make.
attribute [local simp] stepHeading stepCommand stepList symbolPieces

/-! ### Line ends -/

section

variable {w : List Lexeme} {ps qs : List Piece} {f : Frame} {σ : List Frame} {n : Node}

theorem Frame.ready_begin (owner : Owner) (done : List Node) : (Frame.begin owner done).Ready :=
  ⟨.inl rfl, rfl, rfl, rfl⟩

theorem isFresh_of_ready (h : f.Ready) : f.mode.isFresh = true := by
  rcases h.mode_eq with h | h <;> rw [h] <;> rfl

theorem andOr?_eq_none (h : f.mode.node? = none) : f.andOr? = none := by
  simp [Frame.andOr?, Frame.pipeline?, Frame.sequence?, h]

/-- A list whose statement may end here may end here itself. -/
theorem statements?_of_andOr? (h : f.andOr? = some n) : f.statements? = some (n :: f.done) := by
  unfold Frame.statements?
  split
  · rename_i hm
    rw [andOr?_eq_none (by rw [hm]; rfl)] at h
    cases h
  · rw [h]
    rfl

theorem mode_ne_opening (h : f.andOr? = some n) : f.mode ≠ .opening := by
  intro hm
  rw [andOr?_eq_none (by rw [hm]; rfl)] at h
  cases h

/-- A line end finishes a statement. -/
theorem stepNewline_of_andOr? (h : f.andOr? = some n) :
    stepNewline f = some (.begin f.owner (n :: f.done)) := by
  unfold stepNewline
  split
  case h_6 => rw [h]; rfl
  all_goals
    rename_i hm
    rw [andOr?_eq_none (by rw [hm]; rfl)] at h
    cases h

theorem run_blank (h : Blank w) (hf : stepNewline f = some f) :
    run (.inList f σ) w = some (.inList f σ) := by
  induction w with
  | nil => rfl
  | cons l w ih =>
    have hl : l.terminal = .newline := h l (List.mem_cons_self ..)
    have step : next (.inList f σ) l = some (.inList f σ) := by
      simp [next, State.inList, stepList, hl, hf]
    rw [run, step]
    exact ih fun l hl => h l (List.mem_cons_of_mem _ hl)

theorem run_blank_heading {h : Heading} (hw : Blank w)
    (hh : ∀ l, l.terminal = .newline → stepHeading σ h l = some ⟨.heading h, σ⟩) :
    run ⟨.heading h, σ⟩ w = some ⟨.heading h, σ⟩ := by
  induction w with
  | nil => rfl
  | cons l w ih =>
    have step : next ⟨.heading h, σ⟩ l = some ⟨.heading h, σ⟩ := hh l (hw l (List.mem_cons_self ..))
    rw [run, step]
    exact ih fun l hl => hw l (List.mem_cons_of_mem _ hl)

theorem followed_linebreak (h : elementReads Followed .linebreak w ps) : ps = [] ∧ Blank w := by
  rcases h with h | ⟨rfl, rfl⟩
  · obtain ⟨rfl, -, hw⟩ := h
    exact ⟨rfl, hw⟩
  · exact ⟨rfl, fun l hl => by cases hl⟩

theorem followed_newlines (h : anyReads Followed Symbol.newlines.alternatives w ps)
    (made : symbolPieces .newlines none ps = .ok qs) : Followed .newlines w qs := by
  have empty (text : List Char) : Lexeme.pieces ⟨.newline, text⟩ = [] := rfl
  rcases h with ⟨t, rfl, rfl⟩ | ⟨w₁, _, ps₁, _, rfl, rfl, ⟨rfl, hne, hw⟩, t, rfl, rfl⟩
  · cases made
    refine ⟨rfl, by simp, fun l hl => ?_⟩
    rw [List.mem_singleton.mp hl]
  · cases made
    refine ⟨rfl, by simp, fun l hl => ?_⟩
    rcases List.mem_append.mp hl with hl | hl
    · exact hw l hl
    · rw [List.mem_singleton.mp hl]

/-! ### Items of commands -/

theorem run_cons {s s₁ s₂ : State} {l : Lexeme} (first : next s l = some s₁)
    (others : run s₁ w = some s₂) : run s (l :: w) = some s₂ := by
  rw [run, first]
  exact others

theorem run_trans {s s₁ s₂ : State} {w₁ w₂ : List Lexeme} (first : run s w₁ = some s₁)
    (others : run s₁ w₂ = some s₂) : run s (w₁ ++ w₂) = some s₂ := by
  rw [run_append, first]
  exact others

/-- Is the terminal taken by the current command? -/
def isCommandTerminal : Terminal → Bool
  | .ioNumber | .redirectOperator | .word | .commandWord | .assignmentWord | .functionName
  | .reserved .functionWord => true
  | _ => false

/-- A part of a command changes the current command only. -/
theorem next_command {l : Lexeme} (h : isCommandTerminal l.terminal = true) :
    next (.inList f σ) l = (stepCommand f.mode l).map fun mode => .inList { f with mode } σ := by
  obtain ⟨t, text⟩ := l
  have (o : Option Mode) : (o.map fun mode => { f with mode }).map (State.inList · σ) =
      o.map fun mode => .inList { f with mode } σ := by
    cases o <;> rfl
  cases t with
  | reserved r => cases r <;> first | exact this _ | cases h
  | sign s => cases h
  | newline => cases h
  | name => cases h
  | _ => exact this _

theorem run_command {l : Lexeme} {m : Mode} (h : isCommandTerminal l.terminal = true)
    (hm : stepCommand f.mode l = some m) :
    run (.inList f σ) (l :: w) = run (.inList { f with mode := m } σ) w := by
  rw [run, next_command h, hm]
  rfl

theorem stepCommand_ioNumber {m : Mode} {items : List Piece} {d : List Char}
    (h : m.items? = some items) : stepCommand m ⟨.ioNumber, d⟩ = some (.simple items (.number d)) := by
  cases m with
  | compound function body rs marks => cases h
  | _ => simp [stepCommand, h]

theorem stepCommand_operator {m : Mode} {items : List Piece} {o : List Char}
    (h : m.items? = some items) :
    stepCommand m ⟨.redirectOperator, o⟩ = some (.simple items (.operator none o)) := by
  cases m with
  | compound function body rs marks => cases h
  | simple items' marks =>
    cases marks with
    | none => simp [stepCommand, h]
    | number d => cases h
    | operator n o => cases h
  | _ => simp [stepCommand, h]

/-- A redirection that is made is one to the file, and its file descriptor is not too long. -/
theorem redirectNode?_eq_some {number : Option (List Char)} {op : List Char} {file r : Node}
    (h : redirectNode? number op file = some r) :
    (∀ ds ∈ number, ds.length ≤ digitLimit) ∧
      r = assemble (.redirect (String.ofList op) ((number.map Text.digitsValue).map Int.ofNat)) none
        [(.file, [file])] := by
  cases number with
  | none =>
    cases h
    exact ⟨nofun, rfl⟩
  | some ds =>
    simp only [redirectNode?] at h
    split at h
    · cases h
    · rename_i few
      cases h
      exact ⟨by simpa using few, rfl⟩

theorem kind_redirectNode? {number : Option (List Char)} {op : List Char} {file r : Node}
    (h : redirectNode? number op file = some r) : r.kind = .redirect := by
  rw [(redirectNode?_eq_some h).2]
  rfl

/-- A redirection is read with a file descriptor or without one. -/
theorem exists_redirect_parts {P : Meaning} (h : anyReads P Symbol.redirect.alternatives w ps)
    (made : symbolPieces .redirect none ps = .ok qs) :
    ∃ (digits : Option (List Char)) (op file : List Char) (r : Node),
      w = (digits.map fun ds => ⟨.ioNumber, ds⟩).toList ++ [⟨.redirectOperator, op⟩, ⟨.word, file⟩] ∧
      redirectNode? digits op (wordNode .word none file) = some r ∧ qs = [.node r] := by
  obtain ⟨_, _, _, _, rfl, rfl, ⟨d, rfl, rfl⟩ | ⟨rfl, rfl⟩, op, _, _, rfl, rfl, file, rfl, rfl⟩ := h
  · -- Pieces are made of the descriptor only within the limit.
    have made : (if digitLimit < d.length then Except.error Error.numberTooLong
      else .ok [.node (assemble (.redirect (String.ofList op) (some (Text.digitsValue d))) none
        [(.file, [wordNode .word none file])])]) = Except.ok qs := made
    split at made
    · cases made
    · rename_i few
      cases made
      exact ⟨some d, op, file, _, rfl, if_neg few, rfl⟩
  · cases made
    exact ⟨none, op, file, _, rfl, rfl, rfl⟩

theorem followed_redirect (h : anyReads Followed Symbol.redirect.alternatives w ps)
    (made : symbolPieces .redirect none ps = .ok qs) : Followed .redirect w qs := by
  obtain ⟨digits, op, file, r, rfl, redirection, rfl⟩ := exists_redirect_parts h made
  have read : redirectNode? digits op (Lexeme.word ⟨.word, file⟩) = some r := redirection
  refine ⟨_, rfl, ⟨fun n hn => ?_, fun f σ items hf _ => ?_, fun f σ function body rs hf => ?_⟩⟩
  · rw [List.mem_singleton.mp hn]
    exact kind_redirectNode? read
  -- With or without a file descriptor, the marks wait for the word.
  · have last : stepCommand (.simple items (.operator digits op)) ⟨.word, file⟩ =
        some (.simple (items ++ [.node r]) .none) := by
      simp only [stepCommand, read, Option.map_some]
    cases digits with
    | none =>
      rw [Option.map_none, Option.toList_none, List.nil_append,
        run_command rfl (stepCommand_operator hf), run_command rfl last]
      rfl
    | some ds =>
      rw [Option.map_some, Option.toList_some, List.singleton_append,
        run_command rfl (stepCommand_ioNumber hf), run_command rfl rfl, run_command rfl last]
      rfl
  · have last : stepCommand (.compound function body rs (.operator digits op)) ⟨.word, file⟩ =
        some (.compound function body (rs ++ [r]) .none) := by
      simp only [stepCommand, read, Option.map_some]
    cases digits with
    | none =>
      rw [Option.map_none, Option.toList_none, List.nil_append, run_command rfl (by rw [hf]; rfl),
        run_command rfl last]
      rfl
    | some ds =>
      rw [Option.map_some, Option.toList_some, List.singleton_append,
        run_command rfl (by rw [hf]; rfl), run_command rfl rfl, run_command rfl last]
      rfl
theorem FollowsRedirects.append {w₁ w₂ : List Lexeme} {ns₁ ns₂ : List Node}
    (h₁ : FollowsRedirects w₁ ns₁) (h₂ : FollowsRedirects w₂ ns₂) (ne₁ : ns₁ ≠ []) (ne₂ : ns₂ ≠ []) :
    FollowsRedirects (w₁ ++ w₂) (ns₁ ++ ns₂) := by
  refine ⟨fun n hn => ?_, fun f σ items hf _ => ?_, fun f σ function body rs hf => ?_⟩
  · exact (List.mem_append.mp hn).elim (h₁.kind_eq n) (h₂.kind_eq n)
  · rw [run_append, h₁.simple f σ items hf ne₁, Option.bind_some, h₂.simple _ σ _ rfl ne₂,
      List.map_append, List.append_assoc]
  · rw [run_append, h₁.compound f σ function body rs hf, Option.bind_some,
      h₂.compound _ σ function body _ rfl, List.append_assoc]

theorem followed_redirects (h : anyReads Followed Symbol.redirects.alternatives w ps)
    (made : symbolPieces .redirects none ps = .ok qs) : Followed .redirects w qs := by
  rcases h with ⟨n, rfl, h⟩ | ⟨w₁, w₂, _, _, rfl, rfl, ⟨ns, ne, rfl, h₁⟩, n, rfl, h₂⟩
  · cases made
    exact ⟨[n], by simp, rfl, h⟩
  · cases made
    refine ⟨ns ++ [n], by simp, by simp, h₁.append h₂ ne (by simp)⟩

theorem isWord_redirect {n : Node} (h : n.kind = .redirect) : Piece.isWord (.node n) = false := by
  simp [Piece.isWord, h]

theorem followed_leadingItem (h : anyReads Followed Symbol.leadingItem.alternatives w ps)
    (made : symbolPieces .leadingItem none ps = .ok qs) : Followed .leadingItem w qs := by
  rcases h with ⟨t, rfl, rfl⟩ | ⟨n, rfl, h⟩
  · cases made
    refine ⟨by simp [Lexeme.pieces, tokenPieces], rfl, fun f σ items hf hw => ?_⟩
    have step : stepCommand f.mode ⟨.assignmentWord, t⟩ =
        some (.simple (items ++ Lexeme.pieces ⟨.assignmentWord, t⟩) .none) := by
      simp only [stepCommand, hf, Option.bind_some, hw, Bool.false_eq_true, if_false]
    rw [run_command rfl step]
    rfl
  · cases made
    refine ⟨by simp, ?_, fun f σ items hf _ => h.simple f σ items hf (by simp)⟩
    simp [isWord_redirect (h.kind_eq n (List.mem_singleton_self n))]

theorem followed_leadingItems (h : anyReads Followed Symbol.leadingItems.alternatives w ps)
    (made : symbolPieces .leadingItems none ps = .ok qs) : Followed .leadingItems w qs := by
  rcases h with h | ⟨w₁, w₂, ps₁, ps₂, rfl, rfl, ⟨ne, plain₁, h₁⟩, -, plain₂, h₂⟩
  · cases made
    exact h
  · cases made
    refine ⟨by simp [ne], by simp [plain₁, plain₂], fun f σ items hf hw => ?_⟩
    rw [run_append, h₁ f σ items hf hw, Option.bind_some, h₂ _ σ _ rfl (by simp [hw, plain₁]),
      List.append_assoc]

theorem followed_suffixItem (h : anyReads Followed Symbol.suffixItem.alternatives w ps)
    (made : symbolPieces .suffixItem none ps = .ok qs) : Followed .suffixItem w qs := by
  rcases h with ⟨t, rfl, rfl⟩ | ⟨n, rfl, h⟩
  · cases made
    intro f σ items hf hw
    have step : stepCommand f.mode ⟨.word, t⟩ =
        some (.simple (items ++ Lexeme.pieces ⟨.word, t⟩) .none) := by
      simp only [hf, stepCommand, hw, if_true]
    rw [run_command rfl step]
    rfl
  · cases made
    intro f σ items hf _
    exact h.simple f σ items (by rw [hf]; rfl) (by simp)

theorem followed_suffixItems (h : anyReads Followed Symbol.suffixItems.alternatives w ps)
    (made : symbolPieces .suffixItems none ps = .ok qs) : Followed .suffixItems w qs := by
  rcases h with h | ⟨w₁, w₂, ps₁, ps₂, rfl, rfl, h₁, h₂⟩
  · cases made
    exact h
  · cases made
    intro f σ items hf hw
    rw [run_append, h₁ f σ items hf hw, Option.bind_some, h₂ _ σ _ rfl (by simp [hw]),
      List.append_assoc]

/-! ### Simple commands -/

theorem node?_simple {items : List Piece} (h : items ≠ []) :
    (Mode.simple items .none).node? = some (simpleCommand none items) := by
  cases items with
  | nil => exact absurd rfl h
  | cons p ps => rfl

theorem items?_of_isFresh {m : Mode} (h : m.isFresh = true) : m.items? = some [] := by
  cases m <;> first | rfl | cases h

/-- The name of a command and what follows it join the items before. -/
theorem run_named (h : rowReads Followed
      [.token .commandWord, .maybe [.symbol .suffixItems]] w ps)
    {items : List Piece} (hf : f.mode.items? = some items) (hw : items.any Piece.isWord = false) :
    ps ≠ [] ∧
      run (.inList f σ) w = some (.inList { f with mode := .simple (items ++ ps) .none } σ) := by
  obtain ⟨t, w', ps', rfl, rfl, h⟩ := h
  have named : (Lexeme.pieces ⟨.commandWord, t⟩).any Piece.isWord = true := rfl
  -- No word stands among the items yet, so the first one names the command.
  have step : stepCommand f.mode ⟨.commandWord, t⟩ =
      some (.simple (items ++ Lexeme.pieces ⟨.commandWord, t⟩) .none) := by
    simp only [stepCommand, hf, Option.bind_some, hw, Bool.false_eq_true, if_false]
  refine ⟨by simp [Lexeme.pieces, tokenPieces], ?_⟩
  rw [run_command rfl step]
  rcases h with h | ⟨rfl, rfl⟩
  · rw [h _ σ _ rfl (by rw [List.any_append, named, Bool.or_true]), List.append_assoc]
  · rw [List.append_nil]
    rfl

theorem followed_simpleCommand (h : anyReads Followed Symbol.simpleCommand.alternatives w ps)
    (made : symbolPieces .simpleCommand none ps = .ok qs) : Followed .simpleCommand w qs := by
  cases made
  refine ⟨_, rfl, fun f σ hf => ?_⟩
  have start := items?_of_isFresh hf
  rcases h with ⟨w₁, w₂, ps₁, ps₂, rfl, rfl, ⟨ne, plain, h₁⟩, h₂⟩ | h
  · -- Items before the name are followed first; the name and its suffix may be missing.
    refine ⟨.simple (ps₁ ++ ps₂) .none, ?_, node?_simple (by simp [ne])⟩
    rw [run_append, h₁ f σ [] start rfl, Option.bind_some]
    rcases h₂ with h₂ | ⟨rfl, rfl⟩
    · exact (run_named h₂ rfl plain).2
    · rw [List.append_nil]
      rfl
  · obtain ⟨ne, named⟩ := run_named (σ := σ) h start rfl
    exact ⟨.simple ps .none, named, node?_simple ne⟩

/-! ### Compound commands and functions -/

theorem opens?_of_isFresh {m : Mode} (h : m.isFresh = true) : m.opens? = some none := by
  cases m <;> first | rfl | cases h

theorem followed_compoundCommand (h : anyReads Followed Symbol.compoundCommand.alternatives w ps)
    (made : symbolPieces .compoundCommand none ps = .ok qs) : Followed .compoundCommand w qs := by
  obtain ⟨w₁, w₂, _, _, rfl, rfl, ⟨n, rfl, hloc, body⟩, ⟨ns, ne, rfl, rs⟩ | ⟨rfl, rfl⟩⟩ := h
  · -- With redirections the node of the body is changed, and the reader keeps them in its mode.
    have made : qs = [.node ((n.withLast .redirections ns).withLoc none)] := by
      cases ns with
      | nil => exact absurd rfl ne
      | cons r ns =>
        have nodes : nodesOf (.node r :: ns.map .node) = r :: ns := nodesOf_map_node (r :: ns)
        simp only [List.map_cons, List.singleton_append, symbolPieces, nodes] at made
        injection made with made
        exact made.symm
    subst made
    refine ⟨_, rfl, fun f σ hf => ⟨.compound none n ns .none, ?_, by simp [Mode.node?, compoundNode, ne]⟩⟩
    rw [run_append, body f σ none (opens?_of_isFresh hf), Option.bind_some,
      rs.compound _ σ none n [] rfl, List.nil_append]
  · cases made
    refine ⟨n, rfl, fun f σ hf => ⟨.compound none n [] .none, ?_, rfl⟩⟩
    rw [List.append_nil]
    exact body f σ none (opens?_of_isFresh hf)

theorem followed_command (h : anyReads Followed Symbol.command.alternatives w ps)
    (made : symbolPieces .command none ps = .ok qs) : Followed .command w qs := by
  cases made
  rcases h with h | h | h <;> exact h

theorem followed_compoundBody (h : anyReads Followed Symbol.compoundBody.alternatives w ps)
    (made : symbolPieces .compoundBody none ps = .ok qs) : Followed .compoundBody w qs := by
  cases made
  rcases h with h | h | h | h | h | h | h <;> exact h

/-- Line ends may stand between the head of a function and its body. -/
theorem run_blank_function {name : Node} (hw : Blank w)
    (hf : f.mode = .functionHead name ∨ f.mode = .functionBody name) :
    ∃ m, run (.inList f σ) w = some (.inList { f with mode := m } σ) ∧ m.opens? = some (some name) := by
  cases w with
  | nil => exact ⟨f.mode, rfl, by rcases hf with h | h <;> rw [h] <;> rfl⟩
  | cons l w =>
    refine ⟨.functionBody name, ?_, rfl⟩
    have hl : l.terminal = .newline := hw l (List.mem_cons_self ..)
    -- The first line end leaves the head, and the others change nothing.
    have step : next (.inList f σ) l = some (.inList { f with mode := .functionBody name } σ) := by
      obtain ⟨owner, done, left, bang, pipe, mode⟩ := f
      rcases hf with h | h <;> simp only at h <;> subst h <;>
        simp [next, State.inList, stepList, hl, stepNewline]
    rw [run, step]
    exact run_blank (fun l hl => hw l (List.mem_cons_of_mem _ hl)) rfl

/-- The body of a function and its redirections. -/
theorem run_function_body (name : Node) {w₁ w₂ : List Lexeme} {ps₁ ps₂ : List Piece}
    (body : Followed .compoundBody w₁ ps₁)
    (redirects : rowReads Followed [.maybe [.symbol .redirects]] w₂ ps₂) :
    ∃ n rs, ps₁ = [.node n] ∧ ps₂ = rs.map Piece.node ∧
      ∀ f σ, f.mode.opens? = some (some name) → run (.inList f σ) (w₁ ++ w₂) =
        some (.inList { f with mode := .compound (some name) n rs .none } σ) := by
  obtain ⟨n, rfl, -, body⟩ := body
  rcases redirects with ⟨ns, -, rfl, rs⟩ | ⟨rfl, rfl⟩
  · refine ⟨n, ns, rfl, rfl, fun f σ hf => ?_⟩
    rw [run_append, body f σ _ hf, Option.bind_some, rs.compound _ σ (some name) n [] rfl,
      List.nil_append]
  · refine ⟨n, [], rfl, rfl, fun f σ hf => ?_⟩
    rw [List.append_nil, body f σ _ hf]

theorem stepCommand_functionName {m : Mode} {t : List Char} (h : m.isFresh = true) :
    stepCommand m ⟨.functionName, t⟩ = some (.functionName (Lexeme.name ⟨.functionName, t⟩)) := by
  cases m <;> simp_all [Mode.isFresh, stepCommand]

theorem stepCommand_functionWord {m : Mode} {t : List Char} (h : m.isFresh = true) :
    stepCommand m ⟨.reserved .functionWord, t⟩ = some .functionKeyword := by
  simp [stepCommand, h]

theorem made_function (name n : Node) (rs : List Node) :
    symbolPieces .functionDefinition none (.node name :: .node n :: rs.map .node) =
      .ok [.node (compoundNode (some name) n rs)] := by
  simp only [symbolPieces, nodesOf_map_node, compoundNode]

theorem followed_functionDefinition
    (h : anyReads Followed Symbol.functionDefinition.alternatives w ps)
    (made : symbolPieces .functionDefinition none ps = .ok qs) :
    Followed .functionDefinition w qs := by
  rcases h with ⟨t, _, _, rfl, rfl, t₁, _, _, rfl, rfl, t₂, _, _, rfl, rfl, w₁, _, _, _, rfl, rfl, hl,
      w₂, w₃, ps₂, ps₃, rfl, rfl, hb, hr⟩ |
    ⟨t₀, _, _, rfl, rfl, t, _, _, rfl, rfl, w₀, _, _, _, rfl, rfl, hp, w₁, _, _, _, rfl, rfl, hl,
      w₂, w₃, ps₂, ps₃, rfl, rfl, hb, hr⟩
  · obtain ⟨rfl, blank⟩ := followed_linebreak hl
    obtain ⟨n, rs, rfl, rfl, body⟩ := run_function_body (Lexeme.name ⟨.functionName, t⟩) hb hr
    cases (made_function _ n rs).symm.trans made
    refine ⟨_, rfl, fun f σ hf => ⟨.compound (some _) n rs .none, ?_, rfl⟩⟩
    obtain ⟨m, hm, opens⟩ := run_blank_function (σ := σ) (w := w₁)
      (f := { f with mode := .functionBody (Lexeme.name ⟨.functionName, t⟩) }) blank (.inr rfl)
    rw [run_command rfl (stepCommand_functionName hf)]
    exact run_cons rfl (run_cons rfl (run_trans hm (body _ σ opens)))
  · obtain ⟨rfl, blank⟩ := followed_linebreak hl
    obtain ⟨n, rs, rfl, rfl, body⟩ := run_function_body (Lexeme.name ⟨.functionName, t⟩) hb hr
    -- After the keyword the parentheses may be left out.
    rcases hp with ⟨t₁, _, _, rfl, rfl, t₂, rfl, rfl⟩ | ⟨rfl, rfl⟩
    · cases (made_function _ n rs).symm.trans made
      refine ⟨_, rfl, fun f σ hf => ⟨.compound (some _) n rs .none, ?_, rfl⟩⟩
      obtain ⟨m, hm, opens⟩ := run_blank_function (σ := σ) (w := w₁)
        (f := { f with mode := .functionBody (Lexeme.name ⟨.functionName, t⟩) }) blank (.inr rfl)
      rw [run_command rfl (stepCommand_functionWord hf), run_command rfl rfl, List.cons_append,
        List.cons_append, List.nil_append]
      exact run_cons rfl (run_cons rfl (run_trans hm (body _ σ opens)))
    · cases (made_function _ n rs).symm.trans made
      refine ⟨_, rfl, fun f σ hf => ⟨.compound (some _) n rs .none, ?_, rfl⟩⟩
      obtain ⟨m, hm, opens⟩ := run_blank_function (σ := σ) (w := w₁)
        (f := { f with mode := .functionHead (Lexeme.name ⟨.functionName, t⟩) }) blank (.inl rfl)
      rw [run_command rfl (stepCommand_functionWord hf), run_command rfl rfl, List.nil_append]
      exact run_trans hm (body _ σ opens)

/-! ### Lists between reserved words -/

theorem pop_eq {function : Option Node} (h : f.mode.opens? = some function) :
    pop (f :: σ) n = some (.inList { f with mode := .compound function n [] .none } σ) := by
  simp [pop, Frame.close, h]

theorem push_eq {function : Option Node} (h : f.mode.opens? = some function) (owner : Owner) :
    push f σ owner .start = some (.inList (.begin owner []) (f :: σ)) := by
  simp only [push, h, Option.map_some]
  rfl

theorem followed_braceGroup (h : anyReads Followed Symbol.braceGroup.alternatives w ps)
    (made : symbolPieces .braceGroup none ps = .ok qs) : Followed .braceGroup w qs := by
  obtain ⟨t₁, _, _, rfl, rfl, w', _, _, _, rfl, rfl, ⟨_, rfl, ns, rfl, list⟩, t₂, rfl, rfl⟩ := h
  cases made
  refine ⟨_, rfl, rfl, fun f σ function hf => ?_⟩
  obtain ⟨g, hg, howner, -, hstatements⟩ := list (.begin .brace []) (f :: σ) (Frame.ready_begin ..) rfl
  refine run_cons (push_eq hf .brace) (run_trans hg (run_cons ?_ rfl))
  simp only [next, State.inList, stepList, howner, Frame.begin, hstatements, Option.bind_some]
  exact pop_eq hf

theorem followed_subshell (h : anyReads Followed Symbol.subshell.alternatives w ps)
    (made : symbolPieces .subshell none ps = .ok qs) : Followed .subshell w qs := by
  obtain ⟨t₁, _, _, rfl, rfl, w', _, _, _, rfl, rfl, ⟨_, rfl, ns, rfl, list⟩, t₂, rfl, rfl⟩ := h
  cases made
  refine ⟨_, rfl, rfl, fun f σ function hf => ?_⟩
  -- The parenthesis after the name of a function could still be closed at once.
  obtain ⟨g₀, hg₀, ready, hdone, howner₀⟩ : ∃ g, next (.inList f σ) ⟨.sign .openParen, t₁⟩ =
      some (.inList g (f :: σ)) ∧ g.Ready ∧ g.done = [] ∧ g.owner = .paren := by
    obtain ⟨owner, done, left, bang, pipe, mode⟩ := f
    cases mode with
    | functionHead name =>
      exact ⟨{ Frame.begin .paren [] with mode := .opening }, rfl, ⟨.inr rfl, rfl, rfl, rfl⟩, rfl, rfl⟩
    | start | opening | ahead | functionBody name =>
      exact ⟨.begin .paren [], push_eq hf .paren, Frame.ready_begin .., rfl, rfl⟩
    | _ => cases hf
  obtain ⟨g, hg, howner, hmode, hstatements⟩ := list g₀ (f :: σ) ready hdone
  refine run_cons hg₀ (run_trans hg (run_cons ?_ rfl))
  -- With statements in it the list is not the parentheses of a name.
  have closes : stepList g (f :: σ) ⟨.sign .closeParen, t₂⟩ =
      g.statements?.bind fun ns =>
        pop (f :: σ) (assemble (.subshell false) none [(.list, [listNode ns])]) := by
    simp only [stepList]
    split
    · rename_i hm
      simp [Frame.statements?, hm, Frame.andOr?, Frame.pipeline?, Frame.sequence?, Mode.node?] at hstatements
    · exact absurd ‹_› hmode
    · rw [howner, howner₀]
  simp only [next, State.inList, closes, hstatements, Option.bind_some]
  exact pop_eq hf

theorem made_conditional (c b : Node) (e : List Node) :
    conditional none (.node c :: .node b :: e.map .node) = lastIf c b e := by
  have nodes : nodesOf (.node c :: .node b :: e.map .node) = c :: b :: e := nodesOf_map_node (c :: b :: e)
  simp only [conditional, nodes, lastIf]
  rfl

/-- From a condition on, a conditional is read up to its last branch. -/
theorem run_condition {w₁ w₂ w₃ : List Lexeme} {t : List Char} {c b : Node} {ps₃ : List Piece}
    (hc : FollowsList w₁ c) (hb : FollowsList w₂ b)
    (he : elementReads Followed (.maybe [.symbol .elseBranch]) w₃ ps₃) :
    ∃ e : List Node, ps₃ = e.map .node ∧ ∀ tried σ, ∃ f,
      run (.inList (.begin (.clause tried) []) σ) (w₁ ++ ⟨.reserved .thenWord, t⟩ :: (w₂ ++ w₃)) =
        some (.inList f σ) ∧ f.conditional? = some (ifNode tried c b e) := by
  obtain ⟨nc, rfl, clause⟩ := hc
  obtain ⟨nb, rfl, positive⟩ := hb
  -- The reader is at the end of the first branch.
  have upTo (tried : List (Node × Node)) (σ : List Frame) : ∃ f,
      run (.inList (.begin (.clause tried) []) σ) (w₁ ++ ⟨.reserved .thenWord, t⟩ :: w₂) =
        some (.inList f σ) ∧ f.owner = .positive tried (listNode nc) ∧ f.statements? = some nb := by
    obtain ⟨f₁, h₁, o₁, -, s₁⟩ := clause (.begin (.clause tried) []) σ (Frame.ready_begin ..) rfl
    obtain ⟨f₂, h₂, o₂, -, s₂⟩ := positive (.begin (.positive tried (listNode nc)) []) σ
      (Frame.ready_begin ..) rfl
    refine ⟨f₂, run_trans h₁ (run_cons ?_ h₂), o₂, s₂⟩
    simp only [next, State.inList, stepList, o₁, Frame.begin, s₁, Option.map_some]
  rcases he with ⟨e, rfl, otherwise⟩ | ⟨rfl, rfl⟩
  · refine ⟨[e], rfl, fun tried σ => ?_⟩
    obtain ⟨f, hf, howner, hstatements⟩ := upTo tried σ
    obtain ⟨f', hf', hclosed⟩ := otherwise f σ tried _ _ howner hstatements
    refine ⟨f', ?_, hclosed⟩
    have := run_trans hf hf'
    rwa [List.append_assoc] at this
  · refine ⟨[], rfl, fun tried σ => ?_⟩
    obtain ⟨f, hf, howner, hstatements⟩ := upTo tried σ
    exact ⟨f, by rwa [List.append_nil], by simp [Frame.conditional?, hstatements, howner]⟩

theorem followed_ifClause (h : anyReads Followed Symbol.ifClause.alternatives w ps)
    (made : symbolPieces .ifClause none ps = .ok qs) : Followed .ifClause w qs := by
  obtain ⟨t₁, _, _, rfl, rfl, w₁, _, _, _, rfl, rfl, ⟨c, rfl, hc⟩, t₂, _, _, rfl, rfl, w₂, _, _, _, rfl,
    rfl, ⟨b, rfl, hb⟩, w₃, _, ps₃, _, rfl, rfl, he, t₃, rfl, rfl⟩ := h
  obtain ⟨e, rfl, closed⟩ := run_condition (t := t₂) hc hb he
  have made : Except.ok [.node (conditional none (.node c :: .node b :: (e.map .node ++ [])))] =
      Except.ok qs := made
  rw [List.append_nil, made_conditional] at made
  cases made
  refine ⟨_, rfl, rfl, fun f σ function hf => ?_⟩
  obtain ⟨g, hg, hcond⟩ := closed [] (f :: σ)
  refine run_cons (push_eq hf (.clause [])) ?_
  -- `fi` takes the frame of the condition off and leaves the whole conditional in its mode.
  have ends : next (.inList g (f :: σ)) ⟨.reserved .fiWord, t₃⟩ =
      some (.inList { f with mode := .compound function (ifNode [] c b e) [] .none } σ) := by
    simp only [next, State.inList, stepList, hcond, Option.bind_some]
    exact pop_eq hf
  have := run_trans hg (run_cons (w := []) ends rfl)
  simp only [List.append_assoc, List.cons_append] at this
  exact this

theorem followed_elsePart (h : anyReads Followed Symbol.elsePart.alternatives w ps)
    (made : symbolPieces .elsePart none ps = .ok qs) : Followed .elsePart w qs := by
  obtain ⟨t, w', _, rfl, rfl, _, rfl, ne, rfl, list⟩ := h
  cases made
  refine ⟨_, rfl, fun f σ tried c ns howner hstatements => ?_⟩
  obtain ⟨g, hg, howner', -, hstatements'⟩ := list (.begin (.negative tried c (listNode ns)) []) σ
    (Frame.ready_begin ..) rfl
  refine ⟨g, run_cons ?_ hg, by simp [Frame.conditional?, hstatements', howner', Frame.begin]⟩
  simp only [next, State.inList, stepList, howner, hstatements, Option.map_some]

theorem followed_elifPart (h : anyReads Followed Symbol.elifPart.alternatives w ps)
    (made : symbolPieces .elifPart none ps = .ok qs) : Followed .elifPart w qs := by
  obtain ⟨t₁, _, _, rfl, rfl, w₁, _, _, _, rfl, rfl, ⟨c', rfl, hc⟩, t₂, _, _, rfl, rfl, w₂, w₃, _, ps₃,
    rfl, rfl, ⟨b', rfl, hb⟩, he⟩ := h
  obtain ⟨e, rfl, closed⟩ := run_condition (t := t₂) hc hb he
  have made : Except.ok [.node (assemble (.compoundList false) none
      [(.commands, [conditional none (.node c' :: .node b' :: e.map .node)])])] = Except.ok qs := made
  rw [made_conditional] at made
  cases made
  refine ⟨_, rfl, fun f σ tried c ns howner hstatements => ?_⟩
  -- The condition before it becomes one that was tried.
  obtain ⟨g, hg, hcond⟩ := closed ((c, listNode ns) :: tried) σ
  refine ⟨g, run_cons ?_ hg, hcond⟩
  simp only [next, State.inList, stepList, howner, hstatements, Option.map_some]

theorem followed_elseBranch (h : anyReads Followed Symbol.elseBranch.alternatives w ps)
    (made : symbolPieces .elseBranch none ps = .ok qs) : Followed .elseBranch w qs := by
  cases made
  rcases h with h | h <;> exact h

/-! ### Loops -/

/-- Line ends after the statements of a list change nothing. -/
theorem run_blank_statements {ns : List Node} (hw : Blank w) (hs : f.statements? = some ns) :
    ∃ f', run (.inList f σ) w = some (.inList f' σ) ∧ f'.owner = f.owner ∧ f'.statements? = some ns := by
  -- The first line end finishes the last statement, unless one has done so before.
  cases w with
  | nil => exact ⟨f, rfl, rfl, hs⟩
  | cons l w =>
    have hl : l.terminal = .newline := hw l (List.mem_cons_self ..)
    have blank : Blank w := fun l hl => hw l (List.mem_cons_of_mem _ hl)
    have step {g : Frame} (hg : stepNewline f = some g) :
        next (.inList f σ) l = some (.inList g σ) := by
      simp [next, State.inList, stepList, hl, hg]
    by_cases hm : f.mode = .start
    · have stays : stepNewline f = some f := by simp [stepNewline, hm]
      exact ⟨f, run_cons (step stays) (run_blank blank stays), rfl, hs⟩
    · have ended : f.andOr?.map (· :: f.done) = some ns := by
        rw [← hs]
        unfold Frame.statements?
        split
        · exact absurd ‹_› hm
        · rfl
      obtain ⟨n, hn, rfl⟩ := Option.map_eq_some_iff.mp ended
      exact ⟨_, run_cons (step (stepNewline_of_andOr? hn)) (run_blank blank rfl), rfl, rfl⟩

theorem followed_doGroup (h : anyReads Followed Symbol.doGroup.alternatives w ps)
    (made : symbolPieces .doGroup none ps = .ok qs) : Followed .doGroup w qs := by
  obtain ⟨t₁, _, _, rfl, rfl, w', _, _, _, rfl, rfl, ⟨n, rfl, list⟩, t₂, rfl, rfl⟩ := h
  cases made
  exact ⟨n, rfl, t₁, w', t₂, rfl, list⟩

/-- The body of a loop is read up to its end. -/
theorem run_loop_body {w' : List Lexeme} {head : LoopHead} {function : Option Node} {t : List Char}
    (list : FollowsList w' n) (hf : f.mode.opens? = some function) :
    run (.inList (.begin (.loopBody head) []) (f :: σ)) (w' ++ [⟨.reserved .doneWord, t⟩]) =
      some (.inList { f with mode := .compound function (loopNode head n) [] .none } σ) := by
  obtain ⟨ns, rfl, list⟩ := list
  obtain ⟨g, hg, howner, -, hstatements⟩ := list (.begin (.loopBody head) []) (f :: σ)
    (Frame.ready_begin ..) rfl
  refine run_trans hg (run_cons ?_ rfl)
  simp only [next, State.inList, stepList, howner, Frame.begin, hstatements, Option.bind_some]
  exact pop_eq hf

/-- A loop with a condition is read. -/
theorem followsBody_conditionLoop (isUntil : Bool) {w₁ w₂ w₃ : List Lexeme} {l : Lexeme} {c b : Node}
    (hl : l.terminal = .reserved (if isUntil then .untilWord else .whileWord))
    (hc : FollowsList w₁ c) (blank : Blank w₂) (hb : FollowsGroup w₃ b) :
    FollowsBody (l :: (w₁ ++ (w₂ ++ w₃))) (loopNode (.condition isUntil c) b) := by
  obtain ⟨nc, rfl, clause⟩ := hc
  obtain ⟨t₁, w', t₂, rfl, list⟩ := hb
  refine ⟨by cases isUntil <;> rfl, fun f σ function hf => ?_⟩
  have opened : next (.inList f σ) l = some (.inList (.begin (.loopClause isUntil) []) (f :: σ)) := by
    cases isUntil <;> simp [next, State.inList, stepList, hl, push_eq hf]
  obtain ⟨g₁, h₁, o₁, -, s₁⟩ := clause (.begin (.loopClause isUntil) []) (f :: σ)
    (Frame.ready_begin ..) rfl
  obtain ⟨g₂, h₂, o₂, s₂⟩ := run_blank_statements (σ := f :: σ) blank s₁
  -- The keyword opens the frame of the condition, the list fills it, and `do` turns it into
  -- that of the body.
  refine run_cons opened (run_trans h₁ (run_trans h₂ (run_cons ?_ (run_loop_body list hf))))
  simp only [next, State.inList, stepList, o₂, o₁, Frame.begin, s₂, Option.map_some]

/-- The two loops with a condition differ in their first word only. -/
theorem followed_conditionLoop (isUntil : Bool)
    (h : rowReads Followed [.reserved (if isUntil then .untilWord else .whileWord),
      .symbol .compoundList, .linebreak, .symbol .doGroup] w ps) :
    ∃ c b : Node, ps = [.node c, .node b] ∧ FollowsBody w (loopNode (.condition isUntil c) b) := by
  obtain ⟨t, _, _, rfl, rfl, w₁, _, _, _, rfl, rfl, ⟨c, rfl, hc⟩, w₂, w₃, _, _, rfl, rfl, hl, b, rfl, hb⟩
    := h
  obtain ⟨rfl, blank⟩ := followed_linebreak hl
  have bare : Lexeme.pieces ⟨.reserved (if isUntil then .untilWord else .whileWord), t⟩ = [] := by
    cases isUntil <;> rfl
  rw [bare]
  exact ⟨c, b, rfl, followsBody_conditionLoop isUntil rfl hc blank hb⟩

theorem followed_whileClause (h : anyReads Followed Symbol.whileClause.alternatives w ps)
    (made : symbolPieces .whileClause none ps = .ok qs) : Followed .whileClause w qs := by
  obtain ⟨c, b, rfl, body⟩ := followed_conditionLoop false h
  cases made
  exact ⟨_, rfl, body⟩

theorem followed_untilClause (h : anyReads Followed Symbol.untilClause.alternatives w ps)
    (made : symbolPieces .untilClause none ps = .ok qs) : Followed .untilClause w qs := by
  obtain ⟨c, b, rfl, body⟩ := followed_conditionLoop true h
  cases made
  exact ⟨_, rfl, body⟩

theorem followed_wordRun (h : anyReads Followed Symbol.wordRun.alternatives w ps)
    (made : symbolPieces .wordRun none ps = .ok qs) : Followed .wordRun w qs := by
  rcases h with ⟨t, rfl, rfl⟩ | ⟨w₁, _, _, _, rfl, rfl, ⟨ns, rfl, h⟩, t, rfl, rfl⟩
  · cases made
    exact ⟨[Lexeme.word ⟨.word, t⟩], rfl, fun σ name ws => rfl⟩
  · cases made
    refine ⟨ns ++ [Lexeme.word ⟨.word, t⟩], by simp; rfl, fun σ name ws => ?_⟩
    rw [← List.append_assoc]
    exact run_trans (h σ name ws) rfl

theorem followed_forIn (h : anyReads Followed Symbol.forIn.alternatives w ps)
    (made : symbolPieces .forIn none ps = .ok qs) : Followed .forIn w qs := by
  obtain ⟨t, w', _, rfl, rfl, ⟨ns, rfl, h⟩ | ⟨rfl, rfl⟩⟩ := h
  · have made : Except.ok [Piece.words (nodesOf (ns.map .node))] = Except.ok qs := made
    rw [nodesOf_map_node] at made
    cases made
    exact ⟨ns, rfl, fun σ name => run_cons rfl (h σ name [])⟩
  · cases made
    exact ⟨[], rfl, fun σ name => rfl⟩

theorem followed_sequentialSeparator
    (h : anyReads Followed Symbol.sequentialSeparator.alternatives w ps)
    (made : symbolPieces .sequentialSeparator none ps = .ok qs) :
    Followed .sequentialSeparator w qs := by
  -- The separator stands after the name of a loop or after its words, and line ends go with it.
  have blankIn {σ : List Frame} {name : Node} {w : List Lexeme} (h : Blank w) :
      run ⟨.heading (.forIn name), σ⟩ w = some ⟨.heading (.forIn name), σ⟩ :=
    run_blank_heading h fun l hl => by simp [stepHeading, hl]
  have blankDo {σ : List Frame} {name : Node} {ws : List Node} {w : List Lexeme} (h : Blank w) :
      run ⟨.heading (.forDo name ws), σ⟩ w = some ⟨.heading (.forDo name ws), σ⟩ :=
    run_blank_heading h fun l hl => by simp [stepHeading, hl]
  rcases h with ⟨t, w', _, rfl, rfl, hl⟩ | ⟨rfl, ne, blank⟩
  · obtain ⟨rfl, blank⟩ := followed_linebreak hl
    cases made
    exact ⟨rfl, fun σ name => ⟨_, .inr rfl, run_cons rfl (blankDo blank)⟩,
      fun σ name ws => run_cons rfl (blankDo blank)⟩
  · cases made
    refine ⟨rfl, fun σ name => ⟨_, .inl rfl, blankIn blank⟩, fun σ name ws => ?_⟩
    cases w with
    | nil => exact absurd rfl ne
    | cons l w =>
      have hl : l.terminal = .newline := blank l (List.mem_cons_self ..)
      have step : next ⟨.heading (.forWords name ws), σ⟩ l = some ⟨.heading (.forDo name ws), σ⟩ := by
        simp [next, stepHeading, hl]
      exact run_cons step (blankDo fun l hl => blank l (List.mem_cons_of_mem _ hl))

theorem followed_forWords (h : anyReads Followed Symbol.forWords.alternatives w ps)
    (made : symbolPieces .forWords none ps = .ok qs) : Followed .forWords w qs := by
  rcases h with ⟨w₁, _, _, _, rfl, rfl, hl, w₂, w₃, _, _, rfl, rfl, ⟨ns, rfl, hin⟩, rfl, -, hsep⟩ |
    ⟨rfl, none, -⟩
  · obtain ⟨rfl, blank⟩ := followed_linebreak hl
    cases made
    refine .inl ⟨ns, rfl, fun σ name => run_trans ?_ (run_trans (hin σ name) (hsep σ name ns))⟩
    exact run_blank_heading blank fun l hl => by simp [stepHeading, hl]
  · cases made
    exact .inr ⟨rfl, none⟩

/-- From the words of a loop on, the loop is read up to its end. -/
theorem run_for_body {w₁ w₂ : List Lexeme} {h : Heading} {name : Node} {ws : List Node}
    {function : Option Node} (hh : h = .forDo name ws ∨ (ws = [] ∧ h = .forIn name))
    (blank : Blank w₁) (group : FollowsGroup w₂ n) (hf : f.mode.opens? = some function) :
    run ⟨.heading h, f :: σ⟩ (w₁ ++ w₂) =
      some (.inList { f with mode := .compound function (loopNode (.words name ws) n) [] .none } σ) := by
  obtain ⟨t₁, w', t₂, rfl, list⟩ := group
  have stays : run ⟨.heading h, f :: σ⟩ w₁ = some ⟨.heading h, f :: σ⟩ := by
    refine run_blank_heading blank fun l hl => ?_
    rcases hh with rfl | ⟨-, rfl⟩ <;> simp [stepHeading, hl]
  refine run_trans stays (run_cons ?_ (run_loop_body list hf))
  rcases hh with rfl | ⟨rfl, rfl⟩ <;> rfl

theorem followed_forClause (h : anyReads Followed Symbol.forClause.alternatives w ps)
    (made : symbolPieces .forClause none ps = .ok qs) : Followed .forClause w qs := by
  obtain ⟨t₁, _, _, rfl, rfl, t₂, _, _, rfl, rfl, w₁, _, _, _, rfl, rfl, hw, w₂, w₃, _, _, rfl, rfl, hl, n,
    rfl, group⟩ := h
  obtain ⟨rfl, blank⟩ := followed_linebreak hl
  have opened {f : Frame} {σ : List Frame} {function : Option Node}
      (hf : f.mode.opens? = some function) :
      next (.inList f σ) ⟨.reserved .forWord, t₁⟩ = some ⟨.heading .forName, f :: σ⟩ := by
    simp [next, State.inList, stepList, hf]
  -- There are words, or a separator only, or nothing before the body.
  rcases hw with (⟨ns, rfl, words⟩ | ⟨rfl, none⟩) | ⟨rfl, rfl⟩
  · cases made
    refine ⟨_, rfl, rfl, fun f σ function hf => ?_⟩
    exact run_cons (opened hf) (run_cons rfl (run_trans (words _ _)
      (run_for_body (.inl rfl) blank group hf)))
  · cases made
    refine ⟨_, rfl, rfl, fun f σ function hf => ?_⟩
    obtain ⟨h, hh, hrun⟩ := none (f :: σ) (Lexeme.name ⟨.name, t₂⟩)
    have body := run_for_body (σ := σ) (hh.symm.imp_right fun h => ⟨rfl, h⟩) blank group hf
    exact run_cons (opened hf) (run_cons rfl (run_trans hrun body))
  · cases made
    refine ⟨_, rfl, rfl, fun f σ function hf => ?_⟩
    have body := run_for_body (σ := σ) (h := .forIn (Lexeme.name ⟨.name, t₂⟩)) (.inr ⟨rfl, rfl⟩)
      blank group hf
    exact run_cons (opened hf) (run_cons rfl body)

/-! ### Choices -/

theorem followed_patternTail (h : anyReads Followed Symbol.patternTail.alternatives w ps)
    (made : symbolPieces .patternTail none ps = .ok qs) : Followed .patternTail w qs := by
  rcases h with ⟨t₁, _, _, rfl, rfl, t, rfl, rfl⟩ |
    ⟨w₁, _, _, _, rfl, rfl, ⟨ns, rfl, h⟩, t₁, _, _, rfl, rfl, t, rfl, rfl⟩
  · cases made
    exact ⟨[Lexeme.word ⟨.word, t⟩], rfl, fun σ subject items ws => rfl⟩
  · cases made
    refine ⟨ns ++ [Lexeme.word ⟨.word, t⟩], by simp; rfl, fun σ subject items ws => ?_⟩
    rw [← List.append_assoc]
    exact run_trans (h σ subject items ws) rfl

theorem followed_pattern (h : anyReads Followed Symbol.pattern.alternatives w ps)
    (made : symbolPieces .pattern none ps = .ok qs) : Followed .pattern w qs := by
  obtain ⟨t, w', _, rfl, rfl, h⟩ := h
  -- The first word is taken in both stages before a pattern.
  have first (σ : List Frame) (subject : Node) (items : List Node) (stage : Stage)
      (hs : stage ≠ .after) : next ⟨.heading (.patterns subject items [] stage), σ⟩ ⟨.word, t⟩ =
        some ⟨.heading (.patterns subject items [Lexeme.word ⟨.word, t⟩] .after), σ⟩ := by
    cases stage with
    | after => exact absurd rfl hs
    | first | next => rfl
  rcases h with ⟨ns, rfl, h⟩ | ⟨rfl, rfl⟩
  · have made : Except.ok [Piece.words (nodesOf ((Lexeme.word ⟨.word, t⟩ :: ns).map .node))] =
        Except.ok qs := made
    rw [nodesOf_map_node] at made
    cases made
    exact ⟨_, rfl, fun σ subject items stage hs =>
      run_cons (first σ subject items stage hs) (h σ subject items _)⟩
  · cases made
    exact ⟨_, rfl, fun σ subject items stage hs => run_cons (first σ subject items stage hs) rfl⟩

theorem choice?_of_statements? {subject : Node} {items patterns ns : List Node}
    (howner : f.owner = .choice subject items patterns) (hs : f.statements? = some ns) :
    f.choice? = some (subject, itemNode patterns ns :: items) := by
  simp [Frame.choice?, hs, howner]

theorem followed_caseItem (h : anyReads Followed Symbol.caseItem.alternatives w ps)
    (made : symbolPieces .caseItem none ps = .ok qs) : Followed .caseItem w qs := by
  obtain ⟨w₁, _, ps₁, _, rfl, rfl, hopen, w₂, _, _, _, rfl, rfl, ⟨ns, rfl, patterns⟩, t, w₃, ps₃, rfl,
    rfl, hbody⟩ := h
  have opened (σ : List Frame) (subject : Node) (items : List Node) : ∃ stage, stage ≠ .after ∧
      run ⟨.heading (.patterns subject items [] .first), σ⟩ w₁ =
        some ⟨.heading (.patterns subject items [] stage), σ⟩ := by
    rcases hopen with ⟨t, rfl, -⟩ | ⟨rfl, -⟩
    · exact ⟨.next, by simp, rfl⟩
    · exact ⟨.first, by simp, rfl⟩
  obtain rfl : ps₁ = [] := by
    rcases hopen with ⟨t, -, rfl⟩ | ⟨-, rfl⟩ <;> rfl
  -- The reader is at the start of the branch.
  have upTo (σ : List Frame) (subject : Node) (items : List Node) :
      run ⟨.heading (.patterns subject items [] .first), σ⟩
        (w₁ ++ (w₂ ++ [⟨.sign .closeParen, t⟩])) =
        some (.inList (.begin (.choice subject items ns) []) σ) := by
    obtain ⟨stage, hs, hrun⟩ := opened σ subject items
    exact run_trans hrun (run_trans (patterns σ subject items stage hs) rfl)
  have split (w : List Lexeme) : w₁ ++ (w₂ ++ ⟨.sign .closeParen, t⟩ :: w) =
      (w₁ ++ (w₂ ++ [⟨.sign .closeParen, t⟩])) ++ w := by
    simp only [List.append_assoc, List.cons_append, List.nil_append]
  rcases hbody with ⟨_, rfl, body, rfl, list⟩ | ⟨rfl, -, blank⟩ | ⟨rfl, rfl⟩
  · cases made
    refine ⟨_, rfl, fun σ subject items => ?_⟩
    obtain ⟨f, hf, howner, -, hstatements⟩ := list (.begin (.choice subject items ns) []) σ
      (Frame.ready_begin ..) rfl
    rw [split]
    exact ⟨f, run_trans (upTo σ subject items) hf, choice?_of_statements? howner hstatements⟩
  · cases made
    refine ⟨_, rfl, fun σ subject items => ?_⟩
    rw [split]
    exact ⟨_, run_trans (upTo σ subject items) (run_blank blank rfl), rfl⟩
  · cases made
    exact ⟨_, rfl, fun σ subject items => ⟨_, upTo σ subject items, rfl⟩⟩

/-- The sign after a branch of a choice finishes it. -/
theorem next_doubleSemicolon {t : List Char} {subject : Node} {items : List Node}
    (hc : f.choice? = some (subject, items)) : next (.inList f σ) ⟨.sign .doubleSemicolon, t⟩ =
      some ⟨.heading (.patterns subject items [] .first), σ⟩ := by
  simp only [next, State.inList, stepList, hc, Option.map_some]

theorem run_blank_patterns {subject : Node} {items : List Node} (hw : Blank w) :
    run ⟨.heading (.patterns subject items [] .first), σ⟩ w =
      some ⟨.heading (.patterns subject items [] .first), σ⟩ :=
  run_blank_heading hw fun l hl => by simp [stepHeading, hl]

/-- After a branch of a choice the next one is read. -/
theorem run_next_item {w₁ w₂ : List Lexeme} {t : List Char} {subject item : Node} {items : List Node}
    (hc : f.choice? = some (subject, items)) (blank : Blank w₁)
    (h : ∀ σ subject items, ∃ g,
      run ⟨.heading (.patterns subject items [] .first), σ⟩ w₂ = some (.inList g σ) ∧
        g.choice? = some (subject, item :: items)) :
    ∃ g, run (.inList f σ) (⟨.sign .doubleSemicolon, t⟩ :: (w₁ ++ w₂)) = some (.inList g σ) ∧
      g.choice? = some (subject, item :: items) := by
  obtain ⟨g, hg, hc'⟩ := h σ subject items
  exact ⟨g, run_cons (next_doubleSemicolon hc) (run_trans (run_blank_patterns blank) hg), hc'⟩

theorem followed_caseTail (h : anyReads Followed Symbol.caseTail.alternatives w ps)
    (made : symbolPieces .caseTail none ps = .ok qs) : Followed .caseTail w qs := by
  rcases h with ⟨t, _, _, rfl, rfl, w₁, w₂, _, _, rfl, rfl, hl, n, rfl, item⟩ |
    ⟨w₀, _, _, _, rfl, rfl, ⟨ns, rfl, tail⟩, t, _, _, rfl, rfl, w₁, w₂, _, _, rfl, rfl, hl, n, rfl, item⟩
  · obtain ⟨rfl, blank⟩ := followed_linebreak hl
    cases made
    exact ⟨[n], rfl, fun f σ subject items hc => run_next_item hc blank item⟩
  · obtain ⟨rfl, blank⟩ := followed_linebreak hl
    cases made
    refine ⟨ns ++ [n], by simp, fun f σ subject items hc => ?_⟩
    obtain ⟨f₁, h₁, hc₁⟩ := tail f σ subject items hc
    obtain ⟨f₂, h₂, hc₂⟩ := run_next_item (σ := σ) (t := t) hc₁ blank item
    exact ⟨f₂, run_trans h₁ h₂, by simpa using hc₂⟩

/-- The branches of a choice are read up to its end. -/
theorem run_branches {w : List Lexeme} {ps : List Piece}
    (h : elementReads Followed (.maybe [.symbol .caseItem, .maybe [.symbol .caseTail],
      .maybe [.sign .doubleSemicolon, .linebreak]]) w ps) :
    ∃ items : List Node, ps = items.map .node ∧ ∀ (f : Frame) (σ : List Frame) function subject t,
      f.mode.opens? = some function →
      run ⟨.heading (.patterns subject [] [] .first), f :: σ⟩ (w ++ [⟨.reserved .esacWord, t⟩]) =
        some (.inList { f with mode := .compound function (caseNode subject items.reverse) [] .none }
          σ) := by
  rcases h with ⟨w₁, _, _, _, rfl, rfl, ⟨n, rfl, item⟩, w₂, w₃, ps₂, ps₃, rfl, rfl, htail, hend⟩ |
    ⟨rfl, rfl⟩
  · obtain ⟨ns, rfl, tail⟩ : ∃ ns : List Node, ps₂ = ns.map .node ∧ ∀ f σ subject items,
        f.choice? = some (subject, items) → ∃ f', run (.inList f σ) w₂ = some (.inList f' σ) ∧
          f'.choice? = some (subject, ns.reverse ++ items) := by
      rcases htail with h | ⟨rfl, rfl⟩
      · exact h
      · exact ⟨[], rfl, fun f σ subject items hc => ⟨f, rfl, hc⟩⟩
    -- The sign after the last branch may be left out.
    obtain ⟨rfl, closing⟩ : ps₃ = [] ∧ ∀ (f g : Frame) (σ : List Frame) function subject items t,
        f.mode.opens? = some function → g.choice? = some (subject, items) →
        run (.inList g (f :: σ)) (w₃ ++ [⟨.reserved .esacWord, t⟩]) =
          some (.inList { f with mode := .compound function (caseNode subject items) [] .none } σ) := by
      rcases hend with ⟨t₁, w₄, _, rfl, rfl, hl⟩ | ⟨rfl, rfl⟩
      · obtain ⟨rfl, blank⟩ := followed_linebreak hl
        refine ⟨rfl, fun f g σ function subject items t hf hc => ?_⟩
        exact run_cons (next_doubleSemicolon hc) (run_trans (run_blank_patterns blank)
          (run_cons (pop_eq hf) rfl))
      · refine ⟨rfl, fun f g σ function subject items t hf hc => run_cons ?_ rfl⟩
        simp only [next, State.inList, stepList, hc, Option.bind_some]
        exact pop_eq hf
    refine ⟨n :: ns, by simp, fun f σ function subject t hf => ?_⟩
    obtain ⟨g₁, h₁, c₁⟩ := item (f :: σ) subject []
    obtain ⟨g₂, h₂, c₂⟩ := tail g₁ (f :: σ) subject _ c₁
    have := run_trans h₁ (run_trans h₂ (closing f g₂ σ function subject _ t hf c₂))
    simpa [List.append_assoc] using this
  · exact ⟨[], rfl, fun f σ function subject t hf => run_cons (pop_eq hf) rfl⟩

theorem followed_caseClause (h : anyReads Followed Symbol.caseClause.alternatives w ps)
    (made : symbolPieces .caseClause none ps = .ok qs) : Followed .caseClause w qs := by
  obtain ⟨t₁, _, _, rfl, rfl, t₂, _, _, rfl, rfl, w₁, _, _, _, rfl, rfl, hl₁, t₃, _, _, rfl, rfl, w₂, _, _,
    _, rfl, rfl, hl₂, w₃, _, ps₃, _, rfl, rfl, hb, t₄, rfl, rfl⟩ := h
  obtain ⟨rfl, blank₁⟩ := followed_linebreak hl₁
  obtain ⟨rfl, blank₂⟩ := followed_linebreak hl₂
  obtain ⟨items, rfl, branches⟩ := run_branches hb
  have made : Except.ok [.node (assemble (.caseOf false) none [(.clause, [Lexeme.word ⟨.word, t₂⟩]),
      (.cases, nodesOf (items.map .node ++ []))])] = Except.ok qs := made
  rw [List.append_nil, nodesOf_map_node] at made
  cases made
  refine ⟨_, rfl, rfl, fun f σ function hf => ?_⟩
  have opened : next (.inList f σ) ⟨.reserved .caseWord, t₁⟩ = some ⟨.heading .caseWord, f :: σ⟩ := by
    simp [next, State.inList, stepList, hf]
  have tail := branches f σ function (Lexeme.word ⟨.word, t₂⟩) t₄ hf
  rw [caseNode, List.reverse_reverse] at tail
  -- Line ends between the subject and `in` leave the heading as it is.
  have stays : run ⟨.heading (.caseIn (Lexeme.word ⟨.word, t₂⟩)), f :: σ⟩ w₁ =
      some ⟨.heading (.caseIn (Lexeme.word ⟨.word, t₂⟩)), f :: σ⟩ :=
    run_blank_heading blank₁ fun l hl => by simp [stepHeading, hl]
  exact run_cons opened (run_cons rfl (run_trans stays (run_cons rfl
    (run_trans (run_blank_patterns blank₂) tail))))

/-! ### Pipelines and statements -/

/-- After a bar the next command is read. -/
theorem run_bar {w₁ w₂ : List Lexeme} {t : List Char} {m : Node} (hn : f.mode.node? = some n)
    (blank : Blank w₁) (hm : FollowsCommand w₂ m) :
    ∃ mode, run (.inList f σ) (⟨.sign .bar, t⟩ :: (w₁ ++ w₂)) =
        some (.inList { f with mode, pipe := n :: f.pipe } σ) ∧ mode.node? = some m := by
  obtain ⟨mode, hrun, hmode⟩ := hm { f with mode := .ahead, pipe := n :: f.pipe } σ rfl
  refine ⟨mode, run_cons ?_ (run_trans (run_blank blank rfl) hrun), hmode⟩
  simp only [next, State.inList, stepList, hn, Option.map_some]

theorem followed_pipeTail (h : anyReads Followed Symbol.pipeTail.alternatives w ps)
    (made : symbolPieces .pipeTail none ps = .ok qs) : Followed .pipeTail w qs := by
  rcases h with ⟨t, _, _, rfl, rfl, w₁, w₂, _, _, rfl, rfl, hl, m, rfl, hm⟩ |
    ⟨w₀, _, _, _, rfl, rfl, ⟨ns, rfl, ne, tail⟩, t, _, _, rfl, rfl, w₁, w₂, _, _, rfl, rfl, hl, m, rfl, hm⟩
  · obtain ⟨rfl, blank⟩ := followed_linebreak hl
    cases made
    refine ⟨[m], rfl, by simp, fun f σ n hn => ?_⟩
    obtain ⟨mode, hrun, hmode⟩ := run_bar (σ := σ) (t := t) hn blank hm
    exact ⟨mode, n :: f.pipe, m, hrun, hmode, rfl⟩
  · obtain ⟨rfl, blank⟩ := followed_linebreak hl
    cases made
    refine ⟨ns ++ [m], by simp, by simp, fun f σ n hn => ?_⟩
    -- The earlier commands are in the pipe already, the last one first.
    obtain ⟨m₁, pipe₁, n₁, h₁, hn₁, hpipe⟩ := tail f σ n hn
    obtain ⟨mode, hrun, hmode⟩ := run_bar (f := { f with mode := m₁, pipe := pipe₁ }) (σ := σ)
      (t := t) hn₁ blank hm
    refine ⟨mode, n₁ :: pipe₁, m, run_trans h₁ hrun, hmode, ?_⟩
    rw [hpipe, List.reverse_append]
    rfl

theorem made_pipeSequence (n : Node) {ns : List Node} (h : ns ≠ []) :
    symbolPieces .pipeSequence none ((n :: ns).map .node) =
      .ok [.node (assemble (.pipeline false false) none [(.commands, n :: ns)])] := by
  cases ns with
  | nil => exact absurd rfl h
  | cons m ns =>
    have nodes := nodesOf_map_node (n :: m :: ns)
    simp only [List.map_cons] at nodes
    simp only [List.map_cons, symbolPieces, nodes]

theorem followed_pipeSequence (h : anyReads Followed Symbol.pipeSequence.alternatives w ps)
    (made : symbolPieces .pipeSequence none ps = .ok qs) : Followed .pipeSequence w qs := by
  obtain ⟨w₁, w₂, _, _, rfl, rfl, ⟨n, rfl, command⟩, ⟨ns, rfl, ne, tail⟩ | ⟨rfl, rfl⟩⟩ := h
  · cases (made_pipeSequence n ne).symm.trans made
    refine ⟨_, rfl, fun f σ hf hpipe => ?_⟩
    obtain ⟨m, h₁, hm⟩ := command f σ hf
    obtain ⟨m', pipe, n', h₂, hm', eq⟩ := tail { f with mode := m } σ n hm
    refine ⟨_, run_trans h₁ h₂, ?_, rfl, rfl, rfl, rfl⟩
    simp only [hpipe] at eq
    -- A second command means that the first is in the pipe.
    have more : pipe.isEmpty = false := by
      cases pipe with
      | cons _ _ => rfl
      | nil =>
        have := congrArg List.length eq
        simp only [List.length_cons, List.length_append, List.length_reverse, List.length_nil] at this
        have := List.length_pos_iff.mpr ne
        omega
    simp only [Frame.sequence?, hm', Option.map_some, more, Bool.false_eq_true, if_false, eq,
      List.reverse_append, List.reverse_reverse]
    rfl
  · cases made
    refine ⟨n, rfl, fun f σ hf hpipe => ?_⟩
    obtain ⟨m, h₁, hm⟩ := command f σ hf
    rw [List.append_nil]
    exact ⟨_, h₁, by simp [Frame.sequence?, hm, hpipe], rfl, rfl, rfl, rfl⟩

theorem followed_pipeline (h : anyReads Followed Symbol.pipeline.alternatives w ps)
    (made : symbolPieces .pipeline none ps = .ok qs) : Followed .pipeline w qs := by
  rcases h with ⟨n, rfl, sequence⟩ | ⟨t, w', _, rfl, rfl, n, rfl, sequence⟩
  · cases made
    refine ⟨n, rfl, fun f σ hf hpipe hbang => ?_⟩
    obtain ⟨f', hrun, hn, ho, hd, hl, hb⟩ := sequence f σ hf hpipe
    exact ⟨f', hrun, by simp [Frame.pipeline?, hn, hb, hbang], ho, hd, hl⟩
  · cases made
    refine ⟨_, rfl, fun f σ hf hpipe _ => ?_⟩
    obtain ⟨f', hrun, hn, ho, hd, hl, hb⟩ := sequence { f with bang := true, mode := .ahead } σ rfl hpipe
    refine ⟨f', run_cons ?_ hrun, by simp [Frame.pipeline?, hn, hb], ho, hd, hl⟩
    simp only [next, State.inList, stepList, hf, if_true, Option.map_some]

/-- After a connective the next pipeline is read. -/
theorem run_connective (op : Connective) {w₁ w₂ : List Lexeme} {t : List Char} {m : Node}
    (hn : f.andOr? = some n) (blank : Blank w₁) (hm : FollowsPipeline w₂ m) :
    ∃ f', run (.inList f σ)
        (⟨.sign (if op = .and then .andIf else .orIf), t⟩ :: (w₁ ++ w₂)) = some (.inList f' σ) ∧
      f'.andOr? = some (assemble (.logicalExpression false op) none [(.left, [n]), (.right, [m])]) ∧
      f'.owner = f.owner ∧ f'.done = f.done := by
  obtain ⟨f', hrun, hp, ho, hd, hl⟩ := hm
    { Frame.begin f.owner f.done with left := some (n, op), mode := .ahead } σ rfl rfl rfl
  refine ⟨f', run_cons ?_ (run_trans (run_blank blank rfl) hrun), ?_, ho, hd⟩
  · cases op <;> simp [next, State.inList, stepList, hn]
  · simp [Frame.andOr?, hp, hl]

theorem followed_andOr (h : anyReads Followed Symbol.andOr.alternatives w ps)
    (made : symbolPieces .andOr none ps = .ok qs) : Followed .andOr w qs := by
  rcases h with ⟨n, rfl, pipeline⟩ |
    ⟨w₀, _, _, _, rfl, rfl, ⟨l, rfl, left⟩, t, _, _, rfl, rfl, w₁, w₂, _, _, rfl, rfl, hl, r, rfl, right⟩ |
    ⟨w₀, _, _, _, rfl, rfl, ⟨l, rfl, left⟩, t, _, _, rfl, rfl, w₁, w₂, _, _, rfl, rfl, hl, r, rfl, right⟩
  · cases made
    refine ⟨n, rfl, fun f σ hf => ?_⟩
    obtain ⟨f', hrun, hp, ho, hd, hleft⟩ := pipeline f σ (isFresh_of_ready hf) hf.pipe_eq hf.bang_eq
    exact ⟨f', hrun, by simp [Frame.andOr?, hp, hleft, hf.left_eq], ho, hd⟩
  · obtain ⟨rfl, blank⟩ := followed_linebreak hl
    cases made
    refine ⟨_, rfl, fun f σ hf => ?_⟩
    -- The left statement ends at the sign and becomes the left side of the frame.
    obtain ⟨f₁, h₁, hn₁, ho₁, hd₁⟩ := left f σ hf
    obtain ⟨f₂, h₂, hn₂, ho₂, hd₂⟩ := run_connective (σ := σ) (t := t) .and hn₁ blank right
    exact ⟨f₂, run_trans h₁ h₂, hn₂, ho₂.trans ho₁, hd₂.trans hd₁⟩
  · obtain ⟨rfl, blank⟩ := followed_linebreak hl
    cases made
    refine ⟨_, rfl, fun f σ hf => ?_⟩
    obtain ⟨f₁, h₁, hn₁, ho₁, hd₁⟩ := left f σ hf
    obtain ⟨f₂, h₂, hn₂, ho₂, hd₂⟩ := run_connective (σ := σ) (t := t) .or hn₁ blank right
    exact ⟨f₂, run_trans h₁ h₂, hn₂, ho₂.trans ho₁, hd₂.trans hd₁⟩

/-! ### Lists of statements -/

theorem followed_separator (h : anyReads Followed Symbol.separator.alternatives w ps)
    (made : symbolPieces .separator none ps = .ok qs) : Followed .separator w qs := by
  rcases h with ⟨t, w', _, rfl, rfl, hl⟩ | ⟨t, w', _, rfl, rfl, hl⟩ | ⟨rfl, ne, blank⟩
  · obtain ⟨rfl, blank⟩ := followed_linebreak hl
    cases made
    intro f σ n hn
    refine run_cons ?_ (run_blank blank rfl)
    simp only [next, State.inList, stepList, hn, Option.map_some]
    rfl
  · obtain ⟨rfl, blank⟩ := followed_linebreak hl
    cases made
    intro f σ n hn
    refine run_cons ?_ (run_blank blank rfl)
    simp only [next, State.inList, stepList, hn, Option.map_some]
    rfl
  · cases made
    intro f σ n hn
    cases w with
    | nil => exact absurd rfl ne
    | cons l w =>
      have hl : l.terminal = .newline := blank l (List.mem_cons_self ..)
      -- The first line end pushes the statement, and the others find nothing to push.
      have step : next (.inList f σ) l = some (.inList (.begin f.owner (n :: f.done)) σ) := by
        simp only [next, State.inList, stepList, hl, stepNewline_of_andOr? hn, Option.map_some]
      exact run_cons step (run_blank (fun l hl => blank l (List.mem_cons_of_mem _ hl)) rfl)

/-- After a separator the next statement is read. -/
theorem run_separator {w₁ w₂ : List Lexeme} {ps : List Piece} {m : Node} (hn : f.andOr? = some n)
    (hs : FollowsSeparator w₁ ps) (hm : FollowsAndOr w₂ m) :
    ∃ f', run (.inList f σ) (w₁ ++ w₂) = some (.inList f' σ) ∧ f'.andOr? = some m ∧
      f'.owner = f.owner ∧ m :: f'.done = (ps ++ [Piece.node m]).foldl pushStatement (n :: f.done) := by
  obtain ⟨f', hrun, hn', ho, hd⟩ := hm _ σ (Frame.ready_begin f.owner
    (ps.foldl pushStatement (n :: f.done)))
  refine ⟨f', run_trans (hs f σ n hn) hrun, hn', ho, ?_⟩
  rw [hd, List.foldl_append]
  rfl

theorem followed_termTail (h : anyReads Followed Symbol.termTail.alternatives w ps)
    (made : symbolPieces .termTail none ps = .ok qs) : Followed .termTail w qs := by
  rcases h with ⟨w₁, w₂, _, _, rfl, rfl, hs, m, rfl, hm⟩ |
    ⟨w₀, _, ps₀, _, rfl, rfl, tail, w₁, w₂, _, _, rfl, rfl, hs, m, rfl, hm⟩
  · cases made
    intro f σ n hn
    obtain ⟨f', hrun, hn', ho, hd⟩ := run_separator (σ := σ) hn hs hm
    exact ⟨f', m, hrun, hn', ho, hd⟩
  · cases made
    intro f σ n hn
    obtain ⟨f₁, n₁, h₁, hn₁, ho₁, hd₁⟩ := tail f σ n hn
    obtain ⟨f₂, h₂, hn₂, ho₂, hd₂⟩ := run_separator (σ := σ) hn₁ hs hm
    exact ⟨f₂, m, run_trans h₁ h₂, hn₂, ho₂.trans ho₁, by rw [hd₂, hd₁, ← List.foldl_append]⟩

theorem followed_term (h : anyReads Followed Symbol.term.alternatives w ps)
    (made : symbolPieces .term none ps = .ok qs) : Followed .term w qs := by
  obtain ⟨w₁, _, _, _, rfl, rfl, ⟨n, rfl, first⟩, w₂, w₃, ps₂, ps₃, rfl, rfl, htail, hend⟩ := h
  cases made
  intro f σ hf
  obtain ⟨f₁, h₁, hn₁, ho₁, hd₁⟩ := first f σ hf
  obtain ⟨f₂, n₂, h₂, hn₂, ho₂, hd₂⟩ : ∃ f₂ n₂, run (.inList f₁ σ) w₂ = some (.inList f₂ σ) ∧
      f₂.andOr? = some n₂ ∧ f₂.owner = f₁.owner ∧
        n₂ :: f₂.done = ps₂.foldl pushStatement (n :: f₁.done) := by
    rcases htail with tail | ⟨rfl, rfl⟩
    · exact tail f₁ σ n hn₁
    · exact ⟨f₁, n, rfl, hn₁, rfl, rfl⟩
  -- The statements are pushed one after the other, and the mark of the last comes at the end.
  have before : (Piece.node n :: (ps₂ ++ ps₃)).foldl pushStatement f.done =
      ps₃.foldl pushStatement (n₂ :: f₂.done) := by
    rw [hd₂, hd₁, List.foldl_cons, List.foldl_append]
    rfl
  rw [List.singleton_append, before]
  rcases hend with hs | ⟨rfl, rfl⟩
  · exact ⟨_, run_trans h₁ (run_trans h₂ (hs f₂ σ n₂ hn₂)), ho₂.trans ho₁, by simp [Frame.begin], rfl⟩
  · rw [List.append_nil]
    exact ⟨f₂, run_trans h₁ h₂, ho₂.trans ho₁, mode_ne_opening hn₂, statements?_of_andOr? hn₂⟩

/-- Line ends before the first statement change nothing. -/
theorem run_blank_ready (hw : Blank w) (hf : f.Ready) :
    ∃ f', run (.inList f σ) w = some (.inList f' σ) ∧ f'.Ready ∧ f'.owner = f.owner ∧
      f'.done = f.done ∧ (f.mode = .start → f' = f) := by
  cases w with
  | nil => exact ⟨f, rfl, hf, rfl, rfl, fun _ => rfl⟩
  | cons l w =>
    have hl : l.terminal = .newline := hw l (List.mem_cons_self ..)
    have blank : Blank w := fun l hl => hw l (List.mem_cons_of_mem _ hl)
    rcases hf.mode_eq with hm | hm
    · have stays : stepNewline f = some f := by simp [stepNewline, hm]
      exact ⟨f, run_blank hw stays, hf, rfl, rfl, fun _ => rfl⟩
    · -- After an opening the first line end makes the mode an ordinary start.
      refine ⟨{ f with mode := .start }, run_cons ?_ (run_blank blank rfl),
        ⟨.inl rfl, hf.left_eq, hf.bang_eq, hf.pipe_eq⟩, rfl, rfl, fun h => ?_⟩
      · simp [next, State.inList, stepList, hl, stepNewline, hm]
      · rw [hm] at h
        cases h

theorem followed_compoundList (h : anyReads Followed Symbol.compoundList.alternatives w ps)
    (made : symbolPieces .compoundList none ps = .ok qs) : Followed .compoundList w qs := by
  obtain ⟨w₁, w₂, _, ps₂, rfl, rfl, hl, term⟩ := h
  obtain ⟨rfl, blank⟩ := followed_linebreak hl
  cases made
  refine ⟨_, rfl, ps₂.foldl pushStatement [], rfl, fun f σ hf hdone => ?_⟩
  obtain ⟨f₁, h₁, ready, ho₁, hd₁, -⟩ := run_blank_ready (σ := σ) blank hf
  obtain ⟨f₂, h₂, ho₂, hm₂, hs₂⟩ := term f₁ σ ready
  refine ⟨f₂, run_trans h₁ h₂, ho₂.trans ho₁, hm₂, ?_⟩
  rw [hs₂, hd₁, hdone]

theorem followed_script (h : anyReads Followed Symbol.script.alternatives w ps)
    (made : symbolPieces .script none ps = .ok qs) : Followed .script w qs := by
  obtain ⟨w₁, w₂, _, ps₂, rfl, rfl, hl, hterm⟩ := h
  obtain ⟨rfl, blank⟩ := followed_linebreak hl
  cases made
  have start : run .initial w₁ = some .initial := run_blank blank rfl
  rcases hterm with term | ⟨rfl, rfl⟩
  · obtain ⟨f, hf, howner, -, hs⟩ := term (.begin .script []) [] (Frame.ready_begin ..)
    refine ⟨.inList f [], _, rfl, run_trans start hf, ?_⟩
    simp only [State.script?, State.inList, howner, Frame.begin, hs, Option.map_some]
    rfl
  · exact ⟨.initial, _, rfl, run_trans start rfl, rfl⟩

end

/-- The reader does for every reading of a symbol what the symbol asks for. -/
theorem Reads.followed {s : Symbol} {w : List Lexeme} {qs : List Piece} (h : Reads s w qs) :
    Followed s w qs := by
  refine h.induct fun s w ps qs h made => ?_
  -- One lemma for each symbol.
  cases s with
  | newlines => exact followed_newlines h made
  | redirect => exact followed_redirect h made
  | leadingItem => exact followed_leadingItem h made
  | leadingItems => exact followed_leadingItems h made
  | suffixItem => exact followed_suffixItem h made
  | suffixItems => exact followed_suffixItems h made
  | simpleCommand => exact followed_simpleCommand h made
  | redirects => exact followed_redirects h made
  | wordRun => exact followed_wordRun h made
  | forIn => exact followed_forIn h made
  | separator => exact followed_separator h made
  | sequentialSeparator => exact followed_sequentialSeparator h made
  | forWords => exact followed_forWords h made
  | doGroup => exact followed_doGroup h made
  | patternTail => exact followed_patternTail h made
  | pattern => exact followed_pattern h made
  | caseItem => exact followed_caseItem h made
  | caseTail => exact followed_caseTail h made
  | braceGroup => exact followed_braceGroup h made
  | subshell => exact followed_subshell h made
  | forClause => exact followed_forClause h made
  | caseClause => exact followed_caseClause h made
  | ifClause => exact followed_ifClause h made
  | elsePart => exact followed_elsePart h made
  | elifPart => exact followed_elifPart h made
  | elseBranch => exact followed_elseBranch h made
  | whileClause => exact followed_whileClause h made
  | untilClause => exact followed_untilClause h made
  | compoundBody => exact followed_compoundBody h made
  | compoundCommand => exact followed_compoundCommand h made
  | functionDefinition => exact followed_functionDefinition h made
  | command => exact followed_command h made
  | pipeTail => exact followed_pipeTail h made
  | pipeSequence => exact followed_pipeSequence h made
  | pipeline => exact followed_pipeline h made
  | andOr => exact followed_andOr h made
  | termTail => exact followed_termTail h made
  | term => exact followed_term h made
  | compoundList => exact followed_compoundList h made
  | script => exact followed_script h made

/-- A reading of a script is what the reader makes of its lexemes. -/
theorem Reads.run_script {w : List Lexeme} {qs : List Piece} (h : Reads .script w qs) :
    ∃ s n, qs = [.node n] ∧ run .initial w = some s ∧ s.script? = some n :=
  h.followed

/-- All readings of the same lexemes as a script give the same tree. -/
theorem Reads.script_unique {w : List Lexeme} {ps qs : List Piece} (h₁ : Reads .script w ps)
    (h₂ : Reads .script w qs) : ps = qs := by
  obtain ⟨s₁, n₁, rfl, hr₁, hs₁⟩ := h₁.run_script
  obtain ⟨s₂, n₂, rfl, hr₂, hs₂⟩ := h₂.run_script
  cases hr₁.symm.trans hr₂
  cases hs₁.symm.trans hs₂
  rfl

end ShellInliner.Parse
