import Mathlib.Data.List.TakeWhile
import ShellInliner.Proofs.Source.Choices

/-! # Commands and scripts

    How the texts of simple commands, pipelines and connectives are read, and with
    the compound commands how the text of every statement and of a whole script
    is. -/

namespace ShellInliner.Parse

open Grammar Node
open Source (Parts join layout isBraced isGroupParent)

section

variable {Q : Lexeme → Prop} {n c : Node} {texts : List String} {w : List Lexeme} {ms : List Node}

/-! ### Simple commands -/

/-- A command is put together from what stands before its name, the name and what
    stands after it. -/
theorem simpleCommand_named {leading suffix : List Node} {name : Node}
    (plain : (leading.map Piece.node).any Piece.isWord = false) (word : name.kind = .word) :
    simpleCommand none (leading.map .node ++ .node name :: suffix.map .node) =
      assemble (.command false) none [(.name, [name]), (.leading, leading), (.suffix, suffix)] := by
  have passed : ∀ p ∈ leading.map Piece.node, (!p.isWord) = true := by
    intro p hp
    simpa using List.any_eq_false.mp plain p hp
  -- The name is the first word, and it divides the row.
  have stops : (!Piece.isWord (.node name)) = false := by
    simp [Piece.isWord, word]
  have before : (leading.map Piece.node ++ Piece.node name :: suffix.map Piece.node).takeWhile
      (fun p => !p.isWord) = leading.map .node := by
    rw [List.takeWhile_append_of_pos passed, List.takeWhile_cons_of_neg (by simp [stops]),
      List.append_nil]
  have after : (leading.map Piece.node ++ Piece.node name :: suffix.map Piece.node).dropWhile
      (fun p => !p.isWord) = (name :: suffix).map .node := by
    rw [List.dropWhile_append_of_pos passed, List.dropWhile_cons_of_neg (by simp [stops])]
    rfl
  simp only [simpleCommand, before, after, nodesOf_map_node]
  rfl

theorem simpleCommand_unnamed {leading : List Node}
    (plain : (leading.map Piece.node).any Piece.isWord = false) :
    simpleCommand none (leading.map .node) =
      assemble (.command false) none [(.name, []), (.leading, leading), (.suffix, [])] := by
  have passed : ∀ p ∈ leading.map Piece.node, (!p.isWord) = true := by
    intro p hp
    simpa using List.any_eq_false.mp plain p hp
  have after : (leading.map Piece.node).dropWhile (fun p => !p.isWord) = [] :=
    List.dropWhile_eq_nil_iff.mpr passed
  simp only [simpleCommand, List.takeWhile_eq_self_iff.mpr passed, after, nodesOf_map_node]
  rfl

/-- No word is read before the name of a command. -/
theorem MaybeReads.plain {ns : List Node} (h : MaybeReads .leadingItems w (ns.map .node)) :
    (ns.map Piece.node).any Piece.isWord = false := by
  rcases h with h | ⟨-, empty⟩
  · have follows : FollowsLeading w (ns.map .node) := h.followed
    exact follows.2.1
  · rw [empty]
    rfl

/-- What stands around the name of a command. -/
theorem foreground_of_item (h : c.kind = .word ∨ c.kind = .assignmentWord ∨ c.kind = .redirect) :
    c.head.async = false ∧ c.kind ≠ .compoundList := by
  rcases h with h | h | h
  all_goals exact ⟨async_of_not_statement (by rw [h]; decide), by rw [h]; decide⟩

theorem exists_leading (kind : n.kind = .command) (speakable : Speakable Q n) :
    ∃ texts w ms, SaysRow Q .leadingItems (n.all .leading) texts w ms := by
  have member : Member.child .leading .many (.oneOf [.assignmentWord, .redirect]) ∈
      n.kind.members := by
    rw [kind]
    decide
  have kinds : ∀ m ∈ n.all .leading, m.kind = .assignmentWord ∨ m.kind = .redirect := by
    intro m hm
    simpa [Admission.kinds] using kind_mem_of_mem_all speakable.typed member hm
  -- Assignments and redirections are items of one row.
  apply exists_row (o := .leadingItem) rfl (fun _ => rfl)
  · exact fun m hm => foreground_of_item (.inr (kinds m hm))
  · intro m hm
    have inner := speakable.all hm
    rcases kinds m hm with assignment | redirect
    · exact says_assignment assignment inner.sayable.here inner.admitted.here
    · obtain ⟨x, said⟩ := says_redirect redirect inner
      exact ⟨x, said.imp reads_leadingRedirect⟩

theorem exists_suffix (kind : n.kind = .command) (speakable : Speakable Q n) :
    ∃ texts w ms, SaysRow Q .suffixItems (n.all .suffix) texts w ms := by
  have member : Member.child .suffix .many (.oneOf [.word, .redirect]) ∈ n.kind.members := by
    rw [kind]
    decide
  have kinds : ∀ m ∈ n.all .suffix, m.kind = .word ∨ m.kind = .redirect := by
    intro m hm
    simpa [Admission.kinds] using kind_mem_of_mem_all speakable.typed member hm
  -- Words and redirections are items of one row.
  apply exists_row (o := .suffixItem) rfl (fun _ => rfl)
  · exact fun m hm => foreground_of_item ((kinds m hm).imp_right .inr)
  · intro m hm
    have inner := speakable.all hm
    rcases kinds m hm with word | redirect
    · exact says_argument word inner.sayable.here inner.admitted.here
    · obtain ⟨x, said⟩ := says_redirect redirect inner
      exact ⟨x, said.imp reads_suffixRedirect⟩

/-- The text of a simple command without the mark of the background. -/
def commandText (leading name suffix : List String) : String :=
  join " " leading ++ " " ++ join "" (name.take 1) ++ " " ++ join " " suffix

theorem source_command {leading name suffix : List String} (kind : n.kind = .command)
    (hl : (partsOf n).all .leading = .ok leading) (hn : (partsOf n).all .name = .ok name)
    (hs : (partsOf n).all .suffix = .ok suffix) (parent : Option Kind) :
    n.source parent = .ok (commandText leading name suffix ++ background n.head.async) := by
  obtain ⟨async, head⟩ := isHeadOf_kind kind
  have tail := tail_background (n := n) (by rw [kind]; rfl)
  rw [head] at tail
  rw [source_eq_layout, head]
  simp only [layout, Source.command, hl, hn, hs, tail]
  rfl

theorem says_command (kind : n.kind = .command) (speakable : Speakable Q n) :
    ∃ x, Says Q (level n.kind) n x := by
  have nameMember : Member.child .name .optional (.only .word) ∈ n.kind.members := by
    rw [kind]
    decide
  have order : n.kind.fieldOrder = [.name, .leading, .suffix] := by rw [kind]; rfl
  have foreground : foreground n.head = .command false := by
    obtain ⟨async, head⟩ := isHeadOf_kind kind
    rw [head]
    rfl
  obtain ⟨before, w₁, ms₁, leading⟩ := exists_leading kind speakable
  obtain ⟨after, w₂, ms₂, suffix⟩ := exists_suffix kind speakable
  have hl : (partsOf n).all .leading = .ok before := by
    show sourcesIn n.kind .leading n.children = _
    rw [sourcesIn_eq]
    exact leading.source n.kind
  have hs : (partsOf n).all .suffix = .ok after := by
    show sourcesIn n.kind .suffix n.children = _
    rw [sourcesIn_eq]
    exact suffix.source n.kind
  have level : level n.kind = .command := by rw [kind]; rfl
  rw [level]
  rcases all_eq_of_optional speakable.typed nameMember with missing | ⟨name, one, isWord⟩
  · -- Without a name there is something before it, and nothing after it.
    obtain ⟨some, none⟩ := speakable.sayable.here.unnamed kind missing
    have hn : (partsOf n).all .name = .ok [] := by
      show sourcesIn n.kind .name n.children = _
      rw [sourcesIn_eq]
      exact congrArg (List.mapM _) missing
    obtain rfl := suffix.filled.mpr none
    have reads := leading.reads
    refine ⟨⟨⟨w₁, simpleCommand Option.none (ms₁.map .node), n.head.async⟩,
      commandText before [] []⟩, fun k _ => source_command kind hl hn hs k, ?spells,
      leading.fresh some, rfl, ?reads, ?exact⟩
    case spells =>
      have letters : (commandText before [] []).toList = (join " " before).toList ++ [' ', ' '] := by
        simp [commandText, join]
      have blanks : Spells Q isDelimited [] [' ', ' '] :=
        Spells.nil.blank.blank.strengthen fun _ _ => rfl
      have whole := leading.spells.append blanks fun _ _ => rfl
      rw [List.append_nil] at whole
      rw [letters]
      exact whole
    case reads =>
      rcases reads with reads | ⟨empty, -⟩
      · exact reads_command_of_simple (reads_unnamed reads)
      · have fresh := leading.fresh some
        rw [empty] at fresh
        cases fresh
    case exact =>
      intro exact
      rw [simpleCommand_unnamed reads.plain, leading.exact fun m hm => exact.all hm, ← foreground]
      apply statement_eq speakable.typed exact.here (by rw [kind]; rfl)
      rw [order, List.map_cons, List.map_cons, List.map_cons, missing, none]
      rfl
  · have word : name.kind = .word := by simpa [Admission.kinds] using isWord
    have here : name ∈ n.all .name := one ▸ List.mem_singleton_self name
    have hn : (partsOf n).all .name = .ok [String.ofList (charactersOf name)] := by
      rw [partsOf_words (f := .name) fun m hm => by
        rw [one, List.mem_singleton] at hm
        exact hm ▸ word, one]
      rfl
    refine ⟨⟨⟨w₁ ++ ⟨.commandWord, charactersOf name⟩ :: w₂, simpleCommand none
      (ms₁.map .node ++ .node (wordNode .word none (charactersOf name)) :: ms₂.map .node),
      n.head.async⟩, commandText before [String.ofList (charactersOf name)] after⟩,
      fun k _ => source_command kind hl hn hs k, ?spells, ?fresh, rfl,
      reads_command_of_simple (reads_named leading.reads suffix.reads), ?exact⟩
    case spells =>
      have own : Spells Q isDelimited [⟨.commandWord, charactersOf name⟩] (charactersOf name) :=
        spells_word (speakable.sayable.here.commandName kind name here)
          (admitted_word word (speakable.all here).admitted.here).2
      have letters : (commandText before [String.ofList (charactersOf name)] after).toList =
          (join " " before).toList ++ ' ' :: (charactersOf name ++ ' ' :: (join " " after).toList) := by
        simp [commandText, join]
      rw [letters]
      exact leading.spells.append (own.append suffix.spells.blank fun _ _ => rfl).blank fun _ _ => rfl
    case fresh =>
      -- Without anything before it the name comes first.
      by_cases none : n.all .leading = []
      · rw [leading.bare none]
        rfl
      · exact isFresh_append (leading.fresh none)
    case exact =>
      intro exact
      rw [simpleCommand_named leading.reads.plain rfl, leading.exact fun m hm => exact.all hm,
        suffix.exact fun m hm => exact.all hm, wordNode_eq_word word (exact.all here).here, ← foreground]
      apply statement_eq speakable.typed exact.here (by rw [kind]; rfl)
      rw [order, List.map_cons, List.map_cons, List.map_cons, one]
      rfl

/-! ### Pipelines -/

/-- Commands with bars between them, as one command is made of them. -/
def sequenceOf (m : Node) (ms : List Node) : Node :=
  if ms.isEmpty then m else assemble (.pipeline false false) none [(.commands, m :: ms)]

theorem reads_sequenceOf {x : List Lexeme × Node} {xs : List (List Lexeme × Node)}
    (h : ∀ y ∈ x :: xs, Reads .command y.1 [.node y.2]) :
    Reads .pipeSequence (x.1 ++ xs.flatMap fun x => punctuation .bar :: x.1)
      [.node (sequenceOf x.2 (xs.map (·.2)))] := by
  cases xs with
  | nil =>
    rw [List.flatMap_nil, List.append_nil]
    exact reads_single (h x (List.mem_cons_self ..))
  | cons y ys => exact reads_sequence (List.cons_ne_nil y ys) h

/-- What is read of commands with bars between them, negated or not, is the
    pipeline of the commands if it is one. -/
theorem negate_sequenceOf {m : Node} {ms : List Node} {bang : Bool} (plain : m.kind ≠ .pipeline)
    (several : bang = false → 2 ≤ (m :: ms).length) :
    (if bang then negate none (sequenceOf m ms) else sequenceOf m ms) =
      assemble (.pipeline false bang) none [(.commands, m :: ms)] := by
  cases ms with
  | nil =>
    cases bang with
    | false => exact absurd (several rfl) (by simp)
    | true =>
      obtain ⟨hd, l, cs⟩ := m
      cases hd <;> first | rfl | exact absurd rfl plain
  | cons m' ms => cases bang <;> rfl

/-- Commands with bars between them. -/
theorem spells_sequence (furnished : Furnished Q) {phrase : Node → Phrase} {m : Node}
    {ms : List Node}
    (h : ∀ c ∈ m :: ms, Spells Q isDelimited (phrase c).lexemes (phrase c).text.toList) :
    Spells Q isDelimited
      ((phrase m).lexemes ++ ms.flatMap fun c => punctuation .bar :: (phrase c).lexemes)
      (join " | " ((m :: ms).map fun c => (phrase c).text)).toList := by
  apply spells_join (w := fun c => (phrase c).lexemes) (t := fun c => (phrase c).text)
    (h m (List.mem_cons_self ..)) _ fun _ => rfl
  intro c hc
  have bar : Spells Q (mayFollow (.sign .bar)) [punctuation .bar] ['|'] :=
    spells_punctuation rfl rfl (furnished.sign .bar)
  exact (bar.append (h c (List.mem_cons_of_mem _ hc)).blank fun _ _ => rfl).blank

theorem says_pipeline (furnished : Furnished Q) (kind : n.kind = .pipeline)
    (speakable : Speakable Q n) (below : ∀ f m, Site n f m → Heard Q m) :
    ∃ x, Says Q (level n.kind) n x := by
  obtain ⟨async, bang, head⟩ := isHeadOf_kind kind
  have member : Member.child .commands .many (.oneOf Kind.statements) ∈ n.kind.members := by
    rw [kind]
    decide
  have members := speakable.sayable.here.members kind
  have group : isGroupParent n.kind = true := by rw [kind]; rfl
  -- What stands between bars is no pipeline and no connective, so it is read as a command.
  have heard : ∀ c ∈ n.all .commands, ∃ x, Says Q .command c x := by
    intro c hc
    have said := below .commands c (.child (mem_all_iff.mp hc))
      (kind_mem_of_mem_all speakable.typed member hc)
      (speakable.sayable.here.filled .commands (by rw [kind]; rfl) c hc) (speakable.all hc)
    rwa [level_eq_command (members c hc).2.2 (members c hc).2.1] at said
  choose! phrase said using heard
  have texts : (partsOf n).all .commands = .ok ((n.all .commands).map fun c => (phrase c).text) :=
    partsOf_all fun c hc => (said c hc).source_eq (members c hc).1 _ fun _ => group
  have tail := tail_background (n := n) (by rw [kind]; rfl)
  rw [head] at tail
  have level : level n.kind = .pipeline := by rw [kind]; rfl
  rw [level]
  cases hns : n.all .commands with
  | nil => exact absurd hns (speakable.sayable.here.piped kind)
  | cons m ms =>
    rw [hns] at said texts members
    have sequence : Reads .pipeSequence
        ((phrase m).lexemes ++ ms.flatMap fun c => punctuation .bar :: (phrase c).lexemes)
        [.node (sequenceOf (phrase m).node (ms.map fun c => (phrase c).node))] := by
      have members : ∀ y ∈ (phrase m).item :: ms.map (fun c => (phrase c).item),
          Reads .command y.1 [.node y.2] := by
        intro y hy
        have hy' : y ∈ (m :: ms).map fun c => (phrase c).item := hy
        obtain ⟨c, hc, rfl⟩ := List.mem_map.mp hy'
        exact (said c hc).reads
      have reads := reads_sequenceOf members
      rw [List.flatMap_map, List.map_map] at reads
      exact reads
    have spelled := spells_sequence furnished fun c hc => (said c hc).spells
    have fresh := isFresh_append (v := ms.flatMap fun c => punctuation .bar :: (phrase c).lexemes)
      (said m (List.mem_cons_self ..)).fresh
    refine ⟨⟨⟨(if bang then [keyword .bang] else []) ++
        ((phrase m).lexemes ++ ms.flatMap fun c => punctuation .bar :: (phrase c).lexemes),
      if bang then negate none (sequenceOf (phrase m).node (ms.map fun c => (phrase c).node))
        else sequenceOf (phrase m).node (ms.map fun c => (phrase c).node), n.head.async⟩,
      (if bang then "! " else "") ++ join " | " ((m :: ms).map fun c => (phrase c).text)⟩,
      ?source, ?spells, ?fresh, rfl, ?reads, ?exact⟩
    case source =>
      intro k _
      rw [source_eq_layout, head]
      simp only [layout, texts, tail]
      rfl
    case spells =>
      cases bang with
      | false =>
        rw [String.toList_append]
        exact spelled
      | true =>
        have sign : Spells Q endsWord [keyword .bang] ['!'] :=
          spells_keyword rfl rfl (furnished.reserved .bang rfl)
        rw [String.toList_append]
        exact sign.append spelled.blank fun _ _ => rfl
    case fresh =>
      cases bang with
      | false => exact fresh
      | true => rfl
    case reads =>
      cases bang with
      | false => exact reads_pipeline sequence
      | true => exact reads_bang sequence
    case exact =>
      -- One command alone is a pipeline only if it is negated.
      intro exact
      have same : ∀ c ∈ m :: ms, (phrase c).node = c := fun c hc =>
        (said c hc).node_eq (members c hc).1 (exact.all (hns ▸ hc))
      have others : ms.map (fun c => (phrase c).node) = ms :=
        (List.map_congr_left fun c hc => same c (List.mem_cons_of_mem m hc)).trans (List.map_id _)
      have several : bang = false → 2 ≤ (m :: ms).length := by
        rintro rfl
        exact hns ▸ exact.here.several async head
      have foreground : foreground n.head = .pipeline false bang := by rw [head]; rfl
      rw [same m (List.mem_cons_self ..), others,
        negate_sequenceOf (members m (List.mem_cons_self ..)).2.1 several, ← foreground]
      apply statement_eq speakable.typed exact.here (by rw [kind]; rfl)
      have order : n.kind.fieldOrder = [.commands] := by rw [kind]; rfl
      rw [order, List.map_cons, hns]
      rfl

/-! ### Connectives -/

/-- One operand of a connective. -/
theorem exists_operand (kind : n.kind = .logicalExpression)
    (speakable : Speakable Q n) (below : ∀ f m, Site n f m → Heard Q m) {f : Field}
    (member : Member.child f .required (.oneOf Kind.statements) ∈ n.kind.members) :
    ∃ m x, n.all f = [m] ∧ m.head.async = false ∧ Says Q (level m.kind) m x ∧
      (partsOf n).one f = .ok x.text := by
  obtain ⟨m, one, isStatement⟩ := exists_all_eq_of_required speakable.typed member
  have here : m ∈ n.all f := one ▸ List.mem_singleton_self m
  have filled : mayBeEmpty n.kind f = false := by
    rw [kind] at member ⊢
    revert member
    cases f <;> decide
  obtain ⟨x, said⟩ := below f m (.child (mem_all_iff.mp here)) isStatement
    (speakable.sayable.here.filled f filled m here) (speakable.all here)
  have front := speakable.sayable.here.operands kind f m here
  have source := said.source_eq front n.kind fun _ => by rw [kind]; rfl
  exact ⟨m, x, one, front, said, partsOf_one one source⟩

theorem says_logical (furnished : Furnished Q) (kind : n.kind = .logicalExpression)
    (speakable : Speakable Q n) (below : ∀ f m, Site n f m → Heard Q m) :
    ∃ x, Says Q (level n.kind) n x := by
  obtain ⟨async, op, head⟩ := isHeadOf_kind kind
  obtain ⟨l, x, oneLeft, frontLeft, left, sourceLeft⟩ := exists_operand (f := .left) kind speakable
    below (by rw [kind]; decide)
  obtain ⟨r, y, oneRight, frontRight, right, sourceRight⟩ := exists_operand (f := .right) kind speakable
    below (by rw [kind]; decide)
  have hereLeft : l ∈ n.all .left := oneLeft ▸ List.mem_singleton_self l
  have hereRight : r ∈ n.all .right := oneRight ▸ List.mem_singleton_self r
  -- A connective to the right would have been read to the left.
  have single : r.kind ≠ .logicalExpression := speakable.sayable.here.second kind r hereRight
  have tail := tail_background (n := n) (by rw [kind]; rfl)
  rw [head] at tail
  have level : level n.kind = .andOr := by rw [kind]; rfl
  rw [level]
  refine ⟨⟨⟨x.lexemes ++ punctuation (connectiveSign op) :: y.lexemes,
    assemble (.logicalExpression false op) none [(.left, [x.node]), (.right, [y.node])],
    n.head.async⟩, x.text ++ (if op = .and then " && " else " || ") ++ y.text⟩,
    ?source, ?spells, isFresh_append left.fresh, rfl, ?reads, ?exact⟩
  case source =>
    intro k _
    rw [source_eq_layout, head]
    simp only [layout, sourceLeft, sourceRight, tail]
    rfl
  case spells =>
    have sign : Spells Q anything [punctuation (connectiveSign op)] (connectiveSign op).spelling := by
      cases op with
      | and => exact (spells_punctuation rfl rfl (furnished.sign .andIf)).strengthen fun _ _ => rfl
      | or => exact (spells_punctuation rfl rfl (furnished.sign .orIf)).strengthen fun _ _ => rfl
    -- Blanks stand on both sides of the sign.
    have letters : (x.text ++ (if op = .and then " && " else " || ") ++ y.text).toList =
        x.text.toList ++ ' ' :: ((connectiveSign op).spelling ++ ' ' :: y.text.toList) := by
      cases op <;> simp [connectiveSign, Sign.spelling]
    rw [letters]
    exact left.spells.append (sign.append right.spells.blank fun _ _ => rfl).blank fun _ _ => rfl
  case reads =>
    exact reads_connective op (reads_andOr_of_level left.reads)
      (reads_pipeline_of_level right.reads single)
  case exact =>
    intro exact
    have foreground : foreground n.head = .logicalExpression false op := by rw [head]; rfl
    rw [left.node_eq frontLeft (exact.all hereLeft), right.node_eq frontRight (exact.all hereRight),
      ← foreground]
    apply statement_eq speakable.typed exact.here (by rw [kind]; rfl)
    have order : n.kind.fieldOrder = [.left, .right] := by rw [kind]; rfl
    rw [order, List.map_cons, List.map_cons, oneLeft, oneRight]
    rfl

/-! ### Statements and scripts -/

/-- Every statement can be said. -/
theorem heard (furnished : Furnished Q) (n : Node) : Heard Q n := by
  -- A statement can be said if everything below it can.
  induction n using induct_below with
  | step n below =>
    intro isStatement filled speakable
    cases kind : n.kind with
    | logicalExpression => exact kind ▸ says_logical furnished kind speakable below
    | pipeline => exact kind ▸ says_pipeline furnished kind speakable below
    | command => exact kind ▸ says_command kind speakable
    | function => exact kind ▸ says_function furnished kind speakable below
    | subshell => exact kind ▸ says_subshell furnished kind speakable below
    | forLoop => exact kind ▸ says_for furnished kind speakable below
    | caseOf => exact kind ▸ says_case furnished kind speakable below
    | ifElse => exact kind ▸ says_if furnished kind speakable below
    | whileLoop => exact kind ▸ says_while furnished kind speakable below
    | untilLoop => exact kind ▸ says_until furnished kind speakable below
    | compoundList =>
      have members : ∀ m ∈ n.all .commands, ∃ x, Says Q (level m.kind) m x := by
        intro m hm
        have member : Member.child .commands .many (.oneOf Kind.statements) ∈ n.kind.members := by
          rw [kind]
          decide
        exact below .commands m (.child (mem_all_iff.mp hm))
          (kind_mem_of_mem_all speakable.typed member hm)
          (speakable.sayable.here.filled .commands (by rw [kind]; rfl) m hm) (speakable.all hm)
      obtain ⟨texts, w, ms, said⟩ := exists_list furnished (by rw [kind]; rfl) (filled kind) members
      exact kind ▸ says_group furnished kind speakable said
    | _ =>
      rw [kind] at isStatement
      simp [Kind.statements] at isStatement

/-- The text of a whole script, with the lexemes that spell it and the script that
    is read from them. -/
structure SaysScript (Q : Lexeme → Prop) (n : Node) (text : String) (w : List Lexeme) (m : Node) :
    Prop where
  /-- The script is printed as the text. -/
  source : n.source none = .ok text
  /-- The lexemes spell the text. -/
  spells : Spells Q isDelimited w text.toList
  /-- They are read as a script. -/
  reads : Reads .script w [.node m]
  /-- What is read is the script. -/
  exact : Throughout Exact n → m = n

/-- A script that can be said is one. -/
theorem exists_script (furnished : Furnished Q) (kind : n.kind = .script)
    (speakable : Speakable Q n) : ∃ text w m, SaysScript Q n text w m := by
  have head : n.head = .script := isHeadOf_kind kind
  have member : Member.child .commands .many (.oneOf Kind.statements) ∈ n.kind.members := by
    rw [kind]
    decide
  have source {texts : List String} (h : (partsOf n).all .commands = .ok texts) :
      n.source none = .ok (join "\n" texts) := by
    rw [source_eq_layout, head, layout, h]
    rfl
  have whole (exact : Throughout Exact n) :
      assemble .script none [(.commands, n.all .commands)] = n := by
    have loc : n.loc = none := exact.here.loc (by rw [kind]; rfl)
    have order : n.kind.fieldOrder = [.commands] := by rw [kind]; rfl
    have same := eq_assemble speakable.typed
    rw [order, head, loc] at same
    exact same.symm
  -- An empty script is read from nothing at all.
  by_cases empty : n.all .commands = []
  · have texts : (partsOf n).all .commands = .ok [] := by
      show sourcesIn n.kind .commands n.children = _
      rw [sourcesIn_eq]
      exact congrArg (List.mapM _) empty
    have reads : Reads .script [] [.node (assemble .script none [(.commands, [])])] := by
      apply Reads.of (s := .script) (p := [])
      · exact ⟨[], [], [], [], rfl, rfl, .inr ⟨rfl, rfl⟩, .inr ⟨rfl, rfl⟩⟩
      · rfl
    exact ⟨_, [], _, source texts, Spells.nil.strengthen fun _ _ => rfl, reads,
      fun exact => by rw [← whole exact, empty]⟩
  · have members : ∀ m ∈ n.all .commands, ∃ x, Says Q (level m.kind) m x := by
      intro m hm
      exact heard furnished m (kind_mem_of_mem_all speakable.typed member hm)
        (speakable.sayable.here.filled .commands (by rw [kind]; rfl) m hm) (speakable.all hm)
    obtain ⟨texts, w, ms, said⟩ := exists_list furnished (by rw [kind]; rfl) empty members
    have reads := said.reads.whole
    rw [all_listOf] at reads
    exact ⟨_, w, _, source said.source, said.spells, reads,
      fun exact => by rw [said.exact exact, whole exact]⟩

end

end ShellInliner.Parse
