import ShellInliner.Proofs.Source.Compounds

/-! # Choices, conditionals and functions

    How the texts of the compound commands are read in which a list of statements
    may be missing or without statements, and how that of a function is. -/

namespace ShellInliner.Parse

open Grammar Node
open Source (Parts join layout isBraced isGroupParent)

section

variable {Q : Lexeme → Prop} {n c : Node} {texts : List String} {w : List Lexeme} {ms : List Node}

/-! ### Functions -/

/-- The name of a function before its parentheses. -/
theorem spells_functionName {name : List Char} (isName : isFunctionNameText name = true)
    (hq : Q ⟨.functionName, name⟩) :
    Spells Q (fun rest => rest.head? == some '(') [⟨.functionName, name⟩] name := by
  apply Spells.lexeme (l := ⟨.functionName, name⟩) _ rfl rfl hq
  intro rest hr
  cases rest with
  | nil => cases hr
  | cons d rest =>
    obtain rfl : d = '(' := by simpa using hr
    exact ⟨nofun, functionNameLength?_paren isName rest, rfl⟩

/-- The parentheses of a function and the line end after its brace. -/
theorem spells_parentheses (furnished : Furnished Q) : Spells Q endsWord
    [punctuation .openParen, punctuation .closeParen, keyword .openBrace] ['(', ')', ' ', '\x7b'] := by
  have first : Spells Q anything [punctuation .openParen] ['('] :=
    (spells_punctuation rfl rfl (furnished.sign .openParen)).strengthen fun _ _ => rfl
  have second : Spells Q anything [punctuation .closeParen] [')'] :=
    (spells_punctuation rfl rfl (furnished.sign .closeParen)).strengthen fun _ _ => rfl
  have third : Spells Q endsWord [keyword .openBrace] ['\x7b'] :=
    spells_keyword rfl rfl (furnished.reserved .openBrace rfl)
  exact first.append (second.append third.blank fun _ _ => rfl) fun _ _ => rfl

theorem says_function (furnished : Furnished Q) (kind : n.kind = .function)
    (speakable : Speakable Q n) (below : ∀ f m, Site n f m → Heard Q m) :
    ∃ x, Says Q (level n.kind) n x := by
  obtain ⟨async, head⟩ := isHeadOf_kind kind
  obtain ⟨name, one, nameKind⟩ := exists_name speakable.typed (.inl kind)
  have here : name ∈ n.all .name := one ▸ List.mem_singleton_self name
  obtain ⟨texts, w, ms, c, body⟩ := exists_body (f := .body) furnished speakable below
    (by rw [kind]; decide) (by rw [kind]; rfl) (by rw [kind]; rfl)
  have list : (listOf ms).kind = .compoundList := rfl
  apply says_redirected
    (b := String.ofList (charactersOf name) ++ "() \x7b\n  " ++ join "\n" texts ++ "\n\x7d")
    (w := ⟨.functionName, charactersOf name⟩ :: punctuation .openParen ::
      punctuation .closeParen :: enclosed (keyword .openBrace) w (keyword .closeBrace))
    (g := [(.name, [.mk (.name (String.ofList (charactersOf name))) none []]), (.body, [listOf ms])])
    (by rw [kind]; rfl) speakable
  case source =>
    intro k rest _ tail
    rw [head] at tail
    rw [source_eq_layout, head]
    simp only [layout, Source.function, partsOf_bare one nameKind, body.source, tail]
    rfl
  case spells =>
    have first := spells_functionName (speakable.sayable.here.functionName kind name here)
      (admitted_name nameKind (speakable.all here).admitted.here).2
    have inside : Spells Q isDelimited (newline :: w)
        ('\n' :: ' ' :: ' ' :: (join "\n" texts).toList) :=
      body.said.spells.blank.blank.line body.said.fresh furnished.newline
    have last : Spells Q endsWord [newline, keyword .closeBrace] ['\n', '\x7d'] :=
      spells_line_keyword rfl furnished.newline (furnished.reserved .closeBrace rfl)
    have rest := (spells_parentheses furnished).append (inside.append last fun _ _ => rfl)
      fun _ _ => rfl
    -- The text is regrouped into what the lexemes spell; every seam is a delimiter.
    have letters : (String.ofList (charactersOf name) ++ "() \x7b\n  " ++ join "\n" texts ++
        "\n\x7d").toList = charactersOf name ++ (['(', ')', ' ', '\x7b'] ++
          ('\n' :: ' ' :: ' ' :: (join "\n" texts).toList ++ ['\n', '\x7d'])) := by
      simp
    rw [letters]
    exact first.append rest fun _ _ => rfl
  case fresh => rfl
  case reads =>
    intro w₂ rs tail
    rw [head]
    exact reads_command_of_function (reads_function _ body.said.reads list tail)
  -- Name, body and redirections are all that a function has.
  case exact =>
    intro exact
    rw [name_eq nameKind (speakable.all here).typed (exact.all here).here, body.exact exact,
      ← body.one, ← one, kind]
    rfl

/-! ### Branches of a choice -/

/-- The patterns of a branch. -/
theorem spells_patterns (furnished : Furnished Q) {p : Node} {ps : List Node}
    (words : ∀ v ∈ p :: ps, IsWord .word (charactersOf v))
    (h : ∀ v ∈ p :: ps, Spells Q isDelimited [wordLexeme (charactersOf v)]
      (String.ofList (charactersOf v)).toList) :
    Spells Q isDelimited (patternLexemes (charactersOf p) (ps.map charactersOf))
      (join "|" ((p :: ps).map fun v => String.ofList (charactersOf v))).toList := by
  have lexemes : patternLexemes (charactersOf p) (ps.map charactersOf) =
      [wordLexeme (charactersOf p)] ++
        ps.flatMap fun v => [punctuation .bar, wordLexeme (charactersOf v)] := by
    rw [patternLexemes, List.flatMap_map]
    rfl
  rw [lexemes]
  apply spells_join (w := fun v => [wordLexeme (charactersOf v)])
    (t := fun v => String.ofList (charactersOf v)) (h p (List.mem_cons_self ..)) _ fun _ => rfl
  intro v hv
  have hv' := List.mem_cons_of_mem p hv
  have bar : Spells Q (mayFollow (.sign .bar)) [punctuation .bar] ['|'] :=
    spells_punctuation rfl rfl (furnished.sign .bar)
  apply bar.append (h v hv')
  intro rest _
  -- A pattern starts with no meta character, so the bar is not doubled.
  have isWord := words v hv'
  rw [String.toList_ofList]
  cases letters : charactersOf v with
  | nil => exact absurd letters (text_ne_nil_of_isWord isWord)
  | cons d ds =>
    rw [letters] at isWord
    have plain := isMeta_of_isWord isWord
    by_cases bar : d = '|'
    · subst bar
      cases plain
    · simpa [mayFollow] using bar

/-- A branch with the sign that ends it. -/
structure SaysItem (Q : Lexeme → Prop) (c : Node) (x : Phrase) : Prop where
  /-- The branch is printed as the text. -/
  source : ∀ k, c.source (some k) = .ok x.text
  /-- The lexemes and the sign spell the text. -/
  spells : Spells Q (mayFollow (.sign .doubleSemicolon))
    (x.lexemes ++ [punctuation .doubleSemicolon]) x.text.toList
  /-- The first lexeme is no line end. -/
  fresh : isFresh x.lexemes = true
  /-- The lexemes are read as a branch. -/
  reads : Reads .caseItem x.lexemes [.node x.node]
  /-- What is read is the branch. -/
  exact : Throughout Exact c → x.node = c

/-- The sign that ends a branch, on a line of its own. -/
theorem spells_branchEnd (furnished : Furnished Q) : Spells Q (mayFollow (.sign .doubleSemicolon))
    [newline, punctuation .doubleSemicolon] ['\n', ';', ';'] :=
  .lineLexeme (l := punctuation .doubleSemicolon) (fun _ h => stands_punctuation _ h) rfl
    furnished.newline (furnished.sign .doubleSemicolon)

/-- What stands in a branch after its patterns, as it is printed and read. -/
structure SaysBranch (Q : Lexeme → Prop) (n : Node) (b : String) (v : List Lexeme) (m : Node) :
    Prop where
  /-- The list is printed as the text. -/
  source : (partsOf n).one .body = .ok b
  /-- The lexemes and the sign at the end spell the text on lines of its own. -/
  spells : Spells Q (mayFollow (.sign .doubleSemicolon)) (v ++ [punctuation .doubleSemicolon])
    ('\n' :: (b.toList ++ ['\n', ';', ';']))
  /-- After patterns the lexemes are read as a branch. -/
  reads : ∀ text texts, Reads .caseItem (patternLexemes text texts ++ punctuation .closeParen :: v)
    [.node (assemble .caseItem none
      [(.body, [m]), (.pattern, (text :: texts).map (wordNode .word none))])]
  /-- What is read is the list. -/
  exact : Throughout Exact n → n.all .body = [m]

theorem exists_branch (furnished : Furnished Q) (kind : n.kind = .caseItem)
    (speakable : Speakable Q n) (below : ∀ f m, Site n f m → Heard Q m) :
    ∃ b v m, SaysBranch Q n b v m := by
  have member : Member.child .body .required (.only .compoundList) ∈ n.kind.members := by
    rw [kind]
    decide
  obtain ⟨c, one, isList⟩ := exists_all_eq_of_required speakable.typed member
  have list : c.kind = .compoundList := by simpa [Admission.kinds] using isList
  have here : c ∈ n.all .body := one ▸ List.mem_singleton_self c
  have plain : isGroupParent n.kind = false := by rw [kind]; rfl
  have bare := speakable.sayable.here.plain plain .body c here list
  have typed := (speakable.all here).typed
  -- A branch without statements is printed as an empty line and read as an empty list.
  by_cases filled : c.all .commands = []
  · refine ⟨"", [newline], listOf [], ?source, (spells_branchEnd furnished).lines,
      reads_item_empty, ?exact⟩
    case source =>
      have source : (partsOf c).all .commands = .ok [] := by
        show sourcesIn c.kind .commands c.children = _
        rw [sourcesIn_eq]
        exact congrArg (List.mapM _) filled
      exact partsOf_one one (source_plain source list plain)
    case exact =>
      intro exact
      rw [one, ← filled, listOf_commands list typed bare (exact.all here).here]
  · obtain ⟨texts, w, ms, said⟩ := exists_list_below furnished speakable below here list filled
    refine ⟨join "\n" texts, newline :: (w ++ [newline]), listOf ms,
      partsOf_one one (source_plain said.source list plain), ?spells, ?reads, ?exact⟩
    case spells =>
      have whole := (said.lines furnished).append (spells_branchEnd furnished) fun _ _ => rfl
      simpa using whole
    case reads => exact fun text texts => reads_item text texts said.reads
    case exact =>
      intro exact
      rw [one, said.node_eq list typed bare (exact.all here)]

theorem exists_item (furnished : Furnished Q) (kind : n.kind = .caseItem)
    (speakable : Speakable Q n) (below : ∀ f m, Site n f m → Heard Q m) :
    ∃ x, SaysItem Q n x := by
  have head : n.head = .caseItem := isHeadOf_kind kind
  have member : Member.child .pattern .many (.only .word) ∈ n.kind.members := by
    rw [kind]
    decide
  have words : ∀ v ∈ n.all .pattern, v.kind = .word :=
    fun v hv => kind_eq_of_mem_all speakable.typed member hv
  obtain ⟨b, v, m, branch⟩ := exists_branch furnished kind speakable below
  have spelled := spells_words speakable words
  have texts := partsOf_words words
  have same : Throughout Exact n → _ := map_wordNode words
  cases patterns : n.all .pattern with
  | nil => exact absurd patterns (speakable.sayable.here.patterns kind)
  -- The grammar asks for a pattern, and the first one is printed apart from the others.
  | cons p ps =>
    rw [patterns] at words spelled texts same
    refine ⟨⟨⟨patternLexemes (charactersOf p) (ps.map charactersOf) ++ punctuation .closeParen :: v,
      assemble .caseItem none [(.body, [m]),
        (.pattern, (charactersOf p :: ps.map charactersOf).map (wordNode .word none))], false⟩,
      join "|" ((p :: ps).map fun v => String.ofList (charactersOf v)) ++ ")\n" ++ b ++ "\n;;"⟩,
      ?source, ?spells, rfl, branch.reads _ _, ?exact⟩
    case source =>
      intro k
      rw [source_eq_layout, head]
      simp only [layout, texts, branch.source]
      rfl
    case spells =>
      have isWords : ∀ v ∈ p :: ps, IsWord .word (charactersOf v) := by
        intro v hv
        exact (speakable.all (patterns ▸ hv)).sayable.here.word (words v hv)
      have first := spells_patterns furnished isWords spelled
      have paren : Spells Q anything [punctuation .closeParen] [')'] :=
        (spells_punctuation rfl rfl (furnished.sign .closeParen)).strengthen fun _ _ => rfl
      -- The closing parenthesis ends the patterns, and a line end follows it.
      have letters : (join "|" ((p :: ps).map fun v => String.ofList (charactersOf v)) ++ ")\n" ++ b ++
          "\n;;").toList =
          (join "|" ((p :: ps).map fun v => String.ofList (charactersOf v))).toList ++
            ([')'] ++ ('\n' :: (b.toList ++ ['\n', ';', ';']))) := by
        simp
      rw [letters]
      have whole := first.append (paren.append branch.spells fun _ _ => rfl) fun _ _ => rfl
      simpa using whole
    case exact =>
      intro exact
      have fields : n.kind.fieldOrder = [.body, .pattern] := by rw [kind]; rfl
      have loc : n.loc = none := exact.here.loc (by rw [kind]; rfl)
      have whole := eq_assemble speakable.typed
      rw [fields, head, loc] at whole
      have words' : (charactersOf p :: ps.map charactersOf).map (wordNode .word none) =
          n.all .pattern := (same exact).trans patterns.symm
      show assemble .caseItem none [(.body, [m]), (.pattern, List.map _ _)] = n
      rw [words', ← branch.exact exact]
      exact whole.symm

/-! ### Choices -/

/-- The lexemes of a branch with the node that is read from them. -/
def Phrase.item (x : Phrase) : List Lexeme × Node :=
  (x.lexemes, x.node)

/-- Branches on lines of their own, before the word that ends a choice. -/
theorem spells_items (furnished : Furnished Q) {phrase : Node → Phrase} {cs : List Node}
    (h : ∀ c ∈ cs, SaysItem Q c (phrase c)) : Spells Q endsWord
      (newline :: ((cs.map fun c => (phrase c).item).flatMap endedItem ++ [keyword .esacWord]))
      ((cs.flatMap fun c => '\n' :: (phrase c).text.toList) ++ ['\n', 'e', 's', 'a', 'c']) := by
  induction cs with
  | nil => exact spells_line_keyword rfl furnished.newline (furnished.reserved .esacWord rfl)
  | cons c cs ih =>
    have item := h c (List.mem_cons_self ..)
    have line := item.spells.line (isFresh_append item.fresh) furnished.newline
    have others := ih fun d hd => h d (List.mem_cons_of_mem _ hd)
    -- After `;;` comes a line end, that of the next branch or of `esac`.
    have seam : ∀ rest, endsWord rest = true → mayFollow (.sign .doubleSemicolon)
        ((cs.flatMap fun c => '\n' :: (phrase c).text.toList) ++ ['\n', 'e', 's', 'a', 'c'] ++ rest) =
          true := by
      intro rest _
      cases cs <;> rfl
    have whole := line.append others seam
    simpa [Phrase.item, endedItem] using whole

/-- The lines of a choice. -/
theorem spells_choiceLines (furnished : Furnished Q) {phrase : Node → Phrase} {cs : List Node}
    (h : ∀ c ∈ cs, SaysItem Q c (phrase c)) : Spells Q endsWord
      (newline :: ((cs.map fun c => (phrase c).item).flatMap endedItem ++ [keyword .esacWord]))
      ('\n' :: ((join "\n" (cs.map fun c => (phrase c).text)).toList ++
        ['\n', 'e', 's', 'a', 'c'])) := by
  have spelled := spells_items furnished h
  cases cs with
  -- Without branches `esac` stands on the next line but one.
  | nil => exact spelled.lines
  | cons c cs =>
    have letters : (join "\n" ((c :: cs).map fun c => (phrase c).text)).toList =
        (phrase c).text.toList ++ cs.flatMap fun d => '\n' :: (phrase d).text.toList := by
      rw [List.map_cons, toList_join, List.flatMap_map]
      rfl
    rw [letters]
    exact spelled

theorem says_case (furnished : Furnished Q) (kind : n.kind = .caseOf)
    (speakable : Speakable Q n) (below : ∀ f m, Site n f m → Heard Q m) :
    ∃ x, Says Q (level n.kind) n x := by
  obtain ⟨async, head⟩ := isHeadOf_kind kind
  have admitted := speakable.admitted.here
  rw [Admitted, head] at admitted
  have wordMember : Member.child .clause .required (.only .word) ∈ n.kind.members := by
    rw [kind]
    decide
  have itemMember : Member.child .cases .many (.only .caseItem) ∈ n.kind.members := by
    rw [kind]
    decide
  obtain ⟨word, one, isWord⟩ := exists_all_eq_of_required speakable.typed wordMember
  have wordKind : word.kind = .word := List.mem_singleton.mp isWord
  have here : word ∈ n.all .clause := one ▸ List.mem_singleton_self word
  -- A branch is no statement: what is known is known of the lists in the branches.
  have items : ∀ c ∈ n.all .cases, ∃ x, SaysItem Q c x := by
    intro c hc
    have itemKind : c.kind = .caseItem := kind_eq_of_mem_all speakable.typed itemMember hc
    exact exists_item furnished itemKind (speakable.all hc)
      fun f m site => below f m (.deeper (mem_all_iff.mp hc) site)
  choose! phrase said using items
  have texts : (partsOf n).all .cases = .ok ((n.all .cases).map fun c => (phrase c).text) :=
    partsOf_all fun c hc => (said c hc).source _
  have clause : (partsOf n).one .clause = .ok (String.ofList (charactersOf word)) :=
    partsOf_one one (source_word wordKind _)
  apply says_compound
    (b := "case " ++ String.ofList (charactersOf word) ++ " in\n" ++
      join "\n" ((n.all .cases).map fun c => (phrase c).text) ++ "\nesac")
    (w := choice (charactersOf word) ((n.all .cases).map fun c => (phrase c).item))
    (g := [(.clause, [wordNode .word none (charactersOf word)]),
      (.cases, (n.all .cases).map fun c => (phrase c).node)])
    (by rw [kind]; rfl) speakable
  case source =>
    intro k rest _ tail
    rw [head] at tail
    rw [source_eq_layout, head]
    simp only [layout, texts, clause, tail]
    rfl
  case spells =>
    have inner := speakable.all here
    have first : Spells Q endsWord [keyword .caseWord] ['c', 'a', 's', 'e'] :=
      spells_keyword rfl rfl (admitted _ (List.mem_singleton_self _))
    have second : Spells Q isDelimited [wordLexeme (charactersOf word)] (charactersOf word) :=
      spells_argument wordKind inner.sayable.here inner.admitted.here
    have third : Spells Q endsWord [keyword .inWord] ['i', 'n'] :=
      spells_keyword rfl rfl (furnished.reserved .inWord rfl)
    have whole := first.append (second.append (third.append (spells_choiceLines furnished said)
      fun _ _ => rfl).blank fun _ _ => rfl).blank fun _ _ => rfl
    have letters : ("case " ++ String.ofList (charactersOf word) ++ " in\n" ++
        join "\n" ((n.all .cases).map fun c => (phrase c).text) ++ "\nesac").toList =
        ['c', 'a', 's', 'e'] ++ ' ' :: (charactersOf word ++ ' ' :: (['i', 'n'] ++
          '\n' :: ((join "\n" ((n.all .cases).map fun c => (phrase c).text)).toList ++
            ['\n', 'e', 's', 'a', 'c']))) := by
      simp
    rw [letters]
    exact whole
  case fresh => rfl
  case body =>
    rw [head]
    have body := reads_case (charactersOf word) ((n.all .cases).map fun c => (phrase c).item) fun x hx => by
      obtain ⟨c, hc, rfl⟩ := List.mem_map.mp hx
      exact (said c hc).reads
    rwa [List.map_map] at body
  case other => simp
  case exact =>
    intro exact
    have same : (n.all .cases).map (fun c => (phrase c).node) = n.all .cases := by
      apply (List.map_congr_left fun c hc => ?_).trans (List.map_id _)
      exact (said c hc).exact (exact.all hc)
    rw [wordNode_eq_word wordKind (exact.all here).here, same, ← one, kind]
    rfl

/-! ### Conditionals -/

/-- The statements of the list in a field. -/
theorem partsOf_statements {f : Field} (one : n.all f = [c]) (list : c.kind = .compoundList)
    (source : (partsOf c).all .commands = .ok texts) :
    (partsOf n).statements f = .ok (some texts) := by
  have first : (within f n.children).head? = some c := by
    show (n.all f).head? = _
    rw [one]
    rfl
  have sources : sourcesIn c.kind .commands c.children = .ok texts := source
  -- Only a list has a sequence of statements that is printed without its braces.
  have isList : c.kind.sequenceFields.contains .commands = true := by
    rw [list]
    rfl
  show statementsIn f n.children = _
  rw [statementsIn_eq, first]
  simp only [isList, if_true, sources]
  rfl

theorem partsOf_statements_nil {f : Field} (empty : n.all f = []) :
    (partsOf n).statements f = .ok none := by
  have first : (within f n.children).head? = none := by
    show (n.all f).head? = _
    rw [empty]
    rfl
  show statementsIn f n.children = _
  rw [statementsIn_eq, first]

/-- A part of a conditional that is printed with the word before it, if it has a
    text. -/
def branchText (word s : String) : String :=
  if s = "" then "" else word ++ s ++ "\n"

theorem toList_branchText {s : String} (ne : s ≠ "") (word : String) :
    (branchText word s).toList = word.toList ++ (s.toList ++ ['\n']) := by
  rw [branchText, if_neg ne]
  simp

/-- The list of one statement is printed on one line. -/
theorem join_of_length_le_one (h : texts.length ≤ 1) : join " " texts = join "\n" texts := by
  match texts, h with
  | [], _ => rfl
  | [t], _ => rfl

theorem SaysList.text_ne (h : SaysList Q c texts w ms) : join "\n" texts ≠ "" := by
  intro empty
  apply h.spells.ne_nil h.fresh rfl
  rw [empty]
  rfl

/-- What a conditional does otherwise, as it is printed and read. -/
structure SaysOtherwise (Q : Lexeme → Prop) (n : Node) (texts : Option (List String))
    (negative : Option (List Lexeme)) (ns : List Node) : Prop where
  /-- The statements are printed as the texts. -/
  source : (partsOf n).statements .elseBranch = .ok texts
  /-- The lexemes spell the texts on lines of their own, up to the end of the
      conditional. -/
  spells : Spells Q endsWord (newline :: (otherwise negative ++ [keyword .fiWord]))
    ('\n' :: ((branchText "else\n" (join " " (texts.getD []))).toList ++ ['\n', 'f', 'i']))
  /-- The lexemes are read as the other branch. -/
  reads : ReadsOtherwise negative ns
  /-- What is read is the branch. -/
  exact : Throughout Exact n → n.all .elseBranch = ns

theorem exists_otherwise (furnished : Furnished Q) (kind : n.kind = .ifElse)
    (speakable : Speakable Q n) (below : ∀ f m, Site n f m → Heard Q m) :
    ∃ texts negative ns, SaysOtherwise Q n texts negative ns := by
  have member : Member.child .elseBranch .optional (.only .compoundList) ∈ n.kind.members := by
    rw [kind]
    decide
  have fi : Spells Q endsWord [newline, keyword .fiWord] ['\n', 'f', 'i'] :=
    spells_line_keyword rfl furnished.newline (furnished.reserved .fiWord rfl)
  rcases all_eq_of_optional speakable.typed member with missing | ⟨c, one, isList⟩
  · exact ⟨none, none, [], partsOf_statements_nil missing, fi.lines, rfl, fun _ => missing⟩
  · have list : c.kind = .compoundList := by simpa [Admission.kinds] using isList
    have here : c ∈ n.all .elseBranch := one ▸ List.mem_singleton_self c
    have plain : isGroupParent n.kind = false := by rw [kind]; rfl
    by_cases filled : c.all .commands = []
    · refine ⟨some [], none, [], partsOf_statements one list ?_, fi.lines, rfl, ?_⟩
      · show sourcesIn c.kind .commands c.children = _
        rw [sourcesIn_eq]
        exact congrArg (List.mapM _) filled
      · exact fun exact => absurd filled (exact.here.otherwise kind c here)
    · obtain ⟨texts, w, ms, body⟩ := exists_body_of furnished speakable below one list plain filled
      refine ⟨some texts, some w, [listOf ms], partsOf_statements one list body.said.source, ?spells,
        ⟨_, rfl, body.said.reads⟩, fun exact => by rw [one, body.exact exact]⟩
      case spells =>
        -- The branch is joined with blanks, the list with line ends: the same for one statement.
        have short : texts.length ≤ 1 := by
          rw [body.said.length]
          exact speakable.sayable.here.single kind .elseBranch (.inr rfl) c here
        have word : Spells Q endsWord [newline, keyword .elseWord] ['\n', 'e', 'l', 's', 'e'] :=
          spells_line_keyword rfl furnished.newline (furnished.reserved .elseWord rfl)
        have whole := word.append ((body.said.lines furnished).append fi.lines fun _ _ => rfl)
          fun _ _ => rfl
        have letters : (branchText "else\n" (join " " ((some texts).getD []))).toList =
            "else\n".toList ++ ((join "\n" texts).toList ++ ['\n']) := by
          rw [Option.getD_some, join_of_length_le_one short]
          exact toList_branchText body.said.text_ne _
        rw [letters]
        simpa [otherwise] using whole

theorem says_if (furnished : Furnished Q) (kind : n.kind = .ifElse)
    (speakable : Speakable Q n) (below : ∀ f m, Site n f m → Heard Q m) :
    ∃ x, Says Q (level n.kind) n x := by
  obtain ⟨async, head⟩ := isHeadOf_kind kind
  have admitted := speakable.admitted.here
  rw [Admitted, head] at admitted
  have plain : isGroupParent n.kind = false := by rw [kind]; rfl
  obtain ⟨texts, w, ms, c, clause⟩ := exists_body (f := .clause) furnished speakable below
    (by rw [kind]; decide) plain (by rw [kind]; rfl)
  -- The statements of the condition are joined by blanks, so there may be one at most.
  have short : texts.length ≤ 1 := by
    rw [clause.said.length]
    exact speakable.sayable.here.single kind .clause (.inl rfl) c
      (clause.one ▸ List.mem_singleton_self c)
  have thenMember : Member.child .thenBranch .optional (.only .compoundList) ∈ n.kind.members := by
    rw [kind]
    decide
  obtain ⟨d, thenOne, isList⟩ := (all_eq_of_optional speakable.typed thenMember).resolve_left
    (speakable.sayable.here.positive kind)
  have list : d.kind = .compoundList := by simpa [Admission.kinds] using isList
  have here : d ∈ n.all .thenBranch := thenOne ▸ List.mem_singleton_self d
  have filled := speakable.sayable.here.filled .thenBranch (by rw [kind]; rfl) d here list
  obtain ⟨texts', w', ms', positive⟩ :=
    exists_body_of furnished speakable below thenOne list plain filled
  obtain ⟨others, negative, ns, other⟩ := exists_otherwise furnished kind speakable below
  apply says_compound
    (b := "if " ++ join " " texts ++ "\n" ++ branchText "then\n" (join "\n" texts') ++
      branchText "else\n" (join " " (others.getD [])) ++ "\nfi")
    (w := conditionalLexemes w w' negative)
    (g := [(.clause, [listOf ms]), (.thenBranch, [listOf ms']), (.elseBranch, ns)])
    (by rw [kind]; rfl) speakable
  case source =>
    intro k rest _ tail
    rw [head] at tail
    rw [source_eq_layout, head]
    simp only [layout, Source.conditional, partsOf_statements clause.one clause.list clause.said.source,
      partsOf_statements thenOne list positive.said.source, other.source, tail]
    rfl
  case spells =>
    have first : Spells Q endsWord [keyword .ifWord] ['i', 'f'] :=
      spells_keyword rfl rfl (admitted _ (List.mem_singleton_self _))
    have second : Spells Q endsWord [newline, keyword .thenWord] ['\n', 't', 'h', 'e', 'n'] :=
      spells_line_keyword rfl furnished.newline (furnished.reserved .thenWord rfl)
    have whole := first.append (clause.said.spells.blank.append (second.append
      ((positive.said.lines furnished).append other.spells fun _ _ => rfl) fun _ _ => rfl)
        fun _ _ => rfl) fun _ _ => rfl
    rw [join_of_length_le_one short]
    simp only [String.toList_append, toList_branchText positive.said.text_ne]
    simpa [conditionalLexemes] using whole
  case fresh => rfl
  case body =>
    rw [head]
    exact reads_if clause.said.reads positive.said.reads other.reads
  case other => simp
  case exact =>
    intro exact
    rw [clause.exact exact, positive.exact exact, ← clause.one, ← thenOne, ← other.exact exact, kind]
    rfl

end

end ShellInliner.Parse
