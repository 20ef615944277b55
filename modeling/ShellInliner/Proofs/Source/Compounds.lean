import ShellInliner.Proofs.Source.Statements

/-! # Compound commands

    How the text of each compound command is read.  The text is the words that
    mark its parts, with the lists of statements between them, and its
    redirections. -/

namespace ShellInliner.Parse

open Grammar Node
open Source (Parts join layout isBraced isGroupParent)

section

variable {Q : Lexeme → Prop} {n c : Node} {texts : List String} {w : List Lexeme} {ms : List Node}

/-! ### Lists between reserved words -/

/-- A list on lines of its own. -/
theorem SaysList.lines (h : SaysList Q c texts w ms) (furnished : Furnished Q) :
    Spells Q isDelimited (newline :: w) ('\n' :: (join "\n" texts).toList) :=
  h.spells.line h.fresh furnished.newline

/-- A list before a reserved word on the next line. -/
theorem SaysList.before (h : SaysList Q c texts w ms) (furnished : Furnished Q) {r : Reserved}
    (written : isUnwritten (.reserved r) = false) (part : startOf? (.reserved r) = none) :
    Spells Q endsWord (w ++ [newline, keyword r])
      ((join "\n" texts).toList ++ '\n' :: r.spelling) :=
  h.spells.append (spells_line_keyword written furnished.newline (furnished.reserved r part))
    fun _ _ => rfl

/-- A list on lines of its own before a reserved word. -/
theorem SaysList.within (h : SaysList Q c texts w ms) (furnished : Furnished Q) {r : Reserved}
    (written : isUnwritten (.reserved r) = false) (part : startOf? (.reserved r) = none) :
    Spells Q endsWord (newline :: (w ++ [newline, keyword r]))
      ('\n' :: ((join "\n" texts).toList ++ '\n' :: r.spelling)) :=
  (h.lines furnished).append
    (spells_line_keyword written furnished.newline (furnished.reserved r part)) fun _ _ => rfl

/-- The body of a loop. -/
theorem SaysList.loopBody (h : SaysList Q c texts w ms) (furnished : Furnished Q) :
    Spells Q endsWord (newline :: enclosed (keyword .doWord) w (keyword .doneWord))
      ('\n' :: 'd' :: 'o' :: '\n' :: ((join "\n" texts).toList ++ ['\n', 'd', 'o', 'n', 'e'])) :=
  (spells_line_keyword rfl furnished.newline (furnished.reserved .doWord rfl)).append
    (h.within furnished (r := .doneWord) rfl rfl) fun _ _ => rfl

/-! ### The common shape -/

theorem of_redirectable {k : Kind} (h : k.sequenceFields.contains .redirections = true) :
    level k = .command ∧ k.isExpansion = false := by
  revert h
  cases k <;> decide

/-- A command that is printed with its redirections at its end. -/
theorem says_redirected {b : String} {g : List (Field × List Node)}
    (redirectable : n.kind.sequenceFields.contains .redirections = true)
    (speakable : Speakable Q n)
    (source : ∀ k rest, (n.kind = .compoundList → isGroupParent k = true) →
      Source.tail n.head (partsOf n) = .ok rest → n.source (some k) = .ok (b ++ rest))
    (spells : Spells Q endsWord w b.toList) (fresh : isFresh w = true)
    (reads : ∀ {w₂ rs}, MaybeReads .redirects w₂ (rs.map .node) → Reads .command (w ++ w₂)
      [.node (assemble (foreground n.head) none (g ++ [(.redirections, rs)]))])
    (exact : Throughout Exact n → g ++ [(.redirections, n.all .redirections)] =
      n.kind.fieldOrder.map fun f => (f, n.all f)) :
    ∃ x, Says Q (level n.kind) n x := by
  obtain ⟨text, w₂, rs, tail⟩ := exists_tail redirectable speakable
  obtain ⟨command, plain⟩ := of_redirectable redirectable
  refine ⟨⟨⟨w ++ w₂, assemble (foreground n.head) none (g ++ [(.redirections, rs)]),
    n.head.async⟩, b ++ text⟩, ?source, ?spells, isFresh_append fresh, rfl, ?reads, ?exact⟩
  case source =>
    intro k group
    rw [source k _ group tail.source, String.append_assoc]
  -- The redirections start with a blank or are not there, so the last word of the body ends.
  case spells =>
    show Spells Q isDelimited (w ++ w₂) (b ++ text).toList
    rw [String.toList_append]
    exact spells.append tail.spells fun rest hr => endsWord_of_isDelimited (tail.seam rest hr)
  case reads =>
    rw [command]
    exact reads tail.reads
  case exact =>
    intro ex
    have same := exact ex
    rw [← tail.exact ex] at same
    exact statement_eq speakable.typed ex.here plain same _

/-- A compound command is one. -/
theorem says_compound {b : String} {g : List (Field × List Node)}
    (redirectable : n.kind.sequenceFields.contains .redirections = true)
    (speakable : Speakable Q n)
    (source : ∀ k rest, (n.kind = .compoundList → isGroupParent k = true) →
      Source.tail n.head (partsOf n) = .ok rest → n.source (some k) = .ok (b ++ rest))
    (spells : Spells Q endsWord w b.toList) (fresh : isFresh w = true)
    (body : Reads .compoundBody w [.node (assemble (foreground n.head) none g)])
    (other : ∀ f ∈ g, f.1 ≠ .redirections)
    (exact : Throughout Exact n → g ++ [(.redirections, n.all .redirections)] =
      n.kind.fieldOrder.map fun f => (f, n.all f)) :
    ∃ x, Says Q (level n.kind) n x :=
  says_redirected redirectable speakable source spells fresh
    (fun tail => reads_command_of_compound (reads_compoundCommand body other tail)) exact

/-! ### Groups and subshells -/

theorem says_group (furnished : Furnished Q) (list : n.kind = .compoundList)
    (speakable : Speakable Q n) (said : SaysList Q n texts w ms) :
    ∃ x, Says Q (level n.kind) n x := by
  obtain ⟨async, head⟩ := isHeadOf_kind list
  apply says_compound (b := "\x7b\n" ++ join "\n" texts ++ "\n\x7d")
    (w := enclosed (keyword .openBrace) w (keyword .closeBrace)) (g := [(.commands, ms)])
    (by rw [list]; rfl) speakable
  case source =>
    intro k rest group tail
    -- Below such a parent the list is printed with its braces.
    have braced : isBraced (some k) n.kind = true := by
      rw [isBraced, list]
      exact group list
    rw [head] at tail
    rw [source_eq_layout, braced, head]
    simp only [layout, said.source, tail]
    rfl
  case spells =>
    have first : Spells Q endsWord [keyword .openBrace] ['\x7b'] :=
      spells_keyword rfl rfl (furnished.reserved .openBrace rfl)
    -- The braces stand on lines of their own, where they are reserved words.
    have letters : ("\x7b\n" ++ join "\n" texts ++ "\n\x7d").toList =
        '\x7b' :: '\n' :: ((join "\n" texts).toList ++ ['\n', '\x7d']) := by
      simp
    rw [letters]
    exact first.append (said.within furnished (r := .closeBrace) rfl rfl) fun _ _ => rfl
  case fresh => rfl
  case body =>
    rw [head]
    exact reads_braceGroup said.reads
  case other => simp
  case exact =>
    intro exact
    rw [said.exact exact, list]
    rfl

theorem says_subshell (furnished : Furnished Q) (kind : n.kind = .subshell)
    (speakable : Speakable Q n) (below : ∀ f m, Site n f m → Heard Q m) :
    ∃ x, Says Q (level n.kind) n x := by
  obtain ⟨async, head⟩ := isHeadOf_kind kind
  obtain ⟨texts, w, ms, c, body⟩ := exists_body (f := .list) furnished speakable below
    (by rw [kind]; decide) (by rw [kind]; rfl) (by rw [kind]; rfl)
  apply says_compound (b := "(" ++ join "\n" texts ++ ")")
    (w := punctuation .openParen :: (w ++ [punctuation .closeParen]))
    (g := [(.list, [listOf ms])]) (by rw [kind]; rfl) speakable
  case source =>
    intro k rest _ tail
    rw [head] at tail
    rw [source_eq_layout, head]
    simp only [layout, body.source, tail]
    rfl
  case spells =>
    -- Parentheses may touch the statements.
    have first : Spells Q anything [punctuation .openParen] ['('] :=
      (spells_punctuation rfl rfl (furnished.sign .openParen)).strengthen fun _ _ => rfl
    have last : Spells Q endsWord [punctuation .closeParen] [')'] :=
      (spells_punctuation rfl rfl (furnished.sign .closeParen)).strengthen fun _ _ => rfl
    have letters : ("(" ++ join "\n" texts ++ ")").toList =
        '(' :: ((join "\n" texts).toList ++ [')']) := by
      simp
    rw [letters]
    exact first.append (body.said.spells.append last fun _ _ => rfl) fun _ _ => rfl
  case fresh => rfl
  case body =>
    rw [head]
    exact reads_subshell body.said.reads
  case other => simp
  case exact =>
    intro exact
    rw [body.exact exact, ← body.one, kind]
    rfl

/-! ### Loops -/

/-- A loop with a condition. -/
theorem says_conditionLoop {r : Reserved} {v : String} (furnished : Furnished Q)
    (speakable : Speakable Q n) (below : ∀ f m, Site n f m → Heard Q m)
    (redirectable : n.kind.sequenceFields.contains .redirections = true)
    (members : ∀ f ∈ [Field.clause, Field.loopBody],
      Member.child f .required (.only .compoundList) ∈ n.kind.members)
    (plain : isGroupParent n.kind = false) (filled : ∀ f ∈ [Field.clause, Field.loopBody],
      mayBeEmpty n.kind f = false)
    (laid : ∀ braced parts, layout (m := Except Error) braced n.head parts =
      Source.conditionLoop v n.head parts)
    (spelling : v.toList = r.spelling) (opens : closes (.reserved r) = false)
    (written : isUnwritten (.reserved r) = false) (hr : Q (keyword r))
    (body : ∀ {w₁ w₂ : List Lexeme} {m m' : Node}, ReadsList w₁ m → ReadsList w₂ m' →
      Reads .compoundBody (conditionLoop r w₁ w₂)
        [.node (assemble (foreground n.head) none [(.clause, [m]), (.loopBody, [m'])])])
    (order : n.kind.fieldOrder = [.clause, .loopBody, .redirections]) :
    ∃ x, Says Q (level n.kind) n x := by
  obtain ⟨texts, w, ms, c, clause⟩ := exists_body (f := .clause) furnished speakable below
    (members _ (by simp)) plain (filled _ (by simp))
  obtain ⟨texts', w', ms', c', loop⟩ := exists_body (f := .loopBody) furnished speakable below
    (members _ (by simp)) plain (filled _ (by simp))
  apply says_compound
    (b := v ++ " " ++ join "\n" texts ++ "\ndo\n" ++ join "\n" texts' ++ "\ndone")
    (w := conditionLoop r w w') (g := [(.clause, [listOf ms]), (.loopBody, [listOf ms'])])
    redirectable speakable
  case source =>
    intro k rest _ tail
    rw [source_eq_layout, laid]
    simp only [Source.conditionLoop, clause.source, loop.source, tail]
    rfl
  case spells =>
    have first : Spells Q endsWord [keyword r] r.spelling := spells_keyword opens written hr
    -- Keyword, condition, `do`, body and `done` are spelled one after the other.
    have letters : (v ++ " " ++ join "\n" texts ++ "\ndo\n" ++ join "\n" texts' ++
        "\ndone").toList = r.spelling ++ (' ' :: (join "\n" texts).toList ++
          ('\n' :: 'd' :: 'o' :: '\n' ::
            ((join "\n" texts').toList ++ ['\n', 'd', 'o', 'n', 'e']))) := by
      simp [spelling]
    rw [letters]
    exact first.append (clause.said.spells.blank.append (loop.said.loopBody furnished)
      fun _ _ => rfl) fun _ _ => rfl
  case fresh => rfl
  case body => exact body clause.said.reads loop.said.reads
  case other => simp
  case exact =>
    intro exact
    rw [clause.exact exact, loop.exact exact, ← clause.one, ← loop.one, order]
    rfl

theorem says_while (furnished : Furnished Q) (kind : n.kind = .whileLoop)
    (speakable : Speakable Q n) (below : ∀ f m, Site n f m → Heard Q m) :
    ∃ x, Says Q (level n.kind) n x := by
  obtain ⟨async, head⟩ := isHeadOf_kind kind
  have admitted := speakable.admitted.here
  rw [Admitted, head] at admitted
  apply says_conditionLoop (r := .whileWord) (v := "while") furnished speakable below
  case hr => exact admitted _ (List.mem_singleton_self _)
  case laid =>
    rw [head]
    exact fun _ _ => rfl
  case body =>
    rw [head]
    exact reads_while
  all_goals first | rfl | (rw [kind]; first | rfl | decide)

theorem says_until (furnished : Furnished Q) (kind : n.kind = .untilLoop)
    (speakable : Speakable Q n) (below : ∀ f m, Site n f m → Heard Q m) :
    ∃ x, Says Q (level n.kind) n x := by
  obtain ⟨async, head⟩ := isHeadOf_kind kind
  have admitted := speakable.admitted.here
  rw [Admitted, head] at admitted
  apply says_conditionLoop (r := .untilWord) (v := "until") furnished speakable below
  case hr => exact admitted _ (List.mem_singleton_self _)
  case laid =>
    rw [head]
    exact fun _ _ => rfl
  case body =>
    rw [head]
    exact reads_until
  all_goals first | rfl | (rw [kind]; first | rfl | decide)

/-! ### Words and names -/

/-- The words in a field are printed as they are. -/
theorem partsOf_words {f : Field} (kinds : ∀ v ∈ n.all f, v.kind = .word) :
    (partsOf n).all f = .ok ((n.all f).map fun v => String.ofList (charactersOf v)) :=
  partsOf_all fun v hv => source_word (kinds v hv) _

theorem map_wordNode {f : Field} (kinds : ∀ v ∈ n.all f, v.kind = .word)
    (exact : Throughout Exact n) :
    ((n.all f).map charactersOf).map (wordNode .word none) = n.all f := by
  rw [List.map_map]
  apply (List.map_congr_left fun v hv => ?_).trans (List.map_id _)
  exact wordNode_eq_word (kinds v hv) (exact.all hv).here

theorem spells_words {f : Field} (speakable : Speakable Q n) (kinds : ∀ v ∈ n.all f, v.kind = .word) :
    ∀ v ∈ n.all f, Spells Q isDelimited [wordLexeme (charactersOf v)]
      (String.ofList (charactersOf v)).toList := by
  intro v hv
  have inner := speakable.all hv
  rw [String.toList_ofList]
  exact spells_argument (kinds v hv) inner.sayable.here inner.admitted.here

theorem admitted_name {m : Node} (kind : m.kind = .name) (admitted : Admitted Q m) :
    Q ⟨.name, charactersOf m⟩ ∧ Q ⟨.functionName, charactersOf m⟩ := by
  obtain ⟨hd, l, cs⟩ := m
  obtain ⟨t, rfl⟩ : ∃ t, hd = .name t := isHeadOf_kind kind
  exact ⟨admitted _ (by simp [ownLexemes, charactersOf, text?, Head.text?, Node.head]),
    admitted _ (by simp [ownLexemes, charactersOf, text?, Head.text?, Node.head])⟩

/-- A name that is read back is the name. -/
theorem name_eq {m : Node} (kind : m.kind = .name) (typed : m.isWellTyped = true) (exact : Exact m) :
    .mk (.name (String.ofList (charactersOf m))) none [] = m := by
  have loc : m.loc = none := exact.loc (by rw [kind]; rfl)
  have fields : m.kind.fieldOrder = [] := by rw [kind]; rfl
  have whole := eq_assemble typed
  rw [fields, loc] at whole
  obtain ⟨hd, l, cs⟩ := m
  obtain ⟨t, rfl⟩ : ∃ t, hd = .name t := isHeadOf_kind kind
  rw [whole]
  show Node.mk (.name (String.ofList t.toList)) none [] = Node.mk (.name t) none []
  rw [String.ofList_toList]

/-! ### Loops over words -/

/-- The words of a loop as they are printed. -/
def printedWords (texts : List String) : String :=
  if texts.isEmpty then "" else " in " ++ join " " texts

theorem toList_printedWords (t : String) (ts : List String) :
    (printedWords (t :: ts)).toList = ' ' :: (['i', 'n'] ++ ' ' :: (join " " (t :: ts)).toList) := by
  have text : printedWords (t :: ts) = " in " ++ join " " (t :: ts) := rfl
  rw [text, String.toList_append]
  rfl

theorem isDelimited_printedWords (texts : List String) {cs : List Char}
    (h : isDelimited cs = true) : isDelimited ((printedWords texts).toList ++ cs) = true := by
  cases texts with
  | nil => exact h
  | cons t ts =>
    rw [toList_printedWords]
    rfl

theorem spells_loopWords (furnished : Furnished Q) {words : List Node}
    (h : ∀ v ∈ words, Spells Q isDelimited [wordLexeme (charactersOf v)]
      (String.ofList (charactersOf v)).toList) :
    Spells Q isDelimited (loopWords (words.map charactersOf))
      (printedWords (words.map fun v => String.ofList (charactersOf v))).toList := by
  cases words with
  | nil => exact Spells.nil.strengthen fun _ _ => rfl
  | cons v vs =>
    -- The words have blanks between them, and a blank stands before `in` and after it.
    have row : Spells Q isDelimited
        ([wordLexeme (charactersOf v)] ++ vs.flatMap fun u => [wordLexeme (charactersOf u)])
        (join " " ((v :: vs).map fun v => String.ofList (charactersOf v))).toList := by
      apply spells_join (w := fun v => [wordLexeme (charactersOf v)])
        (t := fun v => String.ofList (charactersOf v)) (h v (List.mem_cons_self ..)) _ fun _ => rfl
      exact fun u hu => (h u (List.mem_cons_of_mem _ hu)).blank
    have first : Spells Q endsWord [keyword .inWord] ['i', 'n'] :=
      spells_keyword rfl rfl (furnished.reserved .inWord rfl)
    have lexemes : loopWords ((v :: vs).map charactersOf) = [keyword .inWord] ++
        ([wordLexeme (charactersOf v)] ++ vs.flatMap fun u => [wordLexeme (charactersOf u)]) := by
      unfold loopWords
      rw [← List.map_eq_flatMap, List.map_map, List.map_cons]
      rfl
    have whole := (first.append row.blank fun _ _ => rfl).blank
    rw [lexemes, List.map_cons, toList_printedWords]
    exact whole

theorem says_for (furnished : Furnished Q) (kind : n.kind = .forLoop)
    (speakable : Speakable Q n) (below : ∀ f m, Site n f m → Heard Q m) :
    ∃ x, Says Q (level n.kind) n x := by
  obtain ⟨async, head⟩ := isHeadOf_kind kind
  have admitted := speakable.admitted.here
  rw [Admitted, head] at admitted
  have wordMember : Member.child .wordlist .many (.only .word) ∈ n.kind.members := by
    rw [kind]
    decide
  obtain ⟨name, one, nameKind⟩ := exists_name speakable.typed (.inr kind)
  have here : name ∈ n.all .name := one ▸ List.mem_singleton_self name
  have words : ∀ v ∈ n.all .wordlist, v.kind = .word :=
    fun v hv => kind_eq_of_mem_all speakable.typed wordMember hv
  obtain ⟨texts, w, ms, c, loop⟩ := exists_body (f := .loopBody) furnished speakable below
    (by rw [kind]; decide) (by rw [kind]; rfl) (by rw [kind]; rfl)
  -- The words are named once, since without any of them nothing is printed, not even `in`.
  obtain ⟨printed, printed_eq⟩ : ∃ printed, printed =
      printedWords ((n.all .wordlist).map fun v => String.ofList (charactersOf v)) := ⟨_, rfl⟩
  apply says_compound
    (b := "for " ++ String.ofList (charactersOf name) ++ printed ++
      "\ndo\n" ++ join "\n" texts ++ "\ndone")
    (w := keyword .forWord :: ⟨.name, charactersOf name⟩ ::
      (loopWords ((n.all .wordlist).map charactersOf) ++
        newline :: enclosed (keyword .doWord) w (keyword .doneWord)))
    (g := [(.name, [.mk (.name (String.ofList (charactersOf name))) none []]),
      (.loopBody, [listOf ms]),
      (.wordlist, ((n.all .wordlist).map charactersOf).map (wordNode .word none))])
    (by rw [kind]; rfl) speakable
  case source =>
    intro k rest _ tail
    rw [head] at tail
    rw [source_eq_layout, head, printed_eq]
    simp only [layout, Source.forLoop, partsOf_bare one nameKind, partsOf_words words, loop.source,
      tail]
    rfl
  case spells =>
    have first : Spells Q endsWord [keyword .forWord] ['f', 'o', 'r'] :=
      spells_keyword rfl rfl (admitted _ (List.mem_singleton_self _))
    have second : Spells Q isDelimited [⟨.name, charactersOf name⟩] (charactersOf name) := by
      have own := admitted_name nameKind (speakable.all here).admitted.here
      exact spells_word (speakable.sayable.here.loopName kind _ here) own.1
    have third := spells_loopWords furnished (spells_words speakable words)
    have letters : ("for " ++ String.ofList (charactersOf name) ++ printed ++
        "\ndo\n" ++ join "\n" texts ++ "\ndone").toList =
        ['f', 'o', 'r'] ++ ' ' :: (charactersOf name ++ (printed.toList ++
          '\n' :: 'd' :: 'o' :: '\n' ::
              ((join "\n" texts).toList ++ ['\n', 'd', 'o', 'n', 'e']))) := by
      simp
    rw [← printed_eq] at third
    rw [letters]
    have tail := third.append (loop.said.loopBody furnished) fun _ _ => rfl
    refine first.append (second.append tail fun rest _ => ?_).blank fun _ _ => rfl
    rw [List.append_assoc, printed_eq]
    exact isDelimited_printedWords _ rfl
  case fresh => rfl
  case body =>
    rw [head]
    exact reads_for _ _ loop.said.reads
  case other => simp
  case exact =>
    intro exact
    rw [name_eq nameKind (speakable.all here).typed (exact.all here).here, loop.exact exact,
      map_wordNode words exact, ← loop.one, ← one, kind]
    rfl

end

end ShellInliner.Parse
