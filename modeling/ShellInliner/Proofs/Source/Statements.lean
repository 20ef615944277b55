import ShellInliner.Proofs.Source.Phrases

/-! # Statements

    How the text of a statement is read, given how the statements below it are.
    A statement is printed with its redirections and the mark of the background
    at its end; a list of statements is printed line by line. -/

namespace ShellInliner.Parse

open Grammar Node
open Source (Parts join layout isBraced isGroupParent)

section

variable {Q : Lexeme → Prop} {n c : Node}

/-! ### Levels -/

/-- The symbol that reads statements of a kind. -/
def level : Kind → Symbol
  | .logicalExpression => .andOr
  | .pipeline => .pipeline
  | _ => .command

theorem level_eq_command {k : Kind} (h : k ≠ .logicalExpression) (h' : k ≠ .pipeline) :
    level k = .command := by
  cases k <;> first | rfl | exact absurd rfl h | exact absurd rfl h'

theorem reads_pipeline_of_level {k : Kind} {w : List Lexeme} {m : Node}
    (h : Reads (level k) w [.node m]) (other : k ≠ .logicalExpression) :
    Reads .pipeline w [.node m] := by
  by_cases pipe : k = .pipeline
  · subst pipe
    exact h
  · rw [level_eq_command other pipe] at h
    exact reads_pipeline (reads_single h)

theorem reads_andOr_of_level {k : Kind} {w : List Lexeme} {m : Node}
    (h : Reads (level k) w [.node m]) : Reads .andOr w [.node m] := by
  by_cases logical : k = .logicalExpression
  · subst logical
    exact h
  · exact reads_andOr (reads_pipeline_of_level h logical)

/-! ### Marks -/

/-- The same head, not running in the background. -/
def foreground : Head → Head
  | .pipeline _ b => .pipeline false b
  | .logicalExpression _ o => .logicalExpression false o
  | .command _ => .command false
  | .function _ => .function false
  | .compoundList _ => .compoundList false
  | .subshell _ => .subshell false
  | .forLoop _ => .forLoop false
  | .caseOf _ => .caseOf false
  | .ifElse _ => .ifElse false
  | .whileLoop _ => .whileLoop false
  | .untilLoop _ => .untilLoop false
  | h => h

theorem inBackground_foreground (h : Head) :
    (if h.async then (foreground h).inBackground else foreground h) = h := by
  cases h <;> first
    | rfl
    | (rename_i async; cases async <;> rfl)
    | (rename_i async _; cases async <;> rfl)

/-- A node that is put together from its own children, with the mark that it has,
    is the node. -/
theorem statement_eq (typed : n.isWellTyped = true) (exact : Exact n)
    (plain : n.kind.isExpansion = false) {fields : List (Field × List Node)}
    (same : fields = n.kind.fieldOrder.map fun f => (f, n.all f)) (w : List Lexeme) :
    (⟨w, assemble (foreground n.head) none fields, n.head.async⟩ : Said).statement = n := by
  have head := inBackground_foreground n.head
  calc (⟨w, assemble (foreground n.head) none fields, n.head.async⟩ : Said).statement
      = assemble (if n.head.async then (foreground n.head).inBackground else foreground n.head)
          none fields := by
        cases n.head.async <;> rfl
    _ = assemble n.head n.loc (n.kind.fieldOrder.map fun f => (f, n.all f)) := by
        rw [head, same, exact.loc plain]
    _ = n := (eq_assemble typed).symm

/-- The mark of the background after a text. -/
theorem spells_mark (furnished : Furnished Q) (async : Bool) {w : List Lexeme} {s : String}
    (h : Spells Q isDelimited w s.toList) :
    Spells Q isDelimited (w ++ Said.mark async) (s ++ background async).toList := by
  rw [String.toList_append]
  cases async with
  | false =>
    show Spells Q isDelimited (w ++ []) (s.toList ++ [])
    rwa [List.append_nil, List.append_nil]
  | true =>
    have sign : Spells Q (mayFollow (.sign .ampersand)) [punctuation .ampersand] ['&'] :=
      spells_punctuation rfl rfl (furnished.sign .ampersand)
    have sign' : Spells Q isDelimited [punctuation .ampersand] ['&'] := by
      -- A delimiter is no second ampersand.
      apply sign.strengthen
      intro rest hr
      have other := head_of_isDelimited (p := (· != '&')) hr (by decide)
      cases rest with
      | nil => rfl
      | cons c cs => simpa [mayFollow] using other
    exact h.append sign'.blank fun _ _ => rfl

/-! ### Redirections at the end -/

/-- The redirections of a statement, as they are printed and read. -/
structure SaysTail (Q : Lexeme → Prop) (n : Node) (text : String) (w : List Lexeme)
    (rs : List Node) : Prop where
  /-- They are printed as the text, before the mark. -/
  source : Source.tail n.head (partsOf n) = .ok (text ++ background n.head.async)
  /-- The lexemes spell the text. -/
  spells : Spells Q isDelimited w text.toList
  /-- A delimiter stands before the text. -/
  seam : ∀ rest, isDelimited rest = true → isDelimited (text.toList ++ rest) = true
  /-- They are read. -/
  reads : MaybeReads .redirects w (rs.map .node)
  /-- What is read are the redirections. -/
  exact : Throughout Exact n → rs = n.all .redirections

/-- A statement that cannot have redirections ends with the mark. -/
theorem tail_background (h : n.kind.sequenceFields.contains .redirections = false) :
    Source.tail n.head (partsOf n) = .ok (background n.head.async) := by
  have h' : n.head.kind.sequenceFields.contains .redirections = false := h
  unfold Source.tail
  rw [h']
  show Except.ok ("" ++ background n.head.async) = _
  rw [String.empty_append]

theorem mem_members_of_redirections {k : Kind}
    (h : k.sequenceFields.contains .redirections = true) :
    Member.child .redirections .many (.only .redirect) ∈ k.members := by
  revert h
  cases k <;> decide

theorem exists_tail (h : n.kind.sequenceFields.contains .redirections = true)
    (speakable : Speakable Q n) : ∃ text w rs, SaysTail Q n text w rs := by
  have kinds : ∀ r ∈ n.all .redirections, r.kind = .redirect :=
    fun r hr => kind_eq_of_mem_all speakable.typed (mem_members_of_redirections h) hr
  have foreground : ∀ r ∈ n.all .redirections, r.head.async = false ∧ r.kind ≠ .compoundList := by
    intro r hr
    have kind := kinds r hr
    exact ⟨async_of_not_statement (by rw [kind]; decide), by rw [kind]; decide⟩
  obtain ⟨texts, w, ms, row⟩ := exists_row (s := .redirects) (o := .redirect) rfl
    (fun _ => rfl) foreground fun r hr => says_redirect (kinds r hr) (speakable.all hr)
  have all : (partsOf n).all .redirections = .ok texts := by
    show sourcesIn n.kind .redirections n.children = _
    rw [sourcesIn_eq]
    exact row.source n.kind
  refine ⟨if texts.isEmpty then "" else " " ++ join " " texts, w, ms, ?source, ?spells, ?seam,
    row.reads, fun exact => row.exact fun r hr => exact.all hr⟩
  case source =>
    have h' : n.head.kind.sequenceFields.contains .redirections = true := h
    unfold Source.tail
    rw [h']
    show ((partsOf n).all .redirections >>= _) = _
    rw [all]
    rfl
  case spells =>
    cases texts with
    | nil => exact row.spells
    | cons t ts =>
      show Spells Q isDelimited w (" " ++ join " " (t :: ts)).toList
      rw [String.toList_append]
      exact row.spells.blank
  -- Redirections start with a blank; without them the rest is what follows.
  case seam =>
    intro rest hr
    cases texts with
    | nil => exact hr
    | cons t ts =>
      show isDelimited ((" " ++ join " " (t :: ts)).toList ++ rest) = true
      rw [String.toList_append]
      rfl

/-! ### Lists -/

/-- The statements of a list, as they are printed and read. -/
structure SaysList (Q : Lexeme → Prop) (c : Node) (texts : List String) (w : List Lexeme)
    (ms : List Node) : Prop where
  /-- The statements are printed as the texts. -/
  source : (partsOf c).all .commands = .ok texts
  /-- There are statements. -/
  filled : texts ≠ []
  /-- There are as many texts as statements. -/
  length : texts.length = (c.all .commands).length
  /-- The lexemes spell the texts on lines of their own. -/
  spells : Spells Q isDelimited w (join "\n" texts).toList
  /-- The first lexeme is no line end. -/
  fresh : isFresh w = true
  /-- The lexemes are read as a list. -/
  reads : ReadsList w (listOf ms)
  /-- What is read are the statements of the list. -/
  exact : Throughout Exact c → ms = c.all .commands

/-- A list of statements that can be said can be said. -/
theorem exists_list (furnished : Furnished Q) (group : isGroupParent c.kind = true)
    (ne : c.all .commands ≠ [])
    (h : ∀ m ∈ c.all .commands, ∃ x, Says Q (level m.kind) m x) :
    ∃ texts w ms, SaysList Q c texts w ms := by
  choose! phrase said using h
  cases hns : c.all .commands with
  | nil => exact absurd hns ne
  | cons first others =>
    have said : ∀ m ∈ first :: others, Says Q (level m.kind) m (phrase m) := hns ▸ said
    have spelled (m : Node) (hm : m ∈ first :: others) :
        Spells Q isDelimited (phrase m).all ((phrase m).text ++ background (phrase m).async).toList :=
      spells_mark furnished _ (said m hm).spells
    have fresh (m : Node) (hm : m ∈ first :: others) : isFresh (phrase m).all = true :=
      isFresh_append (said m hm).fresh
    have here := List.mem_cons_self (a := first) (l := others)
    refine ⟨(first :: others).map fun m => (phrase m).text ++ background (phrase m).async,
      lineUp (phrase first).toSaid (others.map fun m => (phrase m).toSaid),
      ((first :: others).map fun m => (phrase m).toSaid).map Said.statement, ?source, by simp, by simp [hns],
      ?spells, isFresh_append (fresh first here), ?reads, ?exact⟩
    case source =>
      rw [← hns]
      apply partsOf_all
      intro m hm
      rw [hns] at hm
      exact (said m hm).source _ fun _ => group
    -- Each statement but the first stands on a new line.
    case spells =>
      rw [lineUp, List.flatMap_map]
      apply spells_join (w := fun m => (phrase m).all) (v := fun m => newline :: (phrase m).all)
        (spelled first here) _ fun _ => rfl
      intro m hm
      have hm' := List.mem_cons_of_mem first hm
      exact (spelled m hm').line (fresh m hm') furnished.newline
    case reads =>
      apply reads_list
      intro y hy
      have hy' : y ∈ (first :: others).map fun m => (phrase m).toSaid := hy
      obtain ⟨m, hm, rfl⟩ := List.mem_map.mp hy'
      exact reads_andOr_of_level (said m hm).reads
    case exact =>
      intro exact
      rw [List.map_map, hns]
      apply (List.map_congr_left fun m hm => ?_).trans (List.map_id _)
      exact (said m hm).exact (exact.all (hns ▸ hm))

/-- A list that is not set in braces is printed as its statements. -/
theorem source_plain {texts : List String} (source : (partsOf c).all .commands = .ok texts)
    (list : c.kind = .compoundList) {k : Kind} (plain : isGroupParent k = false) :
    c.source (some k) = .ok (join "\n" texts) := by
  obtain ⟨async, head⟩ := isHeadOf_kind list
  have unbraced : isBraced (some k) c.kind = false := by
    rw [isBraced, list]
    exact plain
  rw [source_eq_layout, unbraced, head, layout, source]
  rfl

/-- A list that is nothing but its statements is the list of them. -/
theorem listOf_commands (list : c.kind = .compoundList) (typed : c.isWellTyped = true)
    (plain : c.all .redirections = [] ∧ c.head.async = false) (exact : Exact c) :
    listOf (c.all .commands) = c := by
  obtain ⟨async, head⟩ := isHeadOf_kind list
  obtain rfl : async = false := by simpa [head, Head.async] using plain.2
  have loc : c.loc = none := exact.loc (by rw [list]; rfl)
  have fields : c.kind.fieldOrder = [.commands, .redirections] := by rw [list]; rfl
  have whole := eq_assemble typed
  rw [fields, head, loc] at whole
  simp only [List.map_cons, List.map_nil, plain.1] at whole
  rw [whole]
  simp [listOf, assemble, Node.all, Node.children, within]

/-- The list that is read is the list, if it is nothing but its statements. -/
theorem SaysList.node_eq {texts : List String} {w : List Lexeme} {ms : List Node}
    (h : SaysList Q c texts w ms) (list : c.kind = .compoundList) (typed : c.isWellTyped = true)
    (plain : c.all .redirections = [] ∧ c.head.async = false) (exact : Throughout Exact c) :
    listOf ms = c := by
  rw [h.exact exact]
  exact listOf_commands list typed plain exact.here

/-! ### What is known of the statements below -/

/-- The statement can be said, if it is one that can stand by itself. -/
def Heard (Q : Lexeme → Prop) (n : Node) : Prop :=
  n.kind ∈ Kind.statements → (n.kind = .compoundList → n.all .commands ≠ []) → Speakable Q n →
    ∃ x, Says Q (level n.kind) n x

/-- The list below a node can be said. -/
theorem exists_list_below (furnished : Furnished Q) (speakable : Speakable Q n)
    (below : ∀ f m, Site n f m → Heard Q m) {f : Field} (hc : c ∈ n.all f)
    (list : c.kind = .compoundList) (ne : c.all .commands ≠ []) :
    ∃ texts w ms, SaysList Q c texts w ms := by
  have inner := speakable.all hc
  apply exists_list furnished (by rw [list]; rfl) ne
  intro m hm
  -- A statement of the list stands two levels down.
  apply below .commands m (.deeper (mem_all_iff.mp hc) (.child (mem_all_iff.mp hm)))
  · have member : Member.child .commands .many (.oneOf Kind.statements) ∈ c.kind.members := by
      rw [list]
      decide
    exact kind_mem_of_mem_all inner.typed member hm
  · exact inner.sayable.here.filled .commands (by rw [list]; rfl) m hm
  · exact inner.all hm

/-- The one list in a field that has to be filled, as it is printed and read. -/
structure SaysBody (Q : Lexeme → Prop) (n : Node) (f : Field) (texts : List String)
    (w : List Lexeme) (ms : List Node) (c : Node) : Prop where
  /-- The list is the one in the field. -/
  one : n.all f = [c]
  /-- It is a list. -/
  list : c.kind = .compoundList
  /-- It can be said. -/
  said : SaysList Q c texts w ms
  /-- It is printed as its statements. -/
  source : (partsOf n).one f = .ok (join "\n" texts)
  /-- It is read as itself. -/
  exact : Throughout Exact n → listOf ms = c

theorem exists_body_of (furnished : Furnished Q) (speakable : Speakable Q n)
    (below : ∀ f m, Site n f m → Heard Q m) {f : Field} (one : n.all f = [c])
    (list : c.kind = .compoundList) (plain : isGroupParent n.kind = false)
    (ne : c.all .commands ≠ []) : ∃ texts w ms, SaysBody Q n f texts w ms c := by
  have here : c ∈ n.all f := one ▸ List.mem_singleton_self c
  obtain ⟨texts, w, ms, said⟩ := exists_list_below furnished speakable below here list ne
  refine ⟨texts, w, ms, one, list, said, partsOf_one one (source_plain said.source list plain), ?_⟩
  intro exact
  exact said.node_eq list (speakable.all here).typed
    (speakable.sayable.here.plain plain f c here list) (exact.all here)

theorem exists_body (furnished : Furnished Q) (speakable : Speakable Q n)
    (below : ∀ f m, Site n f m → Heard Q m) {f : Field}
    (member : Member.child f .required (.only .compoundList) ∈ n.kind.members)
    (plain : isGroupParent n.kind = false) (filled : mayBeEmpty n.kind f = false) :
    ∃ texts w ms c, SaysBody Q n f texts w ms c := by
  obtain ⟨c, one, kind⟩ := exists_all_eq_of_required speakable.typed member
  have list : c.kind = .compoundList := by simpa [Admission.kinds] using kind
  have here : c ∈ n.all f := one ▸ List.mem_singleton_self c
  have ne := speakable.sayable.here.filled f filled c here list
  obtain ⟨texts, w, ms, body⟩ := exists_body_of furnished speakable below one list plain ne
  exact ⟨texts, w, ms, c, body⟩

end

end ShellInliner.Parse
