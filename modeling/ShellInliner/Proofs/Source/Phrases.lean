import Mathlib.Tactic.Choose
import ShellInliner.Proofs.Grammar.Redirection
import ShellInliner.Proofs.Node.Fields
import ShellInliner.Proofs.Parse.Compounds

/-! # Phrases

    The text of a part of a tree, with the lexemes that spell it and the node that
    is read from them.  Here are the smallest parts: words, assignments and
    redirections, and rows of them between blanks.  What has to hold of a tree so
    that its text can be read, and what more so that the same tree comes out, is
    stated node by node. -/

namespace ShellInliner.Parse

open Grammar Node
open Source (Parts join layout isBraced isGroupParent)

/-! ### What is asked of a tree -/

/-- The characters of a word or a name. -/
def charactersOf (n : Node) : List Char :=
  (n.text?.getD "").toList

/-- May the lists in a field of this kind be without statements? -/
def mayBeEmpty (k : Kind) (f : Field) : Bool :=
  k == .caseItem || f == .elseBranch

/-- What a node needs besides its leaves so that its text can be read. -/
structure Shaped (n : Node) : Prop where
  /-- A list has statements where it has to. -/
  filled : ∀ f, mayBeEmpty n.kind f = false → ∀ c ∈ n.all f, c.kind = .compoundList →
    c.all .commands ≠ []
  /-- A list that is not set in braces is nothing but its statements. -/
  plain : isGroupParent n.kind = false → ∀ f, ∀ c ∈ n.all f, c.kind = .compoundList →
    c.all .redirections = [] ∧ c.head.async = false
  /-- A command without a name has something else, but no arguments. -/
  unnamed : n.kind = .command → n.all .name = [] → n.all .leading ≠ [] ∧ n.all .suffix = []
  /-- A pipeline has commands. -/
  piped : n.kind = .pipeline → n.all .commands ≠ []
  /-- None of them is a larger statement or runs in the background. -/
  members : n.kind = .pipeline → ∀ c ∈ n.all .commands,
    c.head.async = false ∧ c.kind ≠ .pipeline ∧ c.kind ≠ .logicalExpression
  /-- No operand runs in the background. -/
  operands : n.kind = .logicalExpression → ∀ f, ∀ c ∈ n.all f, c.head.async = false
  /-- The second operand is no row of operands itself. -/
  second : n.kind = .logicalExpression → ∀ c ∈ n.all .right, c.kind ≠ .logicalExpression
  /-- A conditional has something to do. -/
  positive : n.kind = .ifElse → n.all .thenBranch ≠ []
  /-- A branch has a pattern. -/
  patterns : n.kind = .caseItem → n.all .pattern ≠ []

/-- What a node needs so that its text can be read. -/
structure Sayable (n : Node) : Prop extends Shaped n where
  /-- A word is one wherever it stands. -/
  word : n.kind = .word → IsWord .word (charactersOf n)
  /-- So is an assignment. -/
  assignment : n.kind = .assignmentWord → IsWord .assignmentWord (charactersOf n)
  /-- A redirection has an operator that is told apart from the file, and its file
      descriptor is a number without too many digits. -/
  redirection : ∀ op number, n.head = .redirect op number →
    op.toList ∈ redirectOperators ∧
      (∀ i ∈ number, ∃ k : Nat, i = Int.ofNat k ∧ (Nat.toDigits 10 k).length ≤ digitLimit) ∧
      ∀ f ∈ n.all .file, (charactersOf f).head?.all (isApart op.toList) = true
  /-- The name of a command names one. -/
  commandName : n.kind = .command → ∀ m ∈ n.all .name, IsWord .commandWord (charactersOf m)
  /-- The name of a function names one. -/
  functionName : n.kind = .function → ∀ m ∈ n.all .name, isFunctionNameText (charactersOf m) = true
  /-- The name of a loop variable is an identifier. -/
  loopName : n.kind = .forLoop → ∀ m ∈ n.all .name, IsWord .name (charactersOf m)
  /-- What stands on one line in a conditional is one statement. -/
  single : n.kind = .ifElse → ∀ f, f = .clause ∨ f = .elseBranch → ∀ c ∈ n.all f,
    (c.all .commands).length ≤ 1

/-- What more a node needs so that its text is read as the node itself. -/
structure Exact (n : Node) : Prop where
  /-- Its place is not known. -/
  loc : n.kind.isExpansion = false → n.loc = none
  /-- The expansions of a word are those that are found in it. -/
  expansions : n.kind = .word ∨ n.kind = .assignmentWord →
    n.children = Word.expansionChildren (charactersOf n)
  /-- A pipeline has several commands or is negated. -/
  several : ∀ async, n.head = .pipeline async false → 2 ≤ (n.all .commands).length
  /-- The other branch of a conditional has statements. -/
  otherwise : n.kind = .ifElse → ∀ c ∈ n.all .elseBranch, c.all .commands ≠ []

/-- The lexemes that a node adds to its text and others do not. -/
def ownLexemes : Head → List Lexeme
  | .word t => [⟨.word, t.toList⟩, ⟨.commandWord, t.toList⟩]
  | .assignmentWord t => [⟨.assignmentWord, t.toList⟩]
  | .name t => [⟨.name, t.toList⟩, ⟨.functionName, t.toList⟩]
  | .redirect op number =>
    ⟨.redirectOperator, op.toList⟩ ::
      (number.map fun i => ⟨.ioNumber, (toString i).toList⟩).toList
  | .ifElse _ => [keyword .ifWord]
  | .forLoop _ => [keyword .forWord]
  | .whileLoop _ => [keyword .whileWord]
  | .untilLoop _ => [keyword .untilWord]
  | .caseOf _ => [keyword .caseWord]
  | _ => []

/-- The lexemes that a node adds have the property. -/
def Admitted (Q : Lexeme → Prop) (n : Node) : Prop :=
  ∀ l ∈ ownLexemes n.head, Q l

/-- The lexemes that any text is made of have the property. -/
structure Furnished (Q : Lexeme → Prop) : Prop where
  /-- Line ends. -/
  newline : Q newline
  /-- Signs. -/
  sign : ∀ s, Q (punctuation s)
  /-- Reserved words that start nothing. -/
  reserved : ∀ r, startOf? (.reserved r) = none → Q (keyword r)

/-! ### Phrases -/

/-- The mark of a statement that runs in the background, after its text. -/
def background (async : Bool) : String :=
  if async then " &" else ""

/-- A text with the lexemes that spell it and the node that is read from them. -/
structure Phrase extends Said where
  /-- The text, without the mark of the background. -/
  text : String

instance : Inhabited Phrase :=
  ⟨{ lexemes := [], node := default, async := false, text := "" }⟩

/-- The phrase is the text of the node where it is printed, and the symbol reads
    it. -/
structure Says (Q : Lexeme → Prop) (s : Symbol) (n : Node) (x : Phrase) : Prop where
  /-- The node is printed as the text and the mark. -/
  source : ∀ k, (n.kind = .compoundList → isGroupParent k = true) →
    n.source (some k) = .ok (x.text ++ background x.async)
  /-- The lexemes spell the text. -/
  spells : Spells Q isDelimited x.lexemes x.text.toList
  /-- They start with one that is no line end. -/
  fresh : isFresh x.lexemes = true
  /-- The mark is that of the node. -/
  async : x.async = n.head.async
  /-- The symbol reads the lexemes. -/
  reads : Reads s x.lexemes [.node x.node]
  /-- What is read is the node. -/
  exact : Throughout Exact n → x.statement = n

namespace Says

variable {Q : Lexeme → Prop} {s s' : Symbol} {n : Node} {x : Phrase}

theorem imp (h : Says Q s n x) (reads : ∀ {w m}, Reads s w [.node m] → Reads s' w [.node m]) :
    Says Q s' n x where
  source := h.source
  spells := h.spells
  fresh := h.fresh
  async := h.async
  reads := reads h.reads
  exact := h.exact

/-- A phrase without a mark. -/
theorem node_eq (h : Says Q s n x) (foreground : n.head.async = false)
    (exact : Throughout Exact n) : x.node = n := by
  have async := h.async.trans foreground
  have same := h.exact exact
  rwa [Said.statement, if_neg (by simp [async])] at same

theorem source_eq (h : Says Q s n x) (foreground : n.head.async = false)
    (k : Kind) (group : n.kind = .compoundList → isGroupParent k = true) :
    n.source (some k) = .ok x.text := by
  rw [h.source k group, h.async, foreground]
  show Except.ok (x.text ++ "") = _
  rw [String.append_empty]

end Says

/-! ### Texts of nodes -/

/-- What a layout is told about a node. -/
def partsOf (n : Node) : Parts (Except Error) :=
  ⟨fun f => sourcesIn n.kind f n.children, fun f => statementsIn f n.children,
    fun f => bareIn f n.children⟩

theorem source_eq_layout (parent : Option Kind) (n : Node) :
    n.source parent = layout (isBraced parent n.kind) n.head (partsOf n) := by
  cases n
  rfl

theorem partsOf_all {n : Node} {f : Field} {text : Node → String}
    (h : ∀ c ∈ n.all f, c.source (some n.kind) = .ok (text c)) :
    (partsOf n).all f = .ok ((n.all f).map text) :=
  sourcesIn_eq_ok h

theorem partsOf_bare {n m : Node} {f : Field} (one : n.all f = [m]) (name : m.kind = .name) :
    (partsOf n).bare f = .ok (String.ofList (charactersOf m)) := by
  obtain ⟨hd, l, cs⟩ := m
  obtain ⟨t, rfl⟩ : ∃ t, hd = .name t := isHeadOf_kind name
  show bareIn f n.children = _
  have first : within f n.children = [.mk (.name t) l cs] := one
  rw [bareIn, first]
  show Except.ok t = Except.ok (String.ofList t.toList)
  rw [String.ofList_toList]

/-! ### Rows -/

theorem toList_join (separator t : String) (ts : List String) :
    (join separator (t :: ts)).toList =
      t.toList ++ ts.flatMap fun u => separator.toList ++ u.toList := by
  induction ts generalizing t with
  | nil => simp [join]
  | cons u us ih =>
    have step : join separator (t :: u :: us) = t ++ separator ++ join separator (u :: us) := by
      simp [join, String.intercalate_cons_cons]
    rw [step, String.toList_append, String.toList_append, ih]
    simp

section

variable {Q : Lexeme → Prop} {α : Type}

/-- Parts that each start with a delimiter stand one after the other. -/
theorem spells_row {xs : List α} {w : α → List Lexeme} {s : α → List Char}
    (h : ∀ a ∈ xs, Spells Q isDelimited (w a) (s a))
    (seam : ∀ a ∈ xs, ∀ rest, isDelimited (s a ++ rest) = true) :
    Spells Q isDelimited (xs.flatMap w) (xs.flatMap s) := by
  induction xs with
  | nil => exact Spells.nil.strengthen fun _ _ => rfl
  | cons a as ih =>
    have first := h a (List.mem_cons_self ..)
    have others := ih (fun b hb => h b (List.mem_cons_of_mem _ hb))
      fun b hb => seam b (List.mem_cons_of_mem _ hb)
    rw [List.flatMap_cons, List.flatMap_cons]
    apply first.append others
    intro rest hr
    -- The next part starts with a delimiter; after the last one comes the rest.
    cases as with
    | nil => exact hr
    | cons b bs =>
      rw [List.flatMap_cons, List.append_assoc]
      exact seam b (List.mem_cons_of_mem _ (List.mem_cons_self ..)) _

/-- Texts with a separator between each two. -/
theorem spells_join {x : α} {xs : List α} {w v : α → List Lexeme} {t : α → String}
    {separator : String} (first : Spells Q isDelimited (w x) (t x).toList)
    (others : ∀ a ∈ xs, Spells Q isDelimited (v a) (separator.toList ++ (t a).toList))
    (seam : ∀ rest, isDelimited (separator.toList ++ rest) = true) :
    Spells Q isDelimited (w x ++ xs.flatMap v) (join separator ((x :: xs).map t)).toList := by
  rw [List.map_cons, toList_join, List.flatMap_map]
  apply first.append (spells_row others _)
  · -- After the first text comes a separator or the rest.
    intro rest hr
    cases xs with
    | nil => exact hr
    | cons a as =>
      rw [List.flatMap_cons, List.append_assoc, List.append_assoc]
      exact seam _
  · intro a _ rest
    rw [List.append_assoc]
    exact seam _

/-- Things between blanks, as they are printed and read. -/
structure SaysRow (Q : Lexeme → Prop) (many : Symbol) (ns : List Node) (texts : List String)
    (w : List Lexeme) (ms : List Node) : Prop where
  /-- The nodes are printed as the texts. -/
  source : ∀ k, ns.mapM (Node.source (some k)) = .ok texts
  /-- The lexemes spell the texts with blanks between them. -/
  spells : Spells Q isDelimited w (join " " texts).toList
  /-- There are texts if there are nodes. -/
  filled : texts = [] ↔ ns = []
  /-- Nothing is spelled without lexemes. -/
  bare : ns = [] → w = []
  /-- The first lexeme is no line end. -/
  fresh : ns ≠ [] → isFresh w = true
  /-- The symbol reads the lexemes. -/
  reads : MaybeReads many w (ms.map .node)
  /-- What is read are the nodes. -/
  exact : (∀ n ∈ ns, Throughout Exact n) → ms = ns

/-- A row of things that can be said can be said. -/
theorem exists_row {s o : Symbol}
    (alternatives : s.alternatives = [[.symbol o], [.symbol s, .symbol o]])
    (made : ∀ ps, symbolPieces s none ps = .ok ps) {ns : List Node}
    (foreground : ∀ n ∈ ns, n.head.async = false ∧ n.kind ≠ .compoundList)
    (h : ∀ n ∈ ns, ∃ x, Says Q o n x) : ∃ texts w ms, SaysRow Q s ns texts w ms := by
  choose! phrase said using h
  have source (k : Kind) : ns.mapM (Node.source (some k)) = .ok (ns.map fun n => (phrase n).text) := by
    -- The symbol stays out of the induction; it is about the texts alone.
    clear alternatives made
    induction ns with
    | nil => rfl
    | cons n ns ih =>
      have here := List.mem_cons_self (a := n) (l := ns)
      have first := (said n here).source_eq (foreground n here).1 k
        fun list => absurd list (foreground n here).2
      have others := ih (fun m hm => foreground m (List.mem_cons_of_mem _ hm))
        fun m hm => said m (List.mem_cons_of_mem _ hm)
      rw [List.mapM_cons, first, others]
      rfl
  refine ⟨ns.map fun n => (phrase n).text, ns.flatMap fun n => (phrase n).lexemes,
    ns.map fun n => (phrase n).node, source, ?spells, by simp, by rintro rfl; rfl, ?fresh, ?reads,
    ?exact⟩
  case spells =>
    cases ns with
    | nil => exact Spells.nil.strengthen fun _ _ => rfl
    | cons n ns =>
      rw [List.flatMap_cons]
      apply spells_join (w := fun n => (phrase n).lexemes) (t := fun n => (phrase n).text)
        (said n (List.mem_cons_self ..)).spells _ fun _ => rfl
      exact fun m hm => (said m (List.mem_cons_of_mem _ hm)).spells.blank
  case fresh =>
    intro ne
    cases ns with
    | nil => exact absurd rfl ne
    | cons n ns =>
      rw [List.flatMap_cons]
      exact isFresh_append (said n (List.mem_cons_self ..)).fresh
  case reads =>
    by_cases none : ns = []
    · subst none
      exact .inr ⟨rfl, rfl⟩
    · left
      exact reads_many_nodes alternatives made none _ _ fun n hn => (said n hn).reads
  case exact =>
    intro exact
    apply (List.map_congr_left fun n hn => ?_).trans (List.map_id ns)
    exact (said n hn).node_eq (foreground n hn).1 (exact n hn)

end

/-! ### Words and redirections -/

section

variable {Q : Lexeme → Prop} {n m : Node} {s : Symbol}

theorem exists_head_of_word (h : n.kind = .word) :
    n.head = .word (String.ofList (charactersOf n)) := by
  obtain ⟨text, head⟩ := isHeadOf_kind h
  simp [charactersOf, text?, head, Head.text?]

theorem exists_head_of_assignment (h : n.kind = .assignmentWord) :
    n.head = .assignmentWord (String.ofList (charactersOf n)) := by
  obtain ⟨text, head⟩ := isHeadOf_kind h
  simp [charactersOf, text?, head, Head.text?]

/-- A word is printed as it is. -/
theorem source_word (h : n.kind = .word) (parent : Option Kind) :
    n.source parent = .ok (String.ofList (charactersOf n)) := by
  rw [source_eq_layout, exists_head_of_word h]
  rfl

theorem source_assignment (h : n.kind = .assignmentWord) (parent : Option Kind) :
    n.source parent = .ok (String.ofList (charactersOf n)) := by
  rw [source_eq_layout, exists_head_of_assignment h]
  rfl

theorem eq_mk (n : Node) : n = .mk n.head n.loc n.children := by
  cases n
  rfl

/-- A word that is read back is the word. -/
theorem wordNode_eq_word (h : n.kind = .word) (exact : Exact n) :
    wordNode .word none (charactersOf n) = n := by
  have loc : n.loc = none := exact.loc (by rw [h]; rfl)
  have children := exact.expansions (.inl h)
  calc wordNode .word none (charactersOf n)
      = .mk n.head n.loc n.children := by rw [exists_head_of_word h, loc, children]; rfl
    _ = n := (eq_mk n).symm

theorem wordNode_eq_assignment (h : n.kind = .assignmentWord) (exact : Exact n) :
    wordNode .assignmentWord none (charactersOf n) = n := by
  have loc : n.loc = none := exact.loc (by rw [h]; rfl)
  have children := exact.expansions (.inr h)
  calc wordNode .assignmentWord none (charactersOf n)
      = .mk n.head n.loc n.children := by rw [exists_head_of_assignment h, loc, children]; rfl
    _ = n := (eq_mk n).symm

theorem admitted_word (h : n.kind = .word) (admitted : Admitted Q n) :
    Q (wordLexeme (charactersOf n)) ∧ Q ⟨.commandWord, charactersOf n⟩ := by
  rw [Admitted, exists_head_of_word h] at admitted
  simpa [ownLexemes, wordLexeme] using admitted

theorem spells_argument (h : n.kind = .word) (sayable : Sayable n) (admitted : Admitted Q n) :
    Spells Q isDelimited [wordLexeme (charactersOf n)] (charactersOf n) :=
  spells_word (sayable.word h) (admitted_word h admitted).1

theorem says_argument (h : n.kind = .word) (sayable : Sayable n) (admitted : Admitted Q n) :
    ∃ x, Says Q .suffixItem n x := by
  refine ⟨⟨⟨[wordLexeme (charactersOf n)], wordNode .word none (charactersOf n), false⟩,
    String.ofList (charactersOf n)⟩, ?_, ?_, rfl, ?_, reads_suffixWord _, ?_⟩
  · intro k _
    rw [source_word h]
    exact congrArg Except.ok (String.append_empty).symm
  · rw [String.toList_ofList]
    exact spells_argument h sayable admitted
  · rw [exists_head_of_word h]
    rfl
  · exact fun exact => wordNode_eq_word h exact.here

theorem says_assignment (h : n.kind = .assignmentWord) (sayable : Sayable n)
    (admitted : Admitted Q n) : ∃ x, Says Q .leadingItem n x := by
  refine ⟨⟨⟨[⟨.assignmentWord, charactersOf n⟩], wordNode .assignmentWord none (charactersOf n),
    false⟩, String.ofList (charactersOf n)⟩, ?_, ?_, rfl, ?_, reads_leadingAssignment _, ?_⟩
  · intro k _
    rw [source_assignment h]
    exact congrArg Except.ok (String.append_empty).symm
  · rw [String.toList_ofList]
    rw [Admitted, exists_head_of_assignment h] at admitted
    exact spells_word (sayable.assignment h) (by simpa [ownLexemes] using admitted)
  · rw [exists_head_of_assignment h]
    rfl
  · exact fun exact => wordNode_eq_assignment h exact.here

/-! ### Nodes that can be said -/

/-- The text of the node can be read, and its lexemes have the property. -/
structure Speakable (Q : Lexeme → Prop) (n : Node) : Prop where
  /-- The node is well-typed. -/
  typed : n.isWellTyped = true
  /-- Every node has what it needs. -/
  sayable : Throughout Sayable n
  /-- Every node adds lexemes that have the property. -/
  admitted : Throughout (Admitted Q) n

theorem Speakable.all {f : Field} (h : Speakable Q n) (hm : m ∈ n.all f) : Speakable Q m where
  typed := isWellTyped_of_mem_all h.typed hm
  sayable := h.sayable.all hm
  admitted := h.admitted.all hm

theorem partsOf_one {f : Field} {text : String} (one : n.all f = [m])
    (h : m.source (some n.kind) = .ok text) : (partsOf n).one f = .ok text := by
  have all : (partsOf n).all f = .ok ((n.all f).map fun _ => text) := by
    apply partsOf_all
    intro c hc
    rw [one, List.mem_singleton] at hc
    exact hc ▸ h
  rw [Parts.one, all, one]
  rfl

/-! ### Redirections -/

/-- The digits of a file descriptor as it is printed. -/
def digitsOf (number : Option Int) : Option (List Char) :=
  number.map fun i => (toString i).toList

theorem digitsOf_some {number : Option Int} {ds : List Char} (h : digitsOf number = some ds)
    (short : ∀ i ∈ number, ∃ k : Nat, i = Int.ofNat k ∧ (Nat.toDigits 10 k).length ≤ digitLimit) :
    ∃ k, number = some (Int.ofNat k) ∧ ds = Nat.toDigits 10 k ∧ ds.length ≤ digitLimit := by
  obtain ⟨i, rfl, rfl⟩ := Option.map_eq_some_iff.mp h
  obtain ⟨k, rfl, few⟩ := short i rfl
  have printed : (toString (Int.ofNat k)).toList = Nat.toDigits 10 k := by
    simp [toString, Int.repr]
  exact ⟨k, rfl, printed, printed ▸ few⟩

/-- What is read as the file descriptor is the number. -/
theorem map_digitsValue_digitsOf {number : Option Int}
    (short : ∀ i ∈ number, ∃ k : Nat, i = Int.ofNat k ∧ (Nat.toDigits 10 k).length ≤ digitLimit) :
    ((digitsOf number).map Text.digitsValue).map Int.ofNat = number := by
  cases hd : digitsOf number with
  | none => exact (Option.map_eq_none_iff.mp hd).symm
  | some ds =>
    obtain ⟨k, rfl, rfl, -⟩ := digitsOf_some hd short
    rw [Option.map_some, Option.map_some, digitsValue_toDigits]

/-- An operator is told apart from the word after it, unless a minus sign would go on
    with it. -/
theorem isApart_of_isWord {op text : List Char} (h : IsWord .word text)
    (dash : op = ['<', '<'] → text.head? ≠ some '-') : text.head?.all (isApart op) = true := by
  cases text with
  | nil => rfl
  | cons c cs =>
    have plain := isMeta_of_isWord h
    by_cases doubled : op = ['<', '<']
    · have other : c ≠ '-' := fun same => dash doubled (by rw [same]; rfl)
      simp [isApart, plain, other]
    · simp [isApart, plain, doubled]

/-- What the checks of a redirection say of its file. -/
theorem head_ne_dash {op : String} {fs : List Node}
    (checked : (!(op == "<<" && fs.any fun f => (charactersOf f).head? == some '-')) = true) :
    ∀ f ∈ fs, op.toList = ['<', '<'] → (charactersOf f).head? ≠ some '-' := by
  intro f hf doubled dash
  have same : op = "<<" := String.toList_inj.mp doubled
  have found : (fs.any fun f => (charactersOf f).head? == some '-') = true :=
    List.any_eq_true.mpr ⟨f, hf, by simpa using dash⟩
  rw [found, same] at checked
  cases checked

/-- The lexemes of a redirection spell it. -/
theorem spells_redirect {op file : List Char} {number : Option Int}
    (operator : op ∈ redirectOperators)
    (short : ∀ i ∈ number, ∃ k : Nat, i = Int.ofNat k ∧ (Nat.toDigits 10 k).length ≤ digitLimit)
    (apart : file.head?.all (isApart op) = true) (ne : file ≠ [])
    (word : Spells Q isDelimited [wordLexeme file] file) (hop : Q ⟨.redirectOperator, op⟩)
    (hds : ∀ ds ∈ digitsOf number, Q ⟨.ioNumber, ds⟩) :
    Spells Q isDelimited (redirectLexemes (digitsOf number) op file)
      ((digitsOf number).getD [] ++ (op ++ file)) := by
  have sign : Spells Q isDelimited [⟨.redirectOperator, op⟩, wordLexeme file] (op ++ file) := by
    -- The operator is taken whole if the file does not go on with it.
    have stands : Spells Q (·.head?.any (isApart op)) [⟨.redirectOperator, op⟩] op := by
      apply Spells.lexeme (l := ⟨.redirectOperator, op⟩) _ rfl rfl hop
      intro rest hr
      cases rest with
      | nil => cases hr
      | cons c cs => exact ⟨nofun, redirectOperatorLength?_append operator hr, rfl⟩
    apply stands.append word
    intro rest _
    cases file with
    | nil => exact absurd rfl ne
    | cons c cs => exact apart
  cases hd : digitsOf number with
  | none => exact sign
  | some ds =>
    obtain ⟨k, -, rfl, -⟩ := digitsOf_some hd short
    -- A descriptor is printed in decimal and is one only right before the operator.
    have digits : ∀ c ∈ Nat.toDigits 10 k, c.isDigit = true := fun c hc =>
      Nat.isDigit_of_mem_toDigits (by decide) (by decide) hc
    have stands : Spells Q op.isPrefixOf [⟨.ioNumber, Nat.toDigits 10 k⟩] (Nat.toDigits 10 k) := by
      apply Spells.lexeme (l := ⟨.ioNumber, Nat.toDigits 10 k⟩) _ rfl rfl (hds _ hd)
      intro rest hr
      obtain ⟨others, rfl⟩ := List.isPrefixOf_iff_prefix.mp hr
      exact ⟨nofun, ioNumberLength?_operator digits Nat.toDigits_ne_nil operator others, rfl⟩
    apply stands.append sign
    intro rest _
    rw [List.append_assoc]
    exact List.isPrefixOf_iff_prefix.mpr (List.prefix_append ..)

theorem says_redirect (h : n.kind = .redirect) (speakable : Speakable Q n) :
    ∃ x, Says Q .redirect n x := by
  obtain ⟨op, number, head⟩ := isHeadOf_kind h
  have member : Member.child .file .required (.only .word) ∈ n.kind.members := by rw [h]; decide
  obtain ⟨file, one, kind⟩ := exists_all_eq_of_required speakable.typed member
  have word : file.kind = .word := List.mem_singleton.mp kind
  have here : file ∈ n.all .file := one ▸ List.mem_singleton_self file
  obtain ⟨operator, short, apart⟩ := speakable.sayable.here.redirection op number head
  have isWord := (speakable.all here).sayable.here.word word
  have admitted := speakable.admitted.here
  rw [Admitted, head] at admitted
  have ne : charactersOf file ≠ [] := text_ne_nil_of_isWord isWord
  have spelled := spells_redirect operator short (apart file here) ne
    (spells_argument word (speakable.all here).sayable.here (speakable.all here).admitted.here)
    (admitted _ (List.mem_cons_self ..))
    (fun ds hds => admitted _ (by
      obtain ⟨i, rfl, rfl⟩ := Option.map_eq_some_iff.mp hds
      simp [ownLexemes]))
  refine ⟨⟨⟨redirectLexemes (digitsOf number) op.toList (charactersOf file),
    redirectOf ((digitsOf number).map Text.digitsValue) op.toList (charactersOf file), false⟩,
    (number.map toString).getD "" ++ op ++ String.ofList (charactersOf file)⟩,
    ?source, ?spells, ?fresh, ?async, ?reads, ?exact⟩
  case source =>
    intro k _
    rw [source_eq_layout, head, layout, partsOf_one one (source_word word _)]
    exact congrArg Except.ok (String.append_empty).symm
  case spells =>
    -- No blank stands between descriptor, operator and file.
    have letters : ((number.map toString).getD "" ++ op ++ String.ofList (charactersOf file)).toList =
        (digitsOf number).getD [] ++ (op.toList ++ charactersOf file) := by
      cases number <;> simp [digitsOf]
    rw [letters]
    exact spelled
  case fresh =>
    cases number <;> rfl
  case async =>
    rw [head]
    rfl
  case reads =>
    apply reads_redirect
    intro ds hds
    obtain ⟨k, -, -, few⟩ := digitsOf_some hds short
    exact few
  case exact =>
    intro exact
    have loc : n.loc = none := exact.here.loc (by rw [h]; rfl)
    have fields : n.kind.fieldOrder = [.file] := by rw [h]; rfl
    show redirectOf _ _ _ = n
    rw [redirectOf, map_digitsValue_digitsOf short,
      wordNode_eq_word word (exact.all here).here, String.ofList_toList, ← head, ← one, ← loc]
    -- The file is the only child.
    calc assemble n.head n.loc [(.file, n.all .file)]
        = assemble n.head n.loc (n.kind.fieldOrder.map fun f => (f, n.all f)) := by rw [fields]; rfl
      _ = n := (eq_assemble speakable.typed).symm

end

end ShellInliner.Parse
