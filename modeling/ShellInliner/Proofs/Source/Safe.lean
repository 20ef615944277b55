import ShellInliner.Proofs.Source.Rereading

/-! # Scripts of safe words

    A script of simple commands, pipelines, connectives and functions whose words
    are made of letters, digits and a few signs is read back from its text, however
    it came about. -/

namespace ShellInliner

open Word Grammar

/-! ### Plain texts -/

namespace Word

/-- The signs that a safe word may hold. -/
def safeSigns : List Char :=
  ['_', '.', '/', ':', '@', '%', '+', ',', '-']

/-- May a safe word hold the character? -/
def isSafeCharacter (c : Char) : Bool :=
  c.isAlphanum || safeSigns.contains c

/-- Is the text a safe word? -/
def isSafeWord (text : List Char) : Bool :=
  !text.isEmpty && text.all isSafeCharacter

/-- Is the text an identifier with the sign of an assignment and a safe value? -/
def isSafeAssignment (text : List Char) : Bool :=
  let n := identifierLength text
  n != 0 && text[n]? == some '=' && (text.drop (n + 1)).all isSafeCharacter

theorem isPlain_of_isSafeCharacter {c : Char} (h : isSafeCharacter c = true) : isPlain c = true := by
  simp only [isSafeCharacter, Bool.or_eq_true, List.contains_iff_mem] at h
  rcases h with h | h
  · apply isPlain_of_namePart
    simp [isFunctionNamePart, isIdentifierPart, h]
  · have check : safeSigns.all isPlain = true := by decide
    exact List.all_eq_true.mp check c h

theorem isClosed_of_plain {text : List Char} (plain : ∀ c ∈ text, isPlain c = true) :
    isClosed text = true := by
  have length : runLength closedSegment? 0 text = text.length := by
    induction text with
    | nil => rfl
    | cons c text ih =>
      have here := plain c (List.mem_cons_self ..)
      have closed : leavesOpen (c :: text) = false := by
        unfold leavesOpen
        split
        · rename_i same
          injection same with first
          subst first
          cases here
        · rfl
      -- A plain character is a segment of its own and opens nothing.
      have segment : closedSegment? (c :: text) = some 1 := by
        rw [closedSegment?, closed]
        exact segment?_plain here text
      rw [runLength_zero_cons, segment, List.length_cons]
      simp only [ih fun d hd => plain d (List.mem_cons_of_mem _ hd)]
      omega
  simp [isClosed, length]

/-- A plain text holds no expansions. -/
theorem expansionChildren_of_plain {text : List Char} (plain : ∀ c ∈ text, isPlain c = true) :
    expansionChildren text = [] := by
  have none (offset : Nat) : expansionsFrom false offset 0 text = [] := by
    induction text generalizing offset with
    | nil => rfl
    | cons c text ih =>
      have here := plain c (List.mem_cons_self ..)
      simp only [isPlain, Bool.and_eq_true, bne_iff_ne, ne_eq, Bool.not_eq_true'] at here
      -- Neither a quote nor a dollar sign, so one literal character.
      have literal : piece false (c :: text) = .literal 1 := by
        simp [piece, here]
      simp only [expansionsFrom, literal]
      exact ih (fun d hd => plain d (List.mem_cons_of_mem _ hd)) _
  rw [expansionChildren, expansions, none]
  rfl

end Word

namespace Grammar

/-- A plain text is a word before every delimiter, unless a comment starts with
    it. -/
theorem wordLength?_of_plain {text rest : List Char} (plain : ∀ c ∈ text, isPlain c = true)
    (ne : text ≠ []) (hash : text.head? ≠ some '#') (hr : isDelimited rest = true) :
    wordLength? (text ++ rest) = some text.length := by
  have whole : segmentsLength (text ++ []) = text.length := by
    rw [segmentsLength_plain plain]
    rfl
  have number : ioNumberLength? (text ++ []) = none := by
    rw [List.append_nil]
    apply if_neg
    rintro ⟨-, angle⟩
    -- What follows the digits would be a meta character.
    cases rest' : text.drop (text.takeWhile Text.isDigit).length with
    | nil => simp [rest'] at angle
    | cons c cs =>
      have here : c ∈ text := List.mem_of_mem_drop (rest' ▸ List.mem_cons_self ..)
      have other := isMeta_of_isPlain (plain c here)
      simp only [rest', List.head?_cons, Option.any_some, isAngle, Bool.or_eq_true, beq_iff_eq] at angle
      rcases angle with rfl | rfl <;> cases other
  have here : wordLength? (text ++ []) = some text.length :=
    wordLength?_eq_some.mpr ⟨by rwa [List.append_nil], number, whole, List.length_pos_of_ne_nil ne⟩
  exact wordLength?_delimited (isClosed_of_plain plain) here hr

end Grammar

namespace Parse

open Node

theorem isPlain_of_isSafeWord {text : List Char} (h : isSafeWord text = true) :
    text ≠ [] ∧ (∀ c ∈ text, isSafeCharacter c = true) ∧ ∀ c ∈ text, isPlain c = true := by
  simp only [isSafeWord, Bool.and_eq_true, Bool.not_eq_true', List.isEmpty_eq_false_iff] at h
  have safe := List.all_eq_true.mp h.2
  exact ⟨h.1, safe, fun c hc => isPlain_of_isSafeCharacter (safe c hc)⟩

/-- A safe word is a word wherever it stands. -/
theorem isWord_of_isSafeWord {text : List Char} (h : isSafeWord text = true) : IsWord .word text := by
  obtain ⟨ne, safe, plain⟩ := isPlain_of_isSafeWord h
  refine ⟨rfl, fun rest hr => wordLength?_of_plain plain ne ?_ hr⟩
  cases text with
  | nil => exact nofun
  | cons c cs =>
    intro hash
    obtain rfl : c = '#' := by simpa using hash
    have signed := safe '#' (List.mem_cons_self ..)
    exact absurd signed (by decide)

/-- A safe word that is no reserved word names a command. -/
theorem isWord_command {text : List Char} (h : isSafeWord text = true)
    (unreserved : isReservedText text = false) : IsWord .commandWord text := by
  obtain ⟨ne, safe, plain⟩ := isPlain_of_isSafeWord h
  have word := isWord_of_isSafeWord h
  refine ⟨rfl, fun rest hr => commandWordLength?_eq_some.mpr ⟨?_, ?_, word.taken rest hr⟩⟩
  · apply startsReserved_append unreserved
    rw [segmentsLength_plain plain, segmentsLength_of_endsWord (endsWord_of_isDelimited hr),
      Nat.add_zero]
  · have here : assigneeLength? (text ++ []) = none := by
      rw [List.append_nil]
      apply if_neg
      rintro ⟨-, sign⟩
      rw [List.head?_drop] at sign
      -- An assignment needs an equals sign, which is not safe.
      have signed := safe '=' (List.mem_of_getElem? sign)
      exact absurd signed (by decide)
    exact assigneeLength?_delimited ne here hr

/-- A safe assignment is one wherever it stands. -/
theorem isWord_of_isSafeAssignment {text : List Char} (h : isSafeAssignment text = true) :
    IsWord .assignmentWord text ∧ ∀ c ∈ text, isPlain c = true := by
  simp only [isSafeAssignment, Bool.and_eq_true, bne_iff_ne, ne_eq, beq_iff_eq] at h
  obtain ⟨⟨some, sign⟩, value⟩ := h
  have plain : ∀ c ∈ text, isPlain c = true := by
    intro c hc
    -- The name and the equals sign, and then the value.
    rw [← List.take_append_drop (identifierLength text + 1) text] at hc
    rcases List.mem_append.mp hc with before | after
    · rw [List.take_add_one, sign] at before
      rcases List.mem_append.mp before with name | equals
      · exact isPlain_take_identifierLength c name
      · obtain rfl : c = '=' := by simpa using equals
        decide
    · exact isPlain_of_isSafeCharacter (List.all_eq_true.mp value c after)
  refine ⟨⟨rfl, fun rest hr => ?_⟩, plain⟩
  have assignee : assigneeLength? text = Option.some (identifierLength text + 1) := by
    apply if_pos
    exact ⟨some, by rw [List.head?_drop, sign]⟩
  have taken : assignmentLength? text = Option.some (identifierLength text + 1 +
      segmentsLength (text.drop (identifierLength text + 1))) := by
    simp [assignmentLength?, assignee]
  -- As a word it takes the same characters, all of them.
  have whole := segmentsLength_of_assignment taken
  have length := segmentsLength_plain plain []
  rw [List.append_nil] at length
  have here : assignmentLength? (text ++ []) = Option.some text.length := by
    rw [List.append_nil, taken, ← whole, length]
    rfl
  exact assignmentLength?_delimited (isClosed_of_plain plain) here hr

/-! ### Safe scripts -/

/-- The statements of a safe script. -/
def safeStatements : List Kind :=
  [.command, .pipeline, .logicalExpression, .function]

/-- Is the node of one of the kinds, and not in the background? -/
def isForeground (kinds : List Kind) (n : Node) : Bool :=
  kinds.contains n.kind && !n.head.async

/-- May the number be a file descriptor: is it a natural number without too many
    digits? -/
def isDescriptor (i : Int) : Bool :=
  0 ≤ i && (Nat.toDigits 10 i.toNat).length ≤ digitLimit

/-- Is the node one of a safe script?  It has no place, its words are safe ones
    without expansions and its names those of functions, a pipeline has commands
    that run in the foreground, several or negated ones, rows of operands go on to
    the left, and the body of a function is a list of statements. -/
def isSafe (n : Node) : Bool :=
  n.loc.isNone &&
    match n.head with
    | .script => (n.all .commands).all fun c => safeStatements.contains c.kind
    | .compoundList async =>
      !async && (n.all .redirections).isEmpty && !(n.all .commands).isEmpty &&
        (n.all .commands).all fun c => safeStatements.contains c.kind
    | .command _ =>
      if (n.all .name).isEmpty then !(n.all .leading).isEmpty && (n.all .suffix).isEmpty
      else (n.all .name).all fun m => !isReservedText (charactersOf m)
    | .pipeline _ bang =>
      (n.all .commands).all (isForeground [.command]) &&
        (if bang then 1 else 2) ≤ (n.all .commands).length
    | .logicalExpression _ _ =>
      (n.all .left).all (isForeground [.logicalExpression, .pipeline, .command]) &&
        (n.all .right).all (isForeground [.pipeline, .command])
    | .function _ => true
    | .redirect op number =>
      redirectOperators.contains op.toList && number.all isDescriptor &&
        !(op == "<<" && (n.all .file).any fun f => (charactersOf f).head? == some '-')
    | .word text => isSafeWord text.toList && n.children.isEmpty
    | .assignmentWord text => isSafeAssignment text.toList && n.children.isEmpty
    | .name text => isFunctionNameText text.toList
    | _ => false

section

variable {n : Node}

theorem loc_of_safe (h : isSafe n = true) : n.loc = none := by
  simp only [isSafe, Bool.and_eq_true, Option.isNone_iff_eq_none] at h
  exact h.1

/-- No node of a safe script is a larger construct. -/
theorem familyOf?_of_safe (h : isSafe n = true) :
    familyOf? n.kind = none ∧ n.kind ≠ .caseItem ∧ n.kind.isExpansion = false := by
  obtain ⟨hd, l, cs⟩ := n
  cases hd <;> first
    | (simp [isSafe, Node.head] at h; done)
    | exact ⟨rfl, (by intro same; cases same), rfl⟩

theorem list_of_safe (h : isSafe n = true) (kind : n.kind = .compoundList) :
    n.all .commands ≠ [] ∧ n.all .redirections = [] ∧ n.head.async = false := by
  obtain ⟨hd, l, cs⟩ := n
  cases hd with
  | compoundList async =>
    simp only [isSafe, Node.head, Bool.and_eq_true, Bool.not_eq_true', List.isEmpty_iff,
      List.isEmpty_eq_false_iff] at h
    exact ⟨h.2.1.2, h.2.1.1.2, h.2.1.1.1⟩
  | _ => cases kind

theorem command_of_safe (h : isSafe n = true) (kind : n.kind = .command) :
    (n.all .name = [] → n.all .leading ≠ [] ∧ n.all .suffix = []) ∧
      ∀ m ∈ n.all .name, isReservedText (charactersOf m) = false := by
  obtain ⟨hd, l, cs⟩ := n
  cases hd with
  | command async =>
    simp only [isSafe, Node.head, Bool.and_eq_true] at h
    obtain ⟨-, h⟩ := h
    -- The test asks for different things with a name and without one.
    split at h
    · rename_i empty
      simp only [Bool.and_eq_true, Bool.not_eq_true', List.isEmpty_iff,
        List.isEmpty_eq_false_iff] at h empty
      refine ⟨fun _ => h, ?_⟩
      rw [empty]
      simp
    · rename_i some
      refine ⟨fun none => absurd (List.isEmpty_iff.mpr none) some, fun m hm => ?_⟩
      simpa using List.all_eq_true.mp h m hm
  | _ => cases kind

theorem pipeline_of_safe {async bang : Bool} (h : isSafe n = true)
    (head : n.head = .pipeline async bang) :
    (∀ c ∈ n.all .commands, c.kind = .command ∧ c.head.async = false) ∧
      (if bang then 1 else 2) ≤ (n.all .commands).length := by
  simp only [isSafe, head, Bool.and_eq_true, List.all_eq_true, isForeground, Bool.not_eq_true',
    decide_eq_true_eq] at h
  refine ⟨fun c hc => ?_, h.2.2⟩
  obtain ⟨command, front⟩ := h.2.1 c hc
  exact ⟨by simpa using command, front⟩

theorem operands_of_safe (h : isSafe n = true) (kind : n.kind = .logicalExpression) :
    (∀ c ∈ n.all .left, c.head.async = false) ∧
      ∀ c ∈ n.all .right, c.head.async = false ∧ c.kind ≠ .logicalExpression := by
  obtain ⟨hd, l, cs⟩ := n
  cases hd with
  | logicalExpression async op =>
    simp only [isSafe, Node.head, Bool.and_eq_true, List.all_eq_true, isForeground,
      Bool.not_eq_true'] at h
    refine ⟨fun c hc => (h.2.1 c hc).2, fun c hc => ⟨(h.2.2 c hc).2, ?_⟩⟩
    have kinds := (h.2.2 c hc).1
    intro logical
    rw [logical] at kinds
    exact absurd kinds (by decide)
  | _ => cases kind

theorem name_of_safe (h : isSafe n = true) (kind : n.kind = .name) :
    isFunctionNameText (charactersOf n) = true := by
  obtain ⟨hd, l, cs⟩ := n
  cases hd with
  | name text =>
    simp only [isSafe, Node.head, Bool.and_eq_true] at h
    exact h.2
  | _ => cases kind

theorem word_of_safe (h : isSafe n = true) (kind : n.kind = .word) :
    isSafeWord (charactersOf n) = true ∧ n.children = [] := by
  obtain ⟨hd, l, cs⟩ := n
  cases hd with
  | word text =>
    simp only [isSafe, Node.head, Bool.and_eq_true, List.isEmpty_iff] at h
    exact h.2
  | _ => cases kind

theorem assignment_of_safe (h : isSafe n = true) (kind : n.kind = .assignmentWord) :
    isSafeAssignment (charactersOf n) = true ∧ n.children = [] := by
  obtain ⟨hd, l, cs⟩ := n
  cases hd with
  | assignmentWord text =>
    simp only [isSafe, Node.head, Bool.and_eq_true, List.isEmpty_iff] at h
    exact h.2
  | _ => cases kind

theorem redirection_of_safe {op : String} {number : Option Int} (h : isSafe n = true)
    (head : n.head = .redirect op number) :
    op.toList ∈ redirectOperators ∧
      (∀ i ∈ number, ∃ k : Nat, i = Int.ofNat k ∧ (Nat.toDigits 10 k).length ≤ digitLimit) ∧
      ∀ f ∈ n.all .file, op.toList = ['<', '<'] → (charactersOf f).head? ≠ some '-' := by
  simp only [isSafe, head, Bool.and_eq_true, List.contains_iff_mem] at h
  obtain ⟨-, ⟨operator, digits⟩, dash⟩ := h
  refine ⟨operator, ?_, head_ne_dash dash⟩
  rintro i rfl
  simp only [Option.all_some, isDescriptor, Bool.and_eq_true, decide_eq_true_eq] at digits
  exact ⟨i.toNat, (Int.toNat_of_nonneg digits.1).symm, digits.2⟩

/-! ### Safe scripts are read back -/

/-- A safe node is one whose text can be read. -/
theorem sayable_of_safe (typed : n.isWellTyped = true)
    (safe : Throughout (fun n => isSafe n = true) n) : Sayable n where
  filled _ _ c hc list := (list_of_safe (safe.all hc).here list).1
  plain _ _ c hc list := (list_of_safe (safe.all hc).here list).2
  unnamed command := (command_of_safe safe.here command).1
  piped kind none := by
    obtain ⟨async, bang, head⟩ := isHeadOf_kind kind
    have several := (pipeline_of_safe safe.here head).2
    rw [none] at several
    cases bang <;> cases several
  members kind c hc := by
    obtain ⟨async, bang, head⟩ := isHeadOf_kind kind
    obtain ⟨command, front⟩ := (pipeline_of_safe safe.here head).1 c hc
    rw [command]
    exact ⟨front, nofun, nofun⟩
  operands kind f c hc := by
    obtain ⟨left, right⟩ := operands_of_safe safe.here kind
    rcases eq_of_operand typed kind hc with rfl | rfl
    · exact left c hc
    · exact (right c hc).1
  second kind c hc := ((operands_of_safe safe.here kind).2 c hc).2
  -- Safe trees have none of the constructs whose words could be mistaken.
  positive kind := by
    have other := (familyOf?_of_safe safe.here).1
    rw [kind] at other
    cases other
  patterns kind := absurd kind (familyOf?_of_safe safe.here).2.1
  word kind := isWord_of_isSafeWord (word_of_safe safe.here kind).1
  assignment kind := (isWord_of_isSafeAssignment (assignment_of_safe safe.here kind).1).1
  redirection op number head := by
    have kind : n.kind = .redirect := congrArg Head.kind head
    have member : Member.child .file .required (.only .word) ∈ n.kind.members := by
      rw [kind]
      decide
    obtain ⟨operator, digits, dash⟩ := redirection_of_safe safe.here head
    refine ⟨operator, digits, fun f hf => ?_⟩
    have word : f.kind = .word := kind_eq_of_mem_all typed member hf
    exact isApart_of_isWord (isWord_of_isSafeWord (word_of_safe (safe.all hf).here word).1) (dash f hf)
  commandName kind m hm := by
    have member : Member.child .name .optional (.only .word) ∈ n.kind.members := by
      rw [kind]
      decide
    have word : m.kind = .word := kind_eq_of_mem_all typed member hm
    exact isWord_command (word_of_safe (safe.all hm).here word).1
      ((command_of_safe safe.here kind).2 m hm)
  functionName kind m hm := name_of_safe (safe.all hm).here (kind_eq_name typed (.inl kind) hm)
  loopName kind := by
    have other := (familyOf?_of_safe safe.here).1
    rw [kind] at other
    cases other
  single kind := by
    have other := (familyOf?_of_safe safe.here).1
    rw [kind] at other
    cases other

/-- A safe node is what is read of its text. -/
theorem exact_of_safe (safe : isSafe n = true) : Exact n where
  loc _ := loc_of_safe safe
  expansions kind := by
    rcases kind with word | assignment
    · obtain ⟨isWord, none⟩ := word_of_safe safe word
      rw [none, expansionChildren_of_plain (isPlain_of_isSafeWord isWord).2.2]
    · obtain ⟨isAssignment, none⟩ := assignment_of_safe safe assignment
      rw [none, expansionChildren_of_plain (isWord_of_isSafeAssignment isAssignment).2]
  several async head := (pipeline_of_safe safe head).2
  otherwise kind := by
    have other := (familyOf?_of_safe safe).1
    rw [kind] at other
    cases other

theorem endsEscaped_of_plain {text : List Char} (plain : ∀ c ∈ text, isPlain c = true) :
    endsEscaped text = false := by
  apply Bool.eq_false_iff.mpr
  intro ends
  obtain ⟨before, rfl⟩ := List.isSuffixOf_iff_suffix.mp ends
  exact absurd (plain '\\' (by simp)) (by decide)

theorem keepsLines_of_safe (safe : isSafe n = true) : KeepsLines n := by
  unfold KeepsLines
  by_cases word : n.kind = .word
  · exact endsEscaped_of_plain (isPlain_of_isSafeWord (word_of_safe safe word).1).2.2
  by_cases assignment : n.kind = .assignmentWord
  · exact endsEscaped_of_plain (isWord_of_isSafeAssignment (assignment_of_safe safe assignment).1).2
  by_cases name : n.kind = .name
  · have isName := name_of_safe safe name
    apply endsEscaped_of_plain
    intro c hc
    cases text : charactersOf n with
    | nil =>
      rw [text] at hc
      cases hc
    | cons d ds =>
      rw [text] at isName hc
      simp only [isFunctionNameText, Bool.and_eq_true, List.all_eq_true] at isName
      rcases List.mem_cons.mp hc with rfl | hc
      · exact isPlain_of_namePart (isFunctionNamePart_of_start isName.1.1)
      · exact isPlain_of_namePart (isName.1.2 c hc)
  · -- Other nodes have no text.
    have none : n.text? = none := by
      obtain ⟨hd, l, cs⟩ := n
      cases hd <;> first
        | rfl
        | exact absurd rfl word
        | exact absurd rfl assignment
        | exact absurd rfl name
    rw [charactersOf, none]
    rfl

end

/-- A script of safe words is read back from its text, whether it was read, made by
    hand or left by the resolution of imports. -/
theorem parse_source_safe (t : Node) (file : Option String) (script : t.kind = .script)
    (typed : t.isWellTyped = true) (safe : t.everywhere isSafe = true) :
    ∃ text, t.source none = .ok text ∧ parse text.toList { file } = .ok t := by
  have everywhere := throughout_of_everywhere safe
  apply parse_source script typed
  · have both := (throughout_isWellTyped typed).and everywhere.throughout
    exact both.mono fun n h => sayable_of_safe h.1 h.2
  · exact everywhere.mono fun n h => exact_of_safe h
  · exact everywhere.mono fun n h => keepsLines_of_safe h
  · intro r k part construct
    obtain ⟨n, holds, family⟩ := construct
    have none := (familyOf?_of_safe (throughout_iff_forall.mp everywhere n holds)).1
    rw [none] at family
    cases family

/-- A function that runs a negated pipeline and a row of operands. -/
theorem parse_source_safe_function :
    let word (s : String) : Node := .mk (.word s) none []
    let run (ws : List String) : Node := .mk (.command false) none
      (ws.zipIdx.map fun p => (if p.2 = 0 then .name else .suffix, word p.1))
    let log : Node := .mk (.redirect ">>" (some 2)) none [(.file, word "/tmp/log")]
    let negated : Node := .mk (.pipeline false true) none
      [(.commands, run ["ls", "then"]), (.commands, run ["wc", "-l"])]
    let row : Node := .mk (.logicalExpression true .or) none [(.left, negated), (.right, run ["exit", "1"])]
    let t : Node := .mk .script none [(.commands, .mk (.function false) none
      [(.name, .mk (.name "lib::f") none []),
        (.body, .mk (.compoundList false) none [(.commands, row)]), (.redirections, log)])]
    t.everywhere isSafe = true ∧
      ∃ text, t.source none = .ok text ∧ parse text.toList {} = .ok t := by
  intro word run log negated row t
  have safe : t.everywhere isSafe = true := by decide
  exact ⟨safe, parse_source_safe t none rfl (by decide) safe⟩

end Parse

end ShellInliner
