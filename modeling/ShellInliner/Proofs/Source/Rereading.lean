import ShellInliner.Proofs.Parse.Script
import ShellInliner.Proofs.Source.Commands

/-! # Reading what was printed

    The text of a script is accepted if every node has what it needs so that its
    text can be read.  It is read as the very script if, besides, no word leaves a
    line end escaped and no word is spelled like a reserved word that parts a
    construct of the script. -/

namespace ShellInliner.Parse

open Grammar Node

section

variable {t : Node} {l : Lexeme}

/-! ### The lexemes of a tree -/

/-- The lexemes that the text of a tree may be made of. -/
inductive LexemeOf (t : Node) : Lexeme → Prop
  /-- Line ends. -/
  | newline : LexemeOf t newline
  /-- Signs. -/
  | sign (s : Sign) : LexemeOf t (punctuation s)
  /-- Reserved words that start nothing. -/
  | reserved (r : Reserved) (part : startOf? (.reserved r) = none) : LexemeOf t (keyword r)
  /-- What a node adds to the text. -/
  | own {n : Node} {l : Lexeme} (holds : t.Holds n) (mem : l ∈ ownLexemes n.head) : LexemeOf t l

theorem furnished_lexemeOf (t : Node) : Furnished (LexemeOf t) :=
  ⟨.newline, .sign, .reserved⟩

theorem speakable_lexemeOf (typed : t.isWellTyped = true) (sayable : Throughout Sayable t) :
    Speakable (LexemeOf t) t :=
  ⟨typed, sayable, throughout_iff_forall.mpr fun _ holds _ mem => .own holds mem⟩

/-- The construct that a node is. -/
def familyOf? : Kind → Option Family
  | .ifElse => some .conditional
  | .forLoop | .whileLoop | .untilLoop => some .loop
  | .caseOf => some .choice
  | _ => none

/-- What a node adds to the text, by the terminal. -/
inductive Own (n : Node) : Lexeme → Prop
  /-- The characters of a word or a name. -/
  | text {s : Terminal} (free : isFreeWord s = true) (word : s = .word → n.kind = .word) :
    Own n ⟨s, charactersOf n⟩
  /-- The operator of a redirection. -/
  | operator {op : String} {number : Option Int} (head : n.head = .redirect op number) :
    Own n ⟨.redirectOperator, op.toList⟩
  /-- The file descriptor of a redirection. -/
  | digits {op : String} {number : Option Int} {ds : List Char}
    (head : n.head = .redirect op number) (some : digitsOf number = some ds) : Own n ⟨.ioNumber, ds⟩
  /-- The reserved word that a construct starts with. -/
  | start {r : Reserved} {k : Family} (starts : startOf? (.reserved r) = some k)
    (family : familyOf? n.kind = some k) : Own n (keyword r)

theorem own_of_mem {n : Node} (mem : l ∈ ownLexemes n.head) : Own n l := by
  obtain ⟨hd, loc, cs⟩ := n
  cases hd with
  | word =>
    simp only [ownLexemes, Node.head, List.mem_cons, List.not_mem_nil, or_false] at mem
    rcases mem with rfl | rfl
    · exact .text rfl fun _ => rfl
    · exact .text rfl (by intro same; cases same)
  | assignmentWord =>
    obtain rfl := List.mem_singleton.mp mem
    exact .text rfl (by intro same; cases same)
  | name =>
    simp only [ownLexemes, Node.head, List.mem_cons, List.not_mem_nil, or_false] at mem
    rcases mem with rfl | rfl
    · exact .text rfl (by intro same; cases same)
    · exact .text rfl (by intro same; cases same)
  | redirect op number =>
    rcases List.mem_cons.mp mem with rfl | here
    · exact .operator rfl
    · obtain ⟨i, rfl, rfl⟩ := Option.map_eq_some_iff.mp (Option.mem_toList.mp here)
      exact .digits rfl rfl
  -- A compound command has its keyword for its own.
  | ifElse | forLoop | whileLoop | untilLoop | caseOf =>
    obtain rfl := List.mem_singleton.mp mem
    exact .start rfl rfl
  | _ => cases mem

/-! ### Escaped line ends -/

/-- No word leaves a line end escaped that follows it. -/
def KeepsLines (n : Node) : Prop :=
  endsEscaped (charactersOf n) = false

theorem endsEscaped_of_digits {text : List Char} (h : ∀ c ∈ text, c.isDigit = true) :
    endsEscaped text = false := by
  apply Bool.eq_false_iff.mpr
  intro ends
  obtain ⟨before, rfl⟩ := List.isSuffixOf_iff_suffix.mp ends
  have digit := h '\r' (by simp)
  cases digit

theorem endsEscaped_operator {op : List Char} (h : op ∈ redirectOperators) :
    endsEscaped op = false := by
  have check : redirectOperators.all (fun op => !endsEscaped op) = true := by decide
  simpa using List.all_eq_true.mp check op h

theorem endsEscaped_lexemeOf (keeps : Throughout KeepsLines t) (sayable : Throughout Sayable t)
    (h : LexemeOf t l) : endsEscaped l.text = false := by
  cases h with
  | newline => rfl
  | sign s => cases s <;> decide
  | reserved r => cases r <;> decide
  | own holds mem =>
    have here := throughout_iff_forall.mp sayable _ holds
    cases own_of_mem mem with
    -- Only a text of the tree can end in a backslash, and it keeps its line.
    | text => exact throughout_iff_forall.mp keeps _ holds
    | operator head => exact endsEscaped_operator (here.redirection _ _ head).1
    | digits head some =>
      obtain ⟨k, -, rfl, -⟩ := digitsOf_some some (here.redirection _ _ head).2.1
      exact endsEscaped_of_digits fun c hc => Nat.isDigit_of_mem_toDigits (by decide) (by decide) hc
    | @start r => cases r <;> decide

/-! ### Long file descriptors -/

theorem short_lexemeOf (sayable : Throughout Sayable t) (h : LexemeOf t l)
    (number : l.terminal = .ioNumber) : l.text.length ≤ digitLimit := by
  cases h with
  | newline => cases number
  | sign => cases number
  | reserved => cases number
  | own holds mem =>
    have here := throughout_iff_forall.mp sayable _ holds
    cases own_of_mem mem with
    | @text s free =>
      obtain rfl : s = .ioNumber := number
      cases free
    | operator => cases number
    -- Only a redirection brings in a descriptor.
    | digits head some =>
      obtain ⟨k, -, -, few⟩ := digitsOf_some some (here.redirection _ _ head).2.1
      exact few
    | start => cases number

/-! ### Words like reserved words -/

/-- No word of the tree is spelled like a reserved word that parts a construct of
    the tree. -/
def Distinguished (t : Node) : Prop :=
  ∀ r k, partOf? r = some k → (∃ n, t.Holds n ∧ familyOf? n.kind = some k) →
    ∀ v, t.Holds v → v.kind = .word → charactersOf v ≠ r.spelling

theorem startOf?_free {s : Terminal} (h : isFreeWord s = true) : startOf? s = none := by
  cases s <;> first | rfl | cases h

theorem exists_family (h : LexemeOf t l) {k : Family} (start : startOf? l.terminal = some k) :
    ∃ n, t.Holds n ∧ familyOf? n.kind = some k := by
  cases h with
  | newline => cases start
  | sign => cases start
  | reserved r part => exact absurd (part.symm.trans start) nofun
  | @own n l holds mem =>
    cases own_of_mem mem with
    | text free => exact absurd ((startOf?_free free).symm.trans start) nofun
    | operator => cases start
    | digits => cases start
    | start starts family => exact ⟨n, holds, family.trans (starts.symm.trans start)⟩

theorem exists_word (h : LexemeOf t l) (word : l.terminal = .word) :
    ∃ v, t.Holds v ∧ v.kind = .word ∧ charactersOf v = l.text := by
  cases h with
  | newline => cases word
  | sign => cases word
  | reserved => cases word
  | @own n l holds mem =>
    cases own_of_mem mem with
    | text free isWord => exact ⟨n, holds, isWord word, rfl⟩
    | operator => cases word
    | digits => cases word
    | start => cases word

theorem unmistakable_of_lexemeOf {w : List Lexeme} (distinguished : Distinguished t)
    (h : ∀ l ∈ w, LexemeOf t l) : Unmistakable w := by
  intro r k part started mem
  obtain ⟨l, hl, start⟩ := started
  obtain ⟨v, holds, word, spelled⟩ := exists_word (h _ mem) rfl
  exact distinguished r k part (exists_family (h l hl) start) v holds word spelled

/-! ### Scripts -/

/-- The text of a script is accepted if every node has what it needs, unless a
    file descriptor has too many digits. -/
theorem exists_parse_source {file : Option String} (kind : t.kind = .script)
    (typed : t.isWellTyped = true) (sayable : Throughout Sayable t) :
    ∃ text, t.source none = .ok text ∧
      (FewDigitsCut text.toList → ∃ n, parse text.toList { file } = .ok n) := by
  obtain ⟨text, w, m, said⟩ := exists_script (furnished_lexemeOf t) kind
    (speakable_lexemeOf typed sayable)
  refine ⟨text, said.source, fun few => exists_parse_of_laid said.reads ?_ few⟩
  have laid := said.spells.laid [] [] rfl (.done (by simp))
  rwa [List.append_nil, List.append_nil] at laid

/-- The text of a script is read as the script if nothing in it can be mistaken. -/
theorem parse_source {file : Option String} (kind : t.kind = .script)
    (typed : t.isWellTyped = true) (sayable : Throughout Sayable t) (exact : Throughout Exact t)
    (keeps : Throughout KeepsLines t) (distinguished : Distinguished t) :
    ∃ text, t.source none = .ok text ∧ parse text.toList { file } = .ok t := by
  obtain ⟨text, w, m, said⟩ := exists_script (furnished_lexemeOf t) kind
    (speakable_lexemeOf typed sayable)
  obtain rfl := said.exact exact
  have laid := said.spells.laid [] [] rfl (.done (by simp))
  rw [List.append_nil, List.append_nil] at laid
  refine ⟨text, said.source, parse_of_laid said.reads (isTidy_mono said.spells.tidy) laid ?_ ?_ ?_⟩
  · exact fun l hl => endsEscaped_lexemeOf keeps sayable (said.spells.have_ l hl)
  · exact unmistakable_of_lexemeOf distinguished said.spells.have_
  · exact fun l hl => short_lexemeOf sayable (said.spells.have_ l hl)

end

end ShellInliner.Parse
