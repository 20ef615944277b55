import ShellInliner.Proofs.Parse.Laid
import ShellInliner.Proofs.Parse.Rivals

/-! # Tokens that contest a lexeme

    Where a lexeme is laid out, a derivation may have another token.  Mostly it
    has the same characters, and its terminal is a rival.  Otherwise it takes
    less: the first half of a sign that is written twice, an identifier, or what
    can start the name of a function; and then the derivation cannot go on. -/

namespace ShellInliner.Parse

open Grammar Word

/-! ### Terminals that take the same characters -/

/-- No assignment is a reserved word or a name: none of these holds the sign. -/
def isSignless : Terminal → Bool
  | .reserved _ | .name | .functionName => true
  | _ => false

theorem signless_check : (List.range 128).all (fun n =>
    !isFunctionNamePart (Char.ofNat n) || Char.ofNat n != '=') = true := by
  rfl

theorem ne_equals_of_namePart {c : Char} (h : isFunctionNamePart c = true) : c ≠ '=' := by
  have all := List.all_eq_true.mp signless_check c.toNat
    (List.mem_range.mpr (isFunctionNamePart_lt h))
  rw [Char.ofNat_toNat] at all
  simpa [h] using all

theorem equals_not_mem {t : Terminal} {cs : List Char} {n : Nat} (ht : isSignless t = true)
    (h : t.length? cs = some n) : '=' ∉ cs.take n := by
  cases t with
  | reserved w =>
    obtain ⟨rest, rfl, -, rfl⟩ := Reserved.length?_eq_some.mp h
    rw [List.take_left]
    cases w <;> decide
  | name =>
    obtain ⟨rfl, -⟩ := positive?_eq_some.mp h
    exact fun mem => ne_equals_of_namePart (namePart_of_identifier _ mem) rfl
  | functionName => exact fun mem => ne_equals_of_namePart (namePart_of_functionName h _ mem) rfl
  | _ => cases ht

theorem equals_mem {cs : List Char} {n : Nat} (h : assignmentLength? cs = some n) :
    '=' ∈ cs.take n := by
  obtain ⟨k, hk, rfl⟩ := Option.map_eq_some_iff.mp h
  obtain ⟨rfl, -, sign⟩ := assigneeLength?_eq_some hk
  apply List.mem_of_getElem? (i := identifierLength cs)
  rw [List.getElem?_take_of_lt (by omega)]
  exact sign

theorem startsReserved_of_length? {w : Reserved} {cs : List Char} {n : Nat}
    (h : w.length? cs = some n) : startsReserved cs = true := by
  have mem : w ∈ Reserved.all := by cases w <;> decide
  exact List.any_eq_true.mpr ⟨w, mem, by simp [h]⟩

/-- A reserved word is neither the name of a command nor that of a function. -/
theorem length?_of_reserved {w : Reserved} {cs : List Char} {n : Nat} (h : w.length? cs = some n) :
    commandWordLength? cs = none ∧ functionNameLength? cs = none := by
  have reserved := startsReserved_of_length? h
  simp [commandWordLength?, functionNameLength?, reserved]

theorem Reserved.spelling_injective {v w : Reserved} (h : v.spelling = w.spelling) : v = w := by
  cases v <;> cases w <;> first | rfl | cases h

/-- The two wordlike terminals cannot take the same characters. -/
def Apart (a b : Terminal) : Prop :=
  ∀ cs n, a.length? cs = some n → b.length? cs = some n → False

theorem Apart.symm {a b : Terminal} (h : Apart a b) : Apart b a :=
  fun cs n hb ha => h cs n ha hb

theorem apart_assignment {t : Terminal} (ht : isSignless t = true) : Apart t .assignmentWord :=
  fun _ _ ha hb => equals_not_mem ht ha (equals_mem hb)

theorem apart_command_assignment : Apart .commandWord .assignmentWord := by
  intro cs n ha hb
  obtain ⟨-, assignee, -⟩ := commandWordLength?_eq_some.mp ha
  obtain ⟨k, hk, -⟩ := Option.map_eq_some_iff.mp hb
  rw [assignee] at hk
  cases hk

theorem apart_reserved_command (w : Reserved) : Apart (.reserved w) .commandWord := by
  intro cs n ha hb
  have none := (length?_of_reserved ha).1
  change commandWordLength? cs = some n at hb
  rw [none] at hb
  cases hb

theorem apart_reserved_function (w : Reserved) : Apart (.reserved w) .functionName := by
  intro cs n ha hb
  have none := (length?_of_reserved ha).2
  change functionNameLength? cs = some n at hb
  rw [none] at hb
  cases hb

theorem apart_reserved {v w : Reserved} (h : v ≠ w) : Apart (.reserved v) (.reserved w) := by
  intro cs n ha hb
  obtain ⟨after, rfl, -, rfl⟩ := Reserved.length?_eq_some.mp ha
  obtain ⟨after', eq, -, length⟩ := Reserved.length?_eq_some.mp hb
  exact h (Reserved.spelling_injective (List.append_inj eq length).1)

theorem rivals_self (t : Terminal) : rivals t t = true := by
  have check : terminals.all (fun t => rivals t t) = true := by decide
  exact List.all_eq_true.mp check t (mem_terminals t)

/-- Terminals that are no rivals are apart, unless the second is a reserved word
    that separates parts and the first may be any word. -/
theorem apart_of_not_rivals {a b : Terminal} (ha : a.isWordlike = true) (hb : b.isWordlike = true)
    (h : rivals a b = false) : Apart a b ∨ ∃ r k, a = .word ∧ b = .reserved r ∧ partOf? r = some k := by
  -- Two terminals are apart because of how a name or a reserved word ends; the other pairs are
  -- rivals, or one of the two is no word.
  cases a with
  | reserved v =>
    left
    cases b with
    | reserved w =>
      apply apart_reserved
      rintro rfl
      rw [rivals_self] at h
      cases h
    | functionName => exact apart_reserved_function v
    | commandWord => exact apart_reserved_command v
    | assignmentWord => exact apart_assignment rfl
    | name => cases h
    | word => cases h
    | _ => cases hb
  | name =>
    left
    cases b with
    | assignmentWord => exact apart_assignment rfl
    | sign | ioNumber | redirectOperator | newline => cases hb
    | _ => cases h
  | functionName =>
    left
    cases b with
    | reserved w => exact (apart_reserved_function w).symm
    | assignmentWord => exact apart_assignment rfl
    | sign | ioNumber | redirectOperator | newline => cases hb
    | _ => cases h
  | assignmentWord =>
    left
    cases b with
    | reserved w => exact (apart_assignment rfl).symm
    | commandWord => exact apart_command_assignment.symm
    | sign | ioNumber | redirectOperator | newline => cases hb
    | _ => cases h
  | commandWord =>
    left
    cases b with
    | reserved w => exact (apart_reserved_command w).symm
    | assignmentWord => exact apart_command_assignment
    | sign | ioNumber | redirectOperator | newline => cases hb
    | _ => cases h
  | word =>
    cases b with
    | reserved w =>
      right
      cases part : partOf? w with
      | none => simp [rivals, part] at h
      | some k => exact ⟨w, k, rfl, rfl, part⟩
    | sign | ioNumber | redirectOperator | newline => cases hb
    | _ => cases h
  | _ => cases ha

/-! ### Words that are cut -/

/-- Does the text leave a line end escaped, if one follows it?  Only a carriage
    return can be escaped so that the line goes on in the next one. -/
def endsEscaped (text : List Char) : Bool :=
  ['\\', '\r'].isSuffixOf text

theorem endsEscaped_drop {text : List Char} (h : endsEscaped text = false) (n : Nat) :
    endsEscaped (text.drop n) = false := by
  apply Bool.eq_false_iff.mpr
  intro ends
  have whole : endsEscaped text = true :=
    List.isSuffixOf_iff_suffix.mpr
      ((List.isSuffixOf_iff_suffix.mp ends).trans (List.drop_suffix n text))
  rw [whole] at h
  cases h

/-- A backslash escapes the next character, unless that is a line feed. -/
theorem segmentsLength_backslash (d : Char) (cs : List Char) :
    segmentsLength ('\\' :: d :: cs) = if d = '\n' then 0 else 2 + segmentsLength cs := by
  rw [segmentsLength, runLength_zero_cons]
  by_cases feed : d = '\n'
  · simp [segment?, feed]
  · have taken : segment? ('\\' :: d :: cs) = some 2 := by simp [segment?, feed]
    rw [taken, if_neg feed]
    simp only [runLength, segmentsLength]
    omega

/-- After a backslash the line goes on in the next one. -/
theorem exists_of_skip?_backslash {cs : List Char} {n : Nat} (h : skip? ('\\' :: cs) = some n) :
    ∃ tail, cs = '\n' :: tail ∨ cs = '\r' :: '\n' :: tail := by
  have unblank : isLineBlank '\\' = false := by decide
  have hash : '\\' ≠ '#' := by decide
  unfold skip? at h
  simp only [unblank, hash, Bool.false_eq_true, if_false, if_true] at h
  split at h
  · exact ⟨_, .inl rfl⟩
  · exact ⟨_, .inr rfl⟩
  · cases h

/-- A word starts with a character that ends no word. -/
theorem isMeta_of_segmentsLength {c : Char} {t : List Char} (h : segmentsLength (c :: t) ≠ 0) :
    isMeta c = false := by
  cases hm : isMeta c with
  | false => rfl
  | true => exact absurd (segmentsLength_of_endsWord (by simp [endsWord, hm])) h

theorem isLineBlank_of_isMeta {c : Char} (h : isMeta c = false) : isLineBlank c = false := by
  cases hb : isLineBlank c with
  | false => rfl
  | true =>
    simp only [isLineBlank, Bool.or_eq_true, beq_iff_eq] at hb
    rcases hb with rfl | rfl <;> exact absurd h (by decide)

/-- Inside a word nothing can be skipped, but for what looks like a comment. -/
theorem skip?_word {part rest : List Char} (ne : part ≠ [])
    (whole : segmentsLength (part ++ rest) = part.length) (h : endsEscaped part = false) :
    skip? (part ++ rest) = none ∨ part.head? = some '#' := by
  cases part with
  | nil => exact absurd rfl ne
  | cons c cs =>
    rw [List.cons_append, List.length_cons] at whole
    rw [List.cons_append]
    have unblank : isLineBlank c = false := by
      apply isLineBlank_of_isMeta
      apply isMeta_of_segmentsLength (t := cs ++ rest)
      omega
    by_cases hash : c = '#'
    · exact .inr (by rw [hash]; rfl)
    · left
      by_cases backslash : c = '\\'
      · subst backslash
        apply Option.eq_none_iff_forall_ne_some.mpr
        intro n skipped
        obtain ⟨tail, eq | eq⟩ := exists_of_skip?_backslash skipped
        · rw [eq, segmentsLength_backslash, if_pos rfl] at whole
          omega
        · -- Only a carriage return at the very end of the word can be escaped so.
          have none : segmentsLength ('\n' :: tail) = 0 := segmentsLength_of_endsWord rfl
          rw [eq, segmentsLength_backslash, if_neg (by decide), none] at whole
          obtain ⟨d, rfl⟩ : ∃ d, cs = [d] := List.length_eq_one_iff.mp (by omega)
          injection eq with same
          rw [same] at h
          exact absurd h (by decide)
      · unfold skip?
        simp [unblank, hash, backslash]

/-- A comment ends at the end of its line. -/
theorem drop_comment (cs : List Char) :
    cs.drop (cs.takeWhile (· != '\n')).length = [] ∨
      ∃ ds, cs.drop (cs.takeWhile (· != '\n')).length = '\n' :: ds := by
  induction cs with
  | nil => exact .inl rfl
  | cons c cs ih =>
    by_cases feed : c = '\n'
    · right
      exact ⟨cs, by simp [feed]⟩
    · simpa [List.takeWhile_cons, feed] using ih

/-- Inside a word no parenthesis opens, even if something is skipped first. -/
theorem not_fits_openParen {part rest mid : List Char} {t : Token} (ne : part ≠ [])
    (whole : segmentsLength (part ++ rest) = part.length) (h : endsEscaped part = false)
    (ht : t.terminal = .sign .openParen) : ¬ t.Fits (part ++ rest) mid := by
  intro fits
  have paren : ∃ after, t.text ++ mid = '(' :: after := by
    have taken := fits.length_eq
    rw [ht] at taken
    obtain ⟨after, eq, -⟩ := Sign.length?_eq_some.mp taken
    exact ⟨after, eq⟩
  obtain ⟨after, paren⟩ := paren
  have text := fits.text_eq
  rw [List.append_assoc, paren] at text
  -- The parenthesis stands where skipping leads.
  have here {g : Nat} (hg : t.gap.length = g) : (part ++ rest).drop g = '(' :: after := by
    rw [text, ← hg, List.drop_left]
  have head : (part ++ rest).head? ≠ some '(' := by
    cases part with
    | nil => exact absurd rfl ne
    | cons c cs =>
      intro same
      cases same
      have plain := isMeta_of_segmentsLength (c := '(') (t := cs ++ rest) (by
        rw [List.cons_append] at whole
        rw [whole]
        simp)
      exact absurd plain (by decide)
  have nonzero : t.gap.length ≠ 0 := by
    intro zero
    have := here zero
    rw [List.drop_zero] at this
    exact head (by rw [this]; rfl)
  rcases skip?_word ne whole h with none | hash
  · exact nonzero ((mem_gaps_of_none none).mp fits.gap_mem)
  · -- What looks like a comment goes on to the end of the line.
    obtain ⟨cs, eq⟩ : ∃ cs, part ++ rest = '#' :: cs := by
      cases part with
      | nil => cases hash
      | cons c cs =>
        cases hash
        exact ⟨cs ++ rest, rfl⟩
    rw [eq] at fits here
    have skipped : skip? ('#' :: cs) = some ((cs.takeWhile (· != '\n')).length + 1) := by
      unfold skip?
      simp [isLineBlank, Nat.add_comm]
    have bound : (cs.takeWhile (· != '\n')).length ≤ cs.length :=
      (cs.takeWhile_prefix _).length_le
    have reached := (mem_gaps_of_skip skipped (by simpa using bound)).mp fits.gap_mem
    obtain ⟨g, hg, length⟩ := reached.resolve_left nonzero
    rw [List.drop_succ_cons] at hg
    have stop := here length
    have gone : skip? (cs.drop (cs.takeWhile (· != '\n')).length) = none := by
      rcases drop_comment cs with eq | ⟨ds, eq⟩
      · rw [eq]
        rfl
      · rw [eq]
        rfl
    obtain rfl := (mem_gaps_of_none gone).mp hg
    rw [Nat.zero_add, List.drop_succ_cons] at stop
    rcases drop_comment cs with eq | ⟨ds, eq⟩
    · rw [eq] at stop
      cases stop
    · rw [eq] at stop
      cases stop

/-! ### First characters -/

/-- What a character can start. -/
inductive Look
  /-- A word or a file descriptor. -/
  | word
  /-- A sign. -/
  | sign
  /-- The operator of a redirection. -/
  | angle
  /-- A line end. -/
  | line
  deriving DecidableEq, Repr

/-- What a character can start, if it starts anything. -/
def lookOf (c : Char) : Look :=
  if ['&', '|', ';', '(', ')'].contains c then .sign
  else if ['<', '>'].contains c then .angle
  else if ['\n', '\r'].contains c then .line
  else .word

/-- What the first character of a terminal starts. -/
def look : Terminal → Look
  | .sign _ => .sign
  | .redirectOperator => .angle
  | .newline => .line
  | _ => .word

theorem lookOf_eq_word {p : Char → Bool} {c : Char} (h : p c = true)
    (check : ∀ d ∈ ['&', '|', ';', '(', ')', '<', '>', '\n', '\r'], p d = false) :
    lookOf c = .word := by
  have differs : ∀ d ∈ ['&', '|', ';', '(', ')', '<', '>', '\n', '\r'], c ≠ d := by
    rintro d hd rfl
    rw [check c hd] at h
    cases h
  simp only [List.mem_cons, List.not_mem_nil, or_false, forall_eq_or_imp, forall_eq] at differs
  simp [lookOf, differs]

/-- The first character tells what kind of terminal it is. -/
theorem look_of_length? {t : Terminal} {c : Char} {cs : List Char} {n : Nat}
    (h : t.length? (c :: cs) = some n) : look t = lookOf c := by
  -- All word terminals look alike; the other terminals start with characters of their own.
  by_cases wordlike : t.isWordlike = true
  · have plain := (head_of_isWordlike wordlike h).1
    have word := lookOf_eq_word (p := fun c => !isMeta c) (c := c) (by simp [plain]) (by
      simp only [List.mem_cons, List.not_mem_nil, or_false, forall_eq_or_imp, forall_eq]
      decide)
    cases t <;> first | exact word.symm | cases wordlike
  · cases t with
    | sign s =>
      have head := head_of_sign h
      simp only [List.mem_cons, List.not_mem_nil, or_false] at head
      rcases head with rfl | rfl | rfl | rfl | rfl <;> rfl
    | redirectOperator =>
      have head := head_of_redirectOperator h
      simp only [List.mem_cons, List.not_mem_nil, or_false] at head
      rcases head with rfl | rfl <;> rfl
    | newline =>
      have head := head_of_newline h
      simp only [List.mem_cons, List.not_mem_nil, or_false] at head
      rcases head with rfl | rfl <;> rfl
    | ioNumber =>
      refine (lookOf_eq_word (head_of_ioNumber (t := cs) h) ?_).symm
      simp only [List.mem_cons, List.not_mem_nil, or_false, forall_eq_or_imp, forall_eq]
      decide
    | _ => exact absurd rfl wordlike

/-- Terminals that stand at one place look alike. -/
theorem look_eq {a b : Terminal} {cs : List Char} {m n : Nat} (ha : a.length? cs = some m)
    (hb : b.length? cs = some n) : look a = look b := by
  cases cs with
  | nil =>
    have := Terminal.length?_bounds ha
    simp only [List.length_nil] at this
    omega
  | cons c cs => rw [look_of_length? ha, look_of_length? hb]

theorem look_of_isWordlike {t : Terminal} (h : t.isWordlike = true) : look t = .word := by
  cases t <;> first | rfl | cases h

theorem isWordlike_of_look {t : Terminal} (h : look t = .word) (other : t ≠ .ioNumber) :
    t.isWordlike = true := by
  cases t <;> first | rfl | exact absurd rfl other | cases h

theorem exists_sign_of_look {t : Terminal} (h : look t = .sign) : ∃ s, t = .sign s := by
  cases t <;> first | exact ⟨_, rfl⟩ | cases h

/-! ### Tokens at the place of a lexeme -/

/-- The sign that is the first half of another one. -/
def half? : Sign → Option Sign
  | .andIf => some .ampersand
  | .orIf => some .bar
  | .doubleSemicolon => some .semicolon
  | _ => none

/-- The token stands where the lexeme does, and leaves `mid` where the lexeme
    leaves `rest`. -/
inductive Contest (l : Lexeme) (rest : List Char) (t : Token) (mid : List Char) : Prop
  /-- It takes the same characters, and its terminal is a rival. -/
  | rival (same : t.terminal = l.terminal → lexeme t = l) (left : mid = rest)
      (rival : rivals l.terminal t.terminal = true)
  /-- It is a reserved word that separates parts, and the lexeme is a word spelled
      like it. -/
  | part {r : Reserved} {k : Family} (terminal : t.terminal = .reserved r)
      (family : partOf? r = some k)
      (word : l = ⟨.word, r.spelling⟩)
  /-- It is a name, and the lexeme is none. -/
  | name (terminal : t.terminal = .name) (other : l.terminal ≠ .name)
  /-- It is the name of a function, which no parenthesis can follow. -/
  | functionName (terminal : t.terminal = .functionName) (other : l.terminal ≠ .functionName)
      (stuck : ∀ (t' : Token) (rest' : List Char), t'.terminal = .sign .openParen → ¬ t'.Fits mid rest')
  /-- It is the first half of the sign that the lexeme is. -/
  | half {s h : Sign} (sign : l.terminal = .sign s) (first : half? s = some h)
      (terminal : t.terminal = .sign h) (open_ : isSkippable mid = false)
      (stuck : ∀ (t' : Token) (rest' : List Char), t'.Fits mid rest' →
        t'.terminal = .sign h ∨ (t'.terminal = .sign s ∧ s ≠ .doubleSemicolon))

section

variable {l : Lexeme} {rest mid gap : List Char} {t : Token}

/-- A token with the same characters and the same terminal is the lexeme. -/
theorem lexeme_eq (other : l.terminal ≠ .newline) (text : t.text = l.text) :
    t.terminal = l.terminal → lexeme t = l := by
  intro terminal
  rw [lexeme, terminal, if_neg other, text]

theorem endsWord_of_stands (stands : Stands l rest) (h : l.terminal.isWordlike = true) :
    endsWord rest = true := by
  have follows := stands.follows
  unfold mayFollow at follows
  split at follows
  case h_5 => simpa [h] using follows
  all_goals
    rename_i eq
    rw [eq] at h
    cases h

theorem whole_of_stands (stands : Stands l rest) (h : l.terminal.isWordlike = true) :
    segmentsLength (l.text ++ rest) = l.text.length := by
  apply segmentsLength_eq h stands.taken
  rw [List.drop_left]
  exact endsWord_of_stands stands h

theorem text_ne_nil_of_stands (stands : Stands l rest) : l.text ≠ [] :=
  List.ne_nil_of_length_pos (Terminal.length?_bounds stands.taken).1

/-- Nothing can be skipped where a lexeme stands. -/
theorem skip?_of_stands (stands : Stands l rest) (clean : endsEscaped l.text = false) :
    skip? (l.text ++ rest) = none := by
  have ne := text_ne_nil_of_stands stands
  have ink := stands.ink
  cases text : l.text with
  | nil => exact absurd text ne
  | cons c cs =>
    rw [text] at ink
    simp only [startsInk, List.cons_append, List.head?_cons, Option.all_some, Bool.and_eq_true,
      Bool.not_eq_true', bne_iff_ne] at ink
    obtain ⟨⟨⟨unblank, -⟩, -⟩, hash⟩ := ink
    by_cases wordlike : l.terminal.isWordlike = true
    · rw [← text]
      apply (skip?_word ne (whole_of_stands stands wordlike) clean).resolve_right
      rw [text]
      simpa using hash
    · -- No other terminal starts with a backslash.
      have backslash : c ≠ '\\' := by
        rintro rfl
        have taken := stands.taken
        rw [text, List.cons_append] at taken
        have word := look_of_length? taken
        cases ht : l.terminal with
        | ioNumber =>
          rw [ht] at taken
          have digit : Text.isDigit '\\' = true := head_of_ioNumber (t := cs ++ rest) taken
          exact absurd digit (by decide)
        | sign | redirectOperator | newline =>
          rw [ht] at word
          cases word
        | _ =>
          rw [ht] at wordlike
          exact wordlike rfl
      unfold skip?
      simp [unblank, hash, backslash]

/-- No token starts with a blank. -/
theorem startsUnblank_of_fits {cs : List Char} {n : Nat} {t : Terminal}
    (h : t.length? cs = some n) : startsUnblank cs = true := by
  by_cases other : t = .newline
  · subst other
    cases cs with
    | nil => rfl
    | cons c cs =>
      have head := head_of_newline h
      simp only [List.mem_cons, List.not_mem_nil, or_false] at head
      rcases head with rfl | rfl <;> rfl
  · exact startsUnblank_of_ink (startsInk_of_length? other h)

/-- Blanks are skipped before the next token, and nothing else where nothing
    else can be. -/
theorem fits_append {r : List Char} (blank : ∀ c ∈ gap, c = ' ') (unblank : startsUnblank r = true)
    (solid : skip? r = none) (fits : t.Fits (gap ++ r) mid) :
    r = t.text ++ mid ∧ t.terminal.length? r = some t.text.length := by
  have text := fits.text_eq
  have taken := fits.length_eq
  have places := (mem_gaps_append blank unblank).mp fits.gap_mem
  have same : t.gap.length = gap.length → r = t.text ++ mid := by
    intro length
    rw [List.append_assoc] at text
    exact (List.append_inj text length.symm).2
  have eq : r = t.text ++ mid := by
    rcases places with zero | ⟨g, hg, length⟩
    · cases gap with
      | nil => exact same zero
      | cons c gap =>
        -- A token would start with a blank.
        exfalso
        obtain rfl := blank c (List.mem_cons_self ..)
        rw [List.eq_nil_of_length_eq_zero zero, List.nil_append] at text
        rw [← text] at taken
        cases startsUnblank_of_fits taken
    · obtain rfl := (mem_gaps_of_none solid).mp hg
      apply same
      omega
  exact ⟨eq, eq ▸ taken⟩

/-- A word is no file descriptor. -/
theorem ioNumberLength?_of_isWordlike {t : Terminal} {cs : List Char} {n : Nat}
    (ht : t.isWordlike = true) (h : t.length? cs = some n) : ioNumberLength? cs = none := by
  have undigited {c : Char} {cs : List Char} (hc : Text.isDigit c = false) :
      ioNumberLength? (c :: cs) = none := by
    simp [ioNumberLength?, hc]
  have started {c : Char} {cs : List Char} (start : isIdentifierStart c = true) :
      ioNumberLength? (c :: cs) = none :=
    undigited ((name_check (isFunctionNamePart_of_start start)).2 start).2
  have pos := (Terminal.length?_bounds h)
  cases cs with
  | nil => rfl
  | cons c cs =>
    -- Words of both kinds exclude descriptors by definition; the others do not start with a digit.
    cases t with
    | reserved w =>
      obtain ⟨rest, eq, -⟩ := Reserved.length?_eq_some.mp h
      apply undigited
      cases w <;> (injection eq with hc; subst hc; decide)
    | name =>
      apply started
      apply isIdentifierStart_of_identifierLength (t := cs)
      have := positive?_eq_some.mp h
      omega
    | functionName => exact started (isIdentifierStart_of_functionName h)
    | assignmentWord =>
      obtain ⟨k, hk, -⟩ := Option.map_eq_some_iff.mp h
      exact started (isIdentifierStart_of_identifierLength (assigneeLength?_eq_some hk).2.1)
    | commandWord => exact (wordLength?_eq_some.mp (commandWordLength?_eq_some.mp h).2.2).2.1
    | word => exact (wordLength?_eq_some.mp h).2.1
    | _ => cases ht

/-- A word takes a whole word, unless it is a name of some kind, which may take
    less. -/
theorem wordlike_length {t : Terminal} {cs : List Char} {n : Nat} (ht : t.isWordlike = true)
    (h : t.length? cs = some n) :
    segmentsLength cs = n ∨ ((t = .name ∨ t = .functionName) ∧
      segmentsLength cs = n + segmentsLength (cs.drop n)) := by
  cases t with
  | reserved w =>
    left
    obtain ⟨rest, rfl, ends, rfl⟩ := Reserved.length?_eq_some.mp h
    apply segmentsLength_eq ht h
    rwa [List.drop_left]
  | name =>
    right
    obtain ⟨rfl, -⟩ := positive?_eq_some.mp h
    exact ⟨.inl rfl, segmentsLength_of_plain (identifierLength_le cs) isPlain_take_identifierLength⟩
  | functionName =>
    right
    obtain ⟨bound, plain⟩ := isPlain_take_functionNameLength h
    exact ⟨.inr rfl, segmentsLength_of_plain bound plain⟩
  | assignmentWord => exact .inl (segmentsLength_of_assignment h)
  | commandWord =>
    exact .inl (wordLength?_eq_some.mp (commandWordLength?_eq_some.mp h).2.2).2.2.1
  | word => exact .inl (wordLength?_eq_some.mp h).2.2.1
  | _ => cases ht

/-- A token at the place of a word. -/
theorem contest_word (stands : Stands l rest) (clean : endsEscaped l.text = false)
    (wordlike : l.terminal.isWordlike = true) (text : l.text ++ rest = t.text ++ mid)
    (taken : t.terminal.length? (l.text ++ rest) = some t.text.length) : Contest l rest t mid := by
  have whole := whole_of_stands stands wordlike
  have nonempty := (Terminal.length?_bounds stands.taken).1
  have wordlike' : t.terminal.isWordlike = true := by
    apply isWordlike_of_look
    · rw [← look_eq stands.taken taken]
      exact look_of_isWordlike wordlike
    · intro number
      rw [number] at taken
      have none := ioNumberLength?_of_isWordlike wordlike stands.taken
      change ioNumberLength? _ = _ at taken
      rw [none] at taken
      cases taken
  -- The same characters, so the terminals are rivals unless they are apart.
  have same (length : t.text.length = l.text.length) : Contest l rest t mid := by
    obtain ⟨eq, left⟩ := List.append_inj text length.symm
    cases rival : rivals l.terminal t.terminal with
    | true => exact .rival (lexeme_eq stands.other eq.symm) left.symm rival
    | false =>
      rcases apart_of_not_rivals wordlike wordlike' rival with apart | ⟨r, k, word, reserved, family⟩
      · exact absurd (length ▸ taken) (fun h => apart _ _ stands.taken h)
      · refine .part reserved family ?_
        rw [reserved] at taken
        obtain ⟨after, spelled, -, spelledLength⟩ := Reserved.length?_eq_some.mp taken
        obtain ⟨eq', -⟩ := List.append_inj spelled (by omega)
        rw [← word, ← eq']
  rcases wordlike_length wordlike' taken with full | ⟨name, cut⟩
  · exact same (by omega)
  · by_cases length : t.text.length = l.text.length
    · exact same length
    · have shorter : t.text.length < l.text.length := by omega
      have unlike : l.terminal ≠ t.terminal := by
        intro eq
        rw [← eq, stands.taken] at taken
        injection taken with h
        omega
      rcases name with name | name
      · exact .name name (name ▸ unlike)
      · refine .functionName name (name ▸ unlike) fun t' rest' ht' => ?_
        -- What is left of the word goes on.
        have left : mid = l.text.drop t.text.length ++ rest := by
          rw [← List.drop_append_of_le_length (by omega), text, List.drop_left]
        have wholeLeft : segmentsLength (l.text.drop t.text.length ++ rest) =
            (l.text.drop t.text.length).length := by
          rw [← left]
          rw [text, List.drop_left, ← text] at cut
          rw [List.length_drop]
          omega
        rw [left]
        apply not_fits_openParen _ wholeLeft _ ht'
        · exact List.ne_nil_of_length_pos (by rw [List.length_drop]; omega)
        · exact endsEscaped_drop clean _

/-- Signs that start alike are the same, or one is the first half of the other. -/
theorem eq_or_half {s s' : Sign} {cs ds : List Char}
    (h : s.spelling ++ cs = s'.spelling ++ ds) :
    (s' = s ∧ ds = cs) ∨
      (∃ c, half? s = some s' ∧ ds = c :: cs ∧ s'.spelling = [c] ∧ s.spelling = [c, c]) ∨
      (∃ c, half? s' = some s ∧ cs = c :: ds ∧ s.spelling = [c] ∧ s'.spelling = [c, c]) := by
  cases s <;> cases s' <;>
    simp only [Sign.spelling, List.cons_append, List.nil_append, List.cons.injEq, Char.reduceEq,
      false_and, true_and] at h <;>
    first
      | exact .inl ⟨rfl, h.symm⟩
      | exact .inr (.inl ⟨_, rfl, h.symm, rfl, rfl⟩)
      | exact .inr (.inr ⟨_, rfl, h, rfl, rfl⟩)

/-- A token at the place of a sign. -/
theorem contest_sign {s : Sign} (stands : Stands l rest) (sign : l.terminal = .sign s)
    (text : l.text ++ rest = t.text ++ mid)
    (taken : t.terminal.length? (l.text ++ rest) = some t.text.length) : Contest l rest t mid := by
  have own := stands.taken
  rw [sign] at own
  obtain ⟨after, eq, length⟩ := Sign.length?_eq_some.mp own
  obtain ⟨spelled, -⟩ := List.append_inj eq length
  obtain ⟨s', terminal⟩ := exists_sign_of_look (look_eq taken stands.taken |>.trans (sign ▸ rfl))
  rw [spelled] at taken text
  rw [terminal] at taken
  obtain ⟨after', eq', length'⟩ := Sign.length?_eq_some.mp taken
  have spelled' : t.text = s'.spelling := by
    apply (List.append_inj (text.symm.trans eq') length').1
  rw [spelled'] at text
  rcases eq_or_half text with ⟨same, left⟩ | ⟨c, first, left, single, double⟩ |
    ⟨c, first, left, single, double⟩
  · refine .rival (lexeme_eq stands.other (by rw [spelled, spelled', same])) left ?_
    rw [sign, terminal, same]
    exact rivals_self _
  · have head : c ∈ ['&', '|', ';'] := by
      cases s' <;> cases single <;> first | decide | (cases s <;> cases first)
    have solid : skip? (c :: rest) = none := by
      simp only [List.mem_cons, List.not_mem_nil, or_false] at head
      rcases head with rfl | rfl | rfl <;> rfl
    refine .half sign first terminal ?_ fun t' rest' fits => ?_
    · rw [left]
      apply Bool.eq_false_iff.mpr
      intro skippable
      have reached : (c :: rest).length ∈ gaps (c :: rest) := by simpa [isSkippable] using skippable
      cases (mem_gaps_of_none solid).mp reached
    · rw [left] at fits
      have zero := (mem_gaps_of_none solid).mp fits.gap_mem
      have text' := fits.text_eq
      have taken' := fits.length_eq
      rw [List.eq_nil_of_length_eq_zero zero, List.nil_append] at text'
      rw [← text'] at taken'
      obtain ⟨s'', terminal'⟩ : ∃ s, t'.terminal = .sign s := by
        apply exists_sign_of_look
        rw [look_of_length? taken']
        simp only [List.mem_cons, List.not_mem_nil, or_false] at head
        rcases head with rfl | rfl | rfl <;> rfl
      rw [terminal'] at taken'
      obtain ⟨after'', eq'', -⟩ := Sign.length?_eq_some.mp taken'
      have follows := stands.follows
      rw [sign] at follows
      -- Three signs are written twice, and only these two start with such a character.
      cases s <;> cases first <;> cases single <;> cases s'' <;> first
        | exact .inl terminal'
        | exact .inr ⟨terminal', by decide⟩
        | (injection eq'' with hc _; exact absurd hc (by decide))
        | (injection eq'' with _ eq''; rw [eq''] at follows; cases follows)
  · exfalso
    have follows := stands.follows
    rw [sign] at follows
    cases s' <;> cases first <;> cases single <;> simp [mayFollow, left] at follows

/-- A token at the place of a file descriptor or a redirection. -/
theorem contest_redirect (stands : Stands l rest)
    (kind : l.terminal = .ioNumber ∨ l.terminal = .redirectOperator)
    (text : l.text ++ rest = t.text ++ mid)
    (taken : t.terminal.length? (l.text ++ rest) = some t.text.length) : Contest l rest t mid := by
  have own := stands.taken
  have looks := look_eq own taken
  -- A descriptor is no word, and no other terminal starts with the sign of a redirection.
  have terminal : t.terminal = l.terminal := by
    rcases kind with kind | kind
    · rw [kind] at own looks ⊢
      by_cases other : t.terminal = .ioNumber
      · exact other
      · have wordlike := isWordlike_of_look looks.symm other
        have none := ioNumberLength?_of_isWordlike wordlike taken
        change ioNumberLength? _ = _ at own
        rw [none] at own
        cases own
    · rw [kind] at looks ⊢
      cases ht : t.terminal with
      | redirectOperator => rfl
      | _ =>
        rw [ht] at looks
        cases looks
  rw [terminal, own] at taken
  injection taken with length
  obtain ⟨eq, left⟩ := List.append_inj text length
  exact .rival (lexeme_eq stands.other eq.symm) left.symm (terminal ▸ rivals_self _)

/-- A token that stands where a lexeme does contests it. -/
theorem Stands.contest (stands : Stands l rest) (clean : endsEscaped l.text = false)
    (blank : ∀ c ∈ gap, c = ' ') (fits : t.Fits (gap ++ (l.text ++ rest)) mid) :
    Contest l rest t mid := by
  obtain ⟨text, taken⟩ := fits_append blank (startsUnblank_of_ink stands.ink) (skip?_of_stands stands clean) fits
  by_cases wordlike : l.terminal.isWordlike = true
  · exact contest_word stands clean wordlike text taken
  · cases ht : l.terminal with
    | sign s => exact contest_sign stands ht text taken
    | ioNumber => exact contest_redirect stands (.inl ht) text taken
    | redirectOperator => exact contest_redirect stands (.inr ht) text taken
    | newline => exact absurd ht stands.other
    | _ =>
      rw [ht] at wordlike
      exact absurd rfl wordlike

/-- A token at the place of line ends is these line ends. -/
theorem contest_newline {run : List Char} (blank : ∀ c ∈ gap, c = ' ')
    (lines : ∀ c ∈ run, c = ' ' ∨ c = '\n') (ink : startsInk rest = true)
    (fits : t.Fits (gap ++ '\n' :: (run ++ rest)) mid) : Contest ⟨.newline, []⟩ rest t mid := by
  obtain ⟨text, taken⟩ := fits_append blank (r := '\n' :: (run ++ rest)) rfl rfl fits
  have terminal : t.terminal = .newline := by
    -- The first character decides for a line end, which takes the whole run.
    have looks : look t.terminal = .line := look_of_length? taken
    cases ht : t.terminal with
    | newline => rfl
    | _ =>
      rw [ht] at looks
      cases looks
  refine .rival (fun _ => by rw [lexeme, terminal]; rfl) ?_ (by rw [terminal]; rfl)
  rw [terminal] at taken
  have length := (positive?_eq_some.mp taken).1
  unfold newlinesLength at length
  rw [if_pos rfl, newlinesLength_append lines (newlinesLength_of_ink ink)] at length
  rw [← List.cons_append] at text
  apply (List.append_inj text _).2.symm
  rw [List.length_cons]
  omega

end

end ShellInliner.Parse
