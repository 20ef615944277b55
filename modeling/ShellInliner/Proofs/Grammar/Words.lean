import ShellInliner.Proofs.Grammar.Length

/-! # Words in their context

    How many characters a terminal takes depends on the text that follows.  A
    word without an expansion that is left open takes the same characters
    wherever it stands, as long as a blank, a line end or a sign follows it. -/

namespace ShellInliner

/-! ### Plain characters -/

namespace Word

/-- Is the character a segment of its own wherever it stands? -/
def isPlain (c : Char) : Bool :=
  c != '\'' && c != '"' && c != '\x60' && c != '\\' && c != '$' && !isMeta c

theorem segment?_plain {c : Char} (h : isPlain c = true) (cs : List Char) :
    segment? (c :: cs) = some 1 := by
  simp only [isPlain, Bool.and_eq_true, bne_iff_ne, ne_eq, Bool.not_eq_true'] at h
  simp [segment?, h]

/-- A meta character starts no segment. -/
theorem segment?_meta {c : Char} (h : isMeta c = true) (cs : List Char) :
    segment? (c :: cs) = none := by
  have other (d : Char) (hd : isMeta d = false) : c ≠ d := by
    rintro rfl
    rw [h] at hd
    cases hd
  simp [segment?, h, other '\'' (by decide), other '"' (by decide), other '\x60' (by decide),
    other '\\' (by decide), other '$' (by decide)]

theorem runLength_zero_cons (segment : List Char → Option Nat) (c : Char) (cs : List Char) :
    runLength segment 0 (c :: cs) =
      match segment (c :: cs) with
      | some (n + 1) => 1 + runLength segment n cs
      | _ => 0 := by
  cases taken : segment (c :: cs) with
  | none => simp [runLength, taken]
  | some k => cases k <;> simp [runLength, taken]

theorem segmentsLength_plain {ps : List Char} (h : ∀ c ∈ ps, isPlain c = true) (cs : List Char) :
    segmentsLength (ps ++ cs) = ps.length + segmentsLength cs := by
  induction ps with
  | nil => simp
  | cons c ps ih =>
    have first := segment?_plain (h c (List.mem_cons_self ..)) (ps ++ cs)
    have others := ih fun c hc => h c (List.mem_cons_of_mem _ hc)
    rw [List.cons_append, segmentsLength, runLength_zero_cons, first]
    simp only [segmentsLength] at others
    simp only [others, List.length_cons, segmentsLength]
    omega

/-- No word starts where a word ends. -/
theorem segmentsLength_of_endsWord {cs : List Char} (h : Grammar.endsWord cs = true) :
    segmentsLength cs = 0 := by
  cases cs with
  | nil => rfl
  | cons c cs =>
    have isMeta : isMeta c = true := by simpa [Grammar.endsWord] using h
    rw [segmentsLength, runLength_zero_cons, segment?_meta isMeta]

end Word

namespace Grammar

open Word

/-! ### Characters of names -/

/-- A character of a name is one of the first code points. -/
theorem isFunctionNamePart_lt {c : Char} (h : isFunctionNamePart c = true) : c.toNat < 128 := by
  simp only [isFunctionNamePart, isIdentifierPart, Bool.or_eq_true, beq_iff_eq] at h
  rcases h with (((((h | rfl) | rfl) | rfl) | rfl) | rfl) | rfl
  · -- Letters and digits are three ranges of code points; the other characters are listed.
    change (decide (c.val ≥ 'A'.val ∧ c.val ≤ 'Z'.val) ||
      (decide (c.val ≥ 'a'.val) && decide (c.val ≤ 'z'.val)) ||
      (decide (c.val ≥ '0'.val) && decide (c.val ≤ '9'.val))) = true at h
    simp only [Bool.or_eq_true, Bool.and_eq_true, decide_eq_true_eq, UInt32.le_iff_toNat_le,
      ge_iff_le] at h
    have code : c.toNat = c.val.toNat := rfl
    have upper : 'Z'.val.toNat = 90 := rfl
    have lower : 'z'.val.toNat = 122 := rfl
    have digit : '9'.val.toNat = 57 := rfl
    omega
  all_goals decide

/-- The characters of names are plain, and no name starts with a digit. -/
theorem names_check : (List.range 128).all (fun n =>
    (!isFunctionNamePart (Char.ofNat n) || isPlain (Char.ofNat n)) &&
      (!isIdentifierStart (Char.ofNat n) ||
        (isIdentifierPart (Char.ofNat n) && !Text.isDigit (Char.ofNat n)))) = true := by
  rfl

theorem isFunctionNamePart_of_identifier {c : Char} (h : isIdentifierPart c = true) :
    isFunctionNamePart c = true := by
  simp [isFunctionNamePart, h]

theorem isFunctionNamePart_of_start {c : Char} (h : isIdentifierStart c = true) :
    isFunctionNamePart c = true := by
  refine isFunctionNamePart_of_identifier ?_
  simp only [isIdentifierStart, Bool.or_eq_true] at h
  simp only [isIdentifierPart, Char.isAlphanum, Bool.or_eq_true]
  exact h.imp .inl id

/-- The check of a character, from the check of all code points. -/
theorem name_check {c : Char} (h : isFunctionNamePart c = true) :
    isPlain c = true ∧
      (isIdentifierStart c = true → isIdentifierPart c = true ∧ Text.isDigit c = false) := by
  have all := List.all_eq_true.mp names_check c.toNat
    (List.mem_range.mpr (isFunctionNamePart_lt h))
  rw [Char.ofNat_toNat] at all
  simp only [Bool.and_eq_true, Bool.or_eq_true, Bool.not_eq_true', h] at all
  refine ⟨by simpa using all.1, fun start => ?_⟩
  simpa [start] using all.2

theorem isPlain_of_namePart {c : Char} (h : isFunctionNamePart c = true) : isPlain c = true :=
  (name_check h).1

/-! ### Complete words -/

/-- Is the terminal a word of some kind? -/
def Terminal.isWordlike : Terminal → Bool
  | reserved _ | name | functionName | assignmentWord | commandWord | word => true
  | _ => false

theorem Reserved.isPlain_spelling (w : Reserved) : ∀ c ∈ w.spelling, isPlain c = true := by
  have all : w.spelling.all isPlain = true := by cases w <;> decide
  exact List.all_eq_true.mp all

theorem mem_takeWhile {p : Char → Bool} {cs : List Char} {c : Char} (h : c ∈ cs.takeWhile p) :
    p c = true := by
  have := List.all_takeWhile (l := cs) (p := p)
  exact List.all_eq_true.mp this c h

/-- An identifier is made of characters of names. -/
theorem namePart_of_identifier {cs : List Char} :
    ∀ c ∈ cs.take (identifierLength cs), isFunctionNamePart c = true := by
  intro c hc
  cases cs with
  | nil => simp at hc
  | cons d cs =>
    rw [identifierLength] at hc
    split at hc
    · rename_i start
      rw [Nat.add_comm, List.take_succ_cons, List.mem_cons] at hc
      -- The first character starts an identifier, and the others were taken while they go on.
      rcases hc with rfl | hc
      · exact isFunctionNamePart_of_start start
      · rw [← List.prefix_iff_eq_take.mp (cs.takeWhile_prefix _)] at hc
        exact isFunctionNamePart_of_identifier (mem_takeWhile hc)
    · simp at hc

/-- The name of a function is made of characters of names. -/
theorem namePart_of_functionName {cs : List Char} {n : Nat} (h : functionNameLength? cs = some n) :
    ∀ c ∈ cs.take n, isFunctionNamePart c = true := by
  intro c hc
  unfold functionNameLength? at h
  split at h
  · cases h
  · split at h
    · cases h
    · rename_i d cs _
      split at h
      · rename_i start
        cases h
        rw [Nat.add_comm, List.take_succ_cons, List.mem_cons] at hc
        rcases hc with rfl | hc
        · exact isFunctionNamePart_of_start start
        · rw [← List.prefix_iff_eq_take.mp (cs.takeWhile_prefix _)] at hc
          exact mem_takeWhile hc
      · cases h

/-- The characters of an identifier are plain. -/
theorem isPlain_take_identifierLength {cs : List Char} :
    ∀ c ∈ cs.take (identifierLength cs), isPlain c = true :=
  fun c hc => isPlain_of_namePart (namePart_of_identifier c hc)

/-- The characters of the name of a function are plain. -/
theorem isPlain_take_functionNameLength {cs : List Char} {n : Nat}
    (h : functionNameLength? cs = some n) :
    n ≤ cs.length ∧ ∀ c ∈ cs.take n, isPlain c = true :=
  ⟨(Terminal.length?_bounds (t := .functionName) h).2,
    fun c hc => isPlain_of_namePart (namePart_of_functionName h c hc)⟩

/-- Plain characters up to the end of a word are the whole word. -/
theorem segmentsLength_of_plain {cs : List Char} {n : Nat} (hn : n ≤ cs.length)
    (plain : ∀ c ∈ cs.take n, isPlain c = true) :
    segmentsLength cs = n + segmentsLength (cs.drop n) := by
  have := segmentsLength_plain plain (cs.drop n)
  rwa [List.take_append_drop, List.length_take, Nat.min_eq_left hn] at this

theorem Reserved.length?_eq_some {w : Reserved} {cs : List Char} {n : Nat} :
    w.length? cs = some n ↔
      ∃ rest, cs = w.spelling ++ rest ∧ endsWord rest = true ∧ n = w.spelling.length := by
  unfold Reserved.length?
  constructor
  · intro h
    split at h
    · rename_i hp
      simp only [Bool.and_eq_true, List.isPrefixOf_iff_prefix] at hp
      obtain ⟨⟨rest, rfl⟩, ends⟩ := hp
      rw [List.drop_left] at ends
      cases h
      exact ⟨rest, rfl, ends, rfl⟩
    · cases h
  · rintro ⟨rest, rfl, ends, rfl⟩
    have starts : w.spelling.isPrefixOf (w.spelling ++ rest) = true :=
      List.isPrefixOf_iff_prefix.mpr (List.prefix_append ..)
    simp [starts, ends]

theorem assigneeLength?_eq_some {cs : List Char} {n : Nat} (h : assigneeLength? cs = some n) :
    n = identifierLength cs + 1 ∧ identifierLength cs ≠ 0 ∧
      cs[identifierLength cs]? = some '=' := by
  simp only [assigneeLength?] at h
  split at h
  · rename_i hn
    cases h
    exact ⟨rfl, hn.1, by simpa using hn.2⟩
  · cases h

/-- An assignment is a whole word. -/
theorem segmentsLength_of_assignment {cs : List Char} {n : Nat}
    (h : assignmentLength? cs = some n) : segmentsLength cs = n := by
  obtain ⟨k, hk, rfl⟩ := Option.map_eq_some_iff.mp h
  obtain ⟨rfl, -, sign⟩ := assigneeLength?_eq_some hk
  have bound : identifierLength cs + 1 ≤ cs.length := (assigneeLength?_bounds hk).2
  -- Up to its value an assignment is an identifier and the sign, and all of these are plain.
  refine segmentsLength_of_plain bound fun c hc => ?_
  rw [List.take_add_one, sign] at hc
  rcases List.mem_append.mp hc with hc | hc
  · exact isPlain_take_identifierLength c hc
  · obtain rfl : c = '=' := by simpa using hc
    decide

theorem wordLength?_eq_some {cs : List Char} {n : Nat} :
    wordLength? cs = some n ↔
      cs.head? ≠ some '#' ∧ ioNumberLength? cs = none ∧ segmentsLength cs = n ∧ 0 < n := by
  unfold wordLength?
  split
  · rename_i h
    simp only [reduceCtorEq, false_iff]
    rintro ⟨h₁, h₂, -⟩
    simp [h₁, h₂] at h
  · rename_i h
    simp only [not_or] at h
    rw [positive?_eq_some]
    constructor
    · rintro ⟨rfl, pos⟩
      exact ⟨h.1, by simpa using h.2, rfl, pos⟩
    · rintro ⟨-, -, rfl, pos⟩
      exact ⟨rfl, pos⟩

theorem commandWordLength?_eq_some {cs : List Char} {n : Nat} :
    commandWordLength? cs = some n ↔
      startsReserved cs = false ∧ assigneeLength? cs = none ∧ wordLength? cs = some n := by
  unfold commandWordLength?
  split
  · rename_i h
    simp only [reduceCtorEq, false_iff]
    rintro ⟨h₁, h₂, -⟩
    simp [h₁, h₂] at h
  · rename_i h
    simp only [Bool.or_eq_true, not_or, Bool.not_eq_true, Option.isSome_eq_false_iff,
      Option.isNone_iff_eq_none] at h
    simp [h]

/-- A terminal that takes characters up to the end of a word takes the whole
    word. -/
theorem segmentsLength_eq {t : Terminal} {cs : List Char} {n : Nat} (ht : t.isWordlike = true)
    (h : t.length? cs = some n) (ends : endsWord (cs.drop n) = true) : segmentsLength cs = n := by
  -- Reserved words and names are plain; the other terminals are measured in segments anyway.
  have none := segmentsLength_of_endsWord ends
  cases t with
  | reserved w =>
    obtain ⟨rest, rfl, -, rfl⟩ := Reserved.length?_eq_some.mp h
    rw [segmentsLength_plain w.isPlain_spelling]
    rw [List.drop_left] at none
    omega
  | name =>
    obtain ⟨rfl, -⟩ := positive?_eq_some.mp h
    rw [segmentsLength_of_plain (identifierLength_le cs) isPlain_take_identifierLength]
    omega
  | functionName =>
    obtain ⟨bound, plain⟩ := isPlain_take_functionNameLength h
    rw [segmentsLength_of_plain bound plain]
    omega
  | assignmentWord => exact segmentsLength_of_assignment h
  | commandWord => exact (wordLength?_eq_some.mp (commandWordLength?_eq_some.mp h).2.2).2.2.1
  | word => exact (wordLength?_eq_some.mp h).2.2.1
  | sign s => cases ht
  | ioNumber => cases ht
  | redirectOperator => cases ht
  | newline => cases ht

/-! ### First characters -/

theorem isMeta_of_isPlain {c : Char} (h : isPlain c = true) : isMeta c = false := by
  simp only [isPlain, Bool.and_eq_true, Bool.not_eq_true'] at h
  exact h.2

/-- An identifier starts with no meta character and starts no comment. -/
theorem head_of_isIdentifierStart {c : Char} (h : isIdentifierStart c = true) :
    isMeta c = false ∧ c ≠ '#' := by
  refine ⟨isMeta_of_isPlain (isPlain_of_namePart (isFunctionNamePart_of_start h)), ?_⟩
  rintro rfl
  revert h
  decide

theorem isIdentifierStart_of_identifierLength {c : Char} {t : List Char}
    (h : identifierLength (c :: t) ≠ 0) : isIdentifierStart c = true := by
  rw [identifierLength] at h
  split at h
  · assumption
  · exact absurd rfl h

theorem head_of_wordLength? {c : Char} {cs : List Char} {n : Nat}
    (h : wordLength? (c :: cs) = some n) : isMeta c = false ∧ c ≠ '#' := by
  obtain ⟨hash, -, hn, pos⟩ := wordLength?_eq_some.mp h
  refine ⟨?_, fun same => hash (by rw [same]; rfl)⟩
  cases hm : isMeta c with
  | false => rfl
  | true =>
    have ends : Grammar.endsWord (c :: cs) = true := by simp [endsWord, hm]
    have none := segmentsLength_of_endsWord ends
    omega

theorem isIdentifierStart_of_functionName {c : Char} {cs : List Char} {n : Nat}
    (h : functionNameLength? (c :: cs) = some n) : isIdentifierStart c = true := by
  simp only [functionNameLength?] at h
  split at h
  · cases h
  · split at h
    · assumption
    · cases h

/-- The first character of a word is no meta character and starts no comment. -/
theorem head_of_isWordlike {t : Terminal} {c : Char} {cs : List Char} {n : Nat}
    (ht : t.isWordlike = true) (h : t.length? (c :: cs) = some n) :
    isMeta c = false ∧ c ≠ '#' := by
  -- The word terminals look at the first character; the others are excluded.
  cases t with
  | reserved w =>
    obtain ⟨rest, heq, -, -⟩ := Reserved.length?_eq_some.mp h
    cases w <;> (injection heq with hc; subst hc; decide)
  | name =>
    have nonzero : identifierLength (c :: cs) ≠ 0 := by
      have := positive?_eq_some.mp h
      omega
    exact head_of_isIdentifierStart (isIdentifierStart_of_identifierLength nonzero)
  | functionName => exact head_of_isIdentifierStart (isIdentifierStart_of_functionName h)
  | assignmentWord =>
    obtain ⟨k, hk, -⟩ := Option.map_eq_some_iff.mp h
    exact head_of_isIdentifierStart
      (isIdentifierStart_of_identifierLength (assigneeLength?_eq_some hk).2.1)
  | commandWord => exact head_of_wordLength? (commandWordLength?_eq_some.mp h).2.2
  | word => exact head_of_wordLength? h
  | sign s => cases ht
  | ioNumber => cases ht
  | redirectOperator => cases ht
  | newline => cases ht

theorem Sign.length?_eq_some {s : Sign} {cs : List Char} {n : Nat} :
    (Terminal.sign s).length? cs = some n ↔
      ∃ rest, cs = s.spelling ++ rest ∧ n = s.spelling.length := by
  simp only [Terminal.length?]
  constructor
  · intro h
    split at h
    · rename_i hp
      obtain ⟨rest, rfl⟩ := List.isPrefixOf_iff_prefix.mp hp
      cases h
      exact ⟨rest, rfl, rfl⟩
    · cases h
  · rintro ⟨rest, rfl, rfl⟩
    have starts : s.spelling.isPrefixOf (s.spelling ++ rest) = true :=
      List.isPrefixOf_iff_prefix.mpr (List.prefix_append ..)
    rw [if_pos starts]

/-- A sign starts with one of these characters. -/
theorem head_of_sign {s : Sign} {c : Char} {cs : List Char} {n : Nat}
    (h : (Terminal.sign s).length? (c :: cs) = some n) : c ∈ ['&', '|', ';', '(', ')'] := by
  obtain ⟨rest, heq, -⟩ := Sign.length?_eq_some.mp h
  cases s <;> (injection heq with hc; subst hc; decide)

/-- An operator of a redirection starts with one of these characters. -/
theorem head_of_redirectOperator {c : Char} {cs : List Char} {n : Nat}
    (h : redirectOperatorLength? (c :: cs) = some n) : c ∈ ['<', '>'] := by
  obtain ⟨op, hop, -⟩ := Option.map_eq_some_iff.mp h
  have starts : op.isPrefixOf (c :: cs) = true := by simpa using List.find?_some hop
  have mem := List.mem_of_find?_eq_some hop
  cases op with
  | nil => exact absurd rfl (ne_nil_of_mem_redirectOperators mem)
  | cons d op =>
    obtain ⟨rest, heq⟩ := List.isPrefixOf_iff_prefix.mp starts
    injection heq with hc
    subst hc
    -- The operators are a table, and all their first characters are checked.
    have heads : redirectOperators.all (fun op => op.head?.all ['<', '>'].contains) = true := by
      decide
    have head := List.all_eq_true.mp heads _ mem
    simpa using head

/-- A file descriptor starts with a digit. -/
theorem head_of_ioNumber {c : Char} {t : List Char} {n : Nat}
    (h : ioNumberLength? (c :: t) = some n) : Text.isDigit c = true := by
  simp only [ioNumberLength?] at h
  split at h
  · rename_i hn
    have := hn.1
    rw [List.takeWhile_cons] at this
    split at this
    · assumption
    · exact absurd rfl this
  · cases h

/-- A line end starts with one of these characters. -/
theorem head_of_newline {c : Char} {cs : List Char} {n : Nat}
    (h : Terminal.newline.length? (c :: cs) = some n) : c ∈ ['\n', '\r'] := by
  have pos := (positive?_eq_some.mp h)
  by_cases hn : c = '\n'
  · simp [hn]
  · by_cases hr : c = '\r'
    · simp [hr]
    · have none : newlinesLength false (c :: cs) = 0 := by
        unfold newlinesLength
        simp [hn, hr]
      omega

end Grammar

end ShellInliner
