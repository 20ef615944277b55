import ShellInliner.Proofs.Word.Segments

/-! # Words before a boundary

    The words of a script are told by their form: what must not stand at their start,
    and segments after that.  A text of such a form is taken as a whole wherever a
    boundary comes after it, so that which words there are in a text does not depend
    on what comes after them. -/

namespace ShellInliner.Grammar

open Word

/-! ### Boundaries -/

/-- Every word ends before the text: it is empty, or starts with a character that ends
    words and goes on neither with a dollar sign nor with a file descriptor. -/
def IsBoundary (rest : List Char) : Prop :=
  ∀ c ∈ rest.head?, isMeta c = true ∧ c ≠ '(' ∧ c ≠ '<' ∧ c ≠ '>'

theorem IsBoundary.followsWord {rest : List Char} (boundary : IsBoundary rest) :
    followsWord rest = true := by
  cases rest with
  | nil => rfl
  | cons c cs =>
    obtain ⟨ends, paren, -⟩ := boundary c rfl
    simp [Word.followsWord, endsWord, ends, paren]

/-- No blank is a digit. -/
theorem blanks_disjoint : ∀ i ∈ Text.blanks, ∀ j ∈ Text.decimalDigits,
    i.last < j.first ∨ j.last < i.first := by
  decide

theorem not_isDigit_of_isMeta {c : Char} (ends : isMeta c = true) : Text.isDigit c = false := by
  simp only [isMeta, Bool.or_eq_true, beq_iff_eq] at ends
  rcases ends with ((((((blank | rfl) | rfl) | rfl) | rfl) | rfl) | rfl) | rfl
  · obtain ⟨i, blank, within⟩ := List.any_eq_true.mp blank
    have none : Text.Interval.find? Text.decimalDigits c.toNat = none := by
      refine List.find?_eq_none.mpr fun j digit within' => ?_
      have apart := blanks_disjoint i blank j digit
      simp only [Text.Interval.contains, Bool.and_eq_true, decide_eq_true_eq] at within within'
      omega
    rw [Text.isDigit, Text.digitValue?, none]
    rfl
  all_goals decide

/-! ### What must not stand at the start of a word -/

/-- A file descriptor starts the text: digits before a redirection. -/
def StartsNumber (cs : List Char) : Prop :=
  ∃ digits c rest, cs = digits ++ c :: rest ∧ digits ≠ [] ∧ (∀ d ∈ digits, Text.isDigit d = true) ∧
    isAngle c = true

/-- A text that is an identifier. -/
def IsIdentifier (cs : List Char) : Prop :=
  ∃ c rest, cs = c :: rest ∧ isIdentifierStart c = true ∧ ∀ d ∈ rest, isIdentifierPart d = true

/-- An assignment starts the text. -/
def StartsAssignment (cs : List Char) : Prop :=
  ∃ identifier rest, cs = identifier ++ '=' :: rest ∧ IsIdentifier identifier

/-- A reserved word on its own starts the text. -/
def StartsReserved (cs : List Char) : Prop :=
  ∃ (w : Reserved) (rest : List Char), cs = w.spelling ++ rest ∧ endsWord rest = true

theorem ioNumberLength?_isSome_iff {cs : List Char} :
    (ioNumberLength? cs).isSome ↔ StartsNumber cs := by
  unfold ioNumberLength?
  simp only
  constructor
  · intro found
    split at found
    · rename_i number
      obtain ⟨nonempty, angle⟩ := number
      -- The digits are cut off, and what follows them starts with the angle bracket.
      have split := List.take_append_drop (cs.takeWhile Text.isDigit).length cs
      rw [← List.prefix_iff_eq_take.mp (List.takeWhile_prefix _)] at split
      cases after : cs.drop (cs.takeWhile Text.isDigit).length with
      | nil => simp [after] at angle
      | cons c rest =>
        rw [after] at angle split
        exact ⟨_, c, rest, split.symm, by simpa using nonempty, fun d mem => mem_takeWhile mem,
          by simpa using angle⟩
    · cases found
  · rintro ⟨digits, c, rest, rfl, nonempty, all, angle⟩
    -- An angle bracket is no digit, so exactly the given digits are taken.
    have stops : Text.isDigit c = false := by
      simp only [isAngle, Bool.or_eq_true, beq_iff_eq] at angle
      rcases angle with rfl | rfl
      all_goals decide
    have taken : (digits ++ c :: rest).takeWhile Text.isDigit = digits := by
      rw [List.takeWhile_append_of_pos all, List.takeWhile_cons_of_neg (by rw [stops]; decide),
        List.append_nil]
    rw [taken, List.drop_left, if_pos ⟨by simpa using nonempty, by simpa using angle⟩]
    rfl

/-- No file descriptor is found just if none starts the text. -/
theorem ioNumberLength?_eq_none_iff {cs : List Char} :
    ioNumberLength? cs = none ↔ ¬StartsNumber cs := by
  rw [← ioNumberLength?_isSome_iff, Option.not_isSome_iff_eq_none]

theorem identifierLength_of_isIdentifier {identifier rest : List Char}
    (named : IsIdentifier identifier) (ends : rest.head?.all (!isIdentifierPart ·) = true) :
    identifierLength (identifier ++ rest) = identifier.length := by
  obtain ⟨c, cs, rfl, start, parts⟩ := named
  rw [List.cons_append, identifierLength, if_pos start, List.takeWhile_append_of_pos parts,
    takeWhile_of_head ends, List.append_nil, List.length_cons, Nat.add_comm]

theorem isIdentifier_take {cs : List Char} (nonzero : identifierLength cs ≠ 0) :
    IsIdentifier (cs.take (identifierLength cs)) := by
  cases cs with
  | nil => exact absurd rfl nonzero
  | cons c cs =>
    have start := isIdentifierStart_of_identifierLength nonzero
    refine ⟨c, cs.takeWhile isIdentifierPart, ?_, start, fun d mem => mem_takeWhile mem⟩
    rw [identifierLength, if_pos start, Nat.add_comm, List.take_succ_cons,
      ← List.prefix_iff_eq_take.mp (List.takeWhile_prefix _)]

theorem assigneeLength?_eq_some_iff {cs : List Char} {n : Nat} :
    assigneeLength? cs = some n ↔
      ∃ identifier rest, cs = identifier ++ '=' :: rest ∧ IsIdentifier identifier ∧
        n = identifier.length + 1 := by
  constructor
  · intro found
    obtain ⟨rfl, nonzero, sign⟩ := assigneeLength?_eq_some found
    obtain ⟨bound, here⟩ := List.getElem?_eq_some_iff.mp sign
    refine ⟨cs.take (identifierLength cs), cs.drop (identifierLength cs + 1), ?_,
      isIdentifier_take nonzero, ?_⟩
    · rw [← here, List.getElem_cons_drop, List.take_append_drop]
    · rw [List.length_take, Nat.min_eq_left (Nat.le_of_lt bound)]
  · rintro ⟨identifier, rest, rfl, named, rfl⟩
    -- The equals sign ends the identifier.
    have ends : ('=' :: rest).head?.all (!isIdentifierPart ·) = true := by
      show (!isIdentifierPart '=') = true
      decide
    have length := identifierLength_of_isIdentifier named ends
    have nonzero : identifier.length ≠ 0 := by
      obtain ⟨c, cs, rfl, -⟩ := named
      exact Nat.succ_ne_zero cs.length
    unfold assigneeLength?
    simp only
    rw [length, List.drop_left]
    exact if_pos ⟨nonzero, rfl⟩

/-- The value of an assignment comes after the identifier and the sign. -/
theorem drop_assignee (identifier value : List Char) :
    (identifier ++ '=' :: value).drop (identifier.length + 1) = value := by
  rw [← List.drop_drop, List.drop_left, List.drop_succ_cons, List.drop_zero]

/-- No assignment is found just if none starts the text. -/
theorem assigneeLength?_eq_none_iff {cs : List Char} :
    assigneeLength? cs = none ↔ ¬StartsAssignment cs := by
  rw [Option.eq_none_iff_forall_ne_some]
  constructor
  · rintro none ⟨identifier, rest, same, named⟩
    exact none _ (assigneeLength?_eq_some_iff.mpr ⟨identifier, rest, same, named, rfl⟩)
  · intro none n found
    obtain ⟨identifier, rest, same, named, -⟩ := assigneeLength?_eq_some_iff.mp found
    exact none ⟨identifier, rest, same, named⟩

theorem startsReserved_iff {cs : List Char} : startsReserved cs = true ↔ StartsReserved cs := by
  unfold startsReserved
  rw [List.any_eq_true]
  constructor
  · rintro ⟨w, -, found⟩
    obtain ⟨n, length⟩ := Option.isSome_iff_exists.mp found
    obtain ⟨rest, same, ends, -⟩ := Reserved.length?_eq_some.mp length
    exact ⟨w, rest, same, ends⟩
  · rintro ⟨w, rest, same, ends⟩
    refine ⟨w, by cases w <;> decide, ?_⟩
    rw [Reserved.length?_eq_some.mpr ⟨rest, same, ends, rfl⟩]
    rfl

/-! ### Nothing of this begins before a boundary and ends after it -/

section

variable {cs rest : List Char}

/-- What ends in a character that no boundary starts with, and holds none that ends
    words before that, ends before the boundary if it starts there. -/
theorem IsBoundary.exists_of_append (boundary : IsBoundary rest) {before after : List Char} {c : Char}
    (same : cs ++ rest = before ++ c :: after) (inner : ∀ d ∈ before, isMeta d = false)
    (last : isMeta c = true → c = '<' ∨ c = '>') : ∃ after', cs = before ++ c :: after' := by
  -- Nothing of it can be the first character of what comes after the boundary.
  have refused (d : Char) (ds : List Char) (other : isMeta d = false ∨ d = '<' ∨ d = '>') :
      rest ≠ d :: ds := by
    rintro rfl
    obtain ⟨ends, -, less, greater⟩ := boundary d rfl
    rcases other with inner | rfl | rfl
    · rw [ends] at inner
      cases inner
    · exact less rfl
    · exact greater rfl
  have last' : isMeta c = false ∨ c = '<' ∨ c = '>' := by
    by_cases ends : isMeta c = true
    · exact .inr (last ends)
    · exact .inl (Bool.eq_false_iff.mpr ends)
  rcases List.append_eq_append_iff.mp same with ⟨as, rfl, later⟩ | ⟨as, rfl, later⟩
  · cases as with
    | nil => exact absurd later (refused c after last')
    | cons a as => exact absurd later (refused a _ (.inl (inner a (by simp))))
  · cases as with
    | nil => exact absurd later.symm (refused c after last')
    | cons a as =>
      obtain ⟨rfl, -⟩ := List.cons.inj later
      exact ⟨as, rfl⟩

theorem StartsNumber.of_append (boundary : IsBoundary rest) (starts : StartsNumber (cs ++ rest)) :
    StartsNumber cs := by
  obtain ⟨digits, c, after, same, nonempty, all, angle⟩ := starts
  have inner : ∀ d ∈ digits, isMeta d = false := by
    intro d mem
    refine Bool.eq_false_iff.mpr fun ends => ?_
    exact absurd (all d mem) (by rw [not_isDigit_of_isMeta ends]; decide)
  have last : c = '<' ∨ c = '>' := by simpa [isAngle] using angle
  obtain ⟨after', inside⟩ := boundary.exists_of_append same inner fun _ => last
  exact ⟨digits, c, after', inside, nonempty, all, angle⟩

theorem IsIdentifier.not_isMeta {identifier : List Char} (named : IsIdentifier identifier) :
    ∀ d ∈ identifier, isMeta d = false := by
  obtain ⟨c, rest, rfl, start, parts⟩ := named
  intro d mem
  rcases List.mem_cons.mp mem with rfl | mem
  · exact (head_of_isIdentifierStart start).1
  · exact isMeta_of_isPlain (isPlain_of_namePart (isFunctionNamePart_of_identifier (parts d mem)))

theorem StartsAssignment.of_append (boundary : IsBoundary rest)
    (starts : StartsAssignment (cs ++ rest)) : StartsAssignment cs := by
  obtain ⟨identifier, after, same, named⟩ := starts
  obtain ⟨after', inside⟩ := boundary.exists_of_append same named.not_isMeta
    fun ends => absurd ends (by decide)
  exact ⟨identifier, after', inside, named⟩

theorem StartsReserved.of_append (boundary : IsBoundary rest)
    (starts : StartsReserved (cs ++ rest)) : StartsReserved cs := by
  obtain ⟨w, after, same, ends⟩ := starts
  have plain : ∀ c ∈ w.spelling, isMeta c = false :=
    fun c mem => isMeta_of_isPlain (w.isPlain_spelling c mem)
  obtain ⟨before, last, spelled⟩ : ∃ before last, w.spelling = before ++ [last] :=
    ⟨_, _, (List.dropLast_concat_getLast w.spelling_ne_nil).symm⟩
  rw [spelled] at plain
  rw [spelled, List.append_assoc] at same
  obtain ⟨after', inside⟩ := boundary.exists_of_append same
    (fun d mem => plain d (List.mem_append_left _ mem))
    (fun ends => absurd ends (by rw [plain last (by simp)]; decide))
  refine ⟨w, after', by rw [inside, spelled, List.append_assoc]; rfl, ?_⟩
  -- What comes after it starts as it did, unless it ends where the boundary is.
  cases after' with
  | nil => rfl
  | cons d ds =>
    rw [inside] at same
    simp only [List.append_assoc, List.cons_append, List.nil_append] at same
    obtain rfl := (List.cons.inj (List.append_cancel_left same)).2
    exact ends

end

/-! ### Words by their form -/

/-- The text as a whole is such a word, and these are its segments. -/
inductive WordOf : Terminal → List Char → List (List Char) → Prop
  /-- Any word: it starts neither a comment nor a redirection. -/
  | word {segments : List (List Char)} (nonempty : segments ≠ [])
      (forms : ∀ s ∈ segments, Segment s) (comment : segments.flatten.head? ≠ some '#')
      (number : ¬StartsNumber segments.flatten) : WordOf .word segments.flatten segments
  /-- The name of a command: besides it starts with no reserved word and is no
      assignment. -/
  | commandWord {text : List Char} {segments : List (List Char)} (word : WordOf .word text segments)
      (reserved : ¬StartsReserved text) (assignment : ¬StartsAssignment text) :
      WordOf .commandWord text segments
  /-- An assignment: the segments are those of the value, if it has one. -/
  | assignmentWord {identifier : List Char} {segments : List (List Char)}
      (named : IsIdentifier identifier) (forms : ∀ s ∈ segments, Segment s) :
      WordOf .assignmentWord (identifier ++ '=' :: segments.flatten) segments

theorem WordOf.nonempty {t : Terminal} {text : List Char} {segments : List (List Char)}
    (word : WordOf t text segments) : text ≠ [] := by
  induction word with
  | @word segments nonempty forms =>
    obtain ⟨c, -, head⟩ := flatten_head? forms nonempty
    intro empty
    rw [empty] at head
    cases head
  | commandWord _ _ _ ih => exact ih
  | assignmentWord named => simp

/-- What is taken as a whole has the form of a word. -/
theorem exists_wordOf {t : Terminal} {text : List Char}
    (kind : t = .word ∨ t = .commandWord ∨ t = .assignmentWord)
    (whole : t.length? text = some text.length) : ∃ segments, WordOf t text segments := by
  -- The name of a command is a word, so words come first.
  have word (found : wordLength? text = some text.length) : ∃ segments, WordOf .word text segments := by
    obtain ⟨comment, number, length, positive⟩ := wordLength?_eq_some.mp found
    obtain ⟨segments, rfl, forms⟩ := exists_segments_of_whole length
    have nonempty : segments ≠ [] := by
      rintro rfl
      cases positive
    exact ⟨segments, .word nonempty forms comment (ioNumberLength?_eq_none_iff.mp number)⟩
  rcases kind with rfl | rfl | rfl
  · exact word whole
  · obtain ⟨reserved, assignee, found⟩ := commandWordLength?_eq_some.mp whole
    obtain ⟨segments, form⟩ := word found
    refine ⟨segments, .commandWord form ?_ (assigneeLength?_eq_none_iff.mp assignee)⟩
    exact fun starts => absurd (startsReserved_iff.mpr starts) (by rw [reserved]; decide)
  · obtain ⟨n, found, total⟩ := Option.map_eq_some_iff.mp whole
    obtain ⟨identifier, value, rfl, named, rfl⟩ := assigneeLength?_eq_some_iff.mp found
    rw [drop_assignee] at total
    have length : segmentsLength value = value.length := by
      rw [List.length_append, List.length_cons] at total
      omega
    obtain ⟨segments, rfl, forms⟩ := exists_segments_of_whole length
    exact ⟨segments, .assignmentWord named forms⟩

/-! ### Words before a boundary -/

/-- A word is taken as a whole wherever a boundary comes after it, if no dollar sign in it
    that is a segment of its own is followed by a brace. -/
theorem length?_append_of_wordOf {t : Terminal} {text rest : List Char} {segments : List (List Char)}
    (word : WordOf t text segments) (bare : NoLoneBrace segments) (boundary : IsBoundary rest) :
    t.length? (text ++ rest) = some text.length := by
  induction word with
  | @word segments nonempty forms comment number =>
    have ne := (WordOf.word nonempty forms comment number).nonempty
    -- What must not stand at the start does not begin in the word and end after it.
    refine wordLength?_eq_some.mpr ⟨?_, ?_, ?_, List.length_pos_iff.mpr ne⟩
    · obtain ⟨c, cs, same⟩ := List.exists_cons_of_ne_nil ne
      rw [same] at comment ⊢
      exact comment
    · exact ioNumberLength?_eq_none_iff.mpr fun starts => number (starts.of_append boundary)
    · exact segmentsLength_flatten forms bare boundary.followsWord
  | @commandWord text segments _ reserved assignment ih =>
    refine commandWordLength?_eq_some.mpr ⟨?_, ?_, ih bare⟩
    · refine Bool.eq_false_iff.mpr fun found => ?_
      exact reserved ((startsReserved_iff.mp found).of_append boundary)
    · exact assigneeLength?_eq_none_iff.mpr fun starts => assignment (starts.of_append boundary)
  | @assignmentWord identifier segments named forms =>
    have assignee := assigneeLength?_eq_some_iff.mpr
      ⟨identifier, segments.flatten ++ rest, rfl, named, rfl⟩
    rw [List.append_assoc, List.cons_append]
    show (assigneeLength? _).map _ = _
    rw [assignee, Option.map_some, drop_assignee, segmentsLength_flatten forms bare boundary.followsWord,
      List.length_append, List.length_cons]
    congr 1
    omega

/-- A brace or a parenthesis can go on with a dollar sign. -/
example : Terminal.word.length? ['$', '{'] = some 2 ∧ Terminal.word.length? ['$', '{', ' ', '}'] = some 4 ∧
    Terminal.word.length? ['$'] = some 1 ∧ Terminal.word.length? ['$', '(', ')'] = some 3 := by
  decide

/-- A word with segments of several kinds. -/
def mixedWord : List (List Char) :=
  [['a'], ['"', 'b', ' ', '"'], ['$'], ['x'], ['$', '{', 'y', '}'], ['\'', 'q', '\'']]

theorem length?_mixedWord :
    Terminal.commandWord.length? (mixedWord.flatten ++ [';', ' ', 'd']) = some 14 := by
  have forms : ∀ s ∈ mixedWord, Segment s := by
    unfold mixedWord
    simp only [List.forall_mem_cons]
    exact ⟨.plain (by decide), @Segment.doubleQuoted ['b', ' '] (.plain (by decide) (by decide)
      (.plain (by decide) (by decide) .nil)), .dollar, .plain (by decide),
      @Segment.braced ['y'] (by decide), @Segment.singleQuoted ['q'] (by decide), by simp⟩
  have bare : NoLoneBrace mixedWord := by
    unfold mixedWord
    simp only [noLoneBrace_cons, noLoneBrace_nil]
    decide
  have boundary : IsBoundary [';', ' ', 'd'] := by
    intro c mem
    cases mem
    decide
  exact length?_append_of_wordOf
    (.commandWord
      (.word (by decide) forms (by decide) (ioNumberLength?_eq_none_iff.mp (by decide)))
      (fun starts => absurd (startsReserved_iff.mpr starts) (by decide))
      (assigneeLength?_eq_none_iff.mp (by decide)))
    bare boundary

end ShellInliner.Grammar
