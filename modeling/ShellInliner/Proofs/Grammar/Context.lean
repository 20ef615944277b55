import ShellInliner.Proofs.Grammar.Closed

/-! # Terminals in a new place

    A terminal that takes a text somewhere takes the same text wherever a
    delimiter follows it, if the text leaves nothing open.  Only reserved words
    need care: a name that was no reserved word where it stood can become one
    where a word ends after it. -/

namespace ShellInliner.Grammar

open Word

/-! ### Reserved words -/

/-- Is the text spelled like a reserved word? -/
def isReservedText (text : List Char) : Bool :=
  Reserved.all.any (·.spelling == text)

/-- Where a word ends after a text, it is a reserved word only if it is spelled
    like one. -/
theorem startsReserved_append {text rest : List Char} (h : isReservedText text = false)
    (whole : segmentsLength (text ++ rest) = text.length) : startsReserved (text ++ rest) = false := by
  apply Bool.eq_false_iff.mpr
  intro reserved
  rw [startsReserved, List.any_eq_true] at reserved
  obtain ⟨w, mem, found⟩ := reserved
  obtain ⟨n, length⟩ := Option.isSome_iff_exists.mp found
  obtain ⟨after, eq, ends, rfl⟩ := Reserved.length?_eq_some.mp length
  -- The reserved word is a whole word too, so it is the text.
  have same : segmentsLength (text ++ rest) = w.spelling.length := by
    apply segmentsLength_eq (t := .reserved w) rfl length
    rw [eq, List.drop_left]
    exact ends
  have spelled : w.spelling = text := by
    apply (List.append_inj eq _).1.symm
    omega
  have refused := List.any_eq_false.mp h w mem
  rw [spelled] at refused
  simp at refused

/-! ### Words -/

/-- A word that is closed is a word before every delimiter. -/
theorem wordLength?_delimited {text rest rest' : List Char} (closed : isClosed text = true)
    (h : wordLength? (text ++ rest) = some text.length) (hr : isDelimited rest' = true) :
    wordLength? (text ++ rest') = some text.length := by
  obtain ⟨hash, number, -, pos⟩ := wordLength?_eq_some.mp h
  apply wordLength?_eq_some.mpr
  refine ⟨?_, ioNumberLength?_append number hr, ?_, pos⟩
  · cases text with
    | nil => cases pos
    | cons c cs => exact hash
  · exact segmentsLength_append closed (followsWord_of_isDelimited hr)

/-- The identifier at the start of a text goes as far in every place, if it ends
    before the text does. -/
theorem identifierLength_append {text : List Char} (h : identifierLength text < text.length)
    (rest : List Char) : identifierLength (text ++ rest) = identifierLength text := by
  cases text with
  | nil => cases h
  | cons c cs =>
    simp only [identifierLength, List.cons_append] at h ⊢
    by_cases start : isIdentifierStart c = true
    · simp only [start, if_true, List.length_cons] at h ⊢
      rw [List.takeWhile_append, if_neg (by omega)]
    · simp [start]

/-- An identifier that goes on to the end of a text ends there if nothing that
    follows goes on with it. -/
theorem identifierLength_append_of_all {text rest : List Char}
    (h : identifierLength text = text.length) (hr : rest.head?.all (!isIdentifierPart ·) = true) :
    identifierLength (text ++ rest) = text.length ∨ text = [] := by
  cases text with
  | nil => exact .inr rfl
  | cons c cs =>
    left
    simp only [identifierLength, List.cons_append] at h ⊢
    by_cases start : isIdentifierStart c = true
    · simp only [start, if_true, List.length_cons] at h ⊢
      -- All of it was taken, so the identifier could only go on into the rest.
      rw [List.takeWhile_append, if_pos (by omega), takeWhile_of_head hr]
      simp only [List.append_nil]
      omega
    · simp [start] at h

/-- A text that starts no assignment starts none before a delimiter. -/
theorem assigneeLength?_delimited {text rest rest' : List Char} (ne : text ≠ [])
    (h : assigneeLength? (text ++ rest) = none) (hr : isDelimited rest' = true) :
    assigneeLength? (text ++ rest') = none := by
  simp only [assigneeLength?] at h ⊢
  by_cases shorter : identifierLength text < text.length
  · -- The sign would have to stand inside the text.
    rw [identifierLength_append shorter, List.head?_drop,
      List.getElem?_append_left shorter] at h ⊢
    exact h
  · have whole : identifierLength text = text.length := by
      have := identifierLength_le text
      omega
    have ends := head_of_isDelimited (p := (!isIdentifierPart ·)) hr (by decide)
    have length := (identifierLength_append_of_all whole ends).resolve_right ne
    have sign := head_of_isDelimited (p := (· != '=')) hr (by decide)
    rw [length, List.drop_left]
    apply if_neg
    rintro ⟨-, equals⟩
    rw [equals] at sign
    cases sign

/-- A command name that is closed and no reserved word names a command before
    every delimiter. -/
theorem commandWordLength?_delimited {text rest rest' : List Char} (closed : isClosed text = true)
    (plain : isReservedText text = false)
    (h : commandWordLength? (text ++ rest) = some text.length) (hr : isDelimited rest' = true) :
    commandWordLength? (text ++ rest') = some text.length := by
  obtain ⟨-, assignee, word⟩ := commandWordLength?_eq_some.mp h
  have pos := (wordLength?_eq_some.mp word).2.2.2
  apply commandWordLength?_eq_some.mpr
  refine ⟨?_, ?_, wordLength?_delimited closed word hr⟩
  · apply startsReserved_append plain
    exact segmentsLength_append closed (followsWord_of_isDelimited hr)
  · exact assigneeLength?_delimited (List.ne_nil_of_length_pos pos) assignee hr

/-- An assignment that is closed is one before every delimiter. -/
theorem assignmentLength?_delimited {text rest rest' : List Char} (closed : isClosed text = true)
    (h : assignmentLength? (text ++ rest) = some text.length) (hr : isDelimited rest' = true) :
    assignmentLength? (text ++ rest') = some text.length := by
  obtain ⟨n, hn, total⟩ := Option.map_eq_some_iff.mp h
  obtain ⟨rfl, nonzero, sign⟩ := assigneeLength?_eq_some hn
  -- The sign stands inside the text.
  have inside : identifierLength (text ++ rest) < text.length := by omega
  have same : identifierLength text = identifierLength (text ++ rest) := by
    by_cases shorter : identifierLength text < text.length
    · exact (identifierLength_append shorter rest).symm
    · exfalso
      have whole : identifierLength text = text.length := by
        have := identifierLength_le text
        omega
      have prefixed : text.length ≤ identifierLength (text ++ rest) := by
        cases text with
        | nil => simp
        | cons c cs =>
          simp only [identifierLength, List.cons_append] at whole ⊢
          by_cases start : isIdentifierStart c = true
          · simp only [start, if_true, List.length_cons] at whole ⊢
            rw [List.takeWhile_append, if_pos (by omega)]
            simp only [List.length_append]
            omega
          · simp [start] at whole
      omega
  rw [← same] at inside nonzero sign
  have here : assigneeLength? (text ++ rest') = some (identifierLength text + 1) := by
    rw [List.getElem?_append_left inside] at sign
    simp only [assigneeLength?, identifierLength_append inside, List.head?_drop,
      List.getElem?_append_left inside, sign]
    exact if_pos ⟨nonzero, trivial⟩
  have whole := segmentsLength_append closed (followsWord_of_isDelimited hr)
  have taken : assignmentLength? (text ++ rest') =
      some (identifierLength text + 1 +
        segmentsLength ((text ++ rest').drop (identifierLength text + 1))) := by
    simp [assignmentLength?, here]
  rw [taken, ← segmentsLength_of_assignment taken, whole]

/-! ### Names -/

/-- Can the name of a function be spelled like this? -/
def isFunctionNameText (text : List Char) : Bool :=
  match text with
  | [] => false
  | c :: cs => isIdentifierStart c && cs.all isFunctionNamePart && !isReservedText text

/-- The characters of the name of a function that a terminal takes. -/
theorem functionName_of_takes {text : List Char} (h : Terminal.functionName.Takes text) :
    ∃ c cs, text = c :: cs ∧ isIdentifierStart c = true ∧ cs.all isFunctionNamePart = true := by
  obtain ⟨rest, h⟩ := h
  have pos := (Terminal.length?_bounds h).1
  cases text with
  | nil => cases pos
  | cons c cs =>
    simp only [Terminal.length?, functionNameLength?, List.cons_append, List.length_cons] at h
    split at h
    · cases h
    · split at h
      · rename_i start
        refine ⟨c, cs, rfl, start, ?_⟩
        have length : (List.takeWhile isFunctionNamePart (cs ++ rest)).length = cs.length := by
          injection h with h
          omega
        rw [List.takeWhile_append] at length
        by_cases whole : (cs.takeWhile isFunctionNamePart).length = cs.length
        · rw [← (cs.takeWhile_prefix _).eq_of_length whole]
          exact List.all_takeWhile
        · rw [if_neg whole] at length
          exact absurd length whole
      · cases h

/-- The name of a function stands before its parentheses. -/
theorem functionNameLength?_paren {text : List Char} (h : isFunctionNameText text = true)
    (rest : List Char) : functionNameLength? (text ++ '(' :: rest) = some text.length := by
  cases text with
  | nil => cases h
  | cons c cs =>
    simp only [isFunctionNameText, Bool.and_eq_true, Bool.not_eq_true'] at h
    obtain ⟨⟨start, parts⟩, plain⟩ := h
    have parts := List.all_eq_true.mp parts
    -- As a word the name ends before the parenthesis, so no reserved word is found in it.
    have whole : segmentsLength (c :: cs ++ '(' :: rest) = (c :: cs).length := by
      have all : ∀ d ∈ c :: cs, isPlain d = true := by
        intro d hd
        rcases List.mem_cons.mp hd with rfl | hd
        · exact isPlain_of_namePart (isFunctionNamePart_of_start start)
        · exact isPlain_of_namePart (parts d hd)
      rw [segmentsLength_plain all, segmentsLength_of_endsWord]
      · omega
      · show isMeta '(' = true
        decide
    have unreserved := startsReserved_append plain whole
    have stops : isFunctionNamePart '(' = false := by decide
    simp only [List.cons_append] at unreserved ⊢
    simp only [functionNameLength?, unreserved, start, if_true, Bool.false_eq_true, if_false,
      List.takeWhile_append_of_pos parts, List.takeWhile_cons, stops, List.append_nil,
      List.length_cons, Option.some.injEq]
    omega

/-- An identifier is one wherever nothing goes on with it. -/
theorem nameLength?_append {text rest rest' : List Char}
    (h : Terminal.name.length? (text ++ rest) = some text.length)
    (hr : rest'.head?.all (!isIdentifierPart ·) = true) :
    Terminal.name.length? (text ++ rest') = some text.length := by
  obtain ⟨length, pos⟩ := positive?_eq_some.mp h
  have ne := List.ne_nil_of_length_pos pos
  -- An identifier that ended inside the text would have been shorter.
  have whole : identifierLength text = text.length := by
    by_cases shorter : identifierLength text < text.length
    · rw [identifierLength_append shorter] at length
      omega
    · have := identifierLength_le text
      omega
  apply positive?_eq_some.mpr
  exact ⟨(identifierLength_append_of_all whole hr).resolve_right ne, pos⟩

end ShellInliner.Grammar
