import ShellInliner.Grammar.Tree

/-! # Lengths of terminals and gaps

    A terminal takes at least one character and no more than there are, and
    what is skipped lies inside the text.  So every token has a place in its
    text, and no token is empty. -/

namespace ShellInliner

/-! ### Segments -/

namespace Word

theorem runLength_le (segment : List Char → Option Nat) (k : Nat) (cs : List Char) :
    runLength segment k cs ≤ cs.length := by
  induction cs generalizing k with
  | nil => simp [runLength]
  | cons c cs ih =>
    cases k with
    | succ k =>
      have := ih k
      simp only [runLength, List.length_cons]
      omega
    | zero =>
      simp only [runLength, List.length_cons]
      split
      · rename_i n _
        have := ih n
        omega
      · omega

theorem segmentsLength_le (cs : List Char) : segmentsLength cs ≤ cs.length :=
  runLength_le segment? 0 cs

theorem identifierLength_le (cs : List Char) : identifierLength cs ≤ cs.length := by
  cases cs with
  | nil => simp [identifierLength]
  | cons c cs =>
    have := (cs.takeWhile_prefix isIdentifierPart).length_le
    simp only [identifierLength, List.length_cons]
    split <;> omega

end Word

namespace Grammar

open Word (segmentsLength segmentsLength_le identifierLength_le)

/-! ### Terminals -/

theorem length_le_of_isPrefixOf {as bs : List Char} (h : as.isPrefixOf bs = true) :
    as.length ≤ bs.length :=
  (List.isPrefixOf_iff_prefix.mp h).length_le

theorem positive?_eq_some {n m : Nat} : positive? n = some m ↔ n = m ∧ 0 < m := by
  unfold positive?
  split
  · simp; omega
  · simp; omega

theorem newlinesLength_le (after : Bool) (cs : List Char) : newlinesLength after cs ≤ cs.length := by
  fun_induction newlinesLength after cs <;> simp_all <;> omega

theorem Reserved.spelling_ne_nil (w : Reserved) : w.spelling ≠ [] := by
  cases w <;> simp [Reserved.spelling]

theorem Sign.spelling_ne_nil (s : Sign) : s.spelling ≠ [] := by
  cases s <;> simp [Sign.spelling]

theorem ne_nil_of_mem_redirectOperators {op : List Char} (h : op ∈ redirectOperators) : op ≠ [] := by
  rintro rfl
  revert h
  decide

theorem Reserved.length?_bounds {w : Reserved} {cs : List Char} {n : Nat}
    (h : w.length? cs = some n) : 0 < n ∧ n ≤ cs.length := by
  unfold Reserved.length? at h
  split at h
  · rename_i hp
    simp only [Bool.and_eq_true] at hp
    have := length_le_of_isPrefixOf hp.1
    have := List.length_pos_iff.mpr w.spelling_ne_nil
    injection h with h
    omega
  · cases h

theorem Sign.length?_bounds {s : Sign} {cs : List Char} {n : Nat}
    (h : (Terminal.sign s).length? cs = some n) : 0 < n ∧ n ≤ cs.length := by
  simp only [Terminal.length?] at h
  split at h
  · rename_i hp
    have := length_le_of_isPrefixOf hp
    have := List.length_pos_iff.mpr s.spelling_ne_nil
    injection h with h
    omega
  · cases h

theorem wordLength?_bounds {cs : List Char} {n : Nat} (h : wordLength? cs = some n) :
    0 < n ∧ n ≤ cs.length := by
  unfold wordLength? at h
  split at h
  · cases h
  · have := positive?_eq_some.mp h
    have := segmentsLength_le cs
    omega

theorem assigneeLength?_bounds {cs : List Char} {n : Nat} (h : assigneeLength? cs = some n) :
    0 < n ∧ n ≤ cs.length := by
  simp only [assigneeLength?] at h
  split at h
  · rename_i hn
    have : Word.identifierLength cs < cs.length := by
      have next := hn.2
      rw [List.head?_drop] at next
      exact (List.getElem?_eq_some_iff.mp next).1
    injection h with h
    omega
  · cases h

theorem assignmentLength?_bounds {cs : List Char} {n : Nat} (h : assignmentLength? cs = some n) :
    0 < n ∧ n ≤ cs.length := by
  obtain ⟨k, hk, rfl⟩ := Option.map_eq_some_iff.mp h
  have := assigneeLength?_bounds hk
  have := segmentsLength_le (cs.drop k)
  rw [List.length_drop] at this
  omega

theorem commandWordLength?_bounds {cs : List Char} {n : Nat} (h : commandWordLength? cs = some n) :
    0 < n ∧ n ≤ cs.length := by
  unfold commandWordLength? at h
  split at h
  · cases h
  · exact wordLength?_bounds h

theorem ioNumberLength?_bounds {cs : List Char} {n : Nat} (h : ioNumberLength? cs = some n) :
    0 < n ∧ n ≤ cs.length := by
  simp only [ioNumberLength?] at h
  split at h
  · rename_i hn
    have := (cs.takeWhile_prefix Text.isDigit).length_le
    injection h with h
    omega
  · cases h

theorem redirectOperatorLength?_bounds {cs : List Char} {n : Nat}
    (h : redirectOperatorLength? cs = some n) : 0 < n ∧ n ≤ cs.length := by
  obtain ⟨op, hop, rfl⟩ := Option.map_eq_some_iff.mp h
  have nonempty := ne_nil_of_mem_redirectOperators (List.mem_of_find?_eq_some hop)
  have starts : op.isPrefixOf cs = true := by simpa using List.find?_some hop
  exact ⟨List.length_pos_iff.mpr nonempty, length_le_of_isPrefixOf starts⟩

theorem functionNameLength?_bounds {cs : List Char} {n : Nat} (h : functionNameLength? cs = some n) :
    0 < n ∧ n ≤ cs.length := by
  unfold functionNameLength? at h
  split at h
  · cases h
  · cases cs with
    | nil => cases h
    | cons c cs =>
      have := (cs.takeWhile_prefix isFunctionNamePart).length_le
      simp only at h
      split at h
      · injection h with h
        simp only [List.length_cons]
        omega
      · cases h

/-- A terminal takes at least one character and no more than there are. -/
theorem Terminal.length?_bounds {t : Terminal} {cs : List Char} {n : Nat}
    (h : t.length? cs = some n) : 0 < n ∧ n ≤ cs.length := by
  -- Every terminal has a scanner of its own with bounds of its own.
  cases t with
  | reserved w => exact Reserved.length?_bounds h
  | sign s => exact Sign.length?_bounds h
  | ioNumber => exact ioNumberLength?_bounds h
  | redirectOperator => exact redirectOperatorLength?_bounds h
  | name =>
    have := positive?_eq_some.mp h
    have := identifierLength_le cs
    omega
  | functionName => exact functionNameLength?_bounds h
  | assignmentWord => exact assignmentLength?_bounds h
  | commandWord => exact commandWordLength?_bounds h
  | word => exact wordLength?_bounds h
  | newline =>
    have := positive?_eq_some.mp h
    have := newlinesLength_le false cs
    omega

/-! ### Gaps -/

/-- What is skipped takes something, and ends inside the text. -/
theorem skip?_bounds {cs : List Char} {n : Nat} (h : skip? cs = some n) :
    0 < n ∧ n ≤ cs.length := by
  cases cs with
  | nil => cases h
  | cons c cs =>
    have blanks := (List.takeWhile_sublist (p := isLineBlank) (l := cs)).length_le
    have comment := (List.takeWhile_sublist (p := (· != '\n')) (l := cs)).length_le
    unfold skip? at h
    simp only at h
    split at h
    · cases h
      simp only [List.length_cons]
      omega
    split at h
    · cases h
      simp only [List.length_cons]
      omega
    split at h
    · split at h <;> cases h <;> simp
    · cases h

/-- A gap from inside what is being skipped ends inside the text. -/
theorem le_of_mem_gapsFrom {offset inside g : Nat} {cs : List Char}
    (h : g ∈ gapsFrom offset inside cs) : offset ≤ g ∧ g ≤ offset + cs.length := by
  induction cs generalizing offset inside with
  | nil =>
    cases inside with
    | zero => simp [gapsFrom] at h; simp [h]
    -- Inside what is skipped no gap ends.
    | succ k => simp [gapsFrom] at h
  | cons c cs ih =>
    cases inside with
    | succ k =>
      have := ih h
      simp only [List.length_cons]
      omega
    | zero =>
      simp only [gapsFrom, List.mem_cons] at h
      simp only [List.length_cons]
      rcases h with rfl | h
      · omega
      · split at h
        · have := ih h
          omega
        · cases h

theorem le_length_of_mem_gaps {g : Nat} {cs : List Char} (h : g ∈ gaps cs) : g ≤ cs.length := by
  have := (le_of_mem_gapsFrom h).2
  omega

theorem zero_mem_gaps (cs : List Char) : 0 ∈ gaps cs := by
  cases cs <;> simp [gaps, gapsFrom]

/-! ### Tokens -/

namespace Token.Fits

variable {t : Token} {text rest : List Char}

theorem text_ne_nil (h : t.Fits text rest) : t.text ≠ [] := by
  have := (Terminal.length?_bounds h.length_eq).1
  exact List.ne_nil_of_length_pos this

theorem rest_eq (h : t.Fits text rest) : rest = text.drop t.length := by
  rw [h.text_eq, Token.length, ← List.length_append, List.drop_left]

theorem length_bounds (h : t.Fits text rest) : 0 < t.length ∧ t.length ≤ text.length := by
  have pos := List.length_pos_iff.mpr h.text_ne_nil
  have := congrArg List.length h.text_eq
  simp only [List.length_append] at this
  simp only [Token.length]
  omega

end Token.Fits

end Grammar

end ShellInliner
