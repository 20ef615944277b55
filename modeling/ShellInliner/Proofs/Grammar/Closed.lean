import ShellInliner.Proofs.Grammar.Words

/-! # Closed words

    An expansion that a word leaves open may be closed by what follows it.  A
    word that leaves none open is closed; it has the same segments wherever it
    stands. -/

namespace ShellInliner

namespace Word

/-! ### Spans -/

theorem spanTo_append {stop : Char} {cs : List Char} {n : Nat} (h : spanTo stop cs = some n)
    (rest : List Char) : spanTo stop (cs ++ rest) = some n ∧ n ≤ cs.length := by
  induction cs generalizing n with
  | nil => cases h
  | cons c cs ih =>
    rw [spanTo] at h
    rw [List.cons_append, spanTo, List.length_cons]
    split at h
    · cases h
      simp_all
    · rename_i hc
      obtain ⟨k, hk, rfl⟩ := Option.map_eq_some_iff.mp h
      obtain ⟨same, bound⟩ := ih hk
      rw [if_neg hc, same]
      exact ⟨rfl, by omega⟩

theorem escapedSpanTo_append {mode : LineFeeds} {stop : Char} {cs : List Char} {n : Nat}
    (h : escapedSpanTo mode stop cs = some n) (rest : List Char) :
    escapedSpanTo mode stop (cs ++ rest) = some n ∧ n ≤ cs.length := by
  fun_induction escapedSpanTo mode stop cs generalizing n with
  | case1 => cases h
  -- The stop itself: what follows is not looked at.
  | case2 =>
    cases h
    cases rest <;> simp [escapedSpanTo]
  | case3 => cases h
  | case4 =>
    cases h
    simp [escapedSpanTo]
  -- An escape takes two characters, and both are inside the text.
  | case5 d cs hs escapes ih =>
    obtain ⟨k, hk, rfl⟩ := Option.map_eq_some_iff.mp h
    obtain ⟨same, bound⟩ := ih hk
    simp only [List.cons_append, escapedSpanTo, hs, if_false, if_true, escapes, same,
      List.length_cons]
    exact ⟨rfl, by omega⟩
  | case6 => cases h
  | case7 c d cs hs hb ih =>
    obtain ⟨k, hk, rfl⟩ := Option.map_eq_some_iff.mp h
    obtain ⟨same, bound⟩ := ih hk
    rw [List.cons_append] at same
    simp only [List.cons_append, escapedSpanTo, hs, hb, if_false, same, List.length_cons] at bound ⊢
    exact ⟨rfl, by omega⟩

/-! ### Groups -/

/-- Up to a closing parenthesis the length does not depend on what follows. -/
theorem groupsLength_append {o : Option Nat} (positive : ∀ k, o = some k → 0 < k)
    {cs : List Char} {n : Nat} (h : groupsLength o cs = o.getD 0 + n)
    (stop : cs[n]? = some ')') (rest : List Char) :
    groupsLength o (cs ++ rest) = o.getD 0 + n := by
  fun_induction groupsLength o cs generalizing n with
  | case1 => simp at stop
  | case2 cs => simpa [groupsLength] using h
  | case3 cs _ ih =>
    -- A group opens, and its first character is counted in what is taken.
    cases n with
    | zero => simp at stop
    | succ n =>
      have tail := ih (by simp) (n := n) (by simp at h ⊢; omega) (by simpa using stop)
      simp [groupsLength] at tail ⊢
      omega
  | case4 c cs hclose hopen ih =>
    cases n with
    | zero => simp at h
    | succ n =>
      have tail := ih (by simp) (n := n) (by simp at h ⊢; omega) (by simpa using stop)
      simp [groupsLength, hclose, hopen] at tail ⊢
      omega
  | case5 k cs =>
    -- A group within a group is not taken, but what was taken is not nothing.
    have := positive k rfl
    simp at h
    omega
  | case6 k cs _ ih =>
    -- The group closes, and the text goes on without one.
    cases n with
    | zero => simp at h; omega
    | succ n =>
      have tail := ih (by simp) (n := n) (by simp at h ⊢; omega) (by simpa using stop)
      simp [groupsLength] at tail ⊢
      omega
  | case7 k c cs hopen hclose ih =>
    cases n with
    | zero => simp [hclose] at stop
    | succ n =>
      have tail := ih (by simp) (n := n) (by simp at h ⊢; omega) (by simpa using stop)
      simp [groupsLength, hopen, hclose] at tail ⊢
      omega

/-- A group that is closed ends at the first closing parenthesis. -/
theorem groupsLength_group {k : Nat} {cs : List Char} (h : groupsLength (some k) cs ≠ 0) :
    cs[groupsLength none cs]? = some ')' ∧
      groupsLength (some k) cs =
        k + groupsLength none cs + 1 + groupsLength none (cs.drop (groupsLength none cs + 1)) := by
  induction cs generalizing k with
  | nil => exact absurd rfl h
  | cons c cs ih =>
    simp only [groupsLength] at h ⊢
    -- A second opening parenthesis gives the group up.
    by_cases hopen : c = '('
    · simp [hopen] at h
    · by_cases hclose : c = ')'
      · have differ : (')' : Char) ≠ '(' := by decide
        simp [hclose]
      · simp only [hopen, hclose, if_false] at h ⊢
        -- Any other character is inside the group and only shifts the rest.
        obtain ⟨stop, same⟩ := ih h
        refine ⟨by rw [Nat.add_comm]; simpa using stop, ?_⟩
        rw [same, Nat.add_comm 1 (groupsLength none cs)]
        simp only [List.drop_succ_cons]
        omega

theorem commandInside?_eq_some {cs : List Char} {n : Nat} :
    commandInside? cs = some n ↔ groupsLength none cs = n ∧ cs[n]? = some ')' := by
  simp only [commandInside?]
  rw [← List.head?_drop]
  split
  · rename_i rest heq
    constructor
    · rintro ⟨⟩
      exact ⟨rfl, by rw [heq]; rfl⟩
    · rintro ⟨rfl, -⟩
      rfl
  · rename_i other
    constructor
    · rintro ⟨⟩
    · rintro ⟨rfl, stop⟩
      cases hd : cs.drop (groupsLength none cs) with
      | nil => rw [hd] at stop; cases stop
      | cons d rest =>
        rw [hd] at stop
        cases stop
        exact absurd hd (other rest)

theorem arithmeticInside?_eq_some {cs : List Char} {n : Nat} :
    arithmeticInside? cs = some n ↔
      groupsLength none cs = n ∧ cs[n]? = some ')' ∧ cs[n + 1]? = some ')' := by
  simp only [arithmeticInside?]
  rw [← List.head?_drop, ← List.head?_drop, ← List.drop_drop]
  split
  · rename_i rest heq
    constructor
    · rintro ⟨⟩
      rw [heq]
      exact ⟨rfl, rfl, rfl⟩
    · rintro ⟨rfl, -⟩
      rfl
  · rename_i other
    constructor
    · rintro ⟨⟩
    · rintro ⟨rfl, first, second⟩
      cases hd : cs.drop (groupsLength none cs) with
      | nil => rw [hd] at first; cases first
      | cons d rest =>
        rw [hd] at first second
        cases first
        cases rest with
        | nil => cases second
        | cons e rest =>
          cases second
          exact absurd hd (other rest)

theorem commandInside?_append {cs : List Char} {n : Nat} (h : commandInside? cs = some n)
    (rest : List Char) : commandInside? (cs ++ rest) = some n ∧ n < cs.length := by
  obtain ⟨hn, stop⟩ := commandInside?_eq_some.mp h
  have bound := (List.getElem?_eq_some_iff.mp stop).1
  have same := groupsLength_append (o := none) (by simp) (n := n) (by simpa using hn) stop rest
  refine ⟨commandInside?_eq_some.mpr ⟨by simpa using same, ?_⟩, bound⟩
  rwa [List.getElem?_append_left bound]

theorem arithmeticInside?_append {cs : List Char} {n : Nat} (h : arithmeticInside? cs = some n)
    (rest : List Char) : arithmeticInside? (cs ++ rest) = some n ∧ n + 1 < cs.length := by
  obtain ⟨hn, stop, stop'⟩ := arithmeticInside?_eq_some.mp h
  have bound := (List.getElem?_eq_some_iff.mp stop').1
  have same := groupsLength_append (o := none) (by simp) (n := n) (by simpa using hn) stop rest
  refine ⟨arithmeticInside?_eq_some.mpr ⟨by simpa using same, ?_, ?_⟩, bound⟩
  · rwa [List.getElem?_append_left (by omega)]
  · rwa [List.getElem?_append_left bound]

/-- What is a command substitution, and no arithmetic expansion, stays one. -/
theorem arithmeticInside?_append_none {cs : List Char} {m : Nat} (h : arithmeticInside? cs = none)
    (command : commandInside? ('(' :: cs) = some m) (rest : List Char) :
    arithmeticInside? (cs ++ rest) = none := by
  obtain ⟨hm, stop⟩ := commandInside?_eq_some.mp command
  have group : groupsLength none ('(' :: cs) = groupsLength (some 1) cs := by
    simp [groupsLength]
  rw [group] at hm
  -- A command substitution that opens with a parenthesis holds a whole group.
  have closed : groupsLength (some 1) cs ≠ 0 := by
    intro zero
    rw [← hm, zero] at stop
    simp at stop
  obtain ⟨first, same⟩ := groupsLength_group closed
  have bound : groupsLength none cs + 1 < cs.length := by
    have := (List.getElem?_eq_some_iff.mp stop).1
    rw [List.length_cons] at this
    omega
  cases h' : arithmeticInside? (cs ++ rest) with
  | none => rfl
  | some n =>
    -- Both closing parentheses would have to be inside the text, where there is no second one.
    obtain ⟨hn, stop₁, stop₂⟩ := arithmeticInside?_eq_some.mp h'
    have still := groupsLength_append (o := none) (by simp) (n := groupsLength none cs) (by simp)
      first rest
    obtain rfl : n = groupsLength none cs := by simpa [hn] using still
    rw [List.getElem?_append_left bound] at stop₂
    rw [arithmeticInside?_eq_some.mpr ⟨rfl, first, stop₂⟩] at h
    cases h

/-! ### Closed segments -/

/-- An expansion that is closed is the same whatever follows it. -/
theorem dollarLength_append {cs : List Char} (h : dollarLength cs ≠ 1) (rest : List Char) :
    dollarLength (cs ++ rest) = dollarLength cs ∧ dollarLength cs ≤ cs.length + 1 := by
  fun_cases dollarLength cs with
  | case1 cs n arithmetic =>
    obtain ⟨same, bound⟩ := arithmeticInside?_append arithmetic rest
    simp only [List.cons_append, dollarLength, same, List.length_cons]
    exact ⟨trivial, by omega⟩
  | case2 cs arithmetic n command =>
    -- The command ends within `cs`, so nothing in `rest` can complete an arithmetic expression.
    obtain ⟨same, bound⟩ := commandInside?_append command rest
    rw [List.cons_append] at same
    simp only [List.cons_append, dollarLength, arithmeticInside?_append_none arithmetic command rest,
      same, List.length_cons] at bound ⊢
    exact ⟨trivial, by omega⟩
  | case3 cs arithmetic command => simp [dollarLength, arithmetic, command] at h
  | case4 cs single n command =>
    obtain ⟨same, bound⟩ := commandInside?_append command rest
    have single' (ds : List Char) : cs ++ rest ≠ '(' :: ds := by
      intro heq
      cases cs with
      | nil => simp at bound
      | cons c cs =>
        injection heq with hc _
        exact single cs (by rw [hc])
    simp only [List.cons_append, List.length_cons, dollarLength, same]
    exact ⟨trivial, by omega⟩
  | case5 cs single command => simp [dollarLength, command] at h
  | case6 cs n closed =>
    obtain ⟨same, bound⟩ := spanTo_append closed rest
    simp only [List.cons_append, dollarLength, same, List.length_cons]
    exact ⟨trivial, by omega⟩
  | case7 cs closed => simp [dollarLength, closed] at h
  | case8 cs other₁ other₂ other₃ => simp [dollarLength] at h

/-- Does the text start with an expansion that it leaves open? -/
def leavesOpen : List Char → Bool
  | '$' :: c :: cs => (c == '(' || c == '{') && dollarLength (c :: cs) == 1
  | _ => false

/-- The length of the segment that a text starts with, if it starts with one
    and leaves no expansion open. -/
def closedSegment? (cs : List Char) : Option Nat :=
  if leavesOpen cs then none else segment? cs

/-- Is the text a run of segments without an expansion that is left open? -/
def isClosed (cs : List Char) : Bool :=
  runLength closedSegment? 0 cs == cs.length

/-- May the text follow a word?  A parenthesis that opens may not, since it would
    continue a dollar sign. -/
def followsWord (cs : List Char) : Bool :=
  Grammar.endsWord cs && cs.head? != some '('

/-- After a dollar sign at its end a word does not go on. -/
theorem dollarLength_of_followsWord {rest : List Char} (h : followsWord rest = true) :
    dollarLength rest = 1 := by
  simp only [followsWord, Bool.and_eq_true, bne_iff_ne] at h
  refine dollarLength.eq_4 rest (fun cs heq => ?_) (fun cs heq => ?_) (fun cs heq => ?_)
  · exact h.2 (by rw [heq]; rfl)
  · exact h.2 (by rw [heq]; rfl)
  · have plain : Grammar.endsWord ('{' :: cs) = false := by simp [Grammar.endsWord]; decide
    rw [heq, plain] at h
    cases h.1

/-- A dollar sign that leaves no expansion open. -/
theorem dollarLength_append_of_closed {cs rest : List Char} (h : leavesOpen ('$' :: cs) = false)
    (hr : followsWord rest = true) :
    dollarLength (cs ++ rest) = dollarLength cs ∧ dollarLength cs ≤ cs.length + 1 := by
  by_cases single : dollarLength cs = 1
  · rw [single]
    cases cs with
    | nil => exact ⟨dollarLength_of_followsWord hr, Nat.le_refl _⟩
    | cons c cs =>
      -- A dollar sign that stands alone is followed by no bracket, with or without the rest.
      have neither : c ≠ '(' ∧ c ≠ '{' := by
        simpa [leavesOpen, single] using h
      have head {d : Char} {ds : List Char} (heq : c :: cs ++ rest = d :: ds) : c = d := by
        rw [List.cons_append] at heq
        exact (List.cons.inj heq).1
      exact ⟨dollarLength.eq_4 _ (fun _ heq => neither.1 (head heq))
        (fun _ heq => neither.1 (head heq)) (fun _ heq => neither.2 (head heq)), by simp⟩
  · exact dollarLength_append single rest

/-- A closed segment is a segment wherever it stands. -/
theorem segment?_append {cs rest : List Char} {n : Nat} (h : closedSegment? cs = some n)
    (hr : followsWord rest = true) : segment? (cs ++ rest) = some n ∧ n ≤ cs.length := by
  unfold closedSegment? at h
  split at h
  · cases h
  rename_i closed
  revert h
  -- Spans and escapes end within the text, so only an expansion asks what comes after it.
  fun_cases segment? cs with
  | case2 cs =>
    intro h
    obtain ⟨k, hk, rfl⟩ := Option.map_eq_some_iff.mp h
    obtain ⟨same, bound⟩ := spanTo_append hk rest
    simp [segment?, same, bound]
  | case3 cs =>
    intro h
    obtain ⟨k, hk, rfl⟩ := Option.map_eq_some_iff.mp h
    obtain ⟨same, bound⟩ := escapedSpanTo_append hk rest
    simp [segment?, same, bound]
  | case4 cs =>
    intro h
    obtain ⟨k, hk, rfl⟩ := Option.map_eq_some_iff.mp h
    obtain ⟨same, bound⟩ := escapedSpanTo_append hk rest
    simp [segment?, same, bound]
  | case7 d cs bare =>
    rintro ⟨⟩
    simp [segment?, bare]
  | case8 cs =>
    rintro ⟨⟩
    obtain ⟨same, bound⟩ := dollarLength_append_of_closed (by simpa using closed) hr
    simp [segment?, same, bound]
  | case10 c cs single double backquote backslash dollar other =>
    rintro ⟨⟩
    simp [segment?, single, double, backquote, backslash, dollar, other]
  | _ => rintro ⟨⟩

theorem runLength_eq_add {segment : List Char → Option Nat} {n : Nat} {cs : List Char}
    (h : n ≤ cs.length) : runLength segment n cs = n + runLength segment 0 (cs.drop n) := by
  induction n generalizing cs with
  | zero => simp
  | succ n ih =>
    cases cs with
    | nil => simp at h
    | cons c cs =>
      rw [runLength, ih (by simpa using h), List.drop_succ_cons]
      omega

theorem closedSegment?_bounds {cs : List Char} {n : Nat} (h : closedSegment? cs = some n) :
    n ≤ cs.length := by
  have before : followsWord [] = true := by decide
  exact (segment?_append h before).2

/-- A closed text that is not empty starts with a closed segment, and the rest is
    closed as well. -/
theorem isClosed_cons {c : Char} {cs : List Char} (h : isClosed (c :: cs) = true) :
    ∃ n, closedSegment? (c :: cs) = some (n + 1) ∧ n ≤ cs.length ∧ isClosed (cs.drop n) = true := by
  have all := eq_of_beq h
  rw [runLength_zero_cons, List.length_cons] at all
  cases hs : closedSegment? (c :: cs) with
  -- Without a first segment nothing is closed.
  | none =>
    rw [hs] at all
    simp at all
  | some k =>
    rw [hs] at all
    cases k with
    | zero => simp at all
    | succ n =>
      have bound := closedSegment?_bounds hs
      rw [List.length_cons] at bound
      refine ⟨n, rfl, by omega, beq_iff_eq.mpr ?_⟩
      -- What is inside the segment is passed over, and the run goes on after it.
      have skip : n ≤ cs.length := by omega
      simp only [runLength_eq_add skip] at all
      rw [List.length_drop]
      omega

/-- A closed word takes the same characters wherever it stands. -/
theorem segmentsLength_append {cs rest : List Char} (h : isClosed cs = true)
    (hr : followsWord rest = true) : segmentsLength (cs ++ rest) = cs.length := by
  generalize hl : cs.length = l
  induction l using Nat.strongRecOn generalizing cs with
  | ind l ih =>
    cases cs with
    | nil =>
      subst hl
      simp only [followsWord, Bool.and_eq_true] at hr
      exact segmentsLength_of_endsWord hr.1
    | cons c cs =>
      obtain ⟨n, segment, bound, others⟩ := isClosed_cons h
      have still := (segment?_append segment hr).1
      -- The induction is on the length, since a segment takes many characters at once.
      have shorter : (cs.drop n).length < l := by
        rw [← hl, List.length_drop, List.length_cons]
        omega
      have tail := ih _ shorter others rfl
      rw [List.cons_append] at still ⊢
      rw [segmentsLength, runLength_zero_cons, still]
      have skip : n ≤ (cs ++ rest).length := by
        rw [List.length_append]
        omega
      simp only [runLength_eq_add skip, List.drop_append_of_le_length bound]
      simp only [segmentsLength, List.length_drop] at tail
      rw [tail, ← hl, List.length_cons]
      omega

end Word

namespace Grammar

open Word

/-! ### Terminals in their context -/

/-- Somewhere the terminal takes these characters. -/
def Terminal.Takes (t : Terminal) (text : List Char) : Prop :=
  ∃ rest, t.length? (text ++ rest) = some text.length

/-- Does a blank, a line end, a bar or a closing parenthesis come next, or the
    end? -/
def isDelimited (cs : List Char) : Bool :=
  cs.head?.all fun c => c == ' ' || c == '\n' || c == ')' || c == '|'

/-- The ways in which a delimited text can start. -/
theorem eq_of_isDelimited {cs : List Char} (h : isDelimited cs = true) :
    cs = [] ∨ ∃ c rest, cs = c :: rest ∧ c ∈ [' ', '\n', ')', '|'] := by
  cases cs with
  | nil => exact .inl rfl
  | cons c cs => exact .inr ⟨c, cs, rfl, by simpa [isDelimited, or_assoc] using h⟩

/-- What holds of the end and of the four delimiters holds of the start of every
    delimited text. -/
theorem head_of_isDelimited {p : Char → Bool} {cs : List Char} (h : isDelimited cs = true)
    (check : [' ', '\n', ')', '|'].all p = true) : cs.head?.all p = true := by
  rcases eq_of_isDelimited h with rfl | ⟨c, rest, rfl, hc⟩
  · rfl
  · exact List.all_eq_true.mp check c hc

theorem endsWord_of_isDelimited {cs : List Char} (h : isDelimited cs = true) : endsWord cs = true :=
  head_of_isDelimited h (by decide)

theorem followsWord_of_isDelimited {cs : List Char} (h : isDelimited cs = true) :
    followsWord cs = true := by
  have other := head_of_isDelimited (p := (· != '(')) h (by decide)
  rw [followsWord, endsWord_of_isDelimited h, Bool.true_and]
  cases cs <;> simp_all

theorem takeWhile_of_head {p : Char → Bool} {cs : List Char} (h : cs.head?.all (!p ·) = true) :
    cs.takeWhile p = [] := by
  cases cs with
  | nil => rfl
  | cons c cs => simp_all

/-- Whether a word is a file descriptor does not depend on where it ends. -/
theorem ioNumberLength?_append {text rest rest' : List Char}
    (h : ioNumberLength? (text ++ rest) = none) (hr : isDelimited rest' = true) :
    ioNumberLength? (text ++ rest') = none := by
  have noDigit := takeWhile_of_head (head_of_isDelimited (p := (!Text.isDigit ·)) hr (by decide))
  have noAngle : rest'.head?.any isAngle = false := by
    have := head_of_isDelimited (p := (!isAngle ·)) hr (by decide)
    cases rest' <;> simp_all
  simp only [ioNumberLength?, List.takeWhile_append] at h ⊢
  -- Digits up to the end would need an angle bracket at the start of what follows.
  by_cases digits : (text.takeWhile Text.isDigit).length = text.length
  · simp [digits, noDigit, noAngle]
  · have shorter : (text.takeWhile Text.isDigit).length < text.length := by
      have := (text.takeWhile_prefix Text.isDigit).length_le
      omega
    simp only [digits, if_false] at h ⊢
    rw [List.head?_drop, List.getElem?_append_left shorter] at h ⊢
    exact h

end Grammar

end ShellInliner
