import Mathlib.Algebra.Ring.Parity
import Mathlib.Data.List.TakeWhile
import ShellInliner.Hint

/-! # What hints are based on

    Before quotes and braces are counted a text is stripped of what does not count:
    escaped characters, comments, quoted spans.  Each time spans of one kind are taken
    out, from left to right.  One relation serves for all kinds, and a kind is described
    by where its spans begin and end.

    A quoted span takes two quotes with it, so it does not matter for whether their
    number is odd.  This is why the hints about quotes can be told from a text that
    still has its quoted spans.  The number of opening braces is reduced by one for
    every parameter that begins with one, and the number of closing braces by one for
    every parameter that ends with one, so neither can become negative. -/

namespace ShellInliner.Hint

/-! ### Taking spans out -/

/-- What is left of a text without the spans of a kind, taken out from left to right.
    The kind says of a text that it begins with a span, and what comes after it. -/
inductive Without (Begins : List Char → List Char → Prop) : List Char → List Char → Prop
  /-- The text ends. -/
  | nil : Without Begins [] []
  /-- A span goes. -/
  | span {cs rest left : List Char} (begins : Begins cs rest) (others : Without Begins rest left) :
      Without Begins cs left
  /-- A character stays if no span begins with it. -/
  | character {c : Char} {cs left : List Char} (outside : ∀ rest, ¬ Begins (c :: cs) rest)
      (others : Without Begins cs left) : Without Begins (c :: cs) (c :: left)

/-- At each place of a text at most one span of the kind begins, and none at the end. -/
structure IsDeterminate (Begins : List Char → List Char → Prop) : Prop where
  /-- No span is empty. -/
  end_of_nil : ∀ rest, ¬ Begins [] rest
  /-- A span has one end. -/
  unique : ∀ {cs rest rest'}, Begins cs rest → Begins cs rest' → rest = rest'

variable {Begins : List Char → List Char → Prop} {cs left rest : List Char}

/-- No choice is made when spans are taken out. -/
theorem Without.unique {left' : List Char} (determinate : IsDeterminate Begins)
    (first : Without Begins cs left) (second : Without Begins cs left') : left' = left := by
  induction first generalizing left' with
  | nil =>
    cases second with
    | nil => rfl
    | span begins => exact absurd begins (determinate.end_of_nil _)
  | span begins _ ih =>
    cases second with
    -- A span that begins has a first character.
    | nil => exact absurd begins (determinate.end_of_nil _)
    | span begins' others =>
      obtain rfl := determinate.unique begins begins'
      exact ih others
    | character outside => exact absurd begins (outside _)
  | character outside _ ih =>
    cases second with
    | span begins => exact absurd begins (outside _)
    | character _ others => rw [ih others]

theorem Without.iff_eq {left' : List Char} (determinate : IsDeterminate Begins)
    (without : Without Begins cs left) : Without Begins cs left' ↔ left' = left := by
  constructor
  · exact without.unique determinate
  · rintro rfl
    exact without

/-! ### Backslash pairs -/

/-- A backslash and the character it escapes, which is no line feed. -/
inductive Pair : List Char → List Char → Prop
  /-- The pair and what comes after it. -/
  | mk {c : Char} {rest : List Char} (escapes : c ≠ '\n') : Pair ('\\' :: c :: rest) rest

theorem isDeterminate_pair : IsDeterminate Pair where
  end_of_nil := by
    intro rest begins
    cases begins
  unique := by
    intro cs rest rest' first second
    cases first
    cases second
    rfl

theorem without_dropEscapes (cs : List Char) : Without Pair cs (dropEscapes cs) := by
  fun_induction dropEscapes cs with
  | case1 => exact .nil
  | case2 c =>
    -- A backslash at the end of the text escapes nothing.
    refine .character ?_ .nil
    intro rest begins
    cases begins
  | case3 c d cs pair ih =>
    obtain ⟨rfl, escapes⟩ := pair
    exact .span ⟨escapes⟩ ih
  | case4 c d cs other ih =>
    refine .character ?_ ih
    intro rest begins
    cases begins with
    | mk escapes => exact other ⟨rfl, escapes⟩

/-! ### Comments -/

/-- A comment goes from a number sign to the end of its line. -/
inductive Comment : List Char → List Char → Prop
  /-- The comment and the next line feed, or the end of the text. -/
  | mk {inside rest : List Char} (within : ∀ c ∈ inside, c ≠ '\n')
      (ends : ∀ c ∈ rest.head?, c = '\n') : Comment ('#' :: (inside ++ rest)) rest

theorem Comment.rest_eq (comment : Comment cs rest) : rest = cs.dropWhile (· ≠ '\n') := by
  obtain ⟨within, ends⟩ := comment
  rw [List.dropWhile_cons_of_pos (by decide), List.dropWhile_append_of_pos (by simpa using within)]
  cases rest with
  | nil => rfl
  | cons c rest => rw [List.dropWhile_cons_of_neg (by simpa using ends)]

theorem isDeterminate_comment : IsDeterminate Comment where
  end_of_nil := by
    intro rest begins
    cases begins
  unique first second := by rw [first.rest_eq, second.rest_eq]

/-- A comment begins with every number sign. -/
theorem comment_hash (cs : List Char) : Comment ('#' :: cs) (cs.dropWhile (· ≠ '\n')) := by
  have within : ∀ c ∈ cs.takeWhile (· ≠ '\n'), c ≠ '\n' := by
    intro c mem
    simpa using List.mem_takeWhile_imp mem
  have ends : ∀ c ∈ (cs.dropWhile (· ≠ '\n')).head?, c = '\n' := by
    intro c first
    have stops := List.head?_dropWhile_not (· ≠ '\n') cs
    rw [Option.mem_def.mp first] at stops
    simpa using stops
  have comment := Comment.mk within ends
  rwa [List.takeWhile_append_dropWhile] at comment

/-- Comments are taken out.  Inside one the text counts only from the end of the line. -/
theorem without_dropComments (cs : List Char) :
    Without Comment cs (dropComments false cs) ∧
      Without Comment (cs.dropWhile (· ≠ '\n')) (dropComments true cs) := by
  induction cs with
  | nil => exact ⟨.nil, .nil⟩
  | cons c cs ih =>
    obtain ⟨outside, inside⟩ := ih
    constructor
    · rw [dropComments]
      split
      · rename_i hash
        rw [hash]
        exact .span (comment_hash cs) inside
      · rename_i other
        refine .character ?_ outside
        intro rest begins
        cases begins
        exact other rfl
    · rw [dropComments]
      split
      · rename_i feed
        rw [feed, List.dropWhile_cons_of_neg (by simp)]
        -- The line feed ends the comment and does not belong to it.
        refine .character ?_ outside
        intro rest begins
        cases begins
      · rename_i other
        rwa [List.dropWhile_cons_of_pos (by simpa using other)]

/-! ### Quoted spans -/

/-- A span goes from a quote to the next one. -/
inductive Quoted (quote : Char) : List Char → List Char → Prop
  /-- The two quotes, what stands between them and what comes after them. -/
  | mk {inside rest : List Char} (within : ∀ c ∈ inside, c ≠ quote) :
      Quoted quote (quote :: (inside ++ quote :: rest)) rest

section

variable {quote : Char}

theorem Quoted.rest_eq (span : Quoted quote cs rest) :
    rest = (cs.tail.dropWhile (· ≠ quote)).tail := by
  obtain ⟨within⟩ := span
  rw [List.tail_cons, List.dropWhile_append_of_pos (by simpa using within),
    List.dropWhile_cons_of_neg (by simp), List.tail_cons]

theorem isDeterminate_quoted (quote : Char) : IsDeterminate (Quoted quote) where
  end_of_nil := by
    intro rest begins
    cases begins
  unique first second := by rw [first.rest_eq, second.rest_eq]

/-- A span takes two quotes. -/
theorem Quoted.count_eq (span : Quoted quote cs rest) : cs.count quote = rest.count quote + 2 := by
  obtain @⟨inside, rest, within⟩ := span
  have none : inside.count quote = 0 :=
    List.count_eq_zero_of_not_mem fun mem => within quote mem rfl
  rw [List.count_cons_self, List.count_append, List.count_cons_self, none]
  omega

/-- A quote alone is no span. -/
theorem without_quoted_of_count_le (few : cs.count quote ≤ 1) : Without (Quoted quote) cs cs := by
  induction cs with
  | nil => exact .nil
  | cons c cs ih =>
    refine .character ?_ (ih (Nat.le_trans List.count_le_count_cons few))
    intro rest span
    have two := span.count_eq
    omega

/-- Quoted spans are taken out.  If one is open, its quote and what is held of it still
    stand before the text. -/
theorem without_replaceSpans (quote : Char) (cs : List Char) :
    Without (Quoted quote) cs (replaceSpans quote [] none cs) ∧
      ∀ held, (∀ c ∈ held, c ≠ quote) →
        Without (Quoted quote) (quote :: (held.reverse ++ cs)) (replaceSpans quote [] (some held) cs) := by
  induction cs with
  | nil =>
    refine ⟨.nil, fun held within => ?_⟩
    -- The quote that opened the span is the only one from there on, and stays.
    rw [List.append_nil]
    apply without_quoted_of_count_le
    have none : held.reverse.count quote = 0 :=
      List.count_eq_zero_of_not_mem fun mem => within quote (List.mem_reverse.mp mem) rfl
    rw [List.count_cons_self, none]
  | cons c cs ih =>
    obtain ⟨outside, inside⟩ := ih
    constructor
    · rw [replaceSpans]
      split
      · rename_i opens
        rw [opens]
        exact inside [] (List.forall_mem_nil _)
      · rename_i other
        refine .character ?_ outside
        intro rest begins
        cases begins
        exact other rfl
    · intro held within
      rw [replaceSpans]
      split
      · rename_i closes
        rw [closes]
        exact .span ⟨fun d mem => within d (List.mem_reverse.mp mem)⟩ outside
      · rename_i other
        have longer := inside (c :: held) (List.forall_mem_cons.mpr ⟨other, within⟩)
        rwa [List.reverse_cons, List.append_assoc, List.singleton_append] at longer

/-- Taking spans out does not change whether the number of quotes is odd. -/
theorem Without.count_mod_two (without : Without (Quoted quote) cs left) :
    left.count quote % 2 = cs.count quote % 2 := by
  induction without with
  | nil => rfl
  | span begins _ ih =>
    rw [ih, begins.count_eq, Nat.add_mod_right]
  | @character c cs left _ _ ih =>
    rw [List.count_cons, List.count_cons]
    omega

end

/-! ### Braces -/

/-- Each opening of a parameter holds an opening brace. -/
theorem dollarBraces_le (code : List Char) : dollarBraces code ≤ code.count '{' := by
  fun_induction dollarBraces code with
  | case1 cs ih =>
    rw [List.count_cons_of_ne (by decide), List.count_cons_self]
    omega
  | case2 c cs _ ih => exact Nat.le_trans ih List.count_le_count_cons
  | case3 => exact Nat.zero_le _

/-- Each parameter holds a closing brace. -/
theorem braceSpans_le (inside : Bool) (code : List Char) :
    braceSpans inside code ≤ code.count '}' := by
  fun_induction braceSpans inside code with
  | case1 cs ih =>
    rw [List.count_cons_self]
    omega
  | case2 c cs _ ih => exact Nat.le_trans ih List.count_le_count_cons
  | case3 cs ih =>
    exact Nat.le_trans ih (Nat.le_trans List.count_le_count_cons List.count_le_count_cons)
  | case4 c cs _ ih => exact Nat.le_trans ih List.count_le_count_cons
  | case5 => exact Nat.zero_le _

/-! ### The verdict -/

/-- The hints that code gives are not about quotes, and in the one about braces those of
    parameters do not count. -/
theorem ofCode?_eq_some {code : List Char} {hint : Hint} (found : ofCode? code = some hint) :
    hint.label ≠ "unterminated_single_quote" ∧ hint.label ≠ "unterminated_double_quote" ∧
    (hint.label = "unmatched_braces" →
      hint = .unmatchedBraces (code.count '{' - dollarBraces code)
        (code.count '}' - braceSpans false code)) := by
  simp only [ofCode?] at found
  split_ifs at found
  all_goals cases found
  all_goals simp [label]

/-- Neither number of braces is negative. -/
theorem exists_braces_of_ofCode? {code : List Char} {hint : Hint}
    (found : ofCode? code = some hint) (braces : hint.label = "unmatched_braces") :
    ∃ opened closed : Nat, hint = .unmatchedBraces opened closed := by
  obtain ⟨-, -, counts⟩ := ofCode?_eq_some found
  refine ⟨code.count '{' - dollarBraces code, code.count '}' - braceSpans false code, ?_⟩
  rw [counts braces, Int.ofNat_sub (dollarBraces_le code), Int.ofNat_sub (braceSpans_le false code)]

/-- A text is asked for its single quotes, then for its double quotes, and then for what
    is counted in its code. -/
theorem detect?_cases (source : List Char) :
    (Odd ((uncommented source).count '\'') ∧ detect? source = some singleQuote) ∨
    (¬ Odd ((uncommented source).count '\'') ∧ Odd ((withoutSingleQuoted source).count '"') ∧
      detect? source = some doubleQuote) ∨
    (¬ Odd ((uncommented source).count '\'') ∧ ¬ Odd ((withoutSingleQuoted source).count '"') ∧
      detect? source = ofCode? (bareCode source)) := by
  -- Spans come out with both their quotes, so what is left has as many up to parity.
  have singles := (without_replaceSpans '\'' (uncommented source)).1.count_mod_two
  have doubles := (without_replaceSpans '"' (withoutSingleQuoted source)).1.count_mod_two
  rw [Nat.odd_iff, Nat.odd_iff, ← singles, ← doubles]
  simp only [detect?]
  split
  · rename_i single
    exact .inl ⟨Nat.mod_two_ne_zero.mp single, rfl⟩
  · rename_i single
    have even : (withoutSingleQuoted source).count '\'' % 2 ≠ 1 := by
      rw [not_not.mp single]
      exact Nat.zero_ne_one
    split
    · rename_i double
      exact .inr (.inl ⟨even, Nat.mod_two_ne_zero.mp double, rfl⟩)
    · rename_i double
      refine .inr (.inr ⟨even, ?_, rfl⟩)
      rw [not_not.mp double]
      exact Nat.zero_ne_one

/-- The hints about quotes come from the numbers of quotes, and the one about braces does
    not come from them. -/
theorem label_detect? (source : List Char) :
    ((detect? source).map label = some "unterminated_single_quote" ↔
      Odd ((uncommented source).count '\'')) ∧
    ((detect? source).map label = some "unterminated_double_quote" ↔
      ¬ Odd ((uncommented source).count '\'') ∧ Odd ((withoutSingleQuoted source).count '"')) ∧
    ∀ hint, detect? source = some hint → hint.label = "unmatched_braces" →
      ofCode? (bareCode source) = some hint := by
  -- Only what is counted in the code can be a hint about braces.
  rcases detect?_cases source with ⟨single, verdict⟩ | ⟨single, double, verdict⟩ |
    ⟨single, double, verdict⟩
  · simp [verdict, label, single]
  · simp [verdict, label, single, double]
  · cases found : ofCode? (bareCode source) with
    | none => simp [verdict, found, single, double]
    | some hint =>
      obtain ⟨noSingle, noDouble, -⟩ := ofCode?_eq_some found
      simp [verdict, found, single, double, noSingle, noDouble]

/-- Take the backslash pairs out of a text, and then the comments; this leaves one text.
    A hint says that a single quote is not closed just if the number of single quotes in
    it is odd.  Take out the single-quoted spans as well; this leaves one text, too.  A
    hint says that a double quote is not closed just if the number of single quotes is
    even and the number of double quotes outside the spans is odd.  A hint that braces do
    not match gives two natural numbers. -/
theorem detect?_evidence (source : List Char) :
    ∃ unescaped bare outside : List Char,
      (∀ cs, Without Pair source cs ↔ cs = unescaped) ∧
      (∀ cs, Without Comment unescaped cs ↔ cs = bare) ∧
      (∀ cs, Without (Quoted '\'') bare cs ↔ cs = outside) ∧
      ((detect? source).map label = some "unterminated_single_quote" ↔ Odd (bare.count '\'')) ∧
      ((detect? source).map label = some "unterminated_double_quote" ↔
        ¬ Odd (bare.count '\'') ∧ Odd (outside.count '"')) ∧
      ∀ hint, detect? source = some hint → hint.label = "unmatched_braces" →
        ∃ opened closed : Nat, hint = .unmatchedBraces opened closed ∧
          hint.advice = s!"Unmatched braces: found {opened} '\x7b' but {closed} '\x7d'" := by
  obtain ⟨single, double, code⟩ := label_detect? source
  refine ⟨dropEscapes source, uncommented source, withoutSingleQuoted source,
    fun cs => (without_dropEscapes source).iff_eq isDeterminate_pair,
    fun cs => (without_dropComments _).1.iff_eq isDeterminate_comment,
    fun cs => (without_replaceSpans '\'' _).1.iff_eq (isDeterminate_quoted _),
    single, double, ?_⟩
  intro hint found braces
  obtain ⟨opened, closed, rfl⟩ := exists_braces_of_ofCode? (code hint found braces) braces
  exact ⟨opened, closed, rfl, rfl⟩

/-- The opening brace is quoted and the closing one is not. -/
theorem detect?_evidence_braces :
    let source := ['\'', '\x7b', '\'', ' ', '\x7d']
    detect? source = some (.unmatchedBraces 0 1) ∧
      ∃ opened closed : Nat, unmatchedBraces 0 1 = .unmatchedBraces opened closed ∧
        (unmatchedBraces 0 1).advice =
          s!"Unmatched braces: found {opened} '\x7b' but {closed} '\x7d'" := by
  intro source
  have found : detect? source = some (.unmatchedBraces 0 1) := by decide +kernel
  obtain ⟨-, -, -, -, -, -, -, -, braces⟩ := detect?_evidence source
  exact ⟨found, braces _ found rfl⟩

end ShellInliner.Hint
