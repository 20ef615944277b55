import ShellInliner.Proofs.Word.Spans

/-! # Segments by their form

    The segments of a word are told by their form, apart from how they are looked for.
    What is found has such a form.  What has such a form is found whatever comes after
    it, but for a lone dollar sign, which a brace or a parenthesis could go on with. -/

namespace ShellInliner.Word

/-- A text that is a segment of a word. -/
inductive Segment : List Char → Prop
  /-- Anything between single quotes. -/
  | singleQuoted {inside : List Char} (closed : '\'' ∉ inside) : Segment ('\'' :: (inside ++ ['\'']))
  /-- Characters and escapes between double quotes. -/
  | doubleQuoted {inside : List Char} (escaped : Escaped .bare '"' inside) :
      Segment ('"' :: (inside ++ ['"']))
  /-- An escaped character. -/
  | escape {c : Char} (bare : c ≠ '\n') : Segment ['\\', c]
  /-- An arithmetic expansion. -/
  | arithmetic {inside : List Char} (grouped : Grouped inside) :
      Segment ('$' :: '(' :: '(' :: (inside ++ [')', ')']))
  /-- A command substitution. -/
  | command {inside : List Char} (grouped : Grouped inside) :
      Segment ('$' :: '(' :: (inside ++ [')']))
  /-- A parameter between braces. -/
  | braced {inside : List Char} (closed : '}' ∉ inside) : Segment ('$' :: '{' :: (inside ++ ['}']))
  /-- Characters and escapes between backquotes. -/
  | backquoted {inside : List Char} (escaped : Escaped .bare '`' inside) :
      Segment ('`' :: (inside ++ ['`']))
  /-- A dollar sign on its own. -/
  | dollar : Segment ['$']
  /-- A plain character. -/
  | plain {c : Char} (plain : isPlain c = true) : Segment [c]

/-- A segment starts with no character that ends words. -/
theorem Segment.head {s : List Char} (form : Segment s) : ∃ c cs, s = c :: cs ∧ isMeta c = false := by
  cases form with
  | plain h => exact ⟨_, [], rfl, Grammar.isMeta_of_isPlain h⟩
  | _ => exact ⟨_, _, rfl, by decide⟩

theorem Segment.ne_nil {s : List Char} (form : Segment s) : s ≠ [] := by
  obtain ⟨c, cs, rfl, -⟩ := form.head
  exact List.cons_ne_nil c cs

/-! ### What has the form is found -/

/-- A command substitution may be taken for an arithmetic expansion, which is then the
    same text. -/
theorem dollarLength_command {inside : List Char} (grouped : Grouped inside) (rest : List Char) :
    dollarLength ('(' :: (inside ++ ')' :: rest)) = inside.length + 3 := by
  have span := delimits_commandInside?.eq_some ⟨grouped, rfl⟩ rest
  cases inside with
  | nil => rw [dollarLength.eq_2 _ (by simp), span]
  | cons c cs =>
    by_cases double : c = '('
    case neg =>
      -- A single parenthesis is no arithmetic expansion.
      have single (ds : List Char) : c :: cs ++ ')' :: rest ≠ '(' :: ds :=
        fun same => double (List.cons.inj same).1
      rw [dollarLength.eq_2 _ single, span]
    rw [double] at grouped span ⊢
    by_cases both : ∃ expression, Grouped expression ∧ '(' :: cs = '(' :: (expression ++ [')'])
    · obtain ⟨expression, form, same⟩ := both
      obtain ⟨-, rfl⟩ := List.cons.inj same
      have first := delimits_arithmeticInside?.eq_some ⟨expression, rfl, form, rfl⟩ rest
      rw [List.cons_append, dollarLength, first]
      simp
    · -- Two parentheses that do not close together are a command that starts with a group.
      have first := arithmeticInside?_of_command grouped
        (fun expression form same => both ⟨expression, form, same⟩) rest
      rw [List.cons_append] at span ⊢
      rw [dollarLength, first, span]

/-- A segment is found whatever comes after it.  Only a lone dollar sign needs that
    neither a brace nor a parenthesis does. -/
theorem segment?_of_segment {s rest : List Char} (form : Segment s)
    (lone : s = ['$'] → rest.head? ≠ some '{' ∧ rest.head? ≠ some '(') :
    segment? (s ++ rest) = some s.length := by
  cases form with
  | @singleQuoted inside closed =>
    have span := (delimits_spanTo '\'').eq_some ⟨closed, rfl⟩ rest
    simp [segment?, span]
  | @doubleQuoted inside escaped =>
    have span := (delimits_escapedSpanTo .bare (by decide)).eq_some ⟨escaped, rfl⟩ rest
    simp [segment?, span]
  | escape bare => simp [segment?, bare]
  | @arithmetic inside grouped =>
    have span := delimits_arithmeticInside?.eq_some ⟨inside, rfl, grouped, rfl⟩ rest
    rw [List.append_assoc, List.singleton_append] at span
    simp [segment?, dollarLength, span]
  | @command inside grouped =>
    simp [segment?, dollarLength_command grouped]
  | @braced inside closed =>
    have span := (delimits_spanTo '}').eq_some ⟨closed, rfl⟩ rest
    simp [segment?, dollarLength, span]
  | @backquoted inside escaped =>
    have span := (delimits_escapedSpanTo .bare (by decide)).eq_some ⟨escaped, rfl⟩ rest
    simp [segment?, span]
  | dollar =>
    -- A lone dollar sign is found if no bracket follows.
    obtain ⟨brace, paren⟩ := lone rfl
    have single : dollarLength rest = 1 := by
      refine dollarLength.eq_4 rest ?_ ?_ ?_
      all_goals intro cs same
      all_goals rw [same] at brace paren
      · exact absurd rfl paren
      · exact absurd rfl paren
      · exact absurd rfl brace
    simp [segment?, single]
  | plain plain => exact segment?_plain plain rest

/-! ### What is found has the form -/

theorem exists_segment_of_dollarLength (cs : List Char) :
    ∃ s rest, '$' :: cs = s ++ rest ∧ s.length = dollarLength cs ∧ Segment s := by
  have lone : ∃ s rest, '$' :: cs = s ++ rest ∧ s.length = 1 ∧ Segment s := ⟨['$'], cs, rfl, rfl, .dollar⟩
  fun_cases dollarLength cs with
  | case1 cs n span =>
    obtain ⟨_, rest, rfl, inside, rfl, grouped, rfl⟩ := (delimits_arithmeticInside? _ _).mp span
    exact ⟨_, rest, by simp, by simp, .arithmetic grouped⟩
  | case2 cs _ n span =>
    obtain ⟨inside, rest, split, grouped, rfl⟩ := (delimits_commandInside? _ _).mp span
    exact ⟨_, rest, by simp [split], by simp, .command grouped⟩
  | case4 cs _ n span =>
    obtain ⟨inside, rest, rfl, grouped, rfl⟩ := (delimits_commandInside? _ _).mp span
    exact ⟨_, rest, by simp, by simp, .command grouped⟩
  | case6 cs n span =>
    obtain ⟨inside, rest, rfl, closed, rfl⟩ := (delimits_spanTo '}' _ _).mp span
    exact ⟨_, rest, by simp, by simp, .braced closed⟩
  -- In the other cases the bracket is missing or is never closed.
  | _ => exact lone

/-- What is found at the start of a text is a segment. -/
theorem exists_segment {cs : List Char} {n : Nat} (found : segment? cs = some n) :
    ∃ s rest, cs = s ++ rest ∧ s.length = n ∧ Segment s := by
  revert found
  fun_cases segment? cs with
  | case1 => rintro ⟨⟩
  | case2 cs =>
    intro found
    obtain ⟨k, span, rfl⟩ := Option.map_eq_some_iff.mp found
    obtain ⟨inside, rest, rfl, closed, rfl⟩ := (delimits_spanTo '\'' _ _).mp span
    exact ⟨_, rest, by simp, by simp, .singleQuoted closed⟩
  | case3 cs =>
    intro found
    obtain ⟨k, span, rfl⟩ := Option.map_eq_some_iff.mp found
    obtain ⟨inside, rest, rfl, escaped, rfl⟩ := (delimits_escapedSpanTo .bare (by decide) _ _).mp span
    exact ⟨_, rest, by simp, by simp, .doubleQuoted escaped⟩
  | case4 cs =>
    intro found
    obtain ⟨k, span, rfl⟩ := Option.map_eq_some_iff.mp found
    obtain ⟨inside, rest, rfl, escaped, rfl⟩ := (delimits_escapedSpanTo .bare (by decide) _ _).mp span
    exact ⟨_, rest, by simp, by simp, .backquoted escaped⟩
  | case5 => rintro ⟨⟩
  | case6 => rintro ⟨⟩
  -- Single characters: an escaped one, a dollar sign with what it opens, or a plain one.
  | case7 c cs bare =>
    rintro ⟨⟩
    exact ⟨['\\', c], cs, rfl, rfl, .escape bare⟩
  | case8 cs =>
    rintro ⟨⟩
    exact exists_segment_of_dollarLength cs
  | case9 => rintro ⟨⟩
  | case10 c cs =>
    rintro ⟨⟩
    refine ⟨[c], cs, rfl, rfl, .plain ?_⟩
    simp_all [isPlain]

/-! ### Runs of segments -/

/-- No dollar sign that is a segment of its own is followed by a brace. -/
def NoLoneBrace (segments : List (List Char)) : Prop :=
  ∀ before after, segments = before ++ ['$'] :: after → after.flatten.head? ≠ some '{'

theorem noLoneBrace_nil : NoLoneBrace [] := by
  intro before after same
  cases before <;> cases same

theorem noLoneBrace_cons {s : List Char} {segments : List (List Char)} :
    NoLoneBrace (s :: segments) ↔
      (s = ['$'] → segments.flatten.head? ≠ some '{') ∧ NoLoneBrace segments := by
  constructor
  · intro bare
    refine ⟨fun lone => bare [] segments (by rw [lone]; rfl), ?_⟩
    rintro before after rfl
    exact bare (s :: before) after rfl
  · rintro ⟨first, others⟩ before after same
    -- A lone dollar sign is the first segment or one of the others.
    cases before with
    | nil =>
      obtain ⟨rfl, rfl⟩ := List.cons.inj same
      exact first rfl
    | cons s' before =>
      obtain ⟨rfl, rfl⟩ := List.cons.inj same
      exact others before after rfl

theorem flatten_head? {segments : List (List Char)} (forms : ∀ s ∈ segments, Segment s)
    (ne : segments ≠ []) : ∃ c, isMeta c = false ∧ segments.flatten.head? = some c := by
  cases segments with
  | nil => exact absurd rfl ne
  | cons s segments =>
    obtain ⟨c, cs, rfl, other⟩ := (forms s (List.mem_cons_self ..)).head
    exact ⟨c, other, rfl⟩

/-- Nothing goes on with a dollar sign that a word leaves alone. -/
theorem head_ne_of_noLoneBrace {segments : List (List Char)} {rest : List Char}
    (forms : ∀ s ∈ segments, Segment s) (bare : segments.flatten.head? ≠ some '{')
    (ends : followsWord rest = true) :
    (segments.flatten ++ rest).head? ≠ some '{' ∧ (segments.flatten ++ rest).head? ≠ some '(' := by
  by_cases ne : segments = []
  · rw [ne, List.flatten_nil, List.nil_append]
    simp only [followsWord, Bool.and_eq_true, bne_iff_ne] at ends
    refine ⟨?_, ends.2⟩
    intro brace
    -- A brace ends no word, so the word would have gone on with it.
    have isMeta : Grammar.endsWord rest = false := by
      unfold Grammar.endsWord
      rw [brace]
      decide
    rw [isMeta] at ends
    exact absurd ends.1 Bool.false_ne_true
  · obtain ⟨c, other, head⟩ := flatten_head? forms ne
    rw [List.head?_append, head, Option.some_or]
    refine ⟨head ▸ bare, ?_⟩
    intro paren
    cases paren
    exact absurd other (by decide)

/-- A segment that is found is the first one of the word. -/
theorem segmentsLength_append_of_found {s rest : List Char} (ne : s ≠ [])
    (found : segment? (s ++ rest) = some s.length) :
    segmentsLength (s ++ rest) = s.length + segmentsLength rest := by
  cases s with
  | nil => exact absurd rfl ne
  | cons c cs =>
    have bound : cs.length ≤ (cs ++ rest).length := by
      rw [List.length_append]
      omega
    rw [List.cons_append] at found ⊢
    rw [segmentsLength, runLength_zero_cons, found]
    show 1 + runLength segment? cs.length (cs ++ rest) = cs.length + 1 + segmentsLength rest
    rw [runLength_eq_add bound, List.drop_left, segmentsLength]
    omega

/-- Segments are found one by one up to a character that ends words. -/
theorem segmentsLength_flatten {segments : List (List Char)} {rest : List Char}
    (forms : ∀ s ∈ segments, Segment s) (bare : NoLoneBrace segments)
    (ends : followsWord rest = true) :
    segmentsLength (segments.flatten ++ rest) = segments.flatten.length := by
  induction segments with
  | nil =>
    simp only [followsWord, Bool.and_eq_true] at ends
    exact segmentsLength_of_endsWord ends.1
  | cons s segments ih =>
    obtain ⟨form, others⟩ := List.forall_mem_cons.mp forms
    obtain ⟨first, bare⟩ := noLoneBrace_cons.mp bare
    -- What follows the first segment cannot go on with it, be it in the word or behind it.
    have found : segment? (s ++ (segments.flatten ++ rest)) = some s.length :=
      segment?_of_segment form fun lone => head_ne_of_noLoneBrace others (first lone) ends
    rw [List.flatten_cons, List.append_assoc, segmentsLength_append_of_found form.ne_nil found,
      ih others bare, List.length_append]

theorem segmentsLength_of_none {cs : List Char} (none : segment? cs = none) :
    segmentsLength cs = 0 := by
  cases cs with
  | nil => rfl
  | cons c cs => rw [segmentsLength, runLength_zero_cons, none]

/-- What a word takes are segments. -/
theorem exists_segments (cs : List Char) :
    ∃ segments rest, cs = List.flatten segments ++ rest ∧
      segments.flatten.length = segmentsLength cs ∧ ∀ s ∈ segments, Segment s := by
  cases found : segment? cs with
  | none => exact ⟨[], cs, rfl, (segmentsLength_of_none found).symm, by simp⟩
  | some n =>
    obtain ⟨s, rest, rfl, rfl, form⟩ := exists_segment found
    -- A segment takes something, so the rest is shorter.
    have shorter : rest.length < (s ++ rest).length := by
      rw [List.length_append]
      have := List.length_pos_iff.mpr form.ne_nil
      omega
    obtain ⟨segments, after, same, length, forms⟩ := exists_segments rest
    refine ⟨s :: segments, after, ?_, ?_, List.forall_mem_cons.mpr ⟨form, forms⟩⟩
    · rw [List.flatten_cons, List.append_assoc, ← same]
    · rw [List.flatten_cons, List.length_append, length,
        segmentsLength_append_of_found form.ne_nil found]
termination_by cs.length

/-- What a word takes as a whole is made of segments. -/
theorem exists_segments_of_whole {cs : List Char} (whole : segmentsLength cs = cs.length) :
    ∃ segments, cs = List.flatten segments ∧ ∀ s ∈ segments, Segment s := by
  obtain ⟨segments, rest, split, length, forms⟩ := exists_segments cs
  have empty : rest = [] := by
    have total := congrArg List.length split
    rw [List.length_append] at total
    exact List.eq_nil_of_length_eq_zero (by omega)
  rw [empty, List.append_nil] at split
  exact ⟨segments, split, forms⟩

end ShellInliner.Word
