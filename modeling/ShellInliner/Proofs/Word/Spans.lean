import ShellInliner.Proofs.Grammar.Closed

/-! # Spans by their form

    What stands between quotes, braces or parentheses ends where it can be closed
    first.  So a span is told by the form of its inside and the character after it,
    and by nothing else: neither by what comes later nor, where nothing closes it, by
    a text behind it that does not close it either. -/

namespace ShellInliner.Word

/-! ### Closing characters -/

/-- The function finds a span just where the text goes on with an inside of the right
    form and a character that closes it; it gives a number that goes with the inside. -/
def Delimits (f : List Char → Option Nat) (close : Char) (P : List Char → Nat → Prop) : Prop :=
  ∀ cs n, f cs = some n ↔ ∃ inside rest, cs = inside ++ close :: rest ∧ P inside n

namespace Delimits

variable {f : List Char → Option Nat} {close : Char} {P : List Char → Nat → Prop}

theorem eq_some (delimits : Delimits f close P) {inside : List Char} {n : Nat} (form : P inside n)
    (rest : List Char) : f (inside ++ close :: rest) = some n :=
  (delimits _ _).mpr ⟨inside, rest, rfl, form⟩

/-- A text that does not close a span has no say in where it is closed. -/
theorem append_of_absent (delimits : Delimits f close P) {ds : List Char} (absent : close ∉ ds)
    (cs : List Char) : f (cs ++ ds) = f cs := by
  refine Option.ext fun n => ?_
  rw [delimits, delimits]
  constructor
  · -- The character that closes the span in the longer text stands in the shorter one.
    rintro ⟨inside, rest, split, form⟩
    rcases List.append_eq_append_iff.mp split with ⟨as, rfl, tail⟩ | ⟨bs, rfl, tail⟩
    · exact absurd (tail ▸ List.mem_append_right as (List.mem_cons_self ..)) absent
    · cases bs with
      | nil => exact absurd ((List.nil_append ds ▸ tail) ▸ List.mem_cons_self ..) absent
      | cons b bs =>
        obtain ⟨rfl, -⟩ := List.cons.inj tail
        exact ⟨inside, bs, rfl, form⟩
  · rintro ⟨inside, rest, rfl, form⟩
    exact ⟨inside, rest ++ ds, by simp, form⟩

end Delimits

/-! ### Quotes and braces -/

/-- A plain span is closed by the first such character. -/
theorem delimits_spanTo (stop : Char) :
    Delimits (spanTo stop) stop fun inside n => stop ∉ inside ∧ n = inside.length + 1 := by
  intro cs n
  constructor
  · intro found
    induction cs generalizing n with
    | nil => cases found
    | cons c cs ih =>
      rw [spanTo] at found
      split at found
      · rename_i same
        cases found
        exact ⟨[], cs, by rw [same]; rfl, List.not_mem_nil, rfl⟩
      · -- Any other character is inside, and the span is closed later.
        rename_i differ
        obtain ⟨k, later, rfl⟩ := Option.map_eq_some_iff.mp found
        obtain ⟨inside, rest, rfl, absent, rfl⟩ := ih k later
        refine ⟨c :: inside, rest, rfl, ?_, rfl⟩
        exact List.not_mem_cons_of_ne_of_not_mem (Ne.symm differ) absent
  · rintro ⟨inside, rest, rfl, absent, rfl⟩
    induction inside with
    | nil => simp [spanTo]
    | cons c inside ih =>
      have differ : c ≠ stop := fun same => absent (same ▸ List.mem_cons_self ..)
      rw [List.cons_append, spanTo, if_neg differ, ih fun mem => absent (List.mem_cons_of_mem _ mem)]
      rfl

/-- The inside of a span in which a backslash escapes the character after it. -/
inductive Escaped (mode : LineFeeds) (stop : Char) : List Char → Prop
  /-- There may be nothing. -/
  | nil : Escaped mode stop []
  /-- A character stands for itself. -/
  | plain {c : Char} {cs : List Char} (inner : c ≠ stop) (bare : c ≠ '\\')
      (others : Escaped mode stop cs) : Escaped mode stop (c :: cs)
  /-- A backslash takes a character with it. -/
  | pair {c : Char} {cs : List Char} (escapes : mode.escapes c = true)
      (others : Escaped mode stop cs) : Escaped mode stop ('\\' :: c :: cs)

theorem escapedSpanTo_of_escaped {mode : LineFeeds} {stop : Char} (other : stop ≠ '\\')
    {inside : List Char} (form : Escaped mode stop inside) (rest : List Char) :
    escapedSpanTo mode stop (inside ++ stop :: rest) = some (inside.length + 1) := by
  induction form with
  | nil => cases rest <;> simp [escapedSpanTo]
  | @plain c cs inner bare _ ih =>
    -- The function looks at two characters, and there are two.
    obtain ⟨d, ds, split⟩ : ∃ d ds, cs ++ stop :: rest = d :: ds := by
      cases cs with
      | nil => exact ⟨stop, rest, rfl⟩
      | cons d ds => exact ⟨d, ds ++ stop :: rest, rfl⟩
    rw [split] at ih
    rw [List.cons_append, split, escapedSpanTo, if_neg inner, if_neg bare, ih]
    rfl
  | @pair c cs escapes _ ih =>
    rw [List.cons_append, List.cons_append, escapedSpanTo, if_neg other.symm, if_pos rfl,
      if_pos escapes, ih]
    rfl

/-- A span with escapes is closed by the first such character that is not escaped. -/
theorem delimits_escapedSpanTo (mode : LineFeeds) {stop : Char} (other : stop ≠ '\\') :
    Delimits (escapedSpanTo mode stop) stop fun inside n =>
      Escaped mode stop inside ∧ n = inside.length + 1 := by
  intro cs n
  constructor
  · intro found
    fun_induction escapedSpanTo mode stop cs generalizing n with
    | case1 => cases found
    | case2 =>
      cases found
      exact ⟨[], [], rfl, .nil, rfl⟩
    | case3 => cases found
    | case4 =>
      cases found
      exact ⟨[], _, rfl, .nil, rfl⟩
    -- An escaped pair is inside as a whole, whatever its second character is.
    | case5 d cs escapes _ ih =>
      obtain ⟨k, later, rfl⟩ := Option.map_eq_some_iff.mp found
      obtain ⟨inside, rest, rfl, form, rfl⟩ := ih k later
      exact ⟨'\\' :: d :: inside, rest, rfl, .pair escapes form, rfl⟩
    | case6 => cases found
    | case7 c d cs inner bare ih =>
      obtain ⟨k, later, rfl⟩ := Option.map_eq_some_iff.mp found
      obtain ⟨inside, rest, split, form, rfl⟩ := ih k later
      exact ⟨c :: inside, rest, by rw [split]; rfl, .plain inner bare form, rfl⟩
  · rintro ⟨inside, rest, rfl, form, rfl⟩
    exact escapedSpanTo_of_escaped other form rest

/-! ### Groups -/

/-- A text without parentheses but for groups that hold none themselves. -/
inductive Grouped : List Char → Prop
  /-- There may be nothing. -/
  | nil : Grouped []
  /-- A character that is no parenthesis. -/
  | plain {c : Char} {cs : List Char} (opens : c ≠ '(') (closes : c ≠ ')') (others : Grouped cs) :
      Grouped (c :: cs)
  /-- A group. -/
  | group {inside cs : List Char} (flat : ∀ c ∈ inside, c ≠ '(' ∧ c ≠ ')') (others : Grouped cs) :
      Grouped ('(' :: (inside ++ ')' :: cs))

theorem Grouped.of_flat {cs : List Char} (flat : ∀ c ∈ cs, c ≠ '(' ∧ c ≠ ')') : Grouped cs := by
  induction cs with
  | nil => exact .nil
  | cons c cs ih =>
    have here := flat c (List.mem_cons_self ..)
    exact .plain here.1 here.2 (ih fun d mem => flat d (List.mem_cons_of_mem _ mem))

/-- No group has been opened that could be closed at the start. -/
theorem Grouped.head_ne {cs ds : List Char} (form : Grouped cs) : cs ≠ ')' :: ds := by
  rintro rfl
  cases form with
  | plain _ closes => exact closes rfl

theorem groupsLength_of_flat {inside : List Char} (flat : ∀ c ∈ inside, c ≠ '(' ∧ c ≠ ')')
    (k : Nat) (rest : List Char) :
    groupsLength (some k) (inside ++ ')' :: rest) =
      k + inside.length + 1 + groupsLength none rest := by
  induction inside generalizing k with
  | nil => rfl
  | cons c inside ih =>
    have here := flat c (List.mem_cons_self ..)
    rw [List.cons_append, groupsLength, if_neg here.1, if_neg here.2,
      ih fun d mem => flat d (List.mem_cons_of_mem _ mem), List.length_cons]
    omega

theorem groupsLength_of_grouped {inside : List Char} (form : Grouped inside) (rest : List Char) :
    groupsLength none (inside ++ ')' :: rest) = inside.length := by
  induction form with
  | nil => rfl
  | @plain c cs opens closes _ ih =>
    rw [List.cons_append, groupsLength, if_neg closes, if_neg opens, ih, List.length_cons]
    omega
  | @group inside cs flat _ ih =>
    have differ : ('(' : Char) ≠ ')' := by decide
    rw [List.cons_append, List.append_assoc, List.cons_append, groupsLength, if_neg differ,
      if_pos rfl, groupsLength_of_flat flat, ih]
    simp only [List.length_cons, List.length_append]
    omega

/-- A group that counts is closed. -/
theorem exists_of_groupsLength_ne_zero {k : Nat} {cs : List Char}
    (closed : groupsLength (some k) cs ≠ 0) :
    ∃ inside rest, (∀ c ∈ inside, c ≠ '(' ∧ c ≠ ')') ∧ cs = inside ++ ')' :: rest := by
  induction cs generalizing k with
  | nil => exact absurd rfl closed
  | cons c cs ih =>
    rw [groupsLength] at closed
    -- A group inside the group would have taken the count away.
    split at closed
    · exact absurd rfl closed
    · rename_i opens
      split at closed
      · rename_i closes
        exact ⟨[], cs, by simp, by rw [closes]; rfl⟩
      · rename_i closes
        obtain ⟨inside, rest, flat, rfl⟩ := ih closed
        exact ⟨c :: inside, rest, List.forall_mem_cons.mpr ⟨⟨opens, closes⟩, flat⟩, rfl⟩

/-- What is taken is grouped. -/
theorem grouped_take (cs : List Char) : Grouped (cs.take (groupsLength none cs)) := by
  match cs with
  | [] => exact .nil
  | c :: cs =>
    rw [groupsLength]
    split
    · exact .nil
    · rename_i closes
      split
      · rename_i opens
        -- A group that nothing closes ends what is taken before its parenthesis.
        by_cases unclosed : groupsLength (some 1) cs = 0
        · rw [unclosed]
          exact .nil
        · obtain ⟨inside, rest, flat, rfl⟩ := exists_of_groupsLength_ne_zero unclosed
          have taken : (c :: (inside ++ ')' :: rest)).take
              (groupsLength (some 1) (inside ++ ')' :: rest)) =
              '(' :: (inside ++ ')' :: rest.take (groupsLength none rest)) := by
            have count : groupsLength (some 1) (inside ++ ')' :: rest) =
                inside.length + (groupsLength none rest + 1) + 1 := by
              rw [groupsLength_of_flat flat]
              omega
            rw [count, opens, List.take_succ_cons, List.take_length_add_append, List.take_succ_cons]
          rw [taken]
          exact .group flat (grouped_take rest)
      · rename_i opens
        rw [Nat.add_comm, List.take_succ_cons]
        exact .plain opens closes (grouped_take cs)
termination_by cs.length

/-- A text up to a closing parenthesis that no group closes. -/
theorem groupsLength_eq_iff {cs : List Char} {n : Nat} :
    groupsLength none cs = n ∧ cs[n]? = some ')' ↔
      ∃ inside rest, cs = inside ++ ')' :: rest ∧ Grouped inside ∧ n = inside.length := by
  constructor
  · -- The inside is what is taken, and the parenthesis is the character after it.
    rintro ⟨rfl, close⟩
    obtain ⟨bound, here⟩ := List.getElem?_eq_some_iff.mp close
    refine ⟨cs.take (groupsLength none cs), cs.drop (groupsLength none cs + 1), ?_, grouped_take cs,
      (List.length_take_of_le (Nat.le_of_lt bound)).symm⟩
    rw [← here, List.getElem_cons_drop, List.take_append_drop]
  · rintro ⟨inside, rest, rfl, form, rfl⟩
    exact ⟨groupsLength_of_grouped form rest, by simp⟩

/-- Two grouped texts that are closed at the start of the same text are the same. -/
theorem Grouped.eq_of_append_eq {xs ys xs' ys' : List Char} (form : Grouped xs) (form' : Grouped ys)
    (same : xs ++ ')' :: xs' = ys ++ ')' :: ys') : xs = ys ∧ xs' = ys' := by
  have length : xs.length = ys.length := by
    rw [← groupsLength_of_grouped form xs', same, groupsLength_of_grouped form' ys']
  obtain ⟨inside, rest⟩ := List.append_inj same length
  exact ⟨inside, (List.cons.inj rest).2⟩

/-- The inside of a command substitution is closed by one parenthesis. -/
theorem delimits_commandInside? :
    Delimits commandInside? ')' fun inside n => Grouped inside ∧ n = inside.length :=
  fun _ _ => commandInside?_eq_some.trans groupsLength_eq_iff

/-- The inside of an arithmetic expansion is closed by two parentheses. -/
theorem delimits_arithmeticInside? :
    Delimits arithmeticInside? ')' fun inside n =>
      ∃ expression, inside = expression ++ [')'] ∧ Grouped expression ∧ n = expression.length := by
  intro cs n
  rw [arithmeticInside?_eq_some]
  constructor
  · rintro ⟨count, first, second⟩
    obtain ⟨expression, rest, rfl, form, rfl⟩ := groupsLength_eq_iff.mp ⟨count, first⟩
    -- The second parenthesis stands right after the first.
    rw [List.getElem?_append_right (Nat.le_add_right _ 1), Nat.add_sub_cancel_left] at second
    cases rest with
    | nil => cases second
    | cons d rest =>
      cases second
      exact ⟨expression ++ [')'], rest, by simp, expression, rfl, form, rfl⟩
  · rintro ⟨_, rest, rfl, expression, rfl, form, rfl⟩
    rw [List.append_assoc, List.singleton_append]
    exact ⟨groupsLength_of_grouped form _, by simp, by simp⟩

/-- A command substitution is no arithmetic expansion unless it is written as one. -/
theorem arithmeticInside?_of_command {inside : List Char} (grouped : Grouped ('(' :: inside))
    (other : ∀ expression, Grouped expression → '(' :: inside ≠ '(' :: (expression ++ [')']))
    (rest : List Char) : arithmeticInside? (inside ++ ')' :: rest) = none := by
  cases grouped with
  | plain opens => exact absurd rfl opens
  | @group flatInside cs flat others =>
    refine Option.eq_none_iff_forall_ne_some.mpr fun n span => ?_
    obtain ⟨_, after, split, expression, rfl, form, -⟩ := (delimits_arithmeticInside? _ _).mp span
    -- The expression would be the first group, and the rest could not be grouped.
    rw [List.append_assoc, List.append_assoc, List.cons_append, List.singleton_append] at split
    obtain ⟨rfl, tail⟩ := (Grouped.of_flat flat).eq_of_append_eq form split
    cases cs with
    | nil => exact other flatInside form rfl
    | cons c cs =>
      obtain ⟨rfl, -⟩ := List.cons.inj tail
      exact others.head_ne rfl

end ShellInliner.Word
