import ShellInliner.Proofs.Grammar.Redirection
import ShellInliner.Proofs.Word.Literals
import ShellInliner.Source.Render

/-! # How expansions are written

    The texts that are expansions are told by their form, apart from how they are
    looked for.  What is found has such a form, and what has such a form is found.
    The source that is made of the values of an expansion is the text it was written
    as, whatever stands between its braces. -/

namespace ShellInliner.Word

open Source (parameter)

/-! ### Forms -/

/-- A text that is an expansion, with the values of the expansion. -/
inductive Written : List Char → Head → Prop
  /-- An arithmetic expansion. -/
  | arithmetic {inside : List Char} (grouped : Grouped inside) :
      Written ('$' :: '(' :: '(' :: (inside ++ [')', ')']))
        (.arithmeticExpansion (String.ofList inside) false)
  /-- A command substitution that is no arithmetic expansion. -/
  | command {inside : List Char} (grouped : Grouped inside)
      (other : ∀ expression, Grouped expression → inside ≠ '(' :: (expression ++ [')'])) :
      Written ('$' :: '(' :: (inside ++ [')']))
        (.commandExpansion (String.ofList inside) false false)
  /-- A command substitution between backquotes. -/
  | backquoted {inside : List Char} (escaped : Escaped .escapable '`' inside) :
      Written ('`' :: (inside ++ ['`'])) (.commandExpansion (String.ofList inside) true false)
  /-- A parameter between braces, whatever it is. -/
  | braced {inside : List Char} (closed : '}' ∉ inside) :
      Written ('$' :: '{' :: (inside ++ ['}'])) (bracedParameter inside)
  /-- A parameter with a name. -/
  | name {c : Char} {cs : List Char} (start : isIdentifierStart c = true)
      (parts : ∀ d ∈ cs, isIdentifierPart d = true) :
      Written ('$' :: c :: cs) (.parameterExpansion (String.ofList (c :: cs)) none none none false)
  /-- A parameter that is a digit or a special character. -/
  | sign {c : Char} (special : (c.isDigit || isSpecialParameter c) = true) :
      Written ['$', c] (.parameterExpansion (String.ofList [c]) none none none false)

/-! ### What is found is written -/

theorem written_of_commandPiece {cs : List Char} {h : Head} {n : Nat}
    (other : ∀ rest, cs = '(' :: rest → arithmeticInside? rest = none)
    (found : dollarPiece.commandPiece cs = .expansion h n) :
    ∃ text rest, '$' :: '(' :: cs = text ++ rest ∧ text.length = n ∧ Written text h := by
  unfold dollarPiece.commandPiece at found
  split at found
  · rename_i k span
    cases found
    obtain ⟨inside, rest, rfl, grouped, rfl⟩ := (delimits_commandInside? _ _).mp span
    refine ⟨'$' :: '(' :: (inside ++ [')']), rest, by simp, by simp, ?_⟩
    rw [List.take_left]
    refine .command grouped fun expression form same => ?_
    -- Such a text would have been taken for an arithmetic expansion.
    have none := other (expression ++ ')' :: ')' :: rest) (by simp [same])
    have some := delimits_arithmeticInside?.eq_some ⟨expression, rfl, form, rfl⟩ rest
    rw [List.append_assoc, List.singleton_append, none] at some
    cases some
  · cases found

theorem written_of_dollarPiece {cs : List Char} {h : Head} {n : Nat}
    (found : dollarPiece cs = .expansion h n) :
    ∃ text rest, '$' :: cs = text ++ rest ∧ text.length = n ∧ Written text h := by
  revert found
  fun_cases dollarPiece cs with
  | case1 rest k span =>
    rintro ⟨⟩
    obtain ⟨_, after, rfl, inside, rfl, grouped, rfl⟩ := (delimits_arithmeticInside? _ _).mp span
    refine ⟨'$' :: '(' :: '(' :: (inside ++ [')', ')']), after, by simp, by simp, ?_⟩
    rw [List.append_assoc, List.take_left]
    exact .arithmetic grouped
  | case2 rest none =>
    exact written_of_commandPiece fun rest' same => by cases same; exact none
  | case3 rest single =>
    exact written_of_commandPiece fun rest' same => (single rest' same).elim
  | case4 rest k span =>
    rintro ⟨⟩
    obtain ⟨inside, after, rfl, closed, rfl⟩ := (delimits_spanTo '}' _ _).mp span
    refine ⟨'$' :: '{' :: (inside ++ ['}']), after, by simp, by simp, ?_⟩
    rw [Nat.add_sub_cancel, List.take_left]
    exact .braced closed
  | case6 c rest _ _ _ start =>
    -- A name is taken as far as it goes.
    have length : identifierLength (c :: rest) = (rest.takeWhile isIdentifierPart).length + 1 := by
      rw [identifierLength, if_pos start, Nat.add_comm]
    rintro ⟨⟩
    refine ⟨'$' :: c :: rest.takeWhile isIdentifierPart, rest.dropWhile isIdentifierPart, ?_, ?_, ?_⟩
    · rw [List.cons_append, List.cons_append, List.takeWhile_append_dropWhile]
    · rw [length, List.length_cons, List.length_cons]
    · rw [length, List.take_succ_cons, ← List.prefix_iff_eq_take.mp (List.takeWhile_prefix _)]
      exact .name start fun d mem => Grammar.mem_takeWhile mem
  | case7 c rest _ _ _ _ special =>
    rintro ⟨⟩
    exact ⟨['$', c], rest, rfl, rfl, .sign special⟩
  | _ => rintro ⟨⟩

/-- What starts with an expansion starts with its written form. -/
theorem written_of_piece {quoted : Bool} {cs : List Char} {h : Head} {n : Nat}
    (found : piece quoted cs = .expansion h n) :
    ∃ text rest, cs = text ++ rest ∧ text.length = n ∧ Written text h := by
  revert found
  -- Only a backquote and a dollar sign start an expansion.
  fun_cases piece quoted cs with
  | case6 =>
    rename_i k span _ _ _
    rintro ⟨⟩
    obtain ⟨inside, after, rfl, escaped, rfl⟩ :=
      (delimits_escapedSpanTo .escapable (by decide) _ _).mp span
    refine ⟨'`' :: (inside ++ ['`']), after, by simp, by simp, ?_⟩
    rw [Nat.add_sub_cancel, List.take_left]
    exact .backquoted escaped
  | case8 cs => exact written_of_dollarPiece
  | _ => rintro ⟨⟩

/-! ### What is written is found -/

theorem isIdentifierStart_of_special {c : Char}
    (special : (c.isDigit || isSpecialParameter c) = true) : isIdentifierStart c = false := by
  simp only [isSpecialParameter, Bool.or_eq_true, beq_iff_eq] at special
  rcases special with digit | ((((((rfl | rfl) | rfl) | rfl) | rfl) | rfl) | rfl)
  · refine Bool.eq_false_iff.mpr fun start => ?_
    have named := Grammar.isFunctionNamePart_of_start start
    exact Bool.false_ne_true
      (((Grammar.name_check named).2 start).2.symm.trans (Grammar.isDigit_of_isDigit digit))
  all_goals decide

/-- An expansion as it is written is found before any text that a name does not go on
    with. -/
theorem piece_of_written {text : List Char} {h : Head} (written : Written text h) (quoted : Bool)
    {rest : List Char} (ends : rest.head?.all (!isIdentifierPart ·) = true) :
    piece quoted (text ++ rest) = .expansion h text.length := by
  cases written with
  | @arithmetic inside grouped =>
    have span := delimits_arithmeticInside?.eq_some ⟨inside, rfl, grouped, rfl⟩ rest
    rw [List.append_assoc, List.singleton_append] at span
    simp only [List.cons_append, List.append_assoc, List.nil_append, piece_dollar, dollarPiece, span]
    simp
  | @command inside grouped other =>
    have span := delimits_commandInside?.eq_some ⟨grouped, rfl⟩ rest
    have command : dollarPiece ('(' :: (inside ++ ')' :: rest)) =
        dollarPiece.commandPiece (inside ++ ')' :: rest) := by
      -- After a second parenthesis an arithmetic expansion is looked for first.
      by_cases double : inside.head? = some '('
      · obtain ⟨cs, rfl⟩ := List.head?_eq_some_iff.mp double
        simp only [List.cons_append, dollarPiece, arithmeticInside?_of_command grouped other]
      · refine dollarPiece_command fun opens => double ?_
        cases inside with
        | nil => cases opens
        | cons c cs => exact opens
    simp only [List.cons_append, List.append_assoc, List.nil_append, piece_dollar, command,
      dollarPiece.commandPiece, span]
    simp
  | @backquoted inside escaped =>
    have span := (delimits_escapedSpanTo .escapable (by decide)).eq_some ⟨escaped, rfl⟩ rest
    simp only [List.cons_append, List.append_assoc, List.nil_append, piece_backquote, span]
    simp
  | @braced inside closed =>
    have span := (delimits_spanTo '}').eq_some ⟨closed, rfl⟩ rest
    simp only [List.cons_append, List.append_assoc, List.nil_append, piece_dollar, dollarPiece, span]
    simp
  | @name c cs start parts =>
    have length : identifierLength (c :: (cs ++ rest)) = cs.length + 1 := by
      rw [identifierLength, if_pos start, List.takeWhile_append_of_pos parts,
        Grammar.takeWhile_of_head ends, List.append_nil, Nat.add_comm]
    have opens : c ≠ '(' := by
      rintro rfl
      exact absurd start (by decide)
    have brace : c ≠ '{' := by
      rintro rfl
      exact absurd start (by decide)
    rw [List.cons_append, List.cons_append, piece_dollar, dollarPiece_parameter opens brace,
      if_pos start, length, dollarPiece.plain]
    simp
  | @sign c special =>
    have unnamed := isIdentifierStart_of_special special
    have opens : c ≠ '(' := by
      rintro rfl
      exact absurd special (by decide)
    have brace : c ≠ '{' := by
      rintro rfl
      exact absurd special (by decide)
    rw [List.cons_append, List.cons_append, piece_dollar, dollarPiece_parameter opens brace,
      unnamed, if_neg Bool.false_ne_true, if_pos special]
    rfl

/-! ### Sources -/

theorem ok_eq_of_toList {s t : String} (same : s.toList = t.toList) :
    (Except.ok s : Except Error String) = .ok t :=
  congrArg Except.ok (String.toList_injective same)

/-- What no operator does is tell the length of a parameter. -/
theorem operator?_eq_some {cs : List Char} {op kind : String} (found : operator? cs = some (op, kind)) :
    op.toList ++ cs.drop op.length = cs ∧ kind ≠ "string-length" := by
  have starts := List.find?_some found
  have other : ∀ o ∈ operators, o.2 ≠ "string-length" := by decide
  refine ⟨?_, other _ (List.mem_of_find?_eq_some found)⟩
  obtain ⟨rest, rfl⟩ := List.isPrefixOf_iff_prefix.mp starts
  rw [← String.length_toList, List.drop_left]

theorem getD_wordOf (cs : List Char) :
    (bracedParameter.wordOf cs).getD "" = String.ofList cs := by
  cases cs <;> rfl

/-- The parts of a parameter between braces make up what stands between them. -/
theorem source_parameterAndOperator (inside : List Char) (parent : Option Kind) (l : Option Extent) :
    (Node.mk (bracedParameter.parameterAndOperator inside) l []).source parent =
      .ok ("$\x7b" ++ String.ofList inside ++ "\x7d") := by
  unfold bracedParameter.parameterAndOperator
  dsimp only
  split
  · show Except.ok ("$\x7b" ++ String.ofList inside ++ "" ++ "" ++ "\x7d") = _
    simp
  · generalize parameterLength inside = n
    split
    · show Except.ok ("$\x7b" ++ String.ofList (inside.take n) ++ "" ++
        (bracedParameter.wordOf (inside.drop n)).getD "" ++ "\x7d") = _
      rw [getD_wordOf]
      exact ok_eq_of_toList (by simp)
    · rename_i op kind found
      obtain ⟨whole, other⟩ := operator?_eq_some found
      show Except.ok (parameter _ (some kind) (bracedParameter.wordOf _) (some op) true) = _
      rw [parameter, if_neg (by simpa using other), getD_wordOf]
      -- The name, the operator and the word make up the inside.
      have parts : inside.take n ++ (op.toList ++ (inside.drop n).drop op.length) = inside := by
        rw [whole, List.take_append_drop]
      exact ok_eq_of_toList (by simpa using congrArg (· ++ ['}']) parts)

theorem source_bracedParameter (inside : List Char) (parent : Option Kind) (l : Option Extent) :
    (Node.mk (bracedParameter inside) l []).source parent =
      .ok ("$\x7b" ++ String.ofList inside ++ "\x7d") := by
  unfold bracedParameter
  split
  · rename_i rest
    split
    · exact source_parameterAndOperator _ parent l
    · show Except.ok ("$\x7b#" ++ String.ofList rest ++ "\x7d") = _
      exact ok_eq_of_toList (by simp)
  · exact source_parameterAndOperator _ parent l

/-- The source of an expansion is the text it is written as. -/
theorem source_of_written {text : List Char} {h : Head} (written : Written text h)
    (parent : Option Kind) (l : Option Extent) :
    (Node.mk h l []).source parent = .ok (String.ofList text) := by
  -- Each form is printed with the brackets that it is written with.
  cases written with
  | @arithmetic inside =>
    show Except.ok ("$((" ++ String.ofList inside ++ "))") = _
    exact ok_eq_of_toList (by simp)
  | @command inside =>
    show Except.ok ("$(" ++ String.ofList inside ++ ")") = _
    exact ok_eq_of_toList (by simp)
  | @backquoted inside =>
    show Except.ok ("`" ++ String.ofList inside ++ "`") = _
    exact ok_eq_of_toList (by simp)
  | @braced inside =>
    rw [source_bracedParameter]
    exact ok_eq_of_toList (by simp)
  | @name c cs =>
    show Except.ok ("$" ++ String.ofList (c :: cs)) = _
    exact ok_eq_of_toList (by simp)
  | @sign c =>
    show Except.ok ("$" ++ String.ofList [c]) = _
    exact ok_eq_of_toList (by simp)

/-! ### Expansions in a text -/

/-- The node is an expansion that is written in the text, at its place in the word.  The
    text stands at an offset of the word, and its first characters belong to another
    piece. -/
def IsWrittenIn (offset skip : Nat) (cs : List Char) (e : Node) : Prop :=
  ∃ before text after h, cs = before ++ text ++ after ∧ skip ≤ before.length ∧ Written text h ∧
    e = expansionNode h (offset + before.length) (offset + before.length + text.length)

theorem IsWrittenIn.cons {offset skip : Nat} {cs : List Char} {e : Node}
    (here : IsWrittenIn (offset + 1) skip cs e) (c : Char) :
    IsWrittenIn offset (skip + 1) (c :: cs) e := by
  obtain ⟨before, text, after, h, rfl, bound, written, rfl⟩ := here
  refine ⟨c :: before, text, after, h, rfl, Nat.succ_le_succ bound, written, ?_⟩
  rw [List.length_cons, Nat.add_assoc offset 1, Nat.add_comm 1]

theorem IsWrittenIn.mono {offset skip : Nat} {cs : List Char} {e : Node}
    (here : IsWrittenIn offset skip cs e) : IsWrittenIn offset 0 cs e := by
  obtain ⟨before, text, after, h, split, -, written, place⟩ := here
  exact ⟨before, text, after, h, split, Nat.zero_le _, written, place⟩

/-- The first expansion ends before the second one starts. -/
def Precedes (a b : Node) : Prop :=
  ∃ start stop start' stop' : Nat, a.loc = some (.offsets start stop) ∧
    b.loc = some (.offsets start' stop') ∧ stop ≤ start'

theorem isWrittenIn_of_mem {quoted : Bool} {offset skip : Nat} {cs : List Char} {e : Node}
    (mem : e ∈ expansionsFrom quoted offset skip cs) : IsWrittenIn offset skip cs e := by
  fun_induction expansionsFrom quoted offset skip cs with
  | case1 => cases mem
  | case2 _ _ _ c _ ih => exact (ih mem).cons c
  | case3 _ _ c _ _ _ ih => exact ((ih mem).cons c).mono
  | case4 _ _ c _ _ ih => exact ((ih mem).cons c).mono
  | case5 quoted offset c cs h n found ih =>
    rcases List.mem_cons.mp mem with rfl | mem
    · obtain ⟨text, after, split, rfl, written⟩ := written_of_piece found
      exact ⟨[], text, after, h, split, Nat.le_refl _, written, rfl⟩
    · exact ((ih mem).cons c).mono

/-- What is found next starts where the expansion before has ended. -/
theorem pairwise_expansionsFrom (quoted : Bool) (offset skip : Nat) (cs : List Char) :
    (expansionsFrom quoted offset skip cs).Pairwise Precedes := by
  fun_induction expansionsFrom quoted offset skip cs with
  | case1 => exact .nil
  | case2 _ _ _ _ _ ih => exact ih
  | case3 _ _ _ _ _ _ ih => exact ih
  | case4 _ _ _ _ _ ih => exact ih
  | case5 quoted offset c cs h n found ih =>
    refine List.pairwise_cons.mpr ⟨fun e mem => ?_, ih⟩
    -- What is found later stands behind the characters that are skipped.
    obtain ⟨before, text, after, h', -, bound, -, rfl⟩ := isWrittenIn_of_mem mem
    exact ⟨_, _, _, _, rfl, rfl, by omega⟩

/-- An expansion as it is written is the first one of its text, and those after it are
    the ones of the rest. -/
theorem expansions_of_written {text : List Char} {h : Head} (written : Written text h)
    {rest : List Char} (ends : rest.head?.all (!isIdentifierPart ·) = true) :
    expansions (text ++ rest) =
      expansionNode h 0 text.length :: (expansions rest).map (later text.length) := by
  have found := piece_of_written written false ends
  have positive := (fits_piece found).positive
  cases text with
  | nil => cases positive
  | cons c cs =>
    rw [List.cons_append] at found ⊢
    rw [expansions]
    simp only [expansionsFrom, found]
    -- The scan passes the inside and goes on behind it.
    rw [List.length_cons, Nat.add_sub_cancel, expansionsFrom_skip, List.drop_left,
      ← expansionsFrom_eq_map]
    congr 2 <;> omega

/-- Expansions are found where they are written and printed as they are written.  Each
    expansion of a text stands in it at its place, is not empty and has the text there as
    its source, and none overlaps another one.  Conversely every text of one of the forms
    of an expansion is found as this expansion before any text that does not go on with a
    name, and what follows is looked through by itself. -/
theorem expansions_faithful :
    (∀ cs : List Char,
      (∀ e ∈ expansions cs, ∃ start stop : Nat, e.loc = some (.offsets start stop) ∧
        start < stop ∧ stop ≤ cs.length ∧ Written (cs.extract start stop) e.head ∧
        ∀ parent, e.source parent = .ok (String.ofList (cs.extract start stop))) ∧
      (expansions cs).Pairwise Precedes) ∧
    ∀ (text : List Char) (h : Head) (rest : List Char), Written text h →
      rest.head?.all (!isIdentifierPart ·) = true →
      expansions (text ++ rest) =
        expansionNode h 0 text.length :: (expansions rest).map (later text.length) := by
  refine ⟨fun cs => ⟨fun e mem => ?_, pairwise_expansionsFrom false 0 0 cs⟩,
    fun text h rest written ends => expansions_of_written written ends⟩
  -- An expansion that is found is written somewhere, and its place says where.
  obtain ⟨before, text, after, h, rfl, -, written, rfl⟩ := isWrittenIn_of_mem mem
  have positive : 0 < text.length := by cases written <;> simp
  have slice : (before ++ text ++ after).extract (0 + before.length)
      (0 + before.length + text.length) = text := by
    simp [List.extract_eq_take_drop]
  refine ⟨_, _, rfl, Nat.lt_add_of_pos_right positive, by simp, ?_, fun parent => ?_⟩
  · rw [slice]
    exact written
  · rw [slice]
    exact source_of_written written parent _

/-- A parameter with an operator between double quotes, and a command substitution between
    backquotes, one of which is escaped, before a parameter. -/
theorem expansions_faithful_operator :
    let word := ['"', '$', '{', '#', ':', '-', '#', '}', '"', 'a']
    let e := expansionNode
      (.parameterExpansion "#" (some "default-value") (some "#") (some ":-") true) 1 8
    let text := ['`', '\\', '`', '\n', '`']
    (∃ start stop : Nat, e.loc = some (.offsets start stop) ∧ start < stop ∧ stop ≤ word.length ∧
      Written (word.extract start stop) e.head ∧
      ∀ parent, e.source parent = .ok (String.ofList (word.extract start stop))) ∧
    (expansions word).Pairwise Precedes ∧
    expansions (text ++ ['$', '1', '2']) =
      [expansionNode (.commandExpansion "\\`\n" true false) 0 5,
        expansionNode (.parameterExpansion "1" none none none false) 5 7] := by
  intro word e text
  obtain ⟨found, streaming⟩ := expansions_faithful
  have written : Written text (.commandExpansion "\\`\n" true false) :=
    .backquoted (.pair rfl (.plain (by decide) (by decide) .nil))
  have mem : e ∈ expansions word := List.mem_singleton_self _
  exact ⟨(found word).1 e mem, (found word).2, (streaming text _ _ written (by decide)).trans rfl⟩

end ShellInliner.Word
