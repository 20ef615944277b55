import ShellInliner.Proofs.Word.Expansions
import ShellInliner.Proofs.Word.Spans

/-! # Text without expansions

    Plain characters, escaped characters and quoted spans hold no expansions, and
    after them a text is looked through as if it had just begun: the expansions are
    the same, only later in the word.  Double quotes hide nothing of what stands
    between them. -/

namespace ShellInliner.Word

/-! ### Places -/

/-- The same expansion, later in its word. -/
def later (k : Nat) (e : Node) : Node :=
  e.withLoc <| e.loc.map fun
    | .offsets start stop => .offsets (start + k) (stop + k)
    | place => place

theorem later_expansionNode (k : Nat) (h : Head) (start stop : Nat) :
    later k (expansionNode h start stop) = expansionNode h (start + k) (stop + k) := by
  simp [later, expansionNode, Node.withLoc, Node.head, Node.loc, Node.children]

/-- The place of a text in its word is that of its expansions, and nothing else. -/
theorem expansionsFrom_add (quoted : Bool) (offset k skip : Nat) (cs : List Char) :
    expansionsFrom quoted (offset + k) skip cs =
      (expansionsFrom quoted offset skip cs).map (later k) := by
  fun_induction expansionsFrom quoted offset skip cs with
  | case1 => rw [expansionsFrom, List.map_nil]
  | case2 quoted offset skip c cs ih => rw [expansionsFrom, Nat.add_right_comm, ih]
  | case3 quoted offset c cs n literal ih =>
    simp only [expansionsFrom, literal]
    rw [Nat.add_right_comm, ih]
  | case4 quoted offset c cs quote ih =>
    simp only [expansionsFrom, quote]
    rw [Nat.add_right_comm, ih]
  -- Only here a place is written down.
  | case5 quoted offset c cs h n found ih =>
    simp only [expansionsFrom, found, List.map_cons, later_expansionNode]
    rw [Nat.add_right_comm offset k 1, ih, Nat.add_right_comm offset k n]

theorem expansionsFrom_eq_map (offset : Nat) (cs : List Char) :
    expansionsFrom false offset 0 cs = (expansions cs).map (later offset) := by
  rw [expansions, ← expansionsFrom_add, Nat.zero_add]

/-- What belongs to the piece before is passed over. -/
theorem expansionsFrom_skip (quoted : Bool) (offset skip : Nat) (cs : List Char) :
    expansionsFrom quoted offset skip cs =
      expansionsFrom quoted (offset + skip) 0 (cs.drop skip) := by
  induction skip generalizing offset cs with
  | zero => rfl
  | succ skip ih =>
    cases cs with
    | nil => simp [expansionsFrom]
    | cons c cs =>
      rw [expansionsFrom, ih, List.drop_succ_cons, Nat.add_right_comm, Nat.add_assoc]

/-- A literal piece is passed over. -/
theorem expansionsFrom_of_literal {quoted : Bool} {text rest : List Char} (ne : text ≠ [])
    (literal : piece quoted (text ++ rest) = .literal text.length) (offset : Nat) :
    expansionsFrom quoted offset 0 (text ++ rest) =
      expansionsFrom quoted (offset + text.length) 0 rest := by
  cases text with
  | nil => exact absurd rfl ne
  | cons c cs =>
    rw [List.cons_append] at literal ⊢
    simp only [expansionsFrom, literal]
    rw [expansionsFrom_skip, List.length_cons, Nat.add_sub_cancel, List.drop_left,
      Nat.add_right_comm, Nat.add_assoc]

theorem expansionsFrom_doubleQuote (quoted : Bool) (offset : Nat) (cs : List Char) :
    expansionsFrom quoted offset 0 ('"' :: cs) = expansionsFrom (!quoted) (offset + 1) 0 cs := by
  simp [expansionsFrom, piece]

/-! ### Single pieces -/

/-- What a backquote starts. -/
theorem piece_backquote (quoted : Bool) (cs : List Char) :
    piece quoted ('`' :: cs) =
      match escapedSpanTo .escapable '`' cs with
      | some n => .expansion (.commandExpansion (String.ofList (cs.take (n - 1))) true false) (n + 1)
      | none => .literal 1 :=
  rfl

theorem piece_dollar (quoted : Bool) (cs : List Char) : piece quoted ('$' :: cs) = dollarPiece cs :=
  rfl

theorem piece_plain {c : Char} (bare : c ≠ '\\' ∧ c ≠ '\'' ∧ c ≠ '"' ∧ c ≠ '$' ∧ c ≠ '`')
    (quoted : Bool) (cs : List Char) : piece quoted (c :: cs) = .literal 1 := by
  simp [piece, bare]

/-! ### Literal pieces -/

/-- A part of what stands between double quotes, where it is literal. -/
inductive QuotedPart
  /-- A character that has no meaning between double quotes. -/
  | plain (c : Char) (bare : c ≠ '\\' ∧ c ≠ '"' ∧ c ≠ '$' ∧ c ≠ '`')
  /-- A character after a backslash. -/
  | escaped (c : Char)

/-- The part as it is written. -/
def QuotedPart.text : QuotedPart → List Char
  | plain c _ => [c]
  | escaped c => ['\\', c]

/-- A complete piece of text without expansions. -/
inductive LiteralPiece
  /-- A character that has no meaning of its own. -/
  | plain (c : Char) (bare : c ≠ '\\' ∧ c ≠ '\'' ∧ c ≠ '"' ∧ c ≠ '$' ∧ c ≠ '`')
  /-- A character after a backslash. -/
  | escaped (c : Char)
  /-- A text between single quotes. -/
  | single (inside : List Char) (closed : '\'' ∉ inside)
  /-- Literal parts between double quotes. -/
  | double (inside : List QuotedPart)

/-- The piece as it is written. -/
def LiteralPiece.text : LiteralPiece → List Char
  | plain c _ => [c]
  | escaped c => ['\\', c]
  | single inside _ => '\'' :: (inside ++ ['\''])
  | double inside => '"' :: (inside.flatMap QuotedPart.text ++ ['"'])

/-- A single quote between double quotes is a character like others, even where
    another one follows somewhere. -/
theorem expansionsFrom_quotedPart (p : QuotedPart) (offset : Nat) (rest : List Char) :
    expansionsFrom true offset 0 (p.text ++ rest) =
      expansionsFrom true (offset + p.text.length) 0 rest := by
  cases p with
  | plain c bare =>
    refine expansionsFrom_of_literal (List.cons_ne_nil _ _) ?_ offset
    simp only [List.cons_append, List.nil_append, piece, bare, if_false]
    split <;> rfl
  | escaped c =>
    refine expansionsFrom_of_literal (List.cons_ne_nil _ _) ?_ offset
    simp [piece]

theorem expansionsFrom_quotedParts (ps : List QuotedPart) (offset : Nat) (rest : List Char) :
    expansionsFrom true offset 0 (ps.flatMap QuotedPart.text ++ rest) =
      expansionsFrom true (offset + (ps.flatMap QuotedPart.text).length) 0 rest := by
  induction ps generalizing offset with
  | nil => rfl
  | cons p ps ih =>
    rw [List.flatMap_cons, List.append_assoc, expansionsFrom_quotedPart, ih, List.length_append,
      Nat.add_assoc]

theorem expansionsFrom_literalPiece (p : LiteralPiece) (offset : Nat) (rest : List Char) :
    expansionsFrom false offset 0 (p.text ++ rest) =
      expansionsFrom false (offset + p.text.length) 0 rest := by
  cases p with
  | plain c bare =>
    exact expansionsFrom_of_literal (List.cons_ne_nil _ _) (piece_plain bare false rest) offset
  | escaped c =>
    refine expansionsFrom_of_literal (List.cons_ne_nil _ _) ?_ offset
    simp [piece]
  | single inside closed =>
    refine expansionsFrom_of_literal (List.cons_ne_nil _ _) ?_ offset
    have span := (delimits_spanTo '\'').eq_some ⟨closed, rfl⟩ rest
    simp [piece, span]
  | double inside =>
    simp only [LiteralPiece.text, List.cons_append, List.append_assoc, List.nil_append]
    -- The quotes turn the state over and back again.
    rw [expansionsFrom_doubleQuote, Bool.not_false, expansionsFrom_quotedParts,
      expansionsFrom_doubleQuote, Bool.not_true]
    congr 1
    simp only [List.length_cons, List.length_append, List.length_nil]
    omega

theorem expansionsFrom_literalPieces (ps : List LiteralPiece) (offset : Nat) (rest : List Char) :
    expansionsFrom false offset 0 (ps.flatMap LiteralPiece.text ++ rest) =
      expansionsFrom false (offset + (ps.flatMap LiteralPiece.text).length) 0 rest := by
  induction ps generalizing offset with
  | nil => rfl
  | cons p ps ih =>
    rw [List.flatMap_cons, List.append_assoc, expansionsFrom_literalPiece, ih, List.length_append,
      Nat.add_assoc]

/-! ### Between double quotes -/

/-- A run of characters ends where a text ends that others do not go on with. -/
theorem takeWhile_append_of_head {p : Char → Bool} {ds : List Char}
    (ends : ds.head?.all (!p ·) = true) (cs : List Char) :
    (cs ++ ds).takeWhile p = cs.takeWhile p := by
  rw [List.takeWhile_append, Grammar.takeWhile_of_head ends, List.append_nil]
  split
  · rename_i whole
    exact ((List.takeWhile_prefix p).eq_of_length whole).symm
  · rfl

/-- After one parenthesis that opens there is a command. -/
theorem dollarPiece_command {cs : List Char} (single : cs.head? ≠ some '(') :
    dollarPiece ('(' :: cs) = dollarPiece.commandPiece cs := by
  cases cs with
  | nil => rfl
  | cons c cs => exact dollarPiece.eq_2 (c :: cs) fun rest same => single (by rw [same]; rfl)

theorem commandPiece_doubleQuote (cs : List Char) :
    dollarPiece.commandPiece (cs ++ ['"']) = dollarPiece.commandPiece cs := by
  unfold dollarPiece.commandPiece
  rw [delimits_commandInside?.append_of_absent (by decide)]
  cases inside : commandInside? cs with
  | none => rfl
  | some n =>
    have bound := (commandInside?_append inside []).2
    simp only [List.take_append_of_le_length (Nat.le_of_lt bound)]

theorem identifierLength_doubleQuote (cs : List Char) :
    identifierLength (cs ++ ['"']) = identifierLength cs := by
  cases cs with
  | nil => decide
  | cons c cs =>
    have ends : ['"'].head?.all (!isIdentifierPart ·) = true := by decide
    rw [List.cons_append, identifierLength, identifierLength, takeWhile_append_of_head ends]

/-- Without parentheses and braces there can only be the name of a parameter. -/
theorem dollarPiece_parameter {c : Char} (opens : c ≠ '(') (brace : c ≠ '{') (cs : List Char) :
    dollarPiece (c :: cs) =
      if isIdentifierStart c then dollarPiece.plain (identifierLength (c :: cs)) (c :: cs)
      else if c.isDigit || isSpecialParameter c then dollarPiece.plain 1 (c :: cs)
      else .literal 1 :=
  dollarPiece.eq_4 c cs (fun _ same _ => opens same) opens brace

theorem plain_append {n : Nat} {cs : List Char} (bound : n ≤ cs.length) (ds : List Char) :
    dollarPiece.plain n (cs ++ ds) = dollarPiece.plain n cs := by
  unfold dollarPiece.plain
  rw [List.take_append_of_le_length bound]

/-- No expansion goes on with a double quote. -/
theorem dollarPiece_doubleQuote (cs : List Char) : dollarPiece (cs ++ ['"']) = dollarPiece cs := by
  -- A double quote closes no bracket and goes on with no name.
  fun_cases dollarPiece cs with
  | case1 rest n inside =>
    have bound := (arithmeticInside?_append inside []).2
    simp only [List.cons_append, dollarPiece,
      delimits_arithmeticInside?.append_of_absent (show ')' ∉ ['"'] by decide), inside,
      List.take_append_of_le_length (show n ≤ rest.length by omega)]
  | case2 rest none =>
    simp only [List.cons_append, dollarPiece,
      delimits_arithmeticInside?.append_of_absent (show ')' ∉ ['"'] by decide), none]
    exact commandPiece_doubleQuote ('(' :: rest)
  | case3 rest single =>
    rw [List.cons_append, dollarPiece_command, commandPiece_doubleQuote]
    cases rest with
    | nil => decide
    | cons c rest => exact fun same => single rest (by rw [Option.some.inj same])
  | case4 rest n inside =>
    have bound := (spanTo_append inside []).2
    simp only [List.cons_append, dollarPiece,
      (delimits_spanTo '}').append_of_absent (show '}' ∉ ['"'] by decide), inside,
      List.take_append_of_le_length (show n - 1 ≤ rest.length by omega)]
  | case5 rest none =>
    simp only [List.cons_append, dollarPiece,
      (delimits_spanTo '}').append_of_absent (show '}' ∉ ['"'] by decide), none]
  | case6 c rest _ opens brace start =>
    rw [List.cons_append, dollarPiece_parameter opens brace, if_pos start, ← List.cons_append,
      identifierLength_doubleQuote, plain_append (identifierLength_le _)]
  | case7 c rest _ opens brace start special =>
    rw [List.cons_append, dollarPiece_parameter opens brace, if_neg start, if_pos special,
      ← List.cons_append, plain_append (Nat.succ_le_succ (Nat.zero_le _))]
  | case8 c rest _ opens brace start special =>
    rw [List.cons_append, dollarPiece_parameter opens brace, if_neg start, if_neg special]
  | case9 => decide

/-- Within quotes as without a text starts with the same piece; only a backslash at its
    end takes the quote with it. -/
theorem piece_doubleQuote {c : Char} {cs : List Char} (single : c ≠ '\'') (double : c ≠ '"')
    (escaped : c = '\\' → cs ≠ []) : piece true (c :: (cs ++ ['"'])) = piece false (c :: cs) := by
  by_cases backslash : c = '\\'
  · cases cs with
    | nil => exact absurd rfl (escaped backslash)
    | cons d cs =>
      subst backslash
      rfl
  by_cases backquote : c = '`'
  · subst backquote
    rw [piece_backquote, piece_backquote,
      (delimits_escapedSpanTo .escapable (by decide)).append_of_absent (by decide)]
    cases span : escapedSpanTo .escapable '`' cs with
    | none => rfl
    | some n =>
      have bound := (escapedSpanTo_append span []).2
      simp only [List.take_append_of_le_length (show n - 1 ≤ cs.length by omega)]
  by_cases dollar : c = '$'
  · subst dollar
    rw [piece_dollar, piece_dollar, dollarPiece_doubleQuote]
  · -- Any other character is a piece of its own.
    have bare := And.intro backslash (And.intro single (And.intro double (And.intro dollar backquote)))
    rw [piece_plain bare, piece_plain bare]

theorem dollarPiece_ne_doubleQuote (cs : List Char) : dollarPiece cs ≠ .doubleQuote := by
  have command (ds : List Char) : dollarPiece.commandPiece ds ≠ .doubleQuote := by
    unfold dollarPiece.commandPiece
    split <;> rintro ⟨⟩
  fun_cases dollarPiece cs with
  | case2 => exact command _
  | case3 => exact command _
  | _ => rintro ⟨⟩

/-- Only a double quote starts or ends a quoted span. -/
theorem eq_of_piece_doubleQuote {quoted : Bool} {c : Char} {cs : List Char}
    (quote : piece quoted (c :: cs) = .doubleQuote) : c = '"' := by
  revert quote
  generalize word : c :: cs = text
  fun_cases piece quoted text with
  | case3 => exact fun _ => (List.cons.inj word).1
  | case8 => exact fun same => absurd same (dollarPiece_ne_doubleQuote _)
  | _ => rintro ⟨⟩

theorem expansionsFrom_lone_doubleQuote (quoted : Bool) (offset skip : Nat) :
    expansionsFrom quoted offset skip ['"'] = [] := by
  cases skip with
  | zero => rfl
  | succ skip => cases skip <;> rfl

/-- A text without quotes has the same expansions between double quotes. -/
theorem expansionsFrom_quoted {cs : List Char} (single : '\'' ∉ cs) (double : '"' ∉ cs)
    (offset skip : Nat) :
    expansionsFrom true offset skip (cs ++ ['"']) = expansionsFrom false offset skip cs := by
  induction cs generalizing offset skip with
  | nil =>
    rw [List.nil_append, expansionsFrom_lone_doubleQuote]
    cases skip <;> rfl
  | cons c cs ih =>
    have ih := ih (fun mem => single (List.mem_cons_of_mem _ mem))
      (fun mem => double (List.mem_cons_of_mem _ mem))
    rw [List.cons_append]
    cases skip with
    | succ skip =>
      rw [expansionsFrom, expansionsFrom]
      exact ih _ _
    | zero =>
      -- A backslash at the end takes the double quote with it: neither text has more.
      by_cases last : c = '\\' ∧ cs = []
      · obtain ⟨rfl, rfl⟩ := last
        rfl
      · have same : piece true (c :: (cs ++ ['"'])) = piece false (c :: cs) :=
          piece_doubleQuote (fun here => single (here ▸ List.mem_cons_self ..))
            (fun here => double (here ▸ List.mem_cons_self ..)) (fun backslash nil => last ⟨backslash, nil⟩)
        unfold expansionsFrom
        rw [same]
        -- The same piece is taken from both texts, and it is no double quote.
        split
        · exact ih _ _
        · rename_i quote
          exact absurd (eq_of_piece_doubleQuote quote ▸ List.mem_cons_self ..) double
        · rw [ih]

/-! ### The law of quoting -/

/-- Literal pieces before a text only move its expansions: no escaped or quoted character
    starts or hides one, and after each piece the text is looked through afresh.  And a text
    without quotes has the same expansions between double quotes as it has without them. -/
theorem expansions_quoting :
    (∀ (ps : List LiteralPiece) (u : List Char),
      expansions (ps.flatMap LiteralPiece.text ++ u) =
        (expansions u).map (later (ps.flatMap LiteralPiece.text).length)) ∧
    ∀ t : List Char, '\'' ∉ t → '"' ∉ t →
      expansions ('"' :: (t ++ ['"'])) = (expansions t).map (later 1) := by
  refine ⟨fun ps u => ?_, fun t single double => ?_⟩
  · rw [expansions, expansionsFrom_literalPieces, expansionsFrom_eq_map, Nat.zero_add]
  · rw [expansions, expansionsFrom_doubleQuote, Bool.not_false, expansionsFrom_quoted single double,
      expansionsFrom_eq_map]

/-- A single quote between double quotes does not pair with one that comes later, and a
    text may end in a backslash, which then takes the double quote after it. -/
theorem expansions_quoting_later :
    let ps : List LiteralPiece := [.plain '\n' (by decide), .escaped '$', .single ['$', 'x'] (by decide),
      .double [.plain '\'' (by decide), .escaped '"', .plain '\n' (by decide)]]
    expansions (ps.flatMap LiteralPiece.text ++ ['$', 'b', '\'', '$', 'c']) =
        [expansionNode (.parameterExpansion "b" none none none false) 13 15,
          expansionNode (.parameterExpansion "c" none none none false) 16 18] ∧
      expansions ('"' :: (['`', '`', '$', '1', '\\'] ++ ['"'])) =
        [expansionNode (.commandExpansion "" true false) 1 3,
          expansionNode (.parameterExpansion "1" none none none false) 3 5] := by
  intro ps
  obtain ⟨pieces, quoted⟩ := expansions_quoting
  exact ⟨(pieces ps _).trans rfl, (quoted _ (by decide) (by decide)).trans rfl⟩

end ShellInliner.Word
