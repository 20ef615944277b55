import ShellInliner.Proofs.Word.Spans
import ShellInliner.Word.Quote

/-! # Removing quotes that have been put

    A text can be written in pieces, each bare, between quotes of one kind or the other,
    or behind a backslash.  Removing the quotes gives back the text, wherever the pieces
    begin and end. -/

namespace ShellInliner.Word

/-! ### Pieces -/

/-- Is the character one that a backslash has to protect between double quotes? -/
def needsBackslash (c : Char) : Bool :=
  c == '$' || c == '`' || c == '"' || c == '\\'

/-- A character as it is written between double quotes. -/
def protect (c : Char) : List Char :=
  if needsBackslash c then ['\\', c] else [c]

/-- A piece of a text, with the way in which it is quoted. -/
inductive QuotedPiece
  /-- No quotes at all. -/
  | plain (text : List Char) (bare : ∀ c ∈ text, c ≠ '\\' ∧ c ≠ '\'' ∧ c ≠ '"')
  /-- Single quotes around it. -/
  | single (text : List Char) (closed : '\'' ∉ text)
  /-- Double quotes around it. -/
  | double (text : List Char)
  /-- A backslash before it. -/
  | escaped (c : Char)

namespace QuotedPiece

/-- The piece without quotes. -/
def text : QuotedPiece → List Char
  | plain text _ => text
  | single text _ => text
  | double text => text
  | escaped c => [c]

/-- The piece as it is written. -/
def written : QuotedPiece → List Char
  | plain text _ => text
  | single text _ => '\'' :: (text ++ ['\''])
  | double text => '"' :: (text.flatMap protect ++ ['"'])
  | escaped c => ['\\', c]

end QuotedPiece

/-- A character of a text between single quotes: a single quote has to be written outside
    of them. -/
def singleQuotedCharacter (c : Char) : List Char :=
  if c = '\'' then ['\'', '\\', '\'', '\''] else [c]

/-- A text between single quotes, whatever it holds. -/
def singleQuoted (cs : List Char) : List Char :=
  '\'' :: (cs.flatMap singleQuotedCharacter ++ ['\''])

/-! ### Between double quotes -/

theorem unescape_cons {c : Char} (bare : c ≠ '\\') (cs : List Char) :
    unescape (c :: cs) = c :: unescape cs := by
  cases cs with
  | nil => rfl
  | cons d cs => exact if_neg fun pair => bare pair.1

/-- Protected characters stand for themselves; a line feed after a backslash does so too,
    for the backslash is a pair of two. -/
theorem unescape_protect (cs : List Char) : unescape (cs.flatMap protect) = cs := by
  induction cs with
  | nil => rfl
  | cons c cs ih =>
    rw [List.flatMap_cons, protect]
    cases needs : needsBackslash c with
    | true =>
      -- Whatever needs a backslash is one of the characters that lose it again.
      have escapes : isEscapedInQuotes c = true := by
        simp only [needsBackslash, Bool.or_eq_true, beq_iff_eq] at needs
        simp only [isEscapedInQuotes, Bool.or_eq_true, beq_iff_eq]
        exact .inl needs
      rw [if_pos rfl, List.cons_append, List.cons_append, List.nil_append, unescape,
        if_pos ⟨rfl, escapes⟩, ih]
    | false =>
      have bare : c ≠ '\\' := by
        rintro rfl
        cases needs
      rw [if_neg Bool.false_ne_true, List.singleton_append, unescape_cons bare, ih]

/-- No protected character ends the quotes. -/
theorem escaped_protect (cs : List Char) : Escaped .escapable '"' (cs.flatMap protect) := by
  induction cs with
  | nil => exact .nil
  | cons c cs ih =>
    rw [List.flatMap_cons, protect]
    cases needs : needsBackslash c with
    | true => exact .pair rfl ih
    | false =>
      -- A quote or a backslash would have been protected.
      have inner : c ≠ '"' := by
        rintro rfl
        cases needs
      have bare : c ≠ '\\' := by
        rintro rfl
        cases needs
      exact .plain inner bare ih

/-! ### One piece after the other -/

theorem unquoteFrom_eq_drop (k : Nat) (cs : List Char) :
    unquoteFrom k cs = unquoteFrom 0 (cs.drop k) := by
  induction k generalizing cs with
  | zero => rfl
  | succ k ih =>
    cases cs with
    | nil => rfl
    | cons c cs => exact ih cs

/-- The quotes of a piece are removed, and the rest of the text is looked at by itself. -/
theorem unquote_of_piece {written rest text : List Char} (ne : written ≠ [])
    (piece : unquotePiece (written ++ rest) = (text, written.length)) :
    unquote (written ++ rest) = text ++ unquote rest := by
  cases written with
  | nil => exact absurd rfl ne
  | cons c cs =>
    rw [List.cons_append] at piece ⊢
    rw [unquote, unquoteFrom, piece]
    show text ++ unquoteFrom cs.length (cs ++ rest) = text ++ unquoteFrom 0 rest
    rw [unquoteFrom_eq_drop, List.drop_left]

theorem unquote_bare {c : Char} (bare : c ≠ '\\' ∧ c ≠ '\'' ∧ c ≠ '"') (rest : List Char) :
    unquote (c :: rest) = c :: unquote rest := by
  have piece : unquotePiece ([c] ++ rest) = ([c], [c].length) := by
    simp [unquotePiece, bare]
  exact unquote_of_piece (List.cons_ne_nil _ _) piece

theorem unquote_piece (p : QuotedPiece) (rest : List Char) :
    unquote (p.written ++ rest) = p.text ++ unquote rest := by
  cases p with
  | plain text bare =>
    show unquote (text ++ rest) = text ++ unquote rest
    -- A plain piece is taken one character at a time, the others at once.
    induction text with
    | nil => rfl
    | cons c text ih =>
      rw [List.cons_append, unquote_bare (bare c (List.mem_cons_self ..)),
        ih fun d mem => bare d (List.mem_cons_of_mem _ mem), List.cons_append]
  | single text closed =>
    refine unquote_of_piece (List.cons_ne_nil _ _) ?_
    have span := (delimits_spanTo '\'').eq_some ⟨closed, rfl⟩ rest
    simp [unquotePiece, span, QuotedPiece.written, QuotedPiece.text]
  | double text =>
    refine unquote_of_piece (List.cons_ne_nil _ _) ?_
    have span := (delimits_escapedSpanTo .escapable (by decide)).eq_some
      ⟨escaped_protect text, rfl⟩ rest
    simp [unquotePiece, span, unescape_protect, QuotedPiece.written, QuotedPiece.text]
  | escaped c =>
    refine unquote_of_piece (List.cons_ne_nil _ _) ?_
    simp [unquotePiece, QuotedPiece.written, QuotedPiece.text]

theorem unquote_pieces (ps : List QuotedPiece) :
    unquote (ps.flatMap QuotedPiece.written) = ps.flatMap QuotedPiece.text := by
  induction ps with
  | nil => rfl
  | cons p ps ih => rw [List.flatMap_cons, List.flatMap_cons, unquote_piece, ih]

/-- What stands between single quotes is made of pieces: up to the next single quote of the
    text between quotes, then that quote behind a backslash. -/
theorem exists_pieces_of_singleQuoted {first : List Char} (closed : '\'' ∉ first)
    (cs : List Char) : ∃ ps : List QuotedPiece,
      ps.flatMap QuotedPiece.written =
        '\'' :: (first ++ (cs.flatMap singleQuotedCharacter ++ ['\''])) ∧
      ps.flatMap QuotedPiece.text = first ++ cs := by
  -- `first` gathers the characters since the last single quote.
  induction cs generalizing first with
  | nil => exact ⟨[.single first closed], by simp [QuotedPiece.written], by simp [QuotedPiece.text]⟩
  | cons c cs ih =>
    by_cases quote : c = '\''
    · obtain ⟨ps, written, text⟩ := @ih [] List.not_mem_nil
      refine ⟨.single first closed :: .escaped c :: ps, ?_, ?_⟩
      · simp [QuotedPiece.written, written, singleQuotedCharacter, quote]
      · simp [QuotedPiece.text, text]
    · have closed' : '\'' ∉ first ++ [c] := by
        simp [closed, Ne.symm quote]
      obtain ⟨ps, written, text⟩ := ih closed'
      refine ⟨ps, ?_, ?_⟩
      · simp [written, singleQuotedCharacter, quote]
      · simp [text]

/-- Removing quotes undoes quoting, for all pieces in any order.  In particular it gives back
    every text that has been put between single quotes. -/
theorem unquote_written :
    (∀ ps : List QuotedPiece,
      unquote (ps.flatMap QuotedPiece.written) = ps.flatMap QuotedPiece.text) ∧
    ∀ cs : List Char, unquote (singleQuoted cs) = cs := by
  refine ⟨unquote_pieces, fun cs => ?_⟩
  obtain ⟨ps, written, text⟩ := exists_pieces_of_singleQuoted List.not_mem_nil cs
  rw [List.nil_append] at written text
  rw [singleQuoted, ← written, unquote_pieces, text]

example : singleQuoted ['i', '\'', 's'] = "'i'\\''s'".toList := by decide

end ShellInliner.Word
