import ShellInliner.Proofs.Parse.Alignment

/-! # Lexemes that spell a text

    A part of a text is spelled by lexemes if it is laid out from them wherever
    the right text follows, and with care.  Larger parts are put together from
    smaller ones; only what stands at their seams has to be looked at.  What the
    lexemes are made of is left open: some property that all of them share is
    carried along. -/

namespace ShellInliner.Parse

open Grammar

/-- The lexeme of line ends. -/
def newline : Lexeme := ⟨.newline, []⟩

/-- The lexeme of a reserved word. -/
def keyword (r : Reserved) : Lexeme := ⟨.reserved r, r.spelling⟩

/-- The lexeme of a sign. -/
def punctuation (s : Sign) : Lexeme := ⟨.sign s, s.spelling⟩

/-- The lexemes spell the text where what follows is as needed, and all of them
    have the property. -/
structure Spells (Q : Lexeme → Prop) (need : List Char → Bool) (w : List Lexeme) (s : List Char) :
    Prop where
  /-- The text is laid out from the lexemes. -/
  laid : ∀ v rest, need rest = true → Laid v rest → Laid (w ++ v) (s ++ rest)
  /-- They are laid out with care. -/
  tidy : isTidy false w = true
  /-- They have the property. -/
  have_ : ∀ l ∈ w, Q l

/-- Do the lexemes start with one that is no line end? -/
def isFresh (w : List Lexeme) : Bool :=
  w.head?.any (·.terminal != .newline)

/-- Nothing in particular has to follow. -/
def anything (_ : List Char) : Bool := true

theorem isFresh_append {w v : List Lexeme} (h : isFresh w = true) : isFresh (w ++ v) = true := by
  cases w with
  | nil => cases h
  | cons l w => exact h

namespace Spells

variable {Q : Lexeme → Prop} {need need' : List Char → Bool} {w w' : List Lexeme} {s s' : List Char}

theorem nil : Spells Q anything [] [] where
  laid _ _ _ h := h
  tidy := rfl
  have_ := by simp

/-- What is needed may be asked for by something stronger. -/
theorem strengthen (h : Spells Q need w s) (stronger : ∀ rest, need' rest = true → need rest = true) :
    Spells Q need' w s where
  laid v rest hr hv := h.laid v rest (stronger rest hr) hv
  tidy := h.tidy
  have_ := h.have_

/-- A part follows another one. -/
theorem append (h : Spells Q need w s) (h' : Spells Q need' w' s')
    (seam : ∀ rest, need' rest = true → need (s' ++ rest) = true) :
    Spells Q need' (w ++ w') (s ++ s') where
  laid v rest hr hv := by
    rw [List.append_assoc, List.append_assoc]
    exact h.laid _ _ (seam rest hr) (h'.laid v rest hr hv)
  tidy := isTidy_append h.tidy h'.tidy
  have_ l hl := (List.mem_append.mp hl).elim (h.have_ l) (h'.have_ l)

/-- A blank stands before a part. -/
theorem blank (h : Spells Q need w s) : Spells Q need w (' ' :: s) where
  laid v rest hr hv := (h.laid v rest hr hv).blank
  tidy := h.tidy
  have_ := h.have_

/-- A lexeme that closes nothing stands before what it needs. -/
theorem lexeme {l : Lexeme} (stands : ∀ rest, need rest = true → Stands l rest)
    (plain : closes l.terminal = false) (written : isUnwritten l.terminal = false) (hl : Q l) :
    Spells Q need [l] l.text where
  laid _ rest hr hv := .stand (stands rest hr) hv
  tidy := by simp [isTidy, plain, written]
  have_ := by simpa using hl

/-- A part stands on a line of its own. -/
theorem line (h : Spells Q need w s) (fresh : isFresh w = true) (hn : Q newline) :
    Spells Q need (newline :: w) ('\n' :: s) where
  laid v rest hr hv := by
    refine (h.laid v rest hr hv).line ?_
    cases w with
    | nil => cases fresh
    | cons l w => exact fresh
  tidy := by
    show isTidy true w = true
    exact isTidy_mono h.tidy
  have_ l hl := by
    rcases List.mem_cons.mp hl with rfl | hl
    · exact hn
    · exact h.have_ l hl

/-- A lexeme stands on a line of its own. -/
theorem lineLexeme {l : Lexeme} (stands : ∀ rest, need rest = true → Stands l rest)
    (written : isUnwritten l.terminal = false) (hn : Q newline) (hl : Q l) :
    Spells Q need [newline, l] ('\n' :: l.text) where
  laid _ rest hr hv := by
    apply (Laid.stand (stands rest hr) hv).line
    simpa using (stands rest hr).other
  tidy := by simp [isTidy, newline, written]; decide
  have_ := by simp [hn, hl]

/-- One more line end stands before a line. -/
theorem lines (h : Spells Q need (newline :: w) s) : Spells Q need (newline :: w) ('\n' :: s) where
  laid v rest hr hv := (h.laid v rest hr hv).lines
  tidy := h.tidy
  have_ := h.have_

/-- Lexemes that are there spell something. -/
theorem ne_nil (h : Spells Q need w s) (fresh : isFresh w = true) (atEnd : need [] = true) : s ≠ [] := by
  rintro rfl
  have laid := h.laid [] [] atEnd (.done (by simp))
  rw [List.append_nil, List.append_nil] at laid
  generalize ht : ([] : List Char) = t at laid
  cases laid with
  | done => cases fresh
  | @token l w gap rest blank stands others =>
    have characters : l.text ≠ [] :=
      List.ne_nil_of_length_pos (Terminal.length?_bounds stands.taken).1
    exact characters (List.append_eq_nil_iff.mp (List.append_eq_nil_iff.mp ht.symm).2).1
  | newline => cases fresh

end Spells

/-! ### Fixed lexemes -/

theorem stands_keyword (r : Reserved) {rest : List Char} (h : endsWord rest = true) :
    Stands (keyword r) rest where
  other := nofun
  taken := Reserved.length?_eq_some.mpr ⟨rest, rfl, h, rfl⟩
  follows := by simpa [mayFollow, keyword] using .inr h

theorem stands_punctuation (s : Sign) {rest : List Char} (h : mayFollow (.sign s) rest = true) :
    Stands (punctuation s) rest where
  other := nofun
  taken := Sign.length?_eq_some.mpr ⟨rest, rfl, rfl⟩
  follows := h

section

variable {Q : Lexeme → Prop}

/-- A reserved word that closes nothing. -/
theorem spells_keyword {r : Reserved} (plain : closes (.reserved r) = false)
    (written : isUnwritten (.reserved r) = false) (hq : Q (keyword r)) :
    Spells Q endsWord [keyword r] r.spelling :=
  .lexeme (l := keyword r) (fun _ h => stands_keyword r h) plain written hq

/-- A reserved word on a line of its own. -/
theorem spells_line_keyword {r : Reserved} (written : isUnwritten (.reserved r) = false)
    (hn : Q newline) (hq : Q (keyword r)) :
    Spells Q endsWord [newline, keyword r] ('\n' :: r.spelling) :=
  .lineLexeme (l := keyword r) (fun _ h => stands_keyword r h) written hn hq

/-- A sign that closes nothing. -/
theorem spells_punctuation {s : Sign} (plain : closes (.sign s) = false)
    (written : isUnwritten (.sign s) = false) (hq : Q (punctuation s)) :
    Spells Q (mayFollow (.sign s)) [punctuation s] s.spelling :=
  .lexeme (l := punctuation s) (fun _ h => stands_punctuation s h) plain written hq

/-! ### Words -/

/-- Is the terminal a word, and no reserved one? -/
def isFreeWord : Terminal → Bool
  | .name | .functionName | .assignmentWord | .commandWord | .word => true
  | _ => false

/-- What a word is not. -/
theorem of_isFreeWord {t : Terminal} (h : isFreeWord t = true) :
    t.isWordlike = true ∧ t ≠ .newline ∧ closes t = false ∧ isUnwritten t = false ∧
      ∀ rest, endsWord rest = true → mayFollow t rest = true := by
  cases t <;> first
    | exact ⟨rfl, by simp, rfl, rfl, fun rest ends => by simp [mayFollow, ends]⟩
    | cases h

/-- A word stands before every delimiter. -/
structure IsWord (t : Terminal) (text : List Char) : Prop where
  /-- It is a word of some kind. -/
  free : isFreeWord t = true
  /-- Before every delimiter its terminal takes it. -/
  taken : ∀ rest, isDelimited rest = true → t.length? (text ++ rest) = some text.length

theorem spells_word {t : Terminal} {text : List Char} (h : IsWord t text) (hq : Q ⟨t, text⟩) :
    Spells Q isDelimited [⟨t, text⟩] text := by
  obtain ⟨-, other, plain, written, follows⟩ := of_isFreeWord h.free
  apply Spells.lexeme (l := ⟨t, text⟩) _ plain written hq
  intro rest hr
  exact ⟨other, h.taken rest hr, follows rest (endsWord_of_isDelimited hr)⟩

/-- A word starts with no meta character. -/
theorem isMeta_of_isWord {t : Terminal} {c : Char} {cs : List Char} (h : IsWord t (c :: cs)) :
    Word.isMeta c = false :=
  (head_of_isWordlike (of_isFreeWord h.free).1 (h.taken [] rfl)).1

theorem text_ne_nil_of_isWord {t : Terminal} {text : List Char} (h : IsWord t text) : text ≠ [] :=
  List.ne_nil_of_length_pos (Terminal.length?_bounds (h.taken [] rfl)).1

end

end ShellInliner.Parse
