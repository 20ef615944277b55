import ShellInliner.Proofs.Grammar.Context
import ShellInliner.Proofs.Parse.Reading

/-! # Lexemes laid out in a text

    A text is laid out from lexemes when they stand in it one after the other,
    with blanks between them and with line ends where lexemes ask for them.
    There are no comments and no continued lines, so what stands between two
    lexemes can be told from the text alone.  The tokens of such a text are the
    lexemes, each with the blanks before it. -/

namespace ShellInliner

/-! ### What is skipped -/

namespace Grammar

theorem gapsFrom_add (offset more inside : Nat) (cs : List Char) :
    gapsFrom (offset + more) inside cs = (gapsFrom offset inside cs).map (· + more) := by
  induction cs generalizing offset inside with
  | nil => cases inside <;> rfl
  | cons c cs ih =>
    cases inside with
    | succ k =>
      simp only [gapsFrom]
      rw [← ih]
      congr 1
      omega
    -- Here something is skipped or not; the offset is only handed on.
    | zero =>
      simp only [gapsFrom, List.map_cons]
      congr 1
      split
      · rw [← ih]
        congr 1
        omega
      · rfl

/-- What is being skipped is left behind. -/
theorem gapsFrom_inside {offset inside : Nat} {cs : List Char} (h : inside ≤ cs.length) :
    gapsFrom offset inside cs = gapsFrom (offset + inside) 0 (cs.drop inside) := by
  induction cs generalizing offset inside with
  | nil =>
    obtain rfl : inside = 0 := by simpa using h
    rfl
  | cons c cs ih =>
    cases inside with
    | zero => rfl
    | succ k =>
      rw [gapsFrom, ih (by simpa using h), List.drop_succ_cons]
      congr 1
      omega

/-- Where something is skipped, the places that skipping can reach are this one
    and those of the text after it. -/
theorem mem_gaps_of_skip {cs : List Char} {n g : Nat} (h : skip? cs = some (n + 1))
    (bound : n + 1 ≤ cs.length) :
    g ∈ gaps cs ↔ g = 0 ∨ ∃ g' ∈ gaps (cs.drop (n + 1)), g = g' + (n + 1) := by
  cases cs with
  | nil => cases h
  | cons c cs =>
    have inside : n ≤ cs.length := by simpa using bound
    -- Past what is skipped the gaps are those of the text after it, counted on.
    have later : gapsFrom 1 n cs = (gaps (cs.drop n)).map (· + (n + 1)) := by
      rw [gapsFrom_inside inside, gaps, ← gapsFrom_add]
      congr 1
      omega
    simp only [gaps, gapsFrom, h, List.mem_cons, List.drop_succ_cons]
    rw [later]
    simp [gaps, eq_comm]

/-- Where nothing can be skipped, no other place is reached. -/
theorem mem_gaps_of_none {cs : List Char} {g : Nat} (h : skip? cs = none) : g ∈ gaps cs ↔ g = 0 := by
  cases cs with
  | nil => simp [gaps, gapsFrom]
  | cons c cs => simp [gaps, gapsFrom, h]

/-- Does the text start with no blank? -/
def startsUnblank (cs : List Char) : Bool :=
  cs.head?.all (!isLineBlank ·)

/-- Blanks are skipped all at once. -/
theorem mem_gaps_append {gap t : List Char} {g : Nat} (blank : ∀ c ∈ gap, c = ' ')
    (h : startsUnblank t = true) :
    g ∈ gaps (gap ++ t) ↔ g = 0 ∨ ∃ g' ∈ gaps t, g = g' + gap.length := by
  cases gap with
  | nil =>
    have := zero_mem_gaps t
    simp only [List.nil_append, List.length_nil, Nat.add_zero, exists_eq_right']
    constructor
    · exact .inr
    · rintro (rfl | h)
      · exact this
      · exact h
  | cons c gap =>
    obtain rfl : c = ' ' := blank c (List.mem_cons_self ..)
    have all : ∀ c ∈ gap, isLineBlank c = true := by
      intro c hc
      rw [blank c (List.mem_cons_of_mem _ hc)]
      rfl
    -- The blanks go on to the first character that is none.
    have skips : skip? (' ' :: (gap ++ t)) = some (gap.length + 1) := by
      unfold skip?
      have blank : isLineBlank ' ' = true := rfl
      simp only [blank, if_true]
      rw [List.takeWhile_append_of_pos all, takeWhile_of_head h, List.append_nil,
        Nat.add_comm]
    rw [List.cons_append, mem_gaps_of_skip skips (by simp)]
    simp

/-- Line ends go on as long as the text does. -/
theorem newlinesLength_append {run cs : List Char} (lines : ∀ c ∈ run, c = ' ' ∨ c = '\n')
    (h : newlinesLength true cs = 0) : newlinesLength true (run ++ cs) = run.length := by
  induction run with
  | nil => exact h
  | cons c run ih =>
    have others := ih fun c hc => lines c (List.mem_cons_of_mem _ hc)
    rcases lines c (List.mem_cons_self ..) with rfl | rfl
    · -- After a line feed blanks belong to the run as well.
      have blank : isLineBlank ' ' = true := rfl
      rw [List.cons_append]
      unfold newlinesLength
      simp [blank, others, Nat.add_comm]
    · rw [List.cons_append]
      unfold newlinesLength
      simp [others, Nat.add_comm]

/-! ### The first character of a terminal -/

/-- Can the text start a token other than a line end? -/
def startsInk (cs : List Char) : Bool :=
  cs.head?.all fun c => !isLineBlank c && c != '\n' && c != '\r' && c != '#'

theorem startsUnblank_of_ink {cs : List Char} (h : startsInk cs = true) : startsUnblank cs = true := by
  cases cs with
  | nil => rfl
  | cons c cs =>
    simp only [startsInk, List.head?_cons, Option.all_some, Bool.and_eq_true] at h
    exact h.1.1.1

theorem newlinesLength_of_ink {cs : List Char} (h : startsInk cs = true) :
    newlinesLength true cs = 0 := by
  cases cs with
  | nil => rfl
  | cons c cs =>
    simp only [startsInk, List.head?_cons, Option.all_some, Bool.and_eq_true, bne_iff_ne,
      Bool.not_eq_true'] at h
    obtain ⟨⟨⟨blank, feed⟩, carriage⟩, -⟩ := h
    unfold newlinesLength
    simp [blank, feed, carriage]

/-- Every terminal but the line end starts with a character that is neither a
    blank nor a line end, and starts no comment. -/
theorem startsInk_of_length? {t : Terminal} {cs : List Char} {n : Nat} (other : t ≠ .newline)
    (h : t.length? cs = some n) : startsInk cs = true := by
  cases cs with
  | nil => rfl
  | cons c cs =>
    -- It is enough that the first characters of a terminal are none of these five.
    have ink {p : Char → Bool} (hc : p c = true)
      (check : [' ', '\t', '\n', '\r', '#'].all (!p ·) = true) : startsInk (c :: cs) = true := by
      have differs : ∀ d ∈ [' ', '\t', '\n', '\r', '#'], c ≠ d := by
        rintro d hd rfl
        have absent := List.all_eq_true.mp check c hd
        simp [hc] at absent
      simp only [List.mem_cons, List.not_mem_nil, or_false, forall_eq_or_imp, forall_eq] at differs
      simp [startsInk, isLineBlank, differs]
    by_cases wordlike : t.isWordlike = true
    · obtain ⟨plain, hash⟩ := head_of_isWordlike wordlike h
      apply ink (p := fun c => !Word.isMeta c && c != '#')
      · simp [plain, hash]
      · rfl
    · cases t with
      | sign s =>
        apply ink (p := fun c => ['&', '|', ';', '(', ')'].contains c)
        · exact List.contains_iff_mem.mpr (head_of_sign h)
        · rfl
      | redirectOperator =>
        apply ink (p := fun c => ['<', '>'].contains c)
        · exact List.contains_iff_mem.mpr (head_of_redirectOperator h)
        · rfl
      | ioNumber =>
        apply ink (p := Text.isDigit)
        · exact head_of_ioNumber h
        · rfl
      | newline => exact absurd rfl other
      | _ => exact absurd rfl wordlike

end Grammar

/-! ### Laid out texts -/

namespace Parse

open Grammar

/-- May the text follow the terminal where lexemes are laid out?  A sign is not
    followed by what would make it another one, and a word ends. -/
def mayFollow (t : Terminal) (rest : List Char) : Bool :=
  match t with
  | .sign .ampersand => rest.head? != some '&'
  | .sign .bar => rest.head? != some '|'
  | .sign .semicolon | .sign .doubleSemicolon => rest.head? != some ';'
  | t => !t.isWordlike || endsWord rest

/-- The lexeme stands before the text. -/
structure Stands (l : Lexeme) (rest : List Char) : Prop where
  /-- It is no line end. -/
  other : l.terminal ≠ .newline
  /-- Its terminal takes its characters. -/
  taken : l.terminal.length? (l.text ++ rest) = some l.text.length
  /-- The text may follow. -/
  follows : mayFollow l.terminal rest = true

/-- The text is laid out from the lexemes. -/
inductive Laid : List Lexeme → List Char → Prop
  /-- Nothing is left but blanks. -/
  | done {g : List Char} (blank : ∀ c ∈ g, c = ' ') : Laid [] g
  /-- A lexeme after blanks. -/
  | token {l : Lexeme} {w : List Lexeme} {g rest : List Char} (blank : ∀ c ∈ g, c = ' ')
      (stands : Stands l rest) (others : Laid w rest) : Laid (l :: w) (g ++ (l.text ++ rest))
  /-- Line ends after blanks, up to the next lexeme. -/
  | newline {w : List Lexeme} {g run rest : List Char} (blank : ∀ c ∈ g, c = ' ')
      (lines : ∀ c ∈ run, c = ' ' ∨ c = '\n') (ink : startsInk rest = true) (others : Laid w rest) :
      Laid (⟨.newline, []⟩ :: w) (g ++ '\n' :: (run ++ rest))

theorem Stands.ink {l : Lexeme} {rest : List Char} (h : Stands l rest) :
    startsInk (l.text ++ rest) = true :=
  startsInk_of_length? h.other h.taken

namespace Laid

variable {l : Lexeme} {w : List Lexeme} {text : List Char}

/-- Blanks may stand before a text. -/
theorem blank (h : Laid w text) : Laid w (' ' :: text) := by
  have more {gap : List Char} (blank : ∀ c ∈ gap, c = ' ') : ∀ c ∈ ' ' :: gap, c = ' ' := by
    intro c hc
    rcases List.mem_cons.mp hc with rfl | hc
    · rfl
    · exact blank c hc
  cases h with
  | done blank => exact .done (more blank)
  | token blank stands others => exact .token (more blank) stands others
  | newline blank lines ink others => exact .newline (more blank) lines ink others

/-- A lexeme stands before a text. -/
theorem stand (stands : Stands l text) (h : Laid w text) : Laid (l :: w) (l.text ++ text) :=
  .token (g := []) (by simp) stands h

/-- A line end stands before other lexemes. -/
theorem line (h : Laid w text) (fresh : w.head?.all (·.terminal != .newline) = true) :
    Laid (⟨.newline, []⟩ :: w) ('\n' :: text) := by
  have lines {gap : List Char} (blank : ∀ c ∈ gap, c = ' ') : ∀ c ∈ gap, c = ' ' ∨ c = '\n' :=
    fun c hc => .inl (blank c hc)
  cases h with
  | done blank =>
    rw [← List.append_nil text]
    exact .newline (g := []) (by simp) (lines blank) rfl (.done (by simp))
  | token blank stands others =>
    -- The blanks before the lexeme go with the line end.
    exact .newline (g := []) (by simp) (lines blank) stands.ink (.stand stands others)
  | newline => cases fresh

/-- Another line end stands before the first one. -/
theorem lines (h : Laid (⟨.newline, []⟩ :: w) text) : Laid (⟨.newline, []⟩ :: w) ('\n' :: text) := by
  generalize hv : (⟨.newline, []⟩ :: w : List Lexeme) = v at h ⊢
  cases h with
  | done => cases hv
  | token blank stands others =>
    injection hv with same
    exact absurd (congrArg Lexeme.terminal same).symm stands.other
  | @newline w' gap run rest blank lines ink others =>
    -- The new line end begins a run that takes in the blanks and the line ends of the old one.
    have merged : Laid (⟨.newline, []⟩ :: w') ([] ++ '\n' :: ((gap ++ '\n' :: run) ++ rest)) := by
      refine .newline (by simp) ?_ ink others
      intro c hc
      rcases List.mem_append.mp hc with hc | hc
      · exact .inl (blank c hc)
      · rcases List.mem_cons.mp hc with rfl | hc
        · exact .inr rfl
        · exact lines c hc
    simpa using merged

/-- The lexemes are tokens of the text. -/
theorem exists_fit (h : Laid w text) :
    ∃ ts rest, Fit ts text rest ∧ ts.map lexeme = w ∧ ∀ c ∈ rest, c = ' ' := by
  induction h with
  | done blank => exact ⟨[], _, .nil, rfl, blank⟩
  -- The token has the lexeme's text, and the blanks before it are its gap.
  | @token l w gap text blank stands others ih =>
    obtain ⟨ts, rest, fit, same, left⟩ := ih
    refine ⟨⟨l.terminal, gap, l.text⟩ :: ts, rest, .cons ⟨?_, ?_, stands.taken⟩ fit, ?_, left⟩
    · exact (List.append_assoc ..).symm
    · apply (mem_gaps_append blank (startsUnblank_of_ink stands.ink)).mpr
      exact .inr ⟨0, zero_mem_gaps _, (Nat.zero_add _).symm⟩
    · rw [List.map_cons, same, lexeme]
      simp only [stands.other, if_false]
  -- All line ends in a row are one token.
  | @newline w gap run text blank lines ink others ih =>
    obtain ⟨ts, rest, fit, same, left⟩ := ih
    refine ⟨⟨.newline, gap, '\n' :: run⟩ :: ts, rest, .cons ⟨?_, ?_, ?_⟩ fit, ?_, left⟩
    · simp
    · apply (mem_gaps_append blank rfl).mpr
      exact .inr ⟨0, zero_mem_gaps _, (Nat.zero_add _).symm⟩
    · apply positive?_eq_some.mpr
      rw [List.cons_append]
      unfold newlinesLength
      rw [if_pos rfl, newlinesLength_append lines (newlinesLength_of_ink ink), List.length_cons]
      omega
    · rw [List.map_cons, same]
      rfl

end Laid

end Parse

end ShellInliner
