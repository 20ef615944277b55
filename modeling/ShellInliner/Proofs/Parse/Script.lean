import ShellInliner.Parse.Script
import ShellInliner.Proofs.Grammar.Chart
import ShellInliner.Proofs.Parse.Alignment
import ShellInliner.Proofs.Parse.Cuts

/-! # Reading a script

    What `parse` makes of a text, in terms of readings: a text that is read has a
    reading of its tokens, a text that is laid out from what a script reads is
    accepted, and if it is laid out with care it is read as that script. -/

namespace ShellInliner.Parse

open Grammar

variable {text : List Char} {file : Option String} {w : List Lexeme} {n : Node}

/-- What stands in a text as a token, line ends apart, is taken by its terminal. -/
def Taken (l : Lexeme) : Prop :=
  l.terminal ≠ .newline → l.terminal.Takes l.text

theorem taken_of_fit {ts : List Token} {rest : List Char} (h : Fit ts text rest) :
    ∀ l ∈ ts.map lexeme, Taken l := by
  induction h with
  | nil => simp
  | @cons t ts text middle rest first others ih =>
    intro l hl other
    rw [List.map_cons, List.mem_cons] at hl
    rcases hl with rfl | hl
    · have text_eq : (lexeme t).text = t.text := if_neg other
      rw [text_eq]
      exact ⟨middle, first.length_eq⟩
    · exact ih l hl other

/-- A text that is read has a reading of its tokens. -/
theorem exists_reads_of_parse (h : parse text { file } = .ok n) :
    ∃ w, Reads .script w [.node n] ∧ ∀ l ∈ w, Taken l := by
  unfold parse at h
  cases hd : derivation? text with
  | none => simp [hd] at h
  | some t =>
    obtain ⟨item, rest, derives, -⟩ := derivation?_sound hd
    cases hb : build false origin t with
    | error e => simp [hd, hb, Except.map] at h
    | ok b =>
      have reads := reads_of_build derives .script item origin b hb
      -- A script is one piece.
      obtain ⟨s, m, pieces, -, -⟩ := reads.run_script
      have same : scriptOf b.pieces = n := by simpa [hd, hb, Except.map] using h
      rw [pieces] at same
      change m = n at same
      exact ⟨_, same ▸ pieces ▸ reads, taken_of_fit (fit_tokens derives)⟩

/-- A text that is laid out from what a script reads has a derivation. -/
theorem exists_derivation_of_laid {qs : List Piece} (reads : Reads .script w qs) (laid : Laid w text) :
    ∃ t, derivation? text = some t ∧ t.DerivesScript text := by
  obtain ⟨ts, rest, fit, rfl, blank⟩ := laid.exists_fit
  obtain ⟨t, derives, item, -⟩ := exists_build_of_reads reads ts text rest rfl fit
  have skippable : isSkippable rest = true := by
    have reached := (mem_gaps_append (t := []) (g := rest.length) blank rfl).mpr
      (.inr ⟨0, zero_mem_gaps [], (Nat.zero_add _).symm⟩)
    rw [List.append_nil] at reached
    simpa [isSkippable] using reached
  obtain ⟨t', found⟩ := exists_derivation? ⟨item, rest, derives, skippable⟩
  exact ⟨t', found, derivation?_sound found⟩

/-- A text that is laid out with care from what a script reads is read as that
    script. -/
theorem parse_of_laid (reads : Reads .script w [.node n]) (tidy : isTidy true w = true)
    (laid : Laid w text) (clean : Unescaped w) (distinct : Unmistakable w) (short : Short w) :
    parse text { file } = .ok n := by
  obtain ⟨t, found, derives⟩ := exists_derivation_of_laid reads laid
  have tokens := tokens_eq reads tidy laid clean distinct derives
  obtain ⟨item, rest, derives, -⟩ := derives
  obtain ⟨b, built, reads'⟩ := build_total derives (tokens.symm ▸ short) origin
  have pieces := (tokens ▸ reads' .script item).script_unique reads
  unfold parse
  simp only [found, built, Except.map, pieces]
  rfl

/-- A text that is laid out from what a script reads is accepted, unless a file
    descriptor has too many digits. -/
theorem exists_parse_of_laid {qs : List Piece} (reads : Reads .script w qs) (laid : Laid w text)
    (few : FewDigitsCut text) : ∃ n, parse text { file } = .ok n := by
  obtain ⟨t, found, derives⟩ := exists_derivation_of_laid reads laid
  obtain ⟨item, rest, part, -⟩ := id derives
  obtain ⟨b, built, -⟩ := build_total part (short_of_derivesScript derives few) origin
  unfold parse
  simp only [found, built, Except.map]
  exact ⟨_, rfl⟩

end ShellInliner.Parse
