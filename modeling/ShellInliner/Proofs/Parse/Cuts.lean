import ShellInliner.Proofs.Parse.Laid

/-! # Cuts

    A text is cut into parts, some of which are skipped while the others are tokens.
    Every part is what its own match takes at its place, so a text has finitely many
    cuts.  The tokens of a derivation are those of a cut, and what is asked of all
    cuts of a text is known of every derivation. -/

namespace ShellInliner.Parse

open Grammar

/-! ### Parts -/

/-- A part of a text. -/
inductive Part
  /-- Blanks, a comment or a continued line. -/
  | skipped (text : List Char)
  /-- A token. -/
  | token (t : Terminal) (text : List Char)

/-- The text is cut into the parts up to a rest, and each of them is what its match
    takes at its place. -/
inductive Cuts : List Part → List Char → List Char → Prop
  /-- Nothing is cut off. -/
  | nil {rest : List Char} : Cuts [] rest rest
  /-- Something that is skipped. -/
  | skipped {ps : List Part} {text after rest : List Char}
      (taken : skip? (text ++ after) = some text.length) (others : Cuts ps after rest) :
      Cuts (.skipped text :: ps) (text ++ after) rest
  /-- A token. -/
  | token {ps : List Part} {t : Terminal} {text after rest : List Char}
      (taken : t.length? (text ++ after) = some text.length) (others : Cuts ps after rest) :
      Cuts (.token t text :: ps) (text ++ after) rest

/-- The terminal of a part, unless it is skipped. -/
def Part.terminal? : Part → Option Terminal
  | .skipped _ => none
  | .token t _ => some t

/-- Tokens with more that is skipped before the first. -/
def addGap (gap : List Char) : List Token → List Token
  | [] => []
  | t :: ts => { t with gap := gap ++ t.gap } :: ts

/-- The tokens among the parts, each with what is skipped before it. -/
def tokens : List Part → List Token
  | [] => []
  | .skipped text :: ps => addGap text (tokens ps)
  | .token t text :: ps => ⟨t, [], text⟩ :: tokens ps

theorem addGap_addGap (a b : List Char) (ts : List Token) :
    addGap a (addGap b ts) = addGap (a ++ b) ts := by
  cases ts with
  | nil => rfl
  | cons t ts => simp [addGap]

theorem addGap_nil (ts : List Token) : addGap [] ts = ts := by
  cases ts with
  | nil => rfl
  | cons t ts => rfl

theorem map_terminal_addGap (gap : List Char) (ts : List Token) :
    (addGap gap ts).map Token.terminal = ts.map Token.terminal := by
  cases ts with
  | nil => rfl
  | cons t ts => rfl

theorem map_terminal_tokens (ps : List Part) :
    (tokens ps).map Token.terminal = ps.filterMap Part.terminal? := by
  induction ps with
  | nil => rfl
  | cons p ps ih =>
    cases p with
    | skipped text =>
      unfold tokens
      rw [map_terminal_addGap, ih]
      rfl
    | token t text =>
      unfold tokens
      rw [List.map_cons, ih]
      rfl

/-! ### Cuts and tokens -/

/-- Where something is skipped, the places that skipping can reach are this one and
    those after it. -/
theorem mem_gaps_skipped {text rest : List Char} {g : Nat}
    (taken : skip? (text ++ rest) = some text.length) :
    g ∈ gaps (text ++ rest) ↔ g = 0 ∨ ∃ g' ∈ gaps rest, g = g' + text.length := by
  obtain ⟨pos, bound⟩ := skip?_bounds taken
  have step : text.length - 1 + 1 = text.length := by omega
  rw [mem_gaps_of_skip (n := text.length - 1) (by rw [step]; exact taken) (by omega), step,
    List.drop_left]

theorem isSkippable_iff {cs : List Char} : isSkippable cs = true ↔ cs.length ∈ gaps cs := by
  simp [isSkippable]

/-- The tokens of a cut fit its text, and what they leave can be skipped up to the
    rest. -/
theorem Cuts.fit {ps : List Part} {text rest : List Char} (cuts : Cuts ps text rest) :
    ∃ left, Fit (tokens ps) text left ∧ ∃ g ∈ gaps left, left.drop g = rest := by
  induction cuts with
  | @nil rest => exact ⟨rest, .nil, 0, zero_mem_gaps _, rfl⟩
  | @skipped ps text after rest taken others ih =>
    obtain ⟨left, fit, g, mem, drop⟩ := ih
    unfold tokens
    -- The part belongs to the gap of the next token or, if there is none, to the rest.
    generalize tokens ps = ts at fit
    cases fit with
    | nil =>
      refine ⟨text ++ after, .nil, g + text.length, ?_, ?_⟩
      · exact (mem_gaps_skipped taken).mpr (.inr ⟨g, mem, rfl⟩)
      · rw [Nat.add_comm, ← List.drop_drop, List.drop_left, drop]
    | @cons t ts _ middle _ first others =>
      refine ⟨left, .cons ⟨?_, ?_, first.length_eq⟩ others, g, mem, drop⟩
      · rw [first.text_eq]
        simp only [List.append_assoc]
      · refine (mem_gaps_skipped taken).mpr (.inr ⟨_, first.gap_mem, ?_⟩)
        rw [List.length_append, Nat.add_comm]
  | @token ps t text after rest taken others ih =>
    obtain ⟨left, fit, reached⟩ := ih
    exact ⟨left, .cons ⟨rfl, zero_mem_gaps _, taken⟩ fit, reached⟩

/-- What can be skipped before a cut can be added to it. -/
theorem exists_cuts_of_gap {g : Nat} {ps : List Part} {text rest : List Char}
    (mem : g ∈ gaps text) (cuts : Cuts ps (text.drop g) rest) :
    ∃ ps', Cuts ps' text rest ∧ tokens ps' = addGap (text.take g) (tokens ps) := by
  -- Every skip makes the text shorter.
  induction hl : text.length using Nat.strongRecOn generalizing text g with
  | _ l ih =>
    by_cases here : g = 0
    · subst here
      exact ⟨ps, cuts, by rw [List.take_zero, addGap_nil]⟩
    · cases skips : skip? text with
      | none => exact absurd ((mem_gaps_of_none skips).mp mem) here
      | some n =>
        obtain ⟨pos, bound⟩ := skip?_bounds skips
        obtain ⟨part, after, rfl, length⟩ : ∃ part after, text = part ++ after ∧ part.length = n :=
          ⟨text.take n, text.drop n, (List.take_append_drop n text).symm,
            List.length_take_of_le bound⟩
        subst length
        rcases (mem_gaps_skipped skips).mp mem with zero | ⟨g', mem', rfl⟩
        · exact absurd zero here
        · have later : (part ++ after).drop (g' + part.length) = after.drop g' := by
            rw [Nat.add_comm, ← List.drop_drop, List.drop_left]
          have earlier : (part ++ after).take (g' + part.length) = part ++ after.take g' := by
            rw [Nat.add_comm, List.take_length_add_append]
          have shorter : after.length < l := by
            rw [← hl, List.length_append]
            omega
          rw [later] at cuts
          obtain ⟨ps', cuts', same⟩ := ih after.length shorter mem' cuts rfl
          refine ⟨.skipped part :: ps', .skipped skips cuts', ?_⟩
          show addGap part (tokens ps') = _
          rw [same, addGap_addGap, earlier]

/-- Tokens that fit a text are those of a cut, which goes on with what can be skipped
    after them. -/
theorem exists_cuts_of_fit {ts : List Token} {text left rest : List Char} {g : Nat}
    (fit : Fit ts text left) (mem : g ∈ gaps left) (drop : left.drop g = rest) :
    ∃ ps, Cuts ps text rest ∧ tokens ps = ts := by
  induction fit with
  | @nil text =>
    have last : Cuts [] (text.drop g) rest := by
      rw [drop]
      exact .nil
    exact exists_cuts_of_gap mem last
  | @cons t ts text middle left first _ ih =>
    obtain ⟨ps, cuts, same⟩ := ih mem drop
    have after : text.drop t.gap.length = t.text ++ middle := by
      rw [first.text_eq, List.append_assoc, List.drop_left]
    have before : text.take t.gap.length = t.gap := by
      rw [first.text_eq, List.append_assoc, List.take_left]
    -- The later parts are extended by the token itself, and then by those in its gap.
    have here : Cuts (.token t.terminal t.text :: ps) (text.drop t.gap.length) rest := by
      rw [after]
      exact .token first.length_eq cuts
    obtain ⟨ps', cuts', same'⟩ := exists_cuts_of_gap first.gap_mem here
    refine ⟨ps', cuts', ?_⟩
    rw [same', before]
    show addGap t.gap (⟨t.terminal, [], t.text⟩ :: tokens ps) = t :: ts
    rw [same]
    simp [addGap]

/-- The tokens of a derivation of a script are those of a cut of its text. -/
theorem exists_cuts_of_derivesScript {t : Tree} {text : List Char} (derives : t.DerivesScript text) :
    ∃ ps, Cuts ps text [] ∧ tokens ps = t.tokens := by
  obtain ⟨-, rest, part, skippable⟩ := derives
  exact exists_cuts_of_fit (fit_tokens part) (isSkippable_iff.mp skippable) List.drop_length

/-! ### File descriptors -/

/-- Wherever the text is cut, no file descriptor has too many digits. -/
def FewDigitsCut (text : List Char) : Prop :=
  ∀ ps digits, Cuts ps text [] → .token .ioNumber digits ∈ ps → digits.length ≤ digitLimit

theorem Cuts.length_le {ps : List Part} {text rest : List Char} (cuts : Cuts ps text rest) {t : Terminal}
    {part : List Char} (mem : .token t part ∈ ps) : part.length ≤ text.length := by
  induction cuts with
  | nil => cases mem
  | @skipped ps before after rest taken others ih =>
    rw [List.length_append]
    rcases List.mem_cons.mp mem with same | mem
    · cases same
    · have := ih mem
      omega
  | @token ps k before after rest taken others ih =>
    rw [List.length_append]
    rcases List.mem_cons.mp mem with same | mem
    · cases same
      omega
    · have := ih mem
      omega

/-- A short text has no file descriptor with too many digits. -/
theorem fewDigitsCut_of_length_le {text : List Char} (short : text.length ≤ digitLimit) :
    FewDigitsCut text := by
  intro ps digits cuts mem
  exact Nat.le_trans (cuts.length_le mem) short

theorem mem_of_mem_tokens {ps : List Part} {x : Token} (mem : x ∈ tokens ps) :
    .token x.terminal x.text ∈ ps := by
  induction ps generalizing x with
  | nil => cases mem
  | cons p ps ih =>
    cases p with
    | skipped text =>
      unfold tokens at mem
      apply List.mem_cons_of_mem
      cases others : tokens ps with
      | nil =>
        rw [others] at mem
        cases mem
      | cons y ys =>
        rw [others] at ih mem
        rcases List.mem_cons.mp mem with rfl | mem
        · -- What is skipped changes the gap of the first token, but neither its terminal nor its text.
          have first := ih (x := y) (List.mem_cons_self ..)
          exact first
        · exact ih (List.mem_cons_of_mem _ mem)
    | token t text =>
      rcases List.mem_cons.mp mem with rfl | mem
      · exact List.mem_cons_self ..
      · exact List.mem_cons_of_mem _ (ih mem)

/-- Where no cut has a file descriptor with too many digits, no derivation of a script
    has one. -/
theorem short_of_derivesScript {t : Tree} {text : List Char} (derives : t.DerivesScript text)
    (few : FewDigitsCut text) : Short (t.tokens.map lexeme) := by
  obtain ⟨ps, cuts, same⟩ := exists_cuts_of_derivesScript derives
  intro l mem number
  obtain ⟨x, inside, rfl⟩ := List.mem_map.mp mem
  have terminal : x.terminal = .ioNumber := number
  -- Only a line end is stripped when a token becomes a lexeme.
  have spelled : (lexeme x).text = x.text := if_neg (by rw [terminal]; exact nofun)
  have here := mem_of_mem_tokens (same ▸ inside)
  rw [terminal] at here
  rw [spelled]
  exact few ps _ cuts here

end ShellInliner.Parse
