import ShellInliner.Proofs.Parse.Contest

/-! # Alignment

    A text that is laid out with care has one derivation as far as its tokens
    go.  A second reader of the same text may take other terminals for a while,
    but only where that tilts its balance, and a script is balanced; so the
    tokens of every derivation are the lexemes that the text is laid out from. -/

namespace ShellInliner.Parse

open Grammar

/-! ### Care -/

/-- Are the lexemes laid out with care?  What closes something comes right after
    a line end, and some terminals are not written at all.  The flag says whether
    a line end came last. -/
def isTidy : (afterLine : Bool) → List Lexeme → Bool
  | _, [] => true
  | afterLine, l :: w =>
    (!closes l.terminal || afterLine) && !isUnwritten l.terminal &&
      isTidy (l.terminal == .newline) w

/-- The phase after some lexemes that are laid out with care. -/
def Phase.tidyRun (p : Phase) : List Lexeme → Option Phase
  | [] => some p
  | l :: w => (p.tidyNext l.terminal).bind (tidyRun · w)

theorem next_of_tidyNext {p p' : Phase} {t : Terminal} (h : p.tidyNext t = some p') :
    p.next t = some p' := by
  unfold Phase.tidyNext at h
  split at h
  · cases h
  · exact h

theorem isTidy_mono {b : Bool} {w : List Lexeme} (h : isTidy false w = true) : isTidy b w = true := by
  cases w with
  | nil => rfl
  | cons l w =>
    simp only [isTidy, Bool.and_eq_true, Bool.or_false] at h ⊢
    refine ⟨⟨?_, h.1.2⟩, h.2⟩
    rw [h.1.1]
    rfl

theorem isTidy_append {b : Bool} {w₁ w₂ : List Lexeme} (h₁ : isTidy b w₁ = true)
    (h₂ : isTidy false w₂ = true) : isTidy b (w₁ ++ w₂) = true := by
  induction w₁ generalizing b with
  | nil => exact isTidy_mono h₂
  | cons l w₁ ih =>
    simp only [List.cons_append, isTidy, Bool.and_eq_true] at h₁ ⊢
    exact ⟨h₁.1, ih h₁.2⟩

/-- A reader of lexemes that are laid out with care keeps to the tidy phases. -/
theorem tidyRun_of_run {s s' : State} {w : List Lexeme} {b : Bool} (h : run s w = some s')
    (tidy : isTidy b w = true) (line : b = true → s.phase.afterLine = true) :
    s.phase.tidyRun w = some s'.phase := by
  -- `b` says that a line end came last, which the phase must show for the next lexeme to close.
  induction w generalizing s b with
  | nil =>
    cases h
    rfl
  | cons l w ih =>
    obtain ⟨s₁, first, others⟩ := Option.bind_eq_some_iff.mp h
    have phase := next_phase first
    simp only [isTidy, Bool.and_eq_true, Bool.not_eq_true'] at tidy
    obtain ⟨⟨closed, written⟩, tidy⟩ := tidy
    have tidyPhase : s.phase.tidyNext l.terminal = some s₁.phase := by
      rw [Phase.tidyNext, written, phase, Bool.or_false]
      cases hc : closes l.terminal with
      | false => rfl
      | true =>
        have after : b = true := by simpa [hc] using closed
        rw [line after]
        rfl
    rw [Phase.tidyRun, tidyPhase]
    apply ih others tidy
    intro newline
    rw [eq_of_beq newline] at phase
    exact afterLine_newline phase

/-! ### Steps of both readers -/

/-- Can a token with the second terminal contest a lexeme with the first one? -/
def contests (a b : Terminal) : Bool :=
  rivals a b || b == .name || b == .functionName ||
    (match a, b with
      | .word, .reserved r => (partOf? r).isSome
      | .sign s, .sign h => half? s == some h
      | _, _ => false)

theorem contests_of_contest {l : Lexeme} {rest mid : List Char} {t : Token}
    (h : Contest l rest t mid) : contests l.terminal t.terminal = true := by
  cases h with
  | rival _ _ rival => simp [contests, rival]
  | part terminal family word => simp [contests, terminal, word, family]
  | name terminal _ => simp [contests, terminal]
  | functionName terminal _ _ => simp [contests, terminal]
  | half sign first terminal _ _ => simp [contests, sign, terminal, first]

/-- Both readers take a terminal. -/
structure BothTake (p q : Phase) (a b : Terminal) (p' q' : Phase) : Prop where
  /-- The first reads what is laid out with care. -/
  first : p.tidyNext a = some p'
  /-- The second takes what it can. -/
  second : q.next b = some q'

/-- What the check of all steps says of one step. -/
theorem stepHolds_of_rivals {p q p' q' : Phase} {a b : Terminal} (take : BothTake p q a b p' q')
    (link : linked p q = true) (rival : rivals a b = true) : stepHolds p q a b p' q' = true := by
  have check := List.all_eq_true.mp (List.all_eq_true.mp all_steps_hold p p.mem_all) q q.mem_all
  rw [link, Bool.not_true, Bool.false_or] at check
  have check := List.all_eq_true.mp check a (mem_terminals a)
  rw [take.first, Option.all_some] at check
  have check := List.all_eq_true.mp check b (mem_terminals b)
  rwa [rival, take.second, Bool.not_true, Bool.false_or, Option.all_some] at check

/-- Readers that have gone astray cannot both take a terminal. -/
theorem all_contests_end :
    strays.all (fun x => terminals.all fun a => (x.1.tidyNext a).all fun _ =>
      terminals.all fun b => !contests a b || (x.2.next b).isNone) = true := by
  rfl

theorem not_bothTake_of_stray {p q p' q' : Phase} {a b : Terminal}
    (stray : strays.contains (p, q) = true) (contest : contests a b = true) :
    ¬ BothTake p q a b p' q' := by
  intro take
  have check := List.all_eq_true.mp all_contests_end (p, q) (List.contains_iff_mem.mp stray)
  have check := List.all_eq_true.mp check a (mem_terminals a)
  rw [take.first, Option.all_some] at check
  have check := List.all_eq_true.mp check b (mem_terminals b)
  rw [contest, take.second] at check
  cases check

theorem not_ends_of_stray {p q : Phase} (stray : strays.contains (p, q) = true) :
    ¬ (p.ends = true ∧ q.ends = true) := by
  rintro ⟨hp, hq⟩
  have check : strays.all (fun x => !(x.1.ends && x.2.ends)) = true := by decide
  have check := List.all_eq_true.mp check (p, q) (List.contains_iff_mem.mp stray)
  rw [hp, hq] at check
  cases check

/-- Where the second reader takes a name of some kind, and the first another
    terminal, the name is that of a function. -/
theorem all_names_part :
    Phase.all.all (fun p => Phase.all.all fun q => !linked p q || terminals.all fun a =>
      (p.tidyNext a).isNone ||
        (((q.next .name).isNone || a == .name) &&
          ((q.next .functionName).all (· == .functionName) || a == .functionName))) = true := by
  rfl

theorem names_part {p q p' : Phase} {a : Terminal} (link : linked p q = true)
    (take : p.tidyNext a = some p') :
    (q.next .name ≠ none → a = .name) ∧
      (∀ q', q.next .functionName = some q' → a ≠ .functionName → q' = .functionName) := by
  -- There are finitely many phases and terminals, and the table of all of them is checked once.
  have check := List.all_eq_true.mp (List.all_eq_true.mp all_names_part p p.mem_all) q q.mem_all
  rw [link, Bool.not_true, Bool.false_or] at check
  have check := List.all_eq_true.mp check a (mem_terminals a)
  rw [take, Option.isNone_some, Bool.false_or, Bool.and_eq_true, Bool.or_eq_true,
    Bool.or_eq_true] at check
  obtain ⟨name, function⟩ := check
  constructor
  · intro some
    rcases name with none | same
    · exact absurd (Option.isNone_iff_eq_none.mp none) some
    · exact eq_of_beq same
  · intro q' hq other
    rw [hq] at function
    rcases function with same | same
    · exact eq_of_beq same
    · exact absurd (eq_of_beq same) other

/-- After the name of a function a parenthesis has to come. -/
theorem next_functionName {t : Terminal} {q : Phase} (h : Phase.functionName.next t = some q) :
    t = .sign .openParen := by
  have check : terminals.all (fun t =>
      (Phase.functionName.next t).isNone || t == .sign .openParen) = true := by decide
  have check := List.all_eq_true.mp check t (mem_terminals t)
  rw [h] at check
  exact eq_of_beq check

/-- After the first half of a sign the second half cannot come on its own. -/
theorem next_half {s h : Sign} {q q' : Phase} {t : Terminal} (half : half? s = some h)
    (take : q.next (.sign h) = some q')
    (stuck : t = .sign h ∨ (t = .sign s ∧ s ≠ .doubleSemicolon)) : q'.next t = none := by
  have check : [Sign.andIf, .orIf, .doubleSemicolon].all (fun s => (half? s).all fun h =>
      Phase.all.all fun q => (q.next (.sign h)).all fun q' =>
        (q'.next (.sign h)).isNone && (s == .doubleSemicolon || (q'.next (.sign s)).isNone)) = true := by
    rfl
  have mem : s ∈ [Sign.andIf, .orIf, .doubleSemicolon] := by
    cases s <;> first | decide | cases half
  have check := List.all_eq_true.mp check s mem
  rw [half, Option.all_some] at check
  have check := List.all_eq_true.mp check q q.mem_all
  rw [take, Option.all_some, Bool.and_eq_true, Bool.or_eq_true] at check
  rcases stuck with rfl | ⟨rfl, other⟩
  · exact Option.isNone_iff_eq_none.mp check.1
  · exact Option.isNone_iff_eq_none.mp (check.2.resolve_left (by simpa using other))

/-! ### The end of the text -/

/-- What starts with a lexeme or a line end cannot be skipped. -/
theorem not_isSkippable {gap cs : List Char} (blank : ∀ c ∈ gap, c = ' ')
    (unblank : startsUnblank cs = true) (solid : skip? cs = none) (ne : cs ≠ []) :
    isSkippable (gap ++ cs) = false := by
  apply Bool.eq_false_iff.mpr
  intro skippable
  have reached : (gap ++ cs).length ∈ gaps (gap ++ cs) := by simpa [isSkippable] using skippable
  have pos := List.length_pos_iff.mpr ne
  rcases (mem_gaps_append blank unblank).mp reached with zero | ⟨g, hg, length⟩
  · rw [List.length_append] at zero
    omega
  · obtain rfl := (mem_gaps_of_none solid).mp hg
    rw [List.length_append] at length
    omega

/-- No token stands in blanks. -/
theorem not_fits_blank {gap mid : List Char} {t : Token} (blank : ∀ c ∈ gap, c = ' ') :
    ¬ t.Fits gap mid := by
  intro fits
  rw [← List.append_nil gap] at fits
  obtain ⟨text, -⟩ := fits_append blank rfl rfl fits
  exact fits.text_ne_nil (List.append_eq_nil_iff.mp text.symm).1

/-! ### Two readers of one text -/

/-- The rest of a reading of the text: the reader takes the terminals of its
    tokens, and it may end where they do. -/
structure Rival (s : State) (v : List Token) (text : List Char) : Prop where
  /-- The tokens fit, and what they leave can be skipped. -/
  fit : ∃ rest, Fit v text rest ∧ isSkippable rest = true
  /-- The reader takes them, and ends. -/
  ends : ∃ s' n, run s (v.map bare) = some s' ∧ s'.script? = some n

/-- The tokens of a reading come one after the other. -/
theorem Rival.cons {s : State} {t : Token} {v : List Token} {text : List Char}
    (h : Rival s (t :: v) text) :
    ∃ mid s₁, t.Fits text mid ∧ next s (bare t) = some s₁ ∧ Rival s₁ v mid := by
  obtain ⟨⟨rest, fit, skippable⟩, s', n, reads, script⟩ := h
  cases fit with
  | @cons _ _ _ mid _ first others =>
    obtain ⟨s₁, step, reads⟩ := Option.bind_eq_some_iff.mp reads
    exact ⟨mid, s₁, first, step, ⟨rest, others, skippable⟩, s', n, reads, script⟩

/-- Where no token is left the reader may end. -/
theorem Rival.nil {s : State} {text : List Char} (h : Rival s [] text) :
    isSkippable text = true ∧ s.phase.ends = true := by
  obtain ⟨⟨rest, fit, skippable⟩, s', n, reads, script⟩ := h
  cases fit
  cases reads
  exact ⟨skippable, ends_of_script? script⟩

/-- The first reader takes the rest of the lexemes and ends. -/
def Finishes (p : Phase) (w : List Lexeme) : Prop :=
  ∃ p', p.tidyRun w = some p' ∧ p'.ends = true

theorem Finishes.cons {p : Phase} {l : Lexeme} {w : List Lexeme} (h : Finishes p (l :: w)) :
    ∃ p', p.tidyNext l.terminal = some p' ∧ Finishes p' w := by
  obtain ⟨p', reads, ends⟩ := h
  obtain ⟨p₁, step, reads⟩ := Option.bind_eq_some_iff.mp reads
  exact ⟨p₁, step, p', reads, ends⟩

/-- No lexeme ends so that a line end after it would be escaped. -/
def Unescaped (w : List Lexeme) : Prop :=
  ∀ l ∈ w, endsEscaped l.text = false

/-- What a token does that stands where a lexeme does: it contests the lexeme. -/
def Contested (l : Lexeme) (rest text : List Char) : Prop :=
  ∀ (t : Token) (mid : List Char), t.Fits text mid → Contest l rest t mid

/-- A laid out text starts with a lexeme that every token contests, or nothing is
    left of it. -/
theorem laid_cases {w : List Lexeme} {text : List Char} (h : Laid w text) (clean : Unescaped w) :
    (w = [] ∧ ∀ c ∈ text, c = ' ') ∨
      ∃ l w' rest, w = l :: w' ∧ Laid w' rest ∧ Contested l rest text ∧
        isSkippable text = false := by
  cases h with
  | done blank => exact .inl ⟨rfl, blank⟩
  | @token l w gap rest blank stands others =>
    right
    have here := clean l (List.mem_cons_self ..)
    -- A lexeme that stands is contested, and its ink keeps the text from being skipped.
    refine ⟨l, w, rest, rfl, others, fun t mid fits => stands.contest here blank fits, ?_⟩
    apply not_isSkippable blank (startsUnblank_of_ink stands.ink) (skip?_of_stands stands here)
    simp [text_ne_nil_of_stands stands]
  | @newline w gap run rest blank lines ink others =>
    right
    exact ⟨_, w, rest, rfl, others, fun t mid fits => contest_newline blank lines ink fits,
      not_isSkippable blank rfl rfl (by simp)⟩

/-- Readers that have gone astray do not both get to the end. -/
theorem not_rival_of_stray {p : Phase} {s : State} {w : List Lexeme} {v : List Token}
    {text : List Char} (stray : strays.contains (p, s.phase) = true) (laid : Laid w text)
    (clean : Unescaped w) (finishes : Finishes p w) : ¬ Rival s v text := by
  intro rival
  rcases laid_cases laid clean with ⟨rfl, blank⟩ | ⟨l, w, rest, rfl, others, contested, solid⟩
  · cases v with
    | nil =>
      -- At the end of the text both would have to end, and stray phases do not.
      obtain ⟨p', reads, ends⟩ := finishes
      cases reads
      exact not_ends_of_stray stray ⟨ends, rival.nil.2⟩
    | cons t v =>
      obtain ⟨mid, s₁, fits, -, -⟩ := rival.cons
      exact not_fits_blank blank fits
  · cases v with
    | nil =>
      rw [rival.nil.1] at solid
      cases solid
    | cons t v =>
      obtain ⟨mid, s₁, fits, step, -⟩ := rival.cons
      -- Otherwise both would have to take what stands next.
      obtain ⟨p', first, -⟩ := finishes.cons
      exact not_bothTake_of_stray stray (contests_of_contest (contested t mid fits))
        ⟨first, next_phase step⟩

/-- No word is spelled like a reserved word that separates the parts of a
    construct, if the second reader is inside such a construct or gets there. -/
def Distinct (s : State) (w : List Lexeme) : Prop :=
  ∀ r k, partOf? r = some k → (s.Inside k ∨ ∃ l ∈ w, startOf? l.terminal = some k) →
    (⟨.word, r.spelling⟩ : Lexeme) ∉ w

/-- What tells words apart from reserved words is kept by steps that both readers
    take in the same way as far as constructs are started. -/
theorem Distinct.next {s s₁ : State} {l : Lexeme} {t : Token} {w : List Lexeme}
    (h : Distinct s (l :: w)) (step : Parse.next s (bare t) = some s₁)
    (same : startOf? t.terminal = none ∨ l.terminal = t.terminal) : Distinct s₁ w := by
  intro r k part inside mem
  refine h r k part ?_ (List.mem_cons_of_mem _ mem)
  rcases inside with inside | ⟨l', hl', start⟩
  · -- What the step opens was open before or is started by the token.
    rcases opens_next step k inside with before | start
    · exact .inl before
    · rcases same with none | same
      · change startOf? t.terminal = some k at start
        rw [none] at start
        cases start
      · exact .inr ⟨l, List.mem_cons_self .., same ▸ start⟩
  · exact .inr ⟨l', List.mem_cons_of_mem _ hl', start⟩

/-- The second reader takes at least as much balance as the first.  If both start
    in the same phase and take the same balance, then they take the same
    lexemes. -/
theorem Laid.aligned {w : List Lexeme} {text : List Char} (laid : Laid w text) :
    ∀ {p : Phase} {s : State} {v : List Token}, linked p s.phase = true → Unescaped w →
      Finishes p w → Distinct s w → Rival s v text →
      balance w ≤ balance (v.map bare) ∧
        (p = s.phase → balance w = balance (v.map bare) → v.map lexeme = w) := by
  induction w generalizing text with
  | nil =>
    intro p s v link clean finishes distinct rival
    cases v with
    | nil => exact ⟨Int.le_refl _, fun _ _ => rfl⟩
    | cons t v =>
      obtain ⟨mid, s₁, fits, -, -⟩ := rival.cons
      rcases laid_cases laid clean with ⟨-, blank⟩ | ⟨l, w, rest, eq, -⟩
      · exact absurd fits (not_fits_blank blank)
      · cases eq
  | cons l w ih =>
    intro p s v link clean finishes distinct rival
    rcases laid_cases laid clean with ⟨eq, -⟩ | ⟨_, _, rest, eq, others, contested, solid⟩
    · cases eq
    obtain ⟨rfl, rfl⟩ := List.cons.inj eq
    cases v with
    | nil =>
      rw [rival.nil.1] at solid
      cases solid
    | cons t v =>
      obtain ⟨mid, s₁, fits, step, later⟩ := rival.cons
      obtain ⟨p₁, first, finishes⟩ := finishes.cons
      have second := next_phase step
      have clean' : Unescaped w := fun l hl => clean l (List.mem_cons_of_mem _ hl)
      cases contested t mid fits with
      | rival same left compete =>
        subst left
        have holds := stepHolds_of_rivals ⟨first, second⟩ link compete
        simp only [stepHolds, Bool.or_eq_true, Bool.and_eq_true, decide_eq_true_eq] at holds
        rcases holds with stray | ⟨⟨⟨link', tilts⟩, starts⟩, equal⟩
        · exact absurd later (not_rival_of_stray stray others clean' finishes)
        · have starts : startOf? t.terminal = none ∨ l.terminal = t.terminal :=
            starts.imp Option.isNone_iff_eq_none.mp eq_of_beq
          obtain ⟨less, align⟩ := ih others link' clean' finishes (distinct.next step starts) later
          have own : balance (l :: w) = tilt l.terminal + balance w := rfl
          have other : balance ((t :: v).map bare) = tilt t.terminal + balance (v.map bare) := rfl
          refine ⟨by change tilt _ ≤ tilt t.terminal at tilts; omega, fun phases balances => ?_⟩
          -- Equal balances leave no room for a difference here or later.
          have level : tilt l.terminal = tilt t.terminal ∧ balance w = balance (v.map bare) := by
            change tilt _ ≤ tilt t.terminal at tilts
            omega
          have terminal : t.terminal = l.terminal := by
            rcases equal with (differ | same) | tilted
            · simp [phases] at differ
            · exact (eq_of_beq same).symm
            · change tilt _ < tilt t.terminal at tilted
              omega
          have phases' : p₁ = s₁.phase := by
            apply Option.some.inj
            rw [← next_of_tidyNext first, ← second, phases, ← terminal]
            rfl
          rw [List.map_cons, same terminal, align phases' level.2]
      | part terminal family word =>
        have inside := inside_of_part step terminal family
        exact absurd (word ▸ List.mem_cons_self ..) (distinct _ _ family (.inl inside))
      | name terminal other =>
        have takes : s.phase.next .name ≠ none := by
          intro none
          change s.phase.next t.terminal = _ at second
          rw [terminal, none] at second
          cases second
        exact absurd ((names_part link first).1 takes) other
      | functionName terminal other stuck =>
        change s.phase.next t.terminal = _ at second
        rw [terminal] at second
        have phase := (names_part link first).2 _ second other
        exfalso
        cases v with
        | nil =>
          have ends := later.nil.2
          rw [phase] at ends
          cases ends
        | cons t' v =>
          obtain ⟨mid', s₂, fits', step', -⟩ := later.cons
          have take := next_phase step'
          rw [phase] at take
          exact stuck t' mid' (next_functionName take) fits'
      | half sign half terminal solid' stuck =>
        change s.phase.next t.terminal = _ at second
        rw [terminal] at second
        exfalso
        cases v with
        | nil =>
          rw [later.nil.1] at solid'
          cases solid'
        | cons t' v =>
          obtain ⟨mid', s₂, fits', step', -⟩ := later.cons
          have take := next_phase step'
          have none := next_half half second (stuck t' mid' fits')
          change s₁.phase.next t'.terminal = _ at take
          rw [none] at take
          cases take

/-- No word is spelled like a reserved word that separates the parts of a
    construct, if some lexeme starts such a construct. -/
def Unmistakable (w : List Lexeme) : Prop :=
  ∀ r k, partOf? r = some k → (∃ l ∈ w, startOf? l.terminal = some k) →
    (⟨.word, r.spelling⟩ : Lexeme) ∉ w

/-- The tokens of every derivation of a text are the lexemes that it is laid out
    from with care. -/
theorem tokens_eq {w : List Lexeme} {text : List Char} {qs : List Piece} {t : Tree}
    (reads : Reads .script w qs) (tidy : isTidy true w = true) (laid : Laid w text)
    (clean : Unescaped w) (distinct : Unmistakable w) (h : t.DerivesScript text) :
    t.tokens.map lexeme = w := by
  obtain ⟨item, rest, derives, skippable⟩ := h
  obtain ⟨ps, reads'⟩ := exists_reads_bare derives .script item
  obtain ⟨s, n, -, run₁, script₁⟩ := reads.run_script
  obtain ⟨s', n', -, run₂, script₂⟩ := reads'.run_script
  -- Both the lexemes and the tokens are readings, and the reader follows each of them.
  have finishes : Finishes State.initial.phase w :=
    ⟨s.phase, tidyRun_of_run run₁ tidy (fun _ => rfl), ends_of_script? script₁⟩
  have rival : Rival .initial t.tokens text :=
    ⟨⟨rest, fit_tokens derives, skippable⟩, s', n', run₂, script₂⟩
  have distinct' : Distinct .initial w := by
    intro r k part inside
    apply distinct r k part
    rcases inside with (top | ⟨f, hf, -⟩) | start
    · cases top
    · cases hf
    · exact start
  apply (laid.aligned rfl clean finishes distinct' rival).2 rfl
  -- Both readings are balanced, and with equal balances the tokens are the lexemes.
  rw [reads.balance_eq_zero, reads'.balance_eq_zero]

end ShellInliner.Parse
