import ShellInliner.Proofs.Parse.Phase

/-! # Constructs that are open

    Some reserved words only separate the parts of a conditional, a loop or a
    choice.  The reader takes such a word only inside a construct of the right
    family, and it gets inside one only by a reserved word that starts it. -/

namespace ShellInliner.Parse

open Grammar

/-! ### Families -/

/-- The constructs whose parts reserved words separate. -/
inductive Family
  /-- Conditionals. -/
  | conditional
  /-- Loops. -/
  | loop
  /-- Choices by pattern. -/
  | choice
  deriving DecidableEq, Repr

/-- The constructs that a terminal starts. -/
def startOf? : Terminal → Option Family
  | .reserved .ifWord => some .conditional
  | .reserved .whileWord | .reserved .untilWord | .reserved .forWord => some .loop
  | .reserved .caseWord => some .choice
  | _ => none

/-- The constructs whose parts a reserved word separates, or which it ends where
    a word may stand as well. -/
def partOf? : Reserved → Option Family
  | .thenWord | .elseWord | .elifWord => some .conditional
  | .doWord => some .loop
  | .esacWord => some .choice
  | _ => none

/-- The constructs that a list of statements is a part of. -/
def Owner.family? : Owner → Option Family
  | clause _ | positive _ _ | negative _ _ _ => some .conditional
  | loopClause _ | loopBody _ => some .loop
  | choice _ _ _ => some .choice
  | script | brace | paren => none

/-- The constructs whose start the reader is in the middle of. -/
def Heading.family : Heading → Family
  | forName | forIn _ | forWords _ _ | forDo _ _ => .loop
  | caseWord | caseIn _ | patterns _ _ _ _ => .choice

/-- The constructs that the reader is in the middle of, not counting those
    around. -/
def Top.family? : Top → Option Family
  | list f => f.owner.family?
  | heading h => some h.family

/-- The reader is inside a construct of the family. -/
def State.Inside (s : State) (k : Family) : Prop :=
  s.top.family? = some k ∨ ∃ f ∈ s.below, f.owner.family? = some k

/-! ### Steps -/

section

variable {f g : Frame} {σ : List Frame} {l : Lexeme} {s s' : State} {n : Node} {k : Family}

/-- What the reader is inside of after a step it was inside of before, or the
    terminal starts it. -/
def Opens (t : Terminal) (s s' : State) : Prop :=
  ∀ k, s'.Inside k → s.Inside k ∨ startOf? t = some k

/-- The reader stays in a list of the same family. -/
theorem opens_stay {t : Terminal} (h : g.owner.family? = f.owner.family?) :
    Opens t (.inList f σ) (.inList g σ) := by
  intro k inside
  left
  rcases inside with top | below
  · exact .inl (h.symm.trans top)
  · exact .inr below

/-- A list is left, and the one around it goes on. -/
theorem opens_pop {t : Terminal} {top : Top} (h : pop σ n = some s') : Opens t ⟨top, σ⟩ s' := by
  cases σ with
  | nil => cases h
  | cons g σ =>
    obtain ⟨g', hg, rfl⟩ := Option.map_eq_some_iff.mp h
    obtain ⟨function, -, rfl⟩ := Option.map_eq_some_iff.mp hg
    intro k inside
    left
    right
    rcases inside with top | ⟨f, hf, family⟩
    · exact ⟨g, List.mem_cons_self .., top⟩
    · exact ⟨f, List.mem_cons_of_mem _ hf, family⟩

/-- Something is opened inside a list. -/
theorem opens_open {t : Terminal} {top : Top} (h : top.family? = startOf? t) :
    Opens t (.inList f σ) ⟨top, f :: σ⟩ := by
  intro k inside
  rcases inside with here | ⟨g, hg, family⟩
  · exact .inr (h ▸ here)
  · left
    rcases List.mem_cons.mp hg with rfl | hg
    · exact .inl family
    · exact .inr ⟨g, hg, family⟩

theorem opens_push {t : Terminal} {owner : Owner} {mode : Mode} (h : push f σ owner mode = some s')
    (family : owner.family? = startOf? t) : Opens t (.inList f σ) s' := by
  obtain ⟨_, _, rfl⟩ := Option.map_eq_some_iff.mp h
  exact opens_open family

/-- A statement is finished, and the list goes on. -/
theorem opens_finish {t : Terminal} {x : Option Node} {k : Node → Frame}
    (hk : ∀ n, (k n).owner = f.owner) (h : (x.map k).map (State.inList · σ) = some s') :
    Opens t (.inList f σ) s' := by
  obtain ⟨g, hg, rfl⟩ := Option.map_eq_some_iff.mp h
  obtain ⟨n, -, rfl⟩ := Option.map_eq_some_iff.mp hg
  exact opens_stay (by rw [hk])

/-- A list is finished, and another part of the same construct follows. -/
theorem opens_switch {t : Terminal} {x : Option (List Node)} {k : List Node → Owner}
    (hk : ∀ ns, (k ns).family? = f.owner.family?)
    (h : (x.map fun ns => Frame.begin (k ns) []).map (State.inList · σ) = some s') :
    Opens t (.inList f σ) s' := by
  obtain ⟨g, hg, rfl⟩ := Option.map_eq_some_iff.mp h
  obtain ⟨ns, -, rfl⟩ := Option.map_eq_some_iff.mp hg
  exact opens_stay (hk ns)

/-- A part of a command stays in its list. -/
theorem opens_command {t : Terminal} {x : Option Mode}
    (h : (x.map fun mode => { f with mode }).map (State.inList · σ) = some s') :
    Opens t (.inList f σ) s' := by
  obtain ⟨g, hg, rfl⟩ := Option.map_eq_some_iff.mp h
  obtain ⟨m, -, rfl⟩ := Option.map_eq_some_iff.mp hg
  exact opens_stay rfl

theorem opens_newline {t : Terminal} (h : (stepNewline f).map (State.inList · σ) = some s') :
    Opens t (.inList f σ) s' := by
  obtain ⟨g, hg, rfl⟩ := Option.map_eq_some_iff.mp h
  apply opens_stay
  unfold stepNewline at hg
  split at hg
  case h_6 =>
    obtain ⟨n, -, rfl⟩ := Option.map_eq_some_iff.mp hg
    rfl
  all_goals
    cases hg
    rfl

/-- A parenthesis opens a list, or belongs to the name of a function. -/
theorem opens_openParen {text : List Char} (h : stepList f σ ⟨.sign .openParen, text⟩ = some s') :
    Opens (.sign .openParen) (.inList f σ) s' := by
  simp only [stepList] at h
  split at h
  · cases h
    exact opens_stay rfl
  · exact opens_push h rfl
  · exact opens_push h rfl

theorem opens_closeParen {text : List Char} (h : stepList f σ ⟨.sign .closeParen, text⟩ = some s') :
    Opens (.sign .closeParen) (.inList f σ) s' := by
  simp only [stepList] at h
  split at h
  · cases h
    exact opens_stay rfl
  · -- The list that was opened turns out to be the parentheses of a name, and is gone.
    split at h
    · rename_i g below _ _ _ _
      cases h
      intro k inside
      left
      right
      rcases inside with top | ⟨f, hf, family⟩
      · exact ⟨g, List.mem_cons_self .., top⟩
      · exact ⟨f, List.mem_cons_of_mem _ hf, family⟩
    · cases h
  · split at h
    · obtain ⟨ns, -, h⟩ := Option.bind_eq_some_iff.mp h
      exact opens_pop h
    · cases h

theorem opens_sign {sign : Sign} {text : List Char} (h : stepList f σ ⟨.sign sign, text⟩ = some s') :
    Opens (.sign sign) (.inList f σ) s' := by
  cases sign with
  | semicolon | ampersand | andIf | orIf | bar =>
    refine opens_finish ?_ h
    intro n
    rfl
  | openParen => exact opens_openParen h
  | closeParen => exact opens_closeParen h
  | doubleSemicolon =>
    obtain ⟨c, hc, rfl⟩ := Option.map_eq_some_iff.mp h
    obtain ⟨ns, -, hc⟩ := Option.bind_eq_some_iff.mp hc
    split at hc
    · -- The branches of the choice go on.
      rename_i owner
      intro k inside
      left
      rcases inside with top | below
      · left
        show f.owner.family? = some k
        rw [owner]
        exact top
      · exact .inr below
    · cases hc

theorem opens_reserved {r : Reserved} {text : List Char}
    (h : stepList f σ ⟨.reserved r, text⟩ = some s') : Opens (.reserved r) (.inList f σ) s' := by
  cases r with
  | ifWord | whileWord | untilWord | openBrace => exact opens_push h rfl
  | forWord | caseWord =>
    obtain ⟨_, _, rfl⟩ := Option.map_eq_some_iff.mp h
    exact opens_open rfl
  | bang =>
    simp only [stepList] at h
    split at h
    · cases h
      exact opens_stay rfl
    · cases h
  | thenWord | elifWord | elseWord | doWord =>
    simp only [stepList] at h
    split at h
    · rename_i owner
      exact opens_switch (fun _ => by rw [owner]; rfl) h
    · cases h
  | closeBrace | doneWord =>
    simp only [stepList] at h
    split at h
    · obtain ⟨ns, -, h⟩ := Option.bind_eq_some_iff.mp h
      exact opens_pop h
    · cases h
  | fiWord | esacWord =>
    obtain ⟨c, -, h⟩ := Option.bind_eq_some_iff.mp h
    exact opens_pop h
  | functionWord => exact opens_command h
  | inWord => simp [stepList, stepCommand] at h

theorem opens_stepList (h : stepList f σ l = some s') : Opens l.terminal (.inList f σ) s' := by
  obtain ⟨t, text⟩ := l
  cases t with
  | newline => exact opens_newline h
  | sign sign => exact opens_sign h
  | reserved r => exact opens_reserved h
  | name => simp [stepList, stepCommand] at h
  | _ => exact opens_command h

theorem opens_stepHeading {h : Heading} (hs : stepHeading σ h l = some s') :
    Opens l.terminal ⟨.heading h, σ⟩ s' := by
  unfold stepHeading at hs
  split at hs
  -- A choice may end before its first pattern; no other step leaves the construct.
  case h_16 => exact opens_pop hs
  case h_21 => cases hs
  all_goals
    cases hs
    intro k inside
    exact .inl inside

/-- The reader gets inside a construct only by a reserved word that starts it. -/
theorem opens_next (h : next s l = some s') : Opens l.terminal s s' := by
  obtain ⟨top, σ⟩ := s
  cases top with
  | list f => exact opens_stepList h
  | heading k => exact opens_stepHeading h

/-- The reader takes a reserved word that separates parts only inside a construct
    of the right family. -/
theorem inside_of_part {r : Reserved} (h : next s l = some s') (hl : l.terminal = .reserved r)
    (part : partOf? r = some k) : s.Inside k := by
  obtain ⟨t, text⟩ := l
  subst hl
  obtain ⟨top, σ⟩ := s
  left
  -- Words that separate parts are taken in lists by their owner and in headings by their stage.
  cases top with
  | list f =>
    cases r with
    | thenWord | elifWord | elseWord | doWord =>
      cases part
      simp only [next, stepList] at h
      split at h
      · rename_i owner
        show f.owner.family? = some _
        rw [owner]
        rfl
      · cases h
    | esacWord =>
      cases part
      obtain ⟨c, hc, -⟩ := Option.bind_eq_some_iff.mp h
      obtain ⟨ns, -, hc⟩ := Option.bind_eq_some_iff.mp hc
      split at hc
      · rename_i owner
        show f.owner.family? = some _
        rw [owner]
        rfl
      · cases hc
    | _ => cases part
  | heading g =>
    cases r with
    | thenWord | elifWord | elseWord | doWord =>
      cases part
      cases g <;> first | rfl | simp [next, stepHeading] at h
    | esacWord =>
      cases part
      cases g <;> first | rfl | simp [next, stepHeading] at h
    | _ => cases part

end

end ShellInliner.Parse
