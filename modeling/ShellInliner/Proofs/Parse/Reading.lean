import ShellInliner.Parse.Piece
import ShellInliner.Proofs.Grammar.Length

/-! # Readings

    A reading says how a symbol is made from lexemes, and which pieces come out
    of it.  It forgets where tokens stand and what was skipped before them, so
    it is what a derivation and the tree built from it have in common: every
    derivation that can be built is a reading of its tokens, and every reading
    of tokens that fit a text is a derivation that can be built.

    The productions of a symbol are its alternatives written out.  `Reads.induct`
    and `Reads.of` speak of the alternatives themselves, so that proofs follow
    the grammar as it is given. -/

namespace ShellInliner.Parse

open Grammar

/-! ### Lexemes -/

/-- A terminal with its characters.  Of line ends only the terminal counts. -/
structure Lexeme where
  /-- The terminal. -/
  terminal : Terminal
  /-- Its characters. -/
  text : List Char
  deriving DecidableEq, Repr

/-- The pieces of a lexeme, when places are not wanted. -/
def Lexeme.pieces (l : Lexeme) : List Piece :=
  tokenPieces none ⟨l.terminal, [], l.text⟩

/-- The lexeme of a token. -/
def lexeme (t : Token) : Lexeme :=
  ⟨t.terminal, if t.terminal = .newline then [] else t.text⟩

theorem pieces_lexeme (t : Token) : (lexeme t).pieces = tokenPieces none t := by
  obtain ⟨terminal, gap, text⟩ := t
  by_cases h : terminal = .newline
  · subst h
    rfl
  · simp only [lexeme, h, if_false, Lexeme.pieces]
    rfl

theorem nodesOf_map_node (ns : List Node) : nodesOf (ns.map .node) = ns := by
  induction ns with
  | nil => rfl
  | cons n ns ih =>
    show n :: nodesOf (ns.map .node) = n :: ns
    rw [ih]

/-! ### Readings of symbols -/

mutual

/-- The symbol reads the lexemes, and these pieces come out. -/
inductive Reads : Symbol → List Lexeme → List Piece → Prop
  /-- A production is read, and the symbol makes its own pieces. -/
  | production {s : Symbol} {items : List Item} {w : List Lexeme} {ps qs : List Piece}
      (mem : items ∈ s.productions) (row : RowReads items w ps)
      (made : symbolPieces s none ps = .ok qs) : Reads s w qs

/-- The items read the lexemes one after the other. -/
inductive RowReads : List Item → List Lexeme → List Piece → Prop
  /-- No items read nothing. -/
  | nil : RowReads [] [] []
  /-- A terminal reads its lexeme. -/
  | token {l : Lexeme} {xs : List Item} {w : List Lexeme} {ps : List Piece}
      (others : RowReads xs w ps) : RowReads (.token l.terminal :: xs) (l :: w) (l.pieces ++ ps)
  /-- A symbol reads the lexemes at the start. -/
  | symbol {s : Symbol} {xs : List Item} {w₁ w₂ : List Lexeme} {ps₁ ps₂ : List Piece}
      (first : Reads s w₁ ps₁) (others : RowReads xs w₂ ps₂) :
      RowReads (.symbol s :: xs) (w₁ ++ w₂) (ps₁ ++ ps₂)

end

/-! ### Readings of alternatives -/

/-- What a symbol reads, and what comes out. -/
abbrev Meaning := Symbol → List Lexeme → List Piece → Prop

/-- What a row of items reads, given what symbols do. -/
def itemsRead (P : Meaning) : List Item → List Lexeme → List Piece → Prop
  | [], w, ps => w = [] ∧ ps = []
  | .token t :: xs, w, ps =>
    ∃ text w' ps', w = ⟨t, text⟩ :: w' ∧ ps = Lexeme.pieces ⟨t, text⟩ ++ ps' ∧ itemsRead P xs w' ps'
  | .symbol s :: xs, w, ps =>
    ∃ w₁ w₂ ps₁ ps₂, w = w₁ ++ w₂ ∧ ps = ps₁ ++ ps₂ ∧ P s w₁ ps₁ ∧ itemsRead P xs w₂ ps₂

mutual

/-- What an element reads, given what symbols do. -/
def elementReads (P : Meaning) : Element → List Lexeme → List Piece → Prop
  | .token t, w, ps => ∃ text, w = [⟨t, text⟩] ∧ ps = Lexeme.pieces ⟨t, text⟩
  | .symbol s, w, ps => P s w ps
  | .choice alternatives, w, ps => anyReads P alternatives w ps

/-- What one of several rows reads. -/
def anyReads (P : Meaning) : List (List Element) → List Lexeme → List Piece → Prop
  | [], _, _ => False
  | [row], w, ps => rowReads P row w ps
  | row :: rows, w, ps => rowReads P row w ps ∨ anyReads P rows w ps

/-- What a row of elements reads. -/
def rowReads (P : Meaning) : List Element → List Lexeme → List Piece → Prop
  | [], w, ps => w = [] ∧ ps = []
  | [e], w, ps => elementReads P e w ps
  | .token t :: es, w, ps =>
    ∃ text w' ps', w = ⟨t, text⟩ :: w' ∧ ps = Lexeme.pieces ⟨t, text⟩ ++ ps' ∧ rowReads P es w' ps'
  | e :: es, w, ps =>
    ∃ w₁ w₂ ps₁ ps₂, w = w₁ ++ w₂ ∧ ps = ps₁ ++ ps₂ ∧
      elementReads P e w₁ ps₁ ∧ rowReads P es w₂ ps₂

end

section

variable {P : Meaning} {w : List Lexeme} {ps : List Piece}

theorem anyReads_cons {row : List Element} {rows : List (List Element)} :
    anyReads P (row :: rows) w ps ↔ rowReads P row w ps ∨ anyReads P rows w ps := by
  cases rows <;> simp [anyReads]

/-- A row reads as its first element and the others do, one after the other. -/
theorem rowReads_cons {e : Element} {es : List Element} :
    rowReads P (e :: es) w ps ↔
      ∃ w₁ w₂ ps₁ ps₂, w = w₁ ++ w₂ ∧ ps = ps₁ ++ ps₂ ∧
        elementReads P e w₁ ps₁ ∧ rowReads P es w₂ ps₂ := by
  cases es with
  | nil =>
    simp only [rowReads]
    constructor
    · intro h
      exact ⟨w, [], ps, [], (List.append_nil w).symm, (List.append_nil ps).symm, h, rfl, rfl⟩
    · rintro ⟨_, _, _, _, rfl, rfl, h, rfl, rfl⟩
      rwa [List.append_nil, List.append_nil]
  -- A last element is written without the empty row after it, so this case is not the first.
  | cons e' es =>
    cases e with
    | token t =>
      simp only [rowReads, elementReads]
      constructor
      · rintro ⟨text, w', ps', rfl, rfl, h⟩
        exact ⟨_, w', _, ps', rfl, rfl, ⟨text, rfl, rfl⟩, h⟩
      · rintro ⟨_, w', _, ps', rfl, rfl, ⟨text, rfl, rfl⟩, h⟩
        exact ⟨text, w', ps', rfl, rfl, h⟩
    | symbol s => simp only [rowReads]
    | choice rows => simp only [rowReads]

end

theorem itemsRead_append {P : Meaning} {xs ys : List Item} {w : List Lexeme} {ps : List Piece} :
    itemsRead P (xs ++ ys) w ps ↔
      ∃ w₁ w₂ ps₁ ps₂, w = w₁ ++ w₂ ∧ ps = ps₁ ++ ps₂ ∧ itemsRead P xs w₁ ps₁ ∧
        itemsRead P ys w₂ ps₂ := by
  induction xs generalizing w ps with
  | nil =>
    constructor
    · intro h
      exact ⟨[], w, [], ps, rfl, rfl, ⟨rfl, rfl⟩, h⟩
    · rintro ⟨_, _, _, _, rfl, rfl, ⟨rfl, rfl⟩, h⟩
      exact h
  | cons x xs ih =>
    cases x with
    -- A token keeps its lexeme; only the brackets around the rest move.
    | token t =>
      simp only [List.cons_append, itemsRead, ih]
      constructor
      · rintro ⟨text, _, _, rfl, rfl, w₁, w₂, ps₁, ps₂, rfl, rfl, h₁, h₂⟩
        exact ⟨_, w₂, _, ps₂, rfl, (List.append_assoc ..).symm, ⟨text, w₁, ps₁, rfl, rfl, h₁⟩, h₂⟩
      · rintro ⟨_, w₂, _, ps₂, rfl, rfl, ⟨text, w₁, ps₁, rfl, rfl, h₁⟩, h₂⟩
        exact ⟨text, _, _, rfl, List.append_assoc .., w₁, w₂, ps₁, ps₂, rfl, rfl, h₁, h₂⟩
    | symbol s =>
      simp only [List.cons_append, itemsRead, ih]
      constructor
      · rintro ⟨v, _, qs, _, rfl, rfl, h, w₁, w₂, ps₁, ps₂, rfl, rfl, h₁, h₂⟩
        exact ⟨_, w₂, _, ps₂, (List.append_assoc ..).symm, (List.append_assoc ..).symm,
          ⟨v, w₁, qs, ps₁, rfl, rfl, h, h₁⟩, h₂⟩
      · rintro ⟨_, w₂, _, ps₂, rfl, rfl, ⟨v, w₁, qs, ps₁, rfl, rfl, h, h₁⟩, h₂⟩
        exact ⟨v, _, qs, _, List.append_assoc .., List.append_assoc .., h, w₁, w₂, ps₁, ps₂, rfl,
          rfl, h₁, h₂⟩

mutual

/-- An element reads what one of its writings does. -/
theorem elementReads_iff {P : Meaning} {w : List Lexeme} {ps : List Piece} :
    ∀ e : Element, elementReads P e w ps ↔ ∃ xs ∈ e.writings, itemsRead P xs w ps
  | .token t => by simp [elementReads, Element.writings, itemsRead]
  | .symbol s => by
    simp only [elementReads, Element.writings, List.mem_singleton, exists_eq_left, itemsRead]
    constructor
    · intro h
      exact ⟨w, [], ps, [], (List.append_nil w).symm, (List.append_nil ps).symm, h, rfl, rfl⟩
    · rintro ⟨_, _, _, _, rfl, rfl, h, rfl, rfl⟩
      rwa [List.append_nil, List.append_nil]
  | .choice alternatives => by
    rw [elementReads, Element.writings]
    exact anyReads_iff alternatives

/-- One of several rows reads what one of their writings does. -/
theorem anyReads_iff {P : Meaning} {w : List Lexeme} {ps : List Piece} :
    ∀ rows : List (List Element),
      anyReads P rows w ps ↔ ∃ xs ∈ Element.choiceWritings rows, itemsRead P xs w ps
  | [] => by simp [anyReads, Element.choiceWritings]
  | row :: rows => by
    simp only [anyReads_cons, Element.choiceWritings, List.mem_append, rowReads_iff row,
      anyReads_iff rows, or_and_right, exists_or]

/-- A row reads what one of its writings does. -/
theorem rowReads_iff {P : Meaning} {w : List Lexeme} {ps : List Piece} :
    ∀ es : List Element, rowReads P es w ps ↔ ∃ xs ∈ Element.rowWritings es, itemsRead P xs w ps
  | [] => by simp [rowReads, Element.rowWritings, itemsRead]
  | e :: es => by
    simp only [rowReads_cons, Element.rowWritings, List.mem_flatMap, List.mem_map,
      elementReads_iff e, rowReads_iff es]
    constructor
    · rintro ⟨w₁, w₂, ps₁, ps₂, rfl, rfl, ⟨xs, hxs, h₁⟩, ys, hys, h₂⟩
      exact ⟨xs ++ ys, ⟨xs, hxs, ys, hys, rfl⟩,
        itemsRead_append.mpr ⟨w₁, w₂, ps₁, ps₂, rfl, rfl, h₁, h₂⟩⟩
    · rintro ⟨_, ⟨xs, hxs, ys, hys, rfl⟩, h⟩
      obtain ⟨w₁, w₂, ps₁, ps₂, rfl, rfl, h₁, h₂⟩ := itemsRead_append.mp h
      exact ⟨w₁, w₂, ps₁, ps₂, rfl, rfl, ⟨xs, hxs, h₁⟩, ys, hys, h₂⟩

end

theorem rowReads_of_itemsRead {xs : List Item} {w : List Lexeme} {ps : List Piece}
    (h : itemsRead Reads xs w ps) : RowReads xs w ps := by
  induction xs generalizing w ps with
  | nil =>
    obtain ⟨rfl, rfl⟩ := h
    exact .nil
  | cons x xs ih =>
    cases x with
    | token t =>
      obtain ⟨text, w', ps', rfl, rfl, h⟩ := h
      exact .token (l := ⟨t, text⟩) (ih h)
    | symbol s =>
      obtain ⟨w₁, w₂, ps₁, ps₂, rfl, rfl, first, others⟩ := h
      exact .symbol first (ih others)

/-- A symbol reads what its alternatives read. -/
theorem Reads.of {s : Symbol} {w : List Lexeme} {p qs : List Piece}
    (h : anyReads Reads s.alternatives w p) (made : symbolPieces s none p = .ok qs) :
    Reads s w qs := by
  obtain ⟨items, mem, row⟩ := (anyReads_iff s.alternatives).mp h
  exact .production mem (rowReads_of_itemsRead row) made

/-- What passes from the parts of the alternatives of a symbol to the symbol
    holds of every reading. -/
theorem Reads.induct {P : Meaning}
    (step : ∀ s w ps qs, anyReads P s.alternatives w ps → symbolPieces s none ps = .ok qs → P s w qs)
    {s : Symbol} {w : List Lexeme} {qs : List Piece} (h : Reads s w qs) : P s w qs := by
  -- Rows are read in terms of the property itself.
  refine Reads.rec (motive_1 := fun s w qs _ => P s w qs)
    (motive_2 := fun xs w ps _ => itemsRead P xs w ps) ?production ?nil ?token ?symbol h
  case production =>
    intro s items w ps qs mem _ made row
    exact step s w ps qs ((anyReads_iff s.alternatives).mpr ⟨items, mem, row⟩) made
  case nil =>
    exact ⟨rfl, rfl⟩
  case token =>
    intro l xs w ps _ others
    exact ⟨l.text, w, ps, rfl, rfl, others⟩
  case symbol =>
    intro s xs w₁ w₂ ps₁ ps₂ _ _ first others
    exact ⟨w₁, w₂, ps₁, ps₂, rfl, rfl, first, others⟩

/-! ### Tokens in a text -/

/-- The tokens fit one after the other at the start of a text and leave the
    rest. -/
inductive Fit : List Token → List Char → List Char → Prop
  /-- No tokens take nothing. -/
  | nil {text : List Char} : Fit [] text text
  /-- The first token takes the start, the others go on. -/
  | cons {t : Token} {ts : List Token} {text middle rest : List Char}
      (first : t.Fits text middle) (others : Fit ts middle rest) : Fit (t :: ts) text rest

theorem Fit.append {ts us : List Token} {text middle rest : List Char} (h₁ : Fit ts text middle)
    (h₂ : Fit us middle rest) : Fit (ts ++ us) text rest := by
  induction h₁ with
  | nil => exact h₂
  | cons first _ ih => exact .cons first (ih h₂)

theorem Fit.split {ts us : List Token} {text rest : List Char} (h : Fit (ts ++ us) text rest) :
    ∃ middle, Fit ts text middle ∧ Fit us middle rest := by
  induction ts generalizing text with
  | nil => exact ⟨text, .nil, h⟩
  | cons t ts ih =>
    cases h with
    | cons first others =>
      obtain ⟨middle, h₁, h₂⟩ := ih others
      exact ⟨middle, .cons first h₁, h₂⟩

/-- The tokens of a derivation fit its text. -/
theorem fit_tokens {t : Tree} {text rest : List Char} (h : t.Derives text rest) :
    Fit t.tokens text rest := by
  refine Tree.Derives.rec (motive_1 := fun t text rest _ => Fit t.tokens text rest)
    (motive_2 := fun ts text rest _ => Fit (tokensOf ts) text rest) ?leaf ?node ?nil ?cons h
  case leaf =>
    intro t text rest fits
    exact .cons fits .nil
  case node =>
    intro s n ts text rest _ _ row
    exact row
  case nil =>
    intro text
    exact .nil
  case cons =>
    intro t ts text middle rest _ _ first others
    exact first.append others

/-! ### What is built -/

theorem build_node (wanted : Bool) (p : Position) (s : Symbol) (number : Nat) (ts : List Tree) :
    build wanted p (.node s number ts) = (buildRow wanted p ts).bind fun inner =>
      (symbolPieces s (located wanted inner.place) inner.pieces).map fun pieces =>
        { inner with pieces } := by
  rw [build]
  cases buildRow wanted p ts with
  | error e => rfl
  | ok inner =>
    show Except.bind (symbolPieces s _ _) _ = Except.map _ (symbolPieces s _ _)
    cases symbolPieces s (located wanted inner.place) inner.pieces <;> rfl

theorem buildRow_cons (wanted : Bool) (p : Position) (t : Tree) (ts : List Tree) :
    buildRow wanted p (t :: ts) = (build wanted p t).bind fun first =>
      (buildRow wanted first.after ts).map fun others =>
        ⟨first.pieces ++ others.pieces, span first.place others.place, others.after⟩ := by
  rw [buildRow]
  cases build wanted p t with
  | error e => rfl
  | ok first =>
    show Except.bind (buildRow wanted first.after ts) _ = Except.map _ (buildRow wanted first.after ts)
    cases buildRow wanted first.after ts <;> rfl

/-- A production is built from its row by what its symbol makes of the pieces. -/
theorem build_node_of_row {wanted : Bool} {p : Position} {s : Symbol} {number : Nat} {ts : List Tree}
    {inner : Built} {pieces : List Piece} (row : buildRow wanted p ts = .ok inner)
    (made : symbolPieces s (located wanted inner.place) inner.pieces = .ok pieces) :
    build wanted p (.node s number ts) = .ok { inner with pieces } := by
  rw [build_node, row]
  show Except.map _ (symbolPieces s (located wanted inner.place) inner.pieces) = _
  rw [made]
  rfl

/-- A row is built from its first derivation and, after it, from the others. -/
theorem buildRow_cons_of_row {wanted : Bool} {p : Position} {t : Tree} {ts : List Tree}
    {first others : Built} (head : build wanted p t = .ok first)
    (tail : buildRow wanted first.after ts = .ok others) :
    buildRow wanted p (t :: ts) =
      .ok ⟨first.pieces ++ others.pieces, span first.place others.place, others.after⟩ := by
  rw [buildRow_cons, head]
  show Except.map _ (buildRow wanted first.after ts) = _
  rw [tail]
  rfl

/-- A production that can be built has a row that can be built, and its symbol makes
    its own pieces. -/
theorem exists_of_build_node {wanted : Bool} {p : Position} {s : Symbol} {number : Nat}
    {ts : List Tree} {b : Built} (built : build wanted p (.node s number ts) = .ok b) :
    ∃ inner pieces, buildRow wanted p ts = .ok inner ∧
      symbolPieces s (located wanted inner.place) inner.pieces = .ok pieces ∧
      b = { inner with pieces } := by
  rw [build_node] at built
  cases row : buildRow wanted p ts with
  | error e =>
    rw [row] at built
    cases built
  | ok inner =>
    rw [row] at built
    cases made : symbolPieces s (located wanted inner.place) inner.pieces with
    | error e =>
      change Except.map _ (symbolPieces s (located wanted inner.place) inner.pieces) = _ at built
      rw [made] at built
      cases built
    | ok pieces =>
      change Except.map _ (symbolPieces s (located wanted inner.place) inner.pieces) = _ at built
      rw [made] at built
      cases built
      exact ⟨inner, pieces, rfl, made, rfl⟩

/-- A row that can be built starts with what its first derivation gives, and the
    others go on after it. -/
theorem exists_of_buildRow_cons {wanted : Bool} {p : Position} {t : Tree} {ts : List Tree} {b : Built}
    (built : buildRow wanted p (t :: ts) = .ok b) :
    ∃ first others, build wanted p t = .ok first ∧ buildRow wanted first.after ts = .ok others ∧
      b = ⟨first.pieces ++ others.pieces, span first.place others.place, others.after⟩ := by
  rw [buildRow_cons] at built
  cases head : build wanted p t with
  | error e =>
    rw [head] at built
    cases built
  | ok first =>
    rw [head] at built
    change Except.map _ (buildRow wanted first.after ts) = _ at built
    cases tail : buildRow wanted first.after ts with
    | error e =>
      rw [tail] at built
      cases built
    | ok others =>
      rw [tail] at built
      cases built
      exact ⟨first, others, rfl, tail, rfl⟩

theorem build_leaf (p : Position) (t : Token) :
    ∃ b, build false p (.leaf t) = .ok b ∧ b.pieces = (lexeme t).pieces := by
  refine ⟨_, rfl, ?_⟩
  rw [pieces_lexeme]
  rfl

/-! ### Derivations and readings -/

/-- A row reads what its first derivation reads, and then what the others do. -/
theorem RowReads.cons {t : Tree} {p : Position} {b : Built} {xs : List Item} {w : List Lexeme}
    {ps : List Piece} (built : build false p t = .ok b)
    (first : ∀ s, t.item = .symbol s → Reads s (t.tokens.map lexeme) b.pieces)
    (others : RowReads xs w ps) :
    RowReads (t.item :: xs) (t.tokens.map lexeme ++ w) (b.pieces ++ ps) := by
  cases t with
  | leaf k =>
    obtain ⟨b', built', pieces⟩ := build_leaf p k
    obtain rfl := Except.ok.inj (built.symm.trans built')
    rw [pieces]
    exact .token (l := lexeme k) others
  | node s n us => exact .symbol (first s rfl) others

/-- A derivation that can be built is a reading of its tokens. -/
theorem reads_of_build {t : Tree} {text rest : List Char} (h : t.Derives text rest) :
    ∀ s, t.item = .symbol s → ∀ p b, build false p t = .ok b →
      Reads s (t.tokens.map lexeme) b.pieces := by
  -- A row of trees that can be built is a row that is read.
  refine Tree.Derives.rec
    (motive_1 := fun t _ _ _ => ∀ s, t.item = .symbol s → ∀ p b, build false p t = .ok b →
      Reads s (t.tokens.map lexeme) b.pieces)
    (motive_2 := fun ts _ _ _ => ∀ p b, buildRow false p ts = .ok b →
      RowReads (ts.map Tree.item) ((tokensOf ts).map lexeme) b.pieces) ?leaf ?node ?nil ?cons h
  case leaf =>
    intro t text rest _ s hs
    cases hs
  case node =>
    intro s n ts text rest production _ row s' hs p b hb
    cases hs
    obtain ⟨inner, pieces, hrow, hmade, rfl⟩ := exists_of_build_node hb
    exact .production (List.mem_of_getElem? production) (row p inner hrow) hmade
  case nil =>
    intro text p b hb
    cases hb
    exact .nil
  case cons =>
    intro t ts text middle rest _ _ first others p b hb
    obtain ⟨b₁, b₂, h₁, h₂, rfl⟩ := exists_of_buildRow_cons hb
    rw [List.map_cons, tokensOf, List.map_append]
    exact .cons h₁ (fun s hs => first s hs p b₁ h₁) (others _ _ h₂)

/-- A row of derivations that can be built is a reading of its tokens. -/
theorem rowReads_of_buildRow {ts : List Tree} {text rest : List Char} {p : Position} {b : Built}
    (h : RowDerives ts text rest) (built : buildRow false p ts = .ok b) :
    RowReads (ts.map Tree.item) ((tokensOf ts).map lexeme) b.pieces := by
  induction ts generalizing text p b with
  | nil =>
    cases built
    exact .nil
  | cons t ts ih =>
    cases h with
    | cons first others =>
      obtain ⟨b₁, b₂, h₁, h₂, rfl⟩ := exists_of_buildRow_cons built
      rw [List.map_cons, tokensOf, List.map_append]
      exact .cons h₁ (fun s hs => reads_of_build first s hs p b₁ h₁) (ih others h₂)

/-- A reading of tokens that fit a text is a derivation that can be built. -/
theorem exists_build_of_reads {s : Symbol} {w : List Lexeme} {qs : List Piece}
    (h : Reads s w qs) : ∀ ts text rest, ts.map lexeme = w → Fit ts text rest →
      ∃ t : Tree, t.Derives text rest ∧ t.item = .symbol s ∧
        ∀ p, ∃ b, build false p t = .ok b ∧ b.pieces = qs := by
  -- The other way round a row that is read has trees that can be built, from every position.
  refine Reads.rec
    (motive_1 := fun s w qs _ => ∀ ts text rest, ts.map lexeme = w → Fit ts text rest →
      ∃ t : Tree, t.Derives text rest ∧ t.item = .symbol s ∧
        ∀ p, ∃ b, build false p t = .ok b ∧ b.pieces = qs)
    (motive_2 := fun xs w ps _ => ∀ ts text rest, ts.map lexeme = w → Fit ts text rest →
      ∃ us : List Tree, RowDerives us text rest ∧ us.map Tree.item = xs ∧
        ∀ p, ∃ b, buildRow false p us = .ok b ∧ b.pieces = ps) ?production ?nil ?token ?symbol h
  case production =>
    intro s items w ps qs mem _ made row ts text rest hw hfit
    obtain ⟨us, derives, hitems, hbuild⟩ := row ts text rest hw hfit
    obtain ⟨n, hn⟩ := List.getElem?_of_mem mem
    refine ⟨.node s n us, .node (hitems ▸ hn) derives, rfl, fun p => ?_⟩
    obtain ⟨b, hb, rfl⟩ := hbuild p
    exact ⟨{ b with pieces := qs }, build_node_of_row hb made, rfl⟩
  case nil =>
    intro ts text rest hw hfit
    obtain rfl := List.map_eq_nil_iff.mp hw
    cases hfit
    exact ⟨[], .nil, rfl, fun p => ⟨_, rfl, rfl⟩⟩
  case token =>
    intro l xs w ps _ others ts text rest hw hfit
    cases hfit with
    | nil => cases hw
    | cons first fit =>
      rename_i k ks middle
      rw [List.map_cons, List.cons.injEq] at hw
      obtain ⟨us, derives, hitems, hbuild⟩ := others ks middle rest hw.2 fit
      refine ⟨.leaf k :: us, .cons (.leaf first) derives, ?_, fun p => ?_⟩
      · rw [List.map_cons, hitems, ← hw.1]
        rfl
      · obtain ⟨b₁, h₁, hp₁⟩ := build_leaf p k
        obtain ⟨b₂, h₂, hp₂⟩ := hbuild b₁.after
        refine ⟨_, buildRow_cons_of_row h₁ h₂, ?_⟩
        simp only [hp₁, hp₂, hw.1]
  case symbol =>
    intro s xs w₁ w₂ ps₁ ps₂ _ _ ih₁ ih₂ ts text rest hw hfit
    obtain ⟨ts₁, ts₂, rfl, hw₁, hw₂⟩ := List.map_eq_append_iff.mp hw
    obtain ⟨middle, fit₁, fit₂⟩ := hfit.split
    obtain ⟨t, derives₁, hitem, hbuild₁⟩ := ih₁ ts₁ text middle hw₁ fit₁
    obtain ⟨us, derives₂, hitems, hbuild₂⟩ := ih₂ ts₂ middle rest hw₂ fit₂
    refine ⟨t :: us, .cons derives₁ derives₂, by rw [List.map_cons, hitem, hitems], fun p => ?_⟩
    obtain ⟨b₁, h₁, hp₁⟩ := hbuild₁ p
    obtain ⟨b₂, h₂, hp₂⟩ := hbuild₂ b₁.after
    refine ⟨_, buildRow_cons_of_row h₁ h₂, ?_⟩
    simp only [hp₁, hp₂]

/-! ### File descriptors -/

/-- No file descriptor has too many digits. -/
def Short (w : List Lexeme) : Prop :=
  ∀ l ∈ w, l.terminal = .ioNumber → l.text.length ≤ digitLimit

theorem RowReads.exists_token {t : Terminal} {xs : List Item} {w : List Lexeme} {ps : List Piece}
    (h : RowReads (.token t :: xs) w ps) :
    ∃ l w' ps', l.terminal = t ∧ w = l :: w' ∧ ps = l.pieces ++ ps' ∧ RowReads xs w' ps' := by
  generalize hx : Item.token t :: xs = items at h
  cases h with
  | nil => cases hx
  | symbol => cases hx
  | @token l xs' w ps others =>
    injection hx with same rest
    injection same with same
    subst same rest
    exact ⟨l, w, ps, rfl, rfl, rfl, others⟩

theorem RowReads.eq_nil {w : List Lexeme} {ps : List Piece} (h : RowReads [] w ps) :
    w = [] ∧ ps = [] := by
  cases h
  exact ⟨rfl, rfl⟩

/-- Only a file descriptor with too many digits keeps a redirection from being
    made. -/
theorem redirect_total {items : List Item} {w : List Lexeme} {ps : List Piece}
    (mem : items ∈ Symbol.redirect.productions) (row : RowReads items w ps) (short : Short w) :
    ∃ qs, redirect none ps = .ok qs := by
  have productions : Symbol.redirect.productions =
      [[.token .ioNumber, .token .redirectOperator, .token .word],
       [.token .redirectOperator, .token .word]] := by decide
  rw [productions, List.mem_cons, List.mem_singleton] at mem
  rcases mem with rfl | rfl
  · obtain ⟨⟨_, digits⟩, _, _, rfl, rfl, rfl, row₁⟩ := row.exists_token
    obtain ⟨⟨_, op⟩, _, _, rfl, rfl, rfl, row₂⟩ := row₁.exists_token
    obtain ⟨⟨_, file⟩, _, _, rfl, rfl, rfl, row₃⟩ := row₂.exists_token
    obtain ⟨rfl, rfl⟩ := row₃.eq_nil
    -- The row shows the descriptor to be one of the lexemes.
    have few : digits.length ≤ digitLimit := short _ (List.mem_cons_self ..) rfl
    exact ⟨_, if_neg (Nat.not_lt.mpr few)⟩
  · obtain ⟨⟨_, op⟩, _, _, rfl, rfl, rfl, row₁⟩ := row.exists_token
    obtain ⟨⟨_, file⟩, _, _, rfl, rfl, rfl, row₂⟩ := row₁.exists_token
    obtain ⟨rfl, rfl⟩ := row₂.eq_nil
    exact ⟨_, rfl⟩

/-- Every symbol but a redirection makes its pieces, whatever they are. -/
theorem exists_symbolPieces {s : Symbol} (other : s ≠ .redirect) (loc : Option Extent)
    (ps : List Piece) : ∃ qs, symbolPieces s loc ps = .ok qs := by
  unfold symbolPieces
  split <;> first | exact ⟨_, rfl⟩ | exact absurd rfl other

/-- Every symbol makes its pieces, if no file descriptor has too many digits. -/
theorem symbolPieces_total {s : Symbol} {items : List Item} {w : List Lexeme} {ps : List Piece}
    (mem : items ∈ s.productions) (row : RowReads items w ps) (short : Short w) :
    ∃ qs, symbolPieces s none ps = .ok qs := by
  by_cases hs : s = .redirect
  · subst hs
    exact redirect_total mem row short
  · exact exists_symbolPieces hs none ps

/-- A derivation can be built, and is a reading of its tokens, if no file
    descriptor has too many digits. -/
theorem build_total {t : Tree} {text rest : List Char} (h : t.Derives text rest) :
    Short (t.tokens.map lexeme) → ∀ p, ∃ b, build false p t = .ok b ∧
      ∀ s, t.item = .symbol s → Reads s (t.tokens.map lexeme) b.pieces := by
  refine Tree.Derives.rec
    (motive_1 := fun t _ _ _ => Short (t.tokens.map lexeme) → ∀ p, ∃ b, build false p t = .ok b ∧
      ∀ s, t.item = .symbol s → Reads s (t.tokens.map lexeme) b.pieces)
    (motive_2 := fun ts _ _ _ => Short ((tokensOf ts).map lexeme) → ∀ p, ∃ b,
      buildRow false p ts = .ok b ∧
        RowReads (ts.map Tree.item) ((tokensOf ts).map lexeme) b.pieces) ?leaf ?node ?nil ?cons h
  case leaf =>
    intro t text rest _ _ p
    exact ⟨_, rfl, fun s hs => by cases hs⟩
  case node =>
    intro s n ts text rest production _ row short p
    obtain ⟨inner, hrow, reads⟩ := row short p
    have mem := List.mem_of_getElem? production
    obtain ⟨qs, made⟩ := symbolPieces_total mem reads short
    refine ⟨{ inner with pieces := qs }, build_node_of_row hrow made, ?_⟩
    intro s' hs
    cases hs
    exact .production mem reads made
  case nil =>
    intro text _ p
    exact ⟨_, rfl, .nil⟩
  case cons =>
    intro t ts text middle rest _ _ first others short p
    -- The lexemes of a part are some of those of the whole.
    have short₁ : Short (t.tokens.map lexeme) := fun l hl =>
      short l (by rw [tokensOf, List.map_append]; exact List.mem_append_left _ hl)
    have short₂ : Short ((tokensOf ts).map lexeme) := fun l hl =>
      short l (by rw [tokensOf, List.map_append]; exact List.mem_append_right _ hl)
    obtain ⟨b₁, h₁, reads₁⟩ := first short₁ p
    obtain ⟨b₂, h₂, reads₂⟩ := others short₂ b₁.after
    refine ⟨_, buildRow_cons_of_row h₁ h₂, ?_⟩
    rw [List.map_cons, tokensOf, List.map_append]
    exact .cons h₁ reads₁ reads₂

/-! ### Terminals alone -/

/-- The terminal of a token, without its characters. -/
def bare (t : Token) : Lexeme :=
  ⟨t.terminal, []⟩

/-- As far as terminals go every derivation is a reading of its tokens, whatever
    their characters are. -/
theorem exists_reads_bare {t : Tree} {text rest : List Char} (h : t.Derives text rest) :
    ∀ s, t.item = .symbol s → ∃ qs, Reads s (t.tokens.map bare) qs := by
  -- Bare lexemes have no characters, so no descriptor is too long.
  have short (ts : List Token) : Short (ts.map bare) := by
    intro l hl _
    obtain ⟨k, -, rfl⟩ := List.mem_map.mp hl
    exact Nat.zero_le _
  refine Tree.Derives.rec
    (motive_1 := fun t _ _ _ => ∀ s, t.item = .symbol s → ∃ qs, Reads s (t.tokens.map bare) qs)
    (motive_2 := fun ts _ _ _ => ∃ ps, RowReads (ts.map Tree.item) ((tokensOf ts).map bare) ps)
    ?leaf ?node ?nil ?cons h
  case leaf =>
    intro t text rest _ s hs
    cases hs
  case node =>
    intro s n ts text rest production _ row s' hs
    cases hs
    obtain ⟨ps, reads⟩ := row
    have mem := List.mem_of_getElem? production
    obtain ⟨qs, made⟩ := symbolPieces_total mem reads (short _)
    exact ⟨qs, .production mem reads made⟩
  case nil =>
    intro text
    exact ⟨[], .nil⟩
  case cons =>
    intro t ts text middle rest _ _ first others
    obtain ⟨ps₂, reads₂⟩ := others
    rw [List.map_cons, tokensOf, List.map_append]
    cases t with
    | leaf k => exact ⟨_, .token (l := bare k) reads₂⟩
    | node s n us =>
      obtain ⟨ps₁, reads₁⟩ := first s rfl
      exact ⟨_, .symbol reads₁ reads₂⟩

end ShellInliner.Parse
