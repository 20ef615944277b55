import ShellInliner.Proofs.Parse.Extents
import ShellInliner.Proofs.Parse.Pieces
import ShellInliner.Proofs.Source.Marks

/-! # Where the nodes of a script stand

    A derivation that is built at some point of the source makes pieces that stand
    between its first character and its last: their words and names cover the texts
    of their tokens, one after the other, and whatever has a place stands inside the
    place of everything above it. -/

namespace ShellInliner.Parse

open Grammar Node
open Text (pointAt pointPast extent)

section

variable {source : List Char} {a b i j : Nat}

/-! ### The steps of symbols -/

theorem inside_recast {n : Node} (inside : Inside source a b n) (h : Head) :
    Inside source a b (n.withHead h) := by
  cases inside with
  | between start covers stop below => exact .between start covers stop below
  | without none below => exact .without none below

theorem inside_single {n : Node} (inside : Inside source a b n) :
    Inside source a b (assemble (.compoundList false) n.loc [(.commands, [n])]) := by
  have only {x y : Nat} (here : Inside source x y n) :
      ∀ c ∈ (assemble (.compoundList false) n.loc [(.commands, [n])]).children, Inside source x y c.2 := by
    intro c hc
    obtain rfl : c = (.commands, n) := List.mem_singleton.mp hc
    exact here
  -- The list takes the place of the node, and so encloses it closely if there is one.
  cases inside with
  | between start covers stop below =>
    have here := Inside.between (Nat.le_refl _) covers (Nat.le_refl _) below
    exact .between start covers stop (only here)
  | without none below => exact .without none (only (.without none below))

theorem inside_empty : Inside source a b (assemble (.compoundList false) none []) :=
  .without (fun _ _ place => by cases place) (fun c hc => by cases hc)

/-- What stands in a part of the text stands there when symbols that cover the part
    make nodes of it. -/
theorem hereditary_inside (lt : a < b) (bound : b ≤ source.length) :
    Hereditary [] (some (extent source a b)) (Inside source a b) where
  join _ _ _ below := .between (Nat.le_refl _) ⟨lt, bound, rfl⟩ (Nat.le_refl _) below
  part _ h _ hc := h.child hc
  recast _ inside := inside_recast inside _
  place _ inside := .between (Nat.le_refl _) ⟨lt, bound, rfl⟩ (Nat.le_refl _) fun _ hc => inside.child hc
  extend _ _ inside others := .between (Nat.le_refl _) ⟨lt, bound, rfl⟩ (Nat.le_refl _) fun _ hc =>
    of_mem_withLast (fun _ hd => inside.child hd) others hc
  single _ inside := inside_single inside
  empty := inside_empty

theorem hereditary_nowhere : Hereditary [] none fun n => ∀ a b, Inside source a b n where
  join _ _ _ below a b := .without (fun _ _ place => by cases place) fun c hc => below c hc a b
  part _ h _ hc a b := (h a b).child hc
  recast _ inside a b := inside_recast (inside a b) _
  place _ inside a b := .without (fun _ _ place => by cases place) fun _ hc => (inside a b).child hc
  extend _ _ inside others a b := .without (fun _ _ place => by cases place) fun _ hc =>
    of_mem_withLast (fun _ hd => (inside a b).child hd) (fun r hr => others r hr a b) hc
  single _ inside a b := inside_single (inside a b)
  empty _ _ := inside_empty

/-! ### What is built at a point -/

/-- What is built from one character of the source on and leaves the text from another
    one on: nothing that has a place, or pieces that stand in a part of the source
    between them. -/
inductive Lies (source : List Char) (i : Nat) : Nat → Built → Prop
  /-- There is no token. -/
  | nowhere {ps : List Piece} (inside : ∀ n ∈ allNodes ps, ∀ a b, Inside source a b n)
      (unnamed : leavesOf ps = []) : Lies source i i ⟨ps, none, pointAt source i⟩
  /-- The part goes from the first token to the last one. -/
  | within {j a b : Nat} {ps : List Piece} (start : i ≤ a) (lt : a < b) (stop : b ≤ j)
      (bound : b ≤ source.length) (inside : ∀ n ∈ allNodes ps, Inside source a b n)
      (row : Row source a (leavesOf ps) b) :
      Lies source i j ⟨ps, some (pointAt source a, pointPast source (b - 1)), pointAt source j⟩

theorem Lies.after_eq {b : Built} (h : Lies source i j b) : b.after = pointAt source j := by
  cases h <;> rfl

theorem Lies.append {k : Nat} {b c : Built} (h : Lies source i j b) (h' : Lies source j k c) :
    Lies source i k ⟨b.pieces ++ c.pieces, span b.place c.place, c.after⟩ := by
  have inside {P : Node → Prop} {ps qs : List Piece} (first : ∀ n ∈ allNodes ps, P n)
      (second : ∀ n ∈ allNodes qs, P n) : ∀ n ∈ allNodes (ps ++ qs), P n := by
    rw [allNodes_append, List.forall_mem_append]
    exact ⟨first, second⟩
  cases h with
  | nowhere inside₁ none₁ =>
    cases h' with
    | nowhere inside₂ none₂ =>
      refine .nowhere (inside inside₁ inside₂) ?_
      rw [leavesOf_append, none₁, none₂]
      rfl
    | within start lt stop bound inside₂ row =>
      refine .within start lt stop bound (inside (fun n hn => inside₁ n hn _ _) inside₂) ?_
      rw [leavesOf_append, none₁]
      exact row
  | within start₁ lt₁ stop₁ bound₁ inside₁ row₁ =>
    cases h' with
    | nowhere inside₂ none₂ =>
      refine .within start₁ lt₁ stop₁ bound₁ (inside inside₁ fun n hn => inside₂ n hn _ _) ?_
      rw [leavesOf_append, none₂, List.append_nil]
      exact row₁
    | within start₂ lt₂ stop₂ bound₂ inside₂ row₂ =>
      -- Both stand in the part from the start of the first to the end of the second.
      refine .within start₁ (by omega) stop₂ bound₂ (inside ?_ ?_) ?_
      · exact fun n hn => (inside₁ n hn).mono (Nat.le_refl _) (by omega)
      · exact fun n hn => (inside₂ n hn).mono (by omega) (Nat.le_refl _)
      · rw [leavesOf_append]
        exact row₁.append (row₂.mono (by omega) (Nat.le_refl _))

/-- The pieces of a symbol stand where its parts stand. -/
theorem Lies.symbol {s : Symbol} {inner : Built} {ps : List Piece} (h : Lies source i j inner)
    (suits : Suits s inner.pieces)
    (made : symbolPieces s (located true inner.place) inner.pieces = .ok ps) :
    Lies source i j { inner with pieces := ps } := by
  have leaves := leavesOf_symbolPieces suits made
  cases h with
  | nowhere inside unnamed =>
    exact .nowhere (hereditary_nowhere.symbolPieces (by simp) inside made) (leaves.trans unnamed)
  | within start lt stop bound inside row =>
    refine .within start lt stop bound ((hereditary_inside lt bound).symbolPieces (by simp) inside made) ?_
    rw [leaves]
    exact row

/-! ### Tokens -/

theorem inside_wordNode (h : String → Head) {a b : Nat} (lt : a < b) (bound : b ≤ source.length)
    (text : List Char) : Inside source a b (wordNode h (some (extent source a b)) text) := by
  refine .between (Nat.le_refl _) ⟨lt, bound, rfl⟩ (Nat.le_refl _) fun c hc => ?_
  -- An expansion is placed in its word.
  obtain ⟨-, expansion⟩ := Word.mem_expansionChildren hc
  obtain ⟨first, last, place, -⟩ := expansion.place
  refine .without (fun _ _ same => ?_) fun e he => ?_
  · rw [place] at same
    cases same
  · rw [expansion.leaf] at he
    cases he

/-- The pieces of a token stand where the token stands. -/
theorem inside_tokenPieces {t : Token} (lt : a < b) (bound : b ≤ source.length)
    (text : source.extract a b = t.text) :
    (∀ n ∈ allNodes (tokenPieces (some (extent source a b)) t), Inside source a b n) ∧
      Row source a (leavesOf (tokenPieces (some (extent source a b)) t)) b := by
  have leaf {n : Node} (place : n.loc = some (extent source a b))
      (named : n.text? = some (String.ofList t.text)) : Row source a (leavesOf [.node n]) b := by
    rw [leavesOf_node, leaves_of_isSome (by rw [named]; rfl)]
    exact .cons (Nat.le_refl _) ⟨lt, bound, place⟩ (text ▸ named) (.nil (Nat.le_refl _))
  have mark {k : Terminal} : (∀ n ∈ allNodes [.mark k t.text], Inside source a b n) ∧
      Row source a (leavesOf [.mark k t.text]) b :=
    ⟨by simp, .nil (Nat.le_of_lt lt)⟩
  -- Words, names and assignments become leaves, and the other tokens marks.
  unfold tokenPieces
  split
  · exact ⟨by simpa using inside_wordNode .word lt bound t.text, leaf rfl rfl⟩
  · exact ⟨by simpa using inside_wordNode .word lt bound t.text, leaf rfl rfl⟩
  · exact ⟨by simpa using inside_wordNode .assignmentWord lt bound t.text, leaf rfl rfl⟩
  · refine ⟨?_, leaf rfl rfl⟩
    simpa using .between (Nat.le_refl _) ⟨lt, bound, rfl⟩ (Nat.le_refl _) (fun c hc => by cases hc)
  · refine ⟨?_, leaf rfl rfl⟩
    simpa using .between (Nat.le_refl _) ⟨lt, bound, rfl⟩ (Nat.le_refl _) (fun c hc => by cases hc)
  all_goals first | exact mark | exact ⟨by simp, .nil (Nat.le_of_lt lt)⟩

theorem lies_leaf {t : Token} {text rest : List Char} (here : source.drop i = text)
    (fits : t.Fits text rest) {b : Built} (built : build true (pointAt source i) (.leaf t) = .ok b) :
    ∃ j, source.drop j = rest ∧ Lies source i j b := by
  have some := fits.text_ne_nil
  have positive := List.length_pos_of_ne_nil some
  -- The gap is passed first, and the token starts after it.
  have gap : source.drop i = t.gap ++ (t.text ++ rest) := by
    rw [here, fits.text_eq, List.append_assoc]
  have start : source.drop (i + t.gap.length) = t.text ++ rest := by
    rw [← List.drop_drop, gap, List.drop_left]
  have whole : build true (pointAt source i) (.leaf t) = .ok
      ⟨tokenPieces (.some (extent source (i + t.gap.length) (i + t.gap.length + t.text.length))) t,
        .some (pointAt source (i + t.gap.length),
          pointPast source (i + t.gap.length + t.text.length - 1)),
        pointAt source (i + t.gap.length + t.text.length)⟩ := by
    rw [build, advance_pointAt gap, tokenEnd_pointAt start some, advance_pointAt start]
    rfl
  obtain rfl := Except.ok.inj (built.symm.trans whole)
  refine ⟨i + t.gap.length + t.text.length, by rw [← List.drop_drop, start, List.drop_left], ?_⟩
  have lt : i + t.gap.length < i + t.gap.length + t.text.length := by omega
  have bound := bound_of_drop start some
  obtain ⟨inside, row⟩ := inside_tokenPieces (t := t) lt bound (extract_eq start)
  exact .within (by omega) lt (Nat.le_refl _) bound inside row

/-! ### Derivations -/

/-- What a derivation makes lies where its text stands. -/
theorem lies_of_derives {t : Tree} {text rest : List Char} (derives : t.Derives text rest) :
    ∀ i b, source.drop i = text → build true (pointAt source i) t = .ok b →
      ∃ j, source.drop j = rest ∧ Lies source i j b := by
  -- A row lies where its text stands, like a tree.
  refine Tree.Derives.rec
    (motive_1 := fun t text rest _ => ∀ i b, source.drop i = text →
      build true (pointAt source i) t = .ok b → ∃ j, source.drop j = rest ∧ Lies source i j b)
    (motive_2 := fun ts text rest _ => ∀ i b, source.drop i = text →
      buildRow true (pointAt source i) ts = .ok b → ∃ j, source.drop j = rest ∧ Lies source i j b)
    ?leaf ?node ?nil ?cons derives
  case leaf =>
    intro t text rest fits i b here built
    exact lies_leaf here fits built
  case node =>
    intro s n ts text rest production row lies i b here built
    obtain ⟨inner, pieces, hrow, made, rfl⟩ := exists_of_build_node built
    obtain ⟨j, there, h⟩ := lies i inner here hrow
    exact ⟨j, there, h.symbol (suits_of_buildRow production row hrow) made⟩
  case nil =>
    intro text i b here built
    cases built
    exact ⟨i, here, .nowhere (by simp) rfl⟩
  case cons =>
    intro t ts text middle rest _ _ first others i b here built
    obtain ⟨b₁, b₂, h₁, h₂, rfl⟩ := exists_of_buildRow_cons built
    obtain ⟨j, there, lies₁⟩ := first i b₁ here h₁
    rw [lies₁.after_eq] at h₂
    obtain ⟨k, end_, lies₂⟩ := others j b₂ there h₂
    exact ⟨k, end_, lies₁.append lies₂⟩

end

/-! ### Scripts -/

section

variable {source : List Char} {options : ParseOptions} {t : Node}

/-- A script stands in its source, and its words and names stand there one after the
    other. -/
theorem exists_inside (located : options.locate = true) (parsed : parse source options = .ok t) :
    ∃ a b, Inside source a b t ∧ Row source a t.leaves b := by
  unfold parse at parsed
  cases found : derivation? source with
  | none =>
    rw [found] at parsed
    cases parsed
  | some d =>
    obtain ⟨item, rest, derives, -⟩ := derivation?_sound found
    rw [found, located] at parsed
    change (build true origin d).map (fun b => scriptOf b.pieces) = .ok t at parsed
    cases built : build true origin d with
    | error e =>
      rw [built] at parsed
      cases parsed
    | ok b =>
      rw [built] at parsed
      obtain ⟨j, -, lies⟩ : ∃ j, source.drop j = rest ∧ Lies source 0 j b :=
        lies_of_derives derives 0 b rfl built
      -- A script makes one node, the one that is returned.
      have one : b.pieces = [.node t] := by
        obtain rfl : scriptOf b.pieces = t := Except.ok.inj parsed
        cases d with
        | leaf k => cases item
        | node s n ts =>
          cases item
          obtain ⟨inner, pieces, -, made, rfl⟩ := exists_of_build_node built
          cases made
          rfl
      cases lies with
      | nowhere inside unnamed =>
        obtain rfl : _ = [Piece.node t] := one
        rw [leavesOf_node] at unnamed
        exact ⟨0, 0, inside t (by simp) 0 0, unnamed ▸ .nil (Nat.le_refl _)⟩
      | within start lt stop bound inside row =>
        obtain rfl : _ = [Piece.node t] := one
        rw [leavesOf_node] at row
        exact ⟨_, _, inside t (by simp), row⟩

/-- The expansions of a word stand in its text. -/
theorem exists_offsets {n : Node} (typed : n.isWellTyped = true) (regular : Regular n) {text : String}
    (named : n.text? = some text) {c : Field × Node} (mem : c ∈ n.children) :
    ∃ first last : Nat, c.2.loc = some (.offsets first last) ∧ first < last ∧
      last ≤ text.toList.length := by
  have inside (expansions : n.children = Word.expansionChildren text.toList) :
      ∃ first last : Nat, c.2.loc = some (.offsets first last) ∧ first < last ∧
        last ≤ text.toList.length := by
    rw [expansions] at mem
    obtain ⟨-, expansion⟩ := Word.mem_expansionChildren mem
    obtain ⟨first, last, place, -, lt, le⟩ := expansion.place
    exact ⟨first, last, place, lt, le⟩
  have shapely := regular.shapely
  cases n with
  | mk h l cs =>
    cases h <;> cases named
    · -- A name has no children.
      have admits := admits_of_mem typed mem
      have none : (Kind.name.members.all (memberHolds fun _ _ => false)) = true := rfl
      cases admits.holds (p := fun _ _ => false) none
    · exact inside shapely
    · exact inside shapely

/-- In a script that is read with places, every node that has one, but for expansions,
    covers a part of the source; that of a node encloses those of all nodes below it.
    Words and names cover their texts, one after the other, and the expansions of a
    word stand in its text. -/
theorem parse_places (located : options.locate = true) (parsed : parse source options = .ok t) :
    (∀ n, t.Holds n → n.kind.isExpansion = false → n.loc ≠ none → ∃ a b, n.Covers source a b) ∧
    (∀ n text, t.Holds n → n.text? = some text →
      ∃ a b, n.Covers source a b ∧ text = String.ofList (source.extract a b)) ∧
    (∀ n, n ∈ t.leaves ↔ t.Holds n ∧ n.text?.isSome = true) ∧
    (t.leaves.Pairwise fun m n =>
      ∀ a b c d, m.Covers source a b → n.Covers source c d → b ≤ c) ∧
    (∀ m f n, t.Holds m → m.Site f n →
      ∀ a b c d, m.Covers source a b → n.Covers source c d → a ≤ c ∧ d ≤ b) ∧
    (∀ n text, t.Holds n → n.text? = some text → ∀ c ∈ n.children, ∃ first last : Nat,
      c.2.loc = some (.offsets first last) ∧ first < last ∧ last ≤ text.toList.length) := by
  obtain ⟨a, b, inside, row⟩ := exists_inside located parsed
  obtain ⟨-, typed, regular⟩ := sound_parse parsed
  have wellTyped := throughout_iff_forall.mp (throughout_isWellTyped typed)
  have leaf (n : Node) : n ∈ t.leaves ↔ t.Holds n ∧ n.text?.isSome = true := mem_leaves_iff typed
  refine ⟨?places, ?texts, leaf, row.pairwise, ?nested, ?offsets⟩
  case places =>
    intro n holds other some
    have fits := (isWellTyped_iff.mp (wellTyped n holds)).1
    cases place : n.loc with
    | none => exact absurd place some
    | some extent =>
      rw [place] at fits
      cases extent with
      | between start stop =>
        obtain ⟨c, d, covers, -⟩ := (inside.holds holds).exists_covers place
        exact ⟨c, d, covers⟩
      | offsets first last =>
        change n.kind.isExpansion = true at fits
        rw [other] at fits
        cases fits
  case texts =>
    intro n text holds named
    have mem := (leaf n).mpr ⟨holds, by rw [named]; rfl⟩
    obtain ⟨c, d, covers, -, own⟩ := row.exists_covers mem
    exact ⟨c, d, covers, Option.some.inj (named.symm.trans own)⟩
  case nested =>
    intro m f n holds site c d c' d' outer inner
    exact (inside.holds holds).nested outer site inner
  case offsets =>
    intro n text holds named c hc
    exact exists_offsets (wellTyped n holds) (throughout_iff_forall.mp regular n holds) named hc

/-- A word of two lines that a command in a conditional is redirected to. -/
theorem parse_places_lines :
    ∃ t w a b, parse "if a\nthen >'b\nc' d; fi".toList { locate := true } = .ok t ∧ w ∈ t.leaves ∧
      w.Covers "if a\nthen >'b\nc' d; fi".toList a b ∧
      "if a\nthen >'b\nc' d; fi".toList.extract a b = "'b\nc'".toList := by
  let isTarget (n : Node) : Bool := n.text? == some "'b\nc'"
  have run : (parse "if a\nthen >'b\nc' d; fi".toList { locate := true }).toOption.any
      (·.leaves.any isTarget) = true := by decide +kernel
  cases parsed : parse "if a\nthen >'b\nc' d; fi".toList { locate := true } with
  | error e =>
    rw [parsed] at run
    cases run
  | ok t =>
    rw [parsed] at run
    obtain ⟨w, mem, target⟩ := List.any_eq_true.mp run
    have named : w.text? = some "'b\nc'" := eq_of_beq target
    obtain ⟨-, texts, leaf, -⟩ := parse_places rfl parsed
    obtain ⟨a, b, covers, same⟩ := texts w _ ((leaf w).mp mem).1 named
    have characters := (congrArg String.toList same).trans String.toList_ofList
    exact ⟨t, w, a, b, rfl, mem, covers, characters.symm⟩

/-! ### With places and without -/

/-- Whether places are wanted decides neither whether a text is read nor what goes
    wrong, and the two trees are equal once the places of all nodes but expansions are
    set to nothing. -/
theorem parse_placed_or_not (source : List Char) (file : Option String) :
    (∃ bare placed, parse source { locate := false, file } = .ok bare ∧
      parse source { locate := true, file } = .ok placed ∧ bare.unplaced = placed.unplaced ∧
      ∀ n, bare.Holds n ∨ placed.Holds n →
        n.unplaced.loc = if n.kind.isExpansion then n.loc else none) ∨
    ∃ e, parse source { locate := false, file } = .error e ∧
      parse source { locate := true, file } = .error e := by
  have without := parse_unplaced source { locate := true, file }
  have places {options : ParseOptions} {t n : Node} (parsed : parse source options = .ok t)
      (holds : t.Holds n) : n.unplaced.loc = if n.kind.isExpansion then n.loc else none := by
    obtain ⟨-, typed, -⟩ := sound_parse parsed
    have wellTyped := throughout_iff_forall.mp (throughout_isWellTyped typed) n holds
    exact loc_unplaced_eq (isWellTyped_iff.mp wellTyped).1
  cases read : parse source { locate := true, file } with
  | error e =>
    rw [read] at without
    exact .inr ⟨e, without, rfl⟩
  | ok placed =>
    rw [read] at without
    refine .inl ⟨placed.unplaced, placed, without, rfl, unplaced_unplaced placed, fun n holds => ?_⟩
    rcases holds with bare | own
    · exact places without bare
    · exact places read own

end

end ShellInliner.Parse
