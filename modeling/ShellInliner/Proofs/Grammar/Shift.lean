import ShellInliner.Proofs.Grammar.Choice
import ShellInliner.Proofs.Parse.Contest

/-! # What stands before a text

    Blanks and comments are skipped at once, and no token starts with them.  So all
    that can be derived with them in front is what can be derived without them: as
    many entries, in the same order, each longer by what is skipped, and with the same
    pieces.

    The same holds of what comes after a token: an entry goes on as the text after it
    does. -/

namespace ShellInliner

/-! ### Pieces without places -/

namespace Parse

open Grammar

mutual

/-- The pieces of a derivation whose nodes get no places. -/
def pieces : Tree → Except Error (List Piece)
  | .leaf t => .ok (tokenPieces none t)
  | .node s _ ts => (piecesOf ts).bind (symbolPieces s none)

/-- The pieces of a row of derivations. -/
def piecesOf : List Tree → Except Error (List Piece)
  | [] => .ok []
  | t :: ts => (pieces t).bind fun ps => (piecesOf ts).map (ps ++ ·)

end

mutual

/-- Without places, what is built does not depend on where it starts. -/
theorem build_pieces (p : Position) : ∀ t : Tree, (build false p t).map Built.pieces = pieces t
  | .leaf t => rfl
  | .node s number ts => by
    have row := buildRow_pieces p ts
    rw [build_node, pieces, ← row]
    cases buildRow false p ts with
    | error e => rfl
    | ok inner =>
      show Except.map _ (Except.map _ (symbolPieces s none inner.pieces)) =
        symbolPieces s none inner.pieces
      cases symbolPieces s none inner.pieces with
      | error e => rfl
      | ok ps => rfl

theorem buildRow_pieces (p : Position) :
    ∀ ts : List Tree, (buildRow false p ts).map Built.pieces = piecesOf ts
  | [] => rfl
  | t :: ts => by
    have first := build_pieces p t
    rw [buildRow_cons, piecesOf, ← first]
    -- A failure in the first tree is the failure of the row.
    cases build false p t with
    | error e => rfl
    | ok b =>
      have others := buildRow_pieces b.after ts
      show Except.map _ (Except.map _ (buildRow false b.after ts)) =
        (piecesOf ts).map (b.pieces ++ ·)
      rw [← others]
      cases buildRow false b.after ts with
      | error e => rfl
      | ok c => rfl

end

end Parse

namespace Grammar

open Parse (pieces piecesOf)

/-! ### What is skipped -/

theorem gaps_of_skip? {cs : List Char} {n : Nat} (skips : skip? cs = some n) :
    gaps cs = 0 :: (gaps (cs.drop n)).map (· + n) := by
  have bounds := skip?_bounds skips
  cases cs with
  | nil => cases skips
  | cons c cs =>
    obtain ⟨n, rfl⟩ : ∃ m, n = m + 1 := ⟨n - 1, by omega⟩
    rw [gaps, gapsFrom, skips]
    simp only [List.drop_succ_cons]
    rw [gapsFrom_inside (by simpa using bounds.2), gaps, ← gapsFrom_add]
    congr 2
    omega

theorem gaps_of_none {cs : List Char} (none : skip? cs = none) : gaps cs = [0] := by
  cases cs with
  | nil => rfl
  | cons c cs => rw [gaps, gapsFrom, none]

theorem isSkippable_of_skip? {cs : List Char} {n : Nat} (skips : skip? cs = some n) :
    isSkippable cs = isSkippable (cs.drop n) := by
  have bounds := skip?_bounds skips
  rw [Bool.eq_iff_iff]
  simp only [isSkippable, List.contains_iff_mem, gaps_of_skip? skips, List.length_drop,
    List.mem_cons, List.mem_map]
  constructor
  · rintro (zero | ⟨g, mem, same⟩)
    · omega
    · obtain rfl : g = cs.length - n := by omega
      exact mem
  · intro mem
    exact .inr ⟨_, mem, by omega⟩

/-- A text is followed from one thing that can be skipped to the next. -/
theorem skip_induct {P : List Char → Prop} (ends : ∀ cs, skip? cs = none → P cs)
    (goes : ∀ cs n, skip? cs = some n → P (cs.drop n) → P cs) (cs : List Char) : P cs := by
  induction size : cs.length using Nat.strongRecOn generalizing cs with
  | ind n ih =>
    subst size
    cases skips : skip? cs with
    | none => exact ends cs skips
    | some m =>
      have bounds := skip?_bounds skips
      exact goes cs m skips (ih _ (by rw [List.length_drop]; omega) _ rfl)

/-- The text is skipped at once before the rest, and no token starts with it. -/
structure Idle (idle rest : List Char) : Prop where
  /-- It is skipped. -/
  skips : skip? (idle ++ rest) = some idle.length
  /-- No token starts here. -/
  mute : ∀ t : Terminal, t.length? (idle ++ rest) = none

/-- Blanks are idle, up to the first character that is none. -/
theorem idle_blanks {blanks rest : List Char} (ne : blanks ≠ [])
    (blank : ∀ c ∈ blanks, isLineBlank c = true) (unblank : startsUnblank rest = true) :
    Idle blanks rest := by
  cases blanks with
  | nil => exact absurd rfl ne
  | cons c blanks =>
    have first : isLineBlank c = true := blank c (List.mem_cons_self ..)
    have others : ∀ d ∈ blanks, isLineBlank d = true :=
      fun d mem => blank d (List.mem_cons_of_mem _ mem)
    constructor
    · rw [List.cons_append]
      unfold skip?
      simp only [first, if_true]
      rw [List.takeWhile_append_of_pos others, takeWhile_of_head unblank, List.append_nil,
        Nat.add_comm, List.length_cons]
    · -- No token starts with a blank.
      intro t
      cases taken : t.length? (c :: blanks ++ rest) with
      | none => rfl
      | some n =>
        have unblank' : (!isLineBlank c) = true := Parse.startsUnblank_of_fits taken
        rw [first] at unblank'
        cases unblank'

/-- A comment is idle, up to the end of its line. -/
theorem idle_comment {comment : List Char} (inside : '\n' ∉ comment) (rest : List Char) :
    Idle ('#' :: comment) ('\n' :: rest) := by
  have unblank : isLineBlank '#' = false := by decide
  have inside' : ∀ c ∈ comment, (c != '\n') = true := fun c mem =>
    bne_iff_ne.mpr fun feed => inside (feed ▸ mem)
  constructor
  · rw [List.cons_append]
    unfold skip?
    simp only [unblank, Bool.false_eq_true, if_false, if_true]
    rw [List.takeWhile_append_of_pos inside']
    simp [Nat.add_comm]
  · intro t
    cases taken : t.length? ('#' :: comment ++ '\n' :: rest) with
    | none => rfl
    | some n =>
      -- No token starts with a number sign, and a line end starts with its line feed.
      by_cases other : t = .newline
      · subst other
        cases Parse.look_of_length? taken
      · cases startsInk_of_length? other taken

/-! ### Entries with more before them -/

/-- The entry is the other one with more characters before it. -/
structure Shifted (more : Nat) (e e' : Entry) : Prop where
  /-- It is longer by them. -/
  length : e.length = more + e'.length
  /-- There is something after them. -/
  pos : 0 < e'.length
  /-- It has the same pieces. -/
  pieces : pieces e.tree = pieces e'.tree

/-- The row of derivations is the other one with more characters before it. -/
structure ShiftedSpan (more : Nat) (s s' : Span) : Prop where
  /-- It is longer by them. -/
  length : s.length = more + s'.length
  /-- There is something after them. -/
  pos : 0 < s'.length
  /-- It has the same pieces. -/
  pieces : piecesOf s.trees = piecesOf s'.trees

/-- The candidate is the other one with more characters before it. -/
def ShiftedCandidate (more : Nat) (a a' : Candidate) : Prop :=
  a.number = a'.number ∧ Shifted more a.entry a'.entry

variable {more : Nat}

theorem keepsOrder_shifted : KeepsOrder (ShiftedCandidate more) := by
  rintro a a' b b' ⟨number, here⟩ ⟨number', there⟩
  rw [Bool.eq_iff_iff, precedes_iff, precedes_iff, here.length, there.length, number, number']
  omega

theorem ShiftedSpan.candidate {s s' : Span} (h : ShiftedSpan more s s') (u : Symbol)
    (number : Nat) :
    ShiftedCandidate more ⟨number, s.length, .node u number s.trees⟩
      ⟨number, s'.length, .node u number s'.trees⟩ :=
  ⟨rfl, h.length, h.pos, by simp only [Parse.pieces, h.pieces]⟩

/-- What is skipped at once only makes tokens longer. -/
theorem tokenEntries_shifted {idle rest : List Char} (h : Idle idle rest) (t : Terminal) :
    List.Forall₂ (Shifted idle.length) (tokenEntries t (idle ++ rest)) (tokenEntries t rest) := by
  have skipped (g : Nat) : (idle ++ rest).drop (g + idle.length) = rest.drop g := by
    rw [Nat.add_comm, ← List.drop_drop, List.drop_left]
  unfold tokenEntries
  -- The place in front has no token, and the others are those of the rest.
  rw [gaps_of_skip? h.skips, List.drop_left, List.filterMap_cons, List.drop_zero, h.mute t]
  simp only [Option.map_none, List.filterMap_map]
  refine List.rel_filterMap (R := Eq) ?_ (List.forall₂_refl _)
  rintro g _ rfl
  simp only [Function.comp_apply, skipped]
  cases taken : t.length? (rest.drop g) with
  | none => exact .none
  | some n =>
    have := Terminal.length?_bounds taken
    refine .some ⟨?_, ?_, rfl⟩ <;> simp only <;> omega

/-! ### What follows a place -/

/-- The same derivations after more characters. -/
def Span.after (more : Nat) (s : Span) : Span :=
  ⟨more + s.length, s.trees⟩

/-- What follows a place does not depend on what stands before it. -/
theorem follow_after (front rest : List Char) (items : List Item) {offset : Nat}
    (pos : 0 < offset) :
    follow (laterRows (front ++ rest)) items (front.length + offset) =
      (follow (laterRows rest) items offset).map (Span.after front.length) := by
  induction items generalizing offset with
  | nil => rfl
  | cons x xs ih =>
    have place : front.length + offset - 1 + 1 = front.length + offset := by omega
    have place' : offset - 1 + 1 = offset := by omega
    -- A row depends on the rest of the text alone.
    have row : (laterRows (front ++ rest))[front.length + offset - 1]? =
        (laterRows rest)[offset - 1]? := by
      rw [laterRows_getElem?, laterRows_getElem?, place, place', List.length_append,
        ← List.drop_drop, List.drop_left]
      refine if_congr ?_ rfl rfl
      omega
    rw [follow, follow, row]
    cases (laterRows rest)[offset - 1]? with
    | none => rfl
    | some row =>
      simp only
      rw [List.map_flatMap]
      refine List.flatMap_congr fun e _ => ?_
      rw [Nat.add_assoc, ih (by omega), List.map_map, List.map_map]
      rfl

theorem le_of_mem_follow {later : List Row} {items : List Item} {offset : Nat} {s : Span}
    (mem : s ∈ follow later items offset) : offset ≤ s.length := by
  induction items generalizing offset s with
  | nil =>
    rw [follow, List.mem_singleton] at mem
    subst mem
    exact Nat.le_refl _
  | cons x xs ih =>
    rw [follow] at mem
    split at mem
    · cases mem
    · obtain ⟨e, -, there⟩ := List.mem_flatMap.mp mem
      obtain ⟨s', others, rfl⟩ := List.mem_map.mp there
      -- Every entry on the way only adds to the offset.
      have longer : offset + e.length ≤ s'.length := ih others
      exact Nat.le_trans (Nat.le_add_right ..) longer

/-- What follows an entry goes with it. -/
theorem follow_shifted {front : List Char} (rest : List Char) {e e' : Entry}
    (h : Shifted front.length e e') (items : List Item) :
    List.Forall₂ (ShiftedSpan front.length)
      ((follow (laterRows (front ++ rest)) items e.length).map (Span.push e.tree))
      ((follow (laterRows rest) items e'.length).map (Span.push e'.tree)) := by
  rw [h.length, follow_after _ _ _ h.pos, List.map_map, List.forall₂_map_left_iff,
    List.forall₂_map_right_iff, List.forall₂_same]
  intro s mem
  refine ⟨rfl, Nat.lt_of_lt_of_le h.pos (le_of_mem_follow mem : _ ≤ s.length), ?_⟩
  simp only [Function.comp_apply, Span.push, Span.after, Parse.piecesOf, h.pieces]

/-- So does what grows from it. -/
theorem grownCandidates_shifted {front rest : List Char} {e e' : Entry}
    (h : Shifted front.length e e') (rule : Rule) :
    List.Forall₂ (ShiftedCandidate front.length)
      (grownCandidates rule (laterRows (front ++ rest)) e)
      (grownCandidates rule (laterRows rest) e') := by
  refine List.rel_flatMap (R := Eq) (List.forall₂_refl _) ?_
  rintro p _ rfl
  have spans := follow_shifted rest h p.items
  rw [List.forall₂_map_left_iff, List.forall₂_map_right_iff] at spans
  rw [List.forall₂_map_left_iff, List.forall₂_map_right_iff]
  exact spans.imp fun s s' there => there.candidate rule.symbol p.number

/-! ### Rows of places -/

/-- What a production makes is longer, if what its first item derives is. -/
theorem spans_shifted {front rest : List Char} {x : Item} (items : List Item)
    (first : List.Forall₂ (Shifted front.length) ((rowAt (front ++ rest)).derive x)
      ((rowAt rest).derive x)) :
    List.Forall₂ (ShiftedSpan front.length)
      (spans (rowAt (front ++ rest)) (laterRows (front ++ rest)) (x :: items))
      (spans (rowAt rest) (laterRows rest) (x :: items)) :=
  List.rel_flatMap first fun _ _ here => follow_shifted rest here items

theorem ne_nil_of_mem_seeds {s : Symbol} (other : s ≠ .script) {p : Numbered}
    (mem : p ∈ s.rule.seeds) : p.items ≠ [] := by
  have solid := isSolid_of_getElem? (mem_seeds.mp mem).1
  simp only [isSolid, Bool.and_eq_true, Bool.or_eq_true, beq_iff_eq, Bool.not_eq_true',
    List.isEmpty_eq_false_iff] at solid
  exact solid.1.2.resolve_left other

/-- More rounds than a row needs settle the same entries. -/
theorem get_rowAt_add (text : List Char) (s : Symbol) (more : Nat) :
    (rowAt text).get s = settle (grownCandidates s.rule (laterRows text)) (text.length + 1 + more)
      (seedCandidates s.rule (rowAt text) (laterRows text)) := by
  have later : LaterSound text := fun k _ _ x => rowAt_sound (text.drop k) x
  rw [get_rowAt]
  refine (settle_add (P := fun e => e.Sound text (.symbol s)) (N := text.length)
    (fun e here => here.length_le) (fun e here c mem => grownCandidates_sound later here mem) more
    _ 0 _ (fun c mem => ⟨?_, Nat.zero_le _⟩) (by omega)).symm
  exact seedCandidates_sound later (fun u _ => rowAt_sound text (.symbol u)) mem

/-- What is skipped at once only makes entries longer. -/
theorem row_shifted {idle rest : List Char} (h : Idle idle rest) {s : Symbol}
    (other : s ≠ .script) :
    List.Forall₂ (Shifted idle.length) ((rowAt (idle ++ rest)).get s) ((rowAt rest).get s) := by
  -- At one place, a symbol starts with earlier ones.
  induction order : s.earlier.length using Nat.strongRecOn generalizing s with
  | ind n ih =>
    subst order
    rw [get_rowAt, get_rowAt_add rest s idle.length, List.length_append,
      show idle.length + rest.length + 1 = rest.length + 1 + idle.length by omega]
    -- What is pending stays ordered alike, and what grows from it goes with it.
    refine settle_rel keepsOrder_shifted ?_ (fun a a' here => here.2)
      (fun a a' here => grownCandidates_shifted here.2 s.rule) _ ?_
    · rintro a a' b b' ⟨-, here⟩ ⟨-, there⟩
      rw [here.length, there.length]
      omega
    · -- The seeds are made from tokens and from earlier symbols.
      have seeds : List.Forall₂ (fun p q => p = q ∧ p ∈ s.rule.seeds) s.rule.seeds s.rule.seeds :=
        List.forall₂_same.mpr fun p mem => ⟨rfl, mem⟩
      refine List.rel_flatMap seeds ?_
      rintro p _ ⟨rfl, mem⟩
      have starts := List.all_eq_true.mp (seeds_startEarlier s) p mem
      have some := ne_nil_of_mem_seeds other mem
      have made : List.Forall₂ (ShiftedSpan idle.length)
          (spans (rowAt (idle ++ rest)) (laterRows (idle ++ rest)) p.items)
          (spans (rowAt rest) (laterRows rest) p.items) := by
        cases items : p.items with
        | nil => exact absurd items some
        | cons x items' =>
          rw [items] at starts
          refine spans_shifted items' ?_
          cases x with
          | token t =>
            rw [Row.derive, Row.derive, text_rowAt, text_rowAt]
            exact tokenEntries_shifted h t
          | symbol u =>
            have earlier : u ∈ s.earlier := by simpa [startsEarlier] using starts
            refine ih _ (earlier_length_lt earlier) ?_ rfl
            rintro rfl
            cases s <;> revert earlier <;> decide
      rw [List.forall₂_map_left_iff, List.forall₂_map_right_iff]
      exact made.imp fun t t' there => there.candidate s.rule.symbol p.number

end Grammar

end ShellInliner
