import Mathlib.Order.Monotone.Basic
import ShellInliner.Proofs.Grammar.Shift

/-! # How a script opens

    A script may open with line ends, and after them, or without them, comes its list
    of statements.  What is skipped at once in front of a script does not count.  A run
    of line ends in front is one token, and after it the script goes on as if it opened
    with statements at once or with more line ends. -/

namespace ShellInliner.Grammar

open Parse (pieces piecesOf)

/-! ### Where a symbol derives nothing -/

theorem get_eq_nil {text : List Char} {s : Symbol}
    (none : ∀ p ∈ s.rule.seeds, spans (rowAt text) (laterRows text) p.items = []) :
    (rowAt text).get s = [] := by
  have seeds : seedCandidates s.rule (rowAt text) (laterRows text) = [] :=
    List.flatMap_eq_nil_iff.mpr fun p mem => by rw [none p mem, List.map_nil]
  rw [get_rowAt, seeds, settle]
  rfl

theorem spans_eq_nil {row : Row} {later : List Row} {x : Item} {items : List Item}
    (none : row.derive x = []) : spans row later (x :: items) = [] := by
  rw [spans, none, List.flatMap_nil]

/-- May the symbol start with a line end? -/
def Symbol.mayBreak (s : Symbol) : Bool :=
  [.newlines, .separator, .sequentialSeparator, .forWords, .termTail, .compoundList,
    .script].contains s

/-- Does the production of the symbol start with a token that is no line end, or with an
    earlier symbol that starts with none? -/
def startsInLine (s : Symbol) (items : List Item) : Bool :=
  match items.head? with
  | some (.token t) => t != .newline
  | some (.symbol u) => s.earlier.contains u && !u.mayBreak
  | none => false

theorem seeds_startInLine {s : Symbol} (stays : s.mayBreak = false) :
    s.rule.seeds.all (fun p => startsInLine s p.items) = true := by
  cases s <;> first | rfl | cases stays

/-- Where the text goes on with no token but a line end, a symbol that starts with none
    derives nothing. -/
theorem get_eq_nil_of_tokens {text : List Char}
    (silent : ∀ t : Terminal, t ≠ .newline → tokenEntries t text = []) {s : Symbol}
    (stays : s.mayBreak = false) : (rowAt text).get s = [] := by
  -- At one place, a symbol starts with earlier ones.
  induction order : s.earlier.length using Nat.strongRecOn generalizing s with
  | ind n ih =>
    subst order
    refine get_eq_nil fun p mem => ?_
    have starts := List.all_eq_true.mp (seeds_startInLine stays) p mem
    cases items : p.items with
    | nil =>
      rw [items] at starts
      cases starts
    | cons x items' =>
      rw [items] at starts
      refine spans_eq_nil ?_
      cases x with
      | token t =>
        rw [Row.derive, text_rowAt]
        exact silent t (by simpa [startsInLine] using starts)
      | symbol u =>
        simp only [startsInLine, List.head?_cons, Bool.and_eq_true, List.contains_iff_mem,
          Bool.not_eq_true'] at starts
        exact ih _ (earlier_length_lt starts.1) starts.2 rfl

/-! ### Line ends -/

/-- Where a line end stands, nothing can be skipped. -/
theorem skip?_of_newline {cs : List Char} {n : Nat} (taken : Terminal.newline.length? cs = some n) :
    skip? cs = none := by
  cases cs with
  | nil => rfl
  | cons c cs =>
    have head := head_of_newline taken
    simp only [List.mem_cons, List.not_mem_nil, or_false] at head
    rcases head with rfl | rfl <;> rfl

theorem newlineEntries_of_newline {cs : List Char} {n : Nat}
    (taken : Terminal.newline.length? cs = some n) :
    tokenEntries .newline cs = [⟨n, .leaf ⟨.newline, [], cs.take n⟩⟩] := by
  unfold tokenEntries
  rw [gaps_of_none (skip?_of_newline taken), List.filterMap_cons, List.filterMap_nil,
    List.drop_zero, taken]
  simp

/-- Where a line end stands, no other token does. -/
theorem tokenEntries_of_newline {cs : List Char} {n : Nat}
    (taken : Terminal.newline.length? cs = some n) {t : Terminal} (other : t ≠ .newline) :
    tokenEntries t cs = [] := by
  have none : t.length? cs = none := by
    refine Option.eq_none_iff_forall_ne_some.mpr fun m also => ?_
    have look := Parse.look_eq also taken
    cases t <;> first | exact absurd rfl other | cases look
  unfold tokenEntries
  rw [gaps_of_none (skip?_of_newline taken), List.filterMap_cons, List.filterMap_nil,
    List.drop_zero, none]
  rfl

/-- At most one token of a text is a line end. -/
theorem length_newlineEntries (cs : List Char) : (tokenEntries .newline cs).length ≤ 1 := by
  induction cs using skip_induct with
  | ends cs none =>
    unfold tokenEntries
    rw [gaps_of_none none]
    exact List.length_filterMap_le ..
  | goes cs m skips ih =>
    cases taken : Terminal.newline.length? cs with
    | some n =>
      rw [newlineEntries_of_newline taken]
      exact Nat.le_refl _
    | none =>
      -- The tokens are those of the text that is left, with more skipped before them.
      refine Nat.le_trans (Nat.le_of_eq ?_) ih
      unfold tokenEntries
      rw [gaps_of_skip? skips, List.filterMap_cons, List.drop_zero, taken]
      simp only [Option.map_none, List.filterMap_map, List.length_filterMap_eq_countP]
      refine List.countP_congr fun g _ => ?_
      simp only [Function.comp_apply, Option.isSome_map, Nat.add_comm g m, ← List.drop_drop]

/-- Of what follows a place, at most one is a line end. -/
theorem length_follow_newline (text : List Char) (offset : Nat) :
    (follow (laterRows text) [.token .newline] offset).length ≤ 1 := by
  rw [follow, laterRows_getElem?]
  split
  · exact Nat.zero_le _
  · rename_i row found
    have here : row.text = text.drop (offset - 1 + 1) := by
      split at found
      · cases found
        exact text_rowAt _
      · cases found
    -- The row holds what its own text starts with, and that is at most one line end.
    have single := length_newlineEntries row.text
    rw [Row.derive]
    cases tokens : tokenEntries .newline row.text with
    | nil => exact Nat.zero_le _
    | cons e es =>
      rw [tokens, List.length_cons] at single
      rw [List.eq_nil_of_length_eq_zero (by omega : es.length = 0)]
      exact Nat.le_refl _

/-! ### A line end in front -/

variable {front rest : List Char}

/-- What follows what stands in front is what is derived without it. -/
theorem follow_front (ne : front ≠ []) {x : Item} (other : x ≠ .symbol .script)
    (items : List Item) :
    follow (laterRows (front ++ rest)) (x :: items) front.length =
      (spans (rowAt rest) (laterRows rest) (x :: items)).map (Span.after front.length) := by
  have pos := List.length_pos_iff.mpr ne
  have place : front.length - 1 + 1 = front.length := by omega
  rw [follow, laterRows_getElem?, place, List.drop_left,
    if_pos (by rw [List.length_append]; omega), spans, List.map_flatMap]
  refine List.flatMap_congr fun e mem => ?_
  rw [follow_after _ _ _ ((rowAt_sound rest x e mem).length_pos other), List.map_map, List.map_map]
  rfl

theorem pos_of_mem_spans {x : Item} (other : x ≠ .symbol .script) {items : List Item} {s : Span}
    (mem : s ∈ spans (rowAt rest) (laterRows rest) (x :: items)) : 0 < s.length := by
  obtain ⟨e, here, there⟩ := List.mem_flatMap.mp mem
  obtain ⟨s', others, rfl⟩ := List.mem_map.mp there
  have longer : e.length ≤ s'.length := le_of_mem_follow others
  exact Nat.lt_of_lt_of_le ((rowAt_sound rest x e here).length_pos other) longer

/-- If what stands in front has no pieces, all is as without it. -/
theorem front_shifted (rest : List Char) (ne : front ≠ []) {e : Entry}
    (length : e.length = front.length) (silent : pieces e.tree = .ok []) {x : Item}
    (other : x ≠ .symbol .script) (items : List Item) :
    List.Forall₂ (ShiftedSpan front.length)
      ((follow (laterRows (front ++ rest)) (x :: items) e.length).map (Span.push e.tree))
      (spans (rowAt rest) (laterRows rest) (x :: items)) := by
  rw [length, follow_front ne other, List.map_map, List.forall₂_map_left_iff, List.forall₂_same]
  intro s mem
  refine ⟨rfl, pos_of_mem_spans other mem, ?_⟩
  simp only [Function.comp_apply, Span.push, Span.after, piecesOf, silent]
  cases piecesOf s.trees <;> rfl

theorem newlines_seeds : Symbol.newlines.rule.seeds = [⟨0, [.token .newline]⟩] := rfl

theorem newlines_growths : Symbol.newlines.rule.growths = [⟨1, [.token .newline]⟩] := rfl

/-- A line end in front is an entry of its own, and those with more line ends are as
    without it. -/
theorem newlines_front (taken : Terminal.newline.length? (front ++ rest) = some front.length) :
    ∃ e tail, (rowAt (front ++ rest)).get .newlines = e :: tail ∧ e.length = front.length ∧
      pieces e.tree = .ok [] ∧
      List.Forall₂ (Shifted front.length) tail ((rowAt rest).get .newlines) := by
  have pos := (Terminal.length?_bounds taken).1
  have ne := List.length_pos_iff.mp pos
  let first : Entry := ⟨front.length, .node .newlines 0 [.leaf ⟨.newline, [], front⟩]⟩
  have seed : seedCandidates Symbol.newlines.rule (rowAt (front ++ rest))
      (laterRows (front ++ rest)) = [⟨0, first⟩] := by
    unfold seedCandidates
    rw [newlines_seeds, List.flatMap_singleton, spans, Row.derive, text_rowAt,
      newlineEntries_of_newline taken, List.take_left]
    rfl
  have single (text : List Char) (e : Entry) :
      (grownCandidates Symbol.newlines.rule (laterRows text) e).length ≤ 1 := by
    unfold grownCandidates
    rw [newlines_growths, List.flatMap_singleton, List.length_map]
    exact length_follow_newline text e.length
  have silent : pieces first.tree = .ok [] := rfl
  refine ⟨first, settle (grownCandidates Symbol.newlines.rule (laterRows (front ++ rest)))
    (front ++ rest).length
    (grownCandidates Symbol.newlines.rule (laterRows (front ++ rest)) first), ?_, rfl, silent, ?_⟩
  · rw [get_rowAt, seed]
    simp [settle, best?]
  · rw [get_rowAt_add rest .newlines (front.length - 1), List.length_append,
      show rest.length + 1 + (front.length - 1) = front.length + rest.length by omega]
    refine settle_rel_of_single (fun e e' here => ?_) (single _) _ ?_ (single _ _)
    · exact (grownCandidates_shifted here Symbol.newlines.rule).imp fun a a' there => there.2
    · -- What grows from the line end in front starts anew without it.
      unfold grownCandidates seedCandidates
      rw [newlines_growths, newlines_seeds, List.flatMap_singleton, List.flatMap_singleton]
      have other : Item.token .newline ≠ .symbol .script := by decide
      have made := front_shifted rest ne (show first.length = front.length from rfl) silent other []
      rw [List.forall₂_map_left_iff] at made
      rw [List.forall₂_map_left_iff, List.forall₂_map_right_iff]
      refine made.imp fun s s' there => ⟨there.length, there.pos, ?_⟩
      have same := there.pieces
      simp only [Span.push] at same
      simp only [pieces, same]

/-- Where a line end stands in front, no list of statements starts. -/
theorem get_term_front (taken : Terminal.newline.length? (front ++ rest) = some front.length) :
    (rowAt (front ++ rest)).get .term = [] :=
  get_eq_nil_of_tokens (fun _ other => tokenEntries_of_newline taken other) rfl

/-! ### Scripts -/

/-- A candidate for a script. -/
def scriptCandidate (number : Nat) (s : Span) : Candidate :=
  ⟨number, s.length, .node .script number s.trees⟩

/-- What some items derive at the start of a text. -/
def openings (text : List Char) (items : List Item) : List Span :=
  spans (rowAt text) (laterRows text) items

/-- A script has line ends and statements, line ends only, statements only, or nothing. -/
theorem scriptCandidates_eq (text : List Char) : scriptCandidates text =
    (openings text [.symbol .newlines, .symbol .term]).map (scriptCandidate 0) ++
      ((openings text [.symbol .newlines]).map (scriptCandidate 1) ++
        ((openings text [.symbol .term]).map (scriptCandidate 2) ++ [scriptCandidate 3 ⟨0, []⟩])) :=
  rfl

/-- The candidates after a line end: statements at once, after more line ends, nothing
    more, or more line ends only. -/
def opened (text : List Char) : List Candidate :=
  ((openings text [.symbol .term]).map (scriptCandidate 0) ++
    (openings text [.symbol .newlines, .symbol .term]).map (scriptCandidate 0)) ++
    (scriptCandidate 1 ⟨0, []⟩ :: (openings text [.symbol .newlines]).map (scriptCandidate 1))

/-- The pieces of the best of the candidates that leave only what can be skipped. -/
def chosen (text : List Char) (cs : List Candidate) : Option (Except Error (List Parse.Piece)) :=
  (best? (cs.filter (Candidate.completes text))).map fun c => pieces c.entry.tree

/-- The pieces of the derivation of a script are those that are chosen. -/
theorem map_derivation? (text : List Char) :
    (derivation? text).map pieces = chosen text (scriptCandidates text) := by
  rw [derivation?_eq, Option.map_map]
  rfl

/-- The candidates have the same pieces, their numbers differ by a constant, and their
    lengths keep their order. -/
structure Alike (stretch : Nat → Nat) (ahead : Nat) (a a' : Candidate) : Prop where
  /-- The lengths. -/
  length : a.entry.length = stretch a'.entry.length
  /-- The numbers. -/
  number : a'.number = a.number + ahead
  /-- The pieces. -/
  pieces : pieces a.entry.tree = pieces a'.entry.tree

theorem keepsOrder_alike {stretch : Nat → Nat} {ahead : Nat} (mono : StrictMono stretch) :
    KeepsOrder (Alike stretch ahead) := by
  intro a a' b b' here there
  rw [Bool.eq_iff_iff, precedes_iff, precedes_iff, here.length, there.length, here.number,
    there.number, mono.lt_iff_lt, mono.injective.eq_iff]
  omega

/-- Of candidates that are alike, those that are chosen have the same pieces. -/
theorem chosen_alike {text text' : List Char} {stretch : Nat → Nat} (ahead : Nat)
    (mono : StrictMono stretch)
    (skips : ∀ n, isSkippable (text.drop (stretch n)) = isSkippable (text'.drop n))
    {cs ds : List Candidate} (each : List.Forall₂ (Alike stretch ahead) cs ds) :
    chosen text cs = chosen text' ds := by
  -- Corresponding candidates leave the same rest, so both complete the text or neither does.
  have kept : List.Forall₂ (Alike stretch ahead) (cs.filter (Candidate.completes text))
      (ds.filter (Candidate.completes text')) := by
    refine List.rel_filter (fun a a' here => ?_) each
    show (isSkippable _ = true) ↔ (isSkippable _ = true)
    rw [here.length, skips]
  have best := best?_rel (keepsOrder_alike mono) kept
  unfold chosen
  generalize best? (cs.filter (Candidate.completes text)) = c at best ⊢
  generalize best? (ds.filter (Candidate.completes text')) = c' at best ⊢
  cases best with
  | none => rfl
  | some here => rw [Option.map_some, Option.map_some, here.pieces]

theorem alike_of_shifted {more number : Nat} {stretch : Nat → Nat}
    (later : ∀ n, 0 < n → stretch n = more + n) {ss ss' : List Span}
    (each : List.Forall₂ (ShiftedSpan more) ss ss') :
    List.Forall₂ (Alike stretch 0) (ss.map (scriptCandidate number))
      (ss'.map (scriptCandidate number)) := by
  rw [List.forall₂_map_left_iff, List.forall₂_map_right_iff]
  refine each.imp fun s s' here => ⟨?_, rfl, ?_⟩
  · simp only [scriptCandidate, here.length, later _ here.pos]
  · simp only [scriptCandidate, pieces, here.pieces]

/-! ### What is skipped in front -/

/-- What is skipped at once in front of a script does not count. -/
theorem derivation?_idle {idle : List Char} (h : Idle idle rest) :
    (derivation? (idle ++ rest)).map pieces = (derivation? rest).map pieces := by
  have bounds := skip?_bounds h.skips
  -- The empty script stays empty.
  let stretch (n : Nat) : Nat := if n = 0 then 0 else idle.length + n
  have later (n : Nat) (pos : 0 < n) : stretch n = idle.length + n := if_neg (by omega)
  have mono : StrictMono stretch := by
    intro m n lt
    rw [later n (by omega)]
    simp only [stretch]
    split <;> omega
  have skips (n : Nat) :
      isSkippable ((idle ++ rest).drop (stretch n)) = isSkippable (rest.drop n) := by
    rcases Nat.eq_zero_or_pos n with rfl | pos
    · have skipped := isSkippable_of_skip? h.skips
      rw [List.drop_left] at skipped
      exact skipped
    · rw [later n pos, ← List.drop_drop, List.drop_left]
  have opening (s : Symbol) (other : s ≠ .script) (items : List Item) :
      List.Forall₂ (ShiftedSpan idle.length) (openings (idle ++ rest) (.symbol s :: items))
        (openings rest (.symbol s :: items)) :=
    spans_shifted items (row_shifted h other)
  rw [map_derivation?, map_derivation?, scriptCandidates_eq, scriptCandidates_eq]
  refine chosen_alike 0 mono skips
    (List.rel_append ?_ (List.rel_append ?_ (List.rel_append ?_ ?_)))
  · exact alike_of_shifted later (opening .newlines (by decide) _)
  · exact alike_of_shifted later (opening .newlines (by decide) _)
  · exact alike_of_shifted later (opening .term (by decide) _)
  · exact .cons ⟨rfl, rfl, rfl⟩ .nil

/-! ### A script after a line end -/

/-- A candidate that leaves more than what can be skipped is passed over. -/
theorem chosen_append {text : List Char} {cs ds : List Candidate} {c : Candidate}
    (fails : c.completes text = false) : chosen text (cs ++ c :: ds) = chosen text (cs ++ ds) := by
  unfold chosen
  rw [List.filter_append, List.filter_append, List.filter_cons_of_neg (by simp [fails])]

/-- After a line end in front, a script is one that has been opened. -/
theorem derivation?_front (taken : Terminal.newline.length? (front ++ rest) = some front.length) :
    (derivation? (front ++ rest)).map pieces = chosen rest (opened rest) := by
  have pos := (Terminal.length?_bounds taken).1
  have ne := List.length_pos_iff.mp pos
  obtain ⟨e, tail, entries, length, silent, others⟩ := newlines_front taken
  have later (n : Nat) (_ : 0 < n) : front.length + n = front.length + n := rfl
  have mono : StrictMono (front.length + ·) := fun m n lt => Nat.add_lt_add_left lt _
  have skips (n : Nat) :
      isSkippable ((front ++ rest).drop (front.length + n)) = isSkippable (rest.drop n) := by
    rw [← List.drop_drop, List.drop_left]
  have solid : isSkippable (front ++ rest) = false := by
    simp [isSkippable, gaps_of_none (skip?_of_newline taken), ne]
  have statements : openings (front ++ rest) [.symbol .term] = [] :=
    spans_eq_nil (get_term_front taken)
  have parted (items : List Item) : openings (front ++ rest) (.symbol .newlines :: items) =
      (follow (laterRows (front ++ rest)) items e.length).map (Span.push e.tree) ++
        tail.flatMap fun e => (follow (laterRows (front ++ rest)) items e.length).map
          (Span.push e.tree) := by
    unfold openings
    rw [spans, Row.derive, entries, List.flatMap_cons]
  have other : Item.symbol .term ≠ .symbol .script := by decide
  have more (items : List Item) : List.Forall₂ (ShiftedSpan front.length)
      (tail.flatMap fun e => (follow (laterRows (front ++ rest)) items e.length).map
        (Span.push e.tree)) (openings rest (.symbol .newlines :: items)) :=
    List.rel_flatMap others fun _ _ here => follow_shifted rest here items
  -- Statements cannot come first, and the empty script would leave the line end.
  rw [map_derivation?, scriptCandidates_eq, statements, parted, parted, List.map_nil,
    List.nil_append, ← List.append_assoc,
    chosen_append (by rw [← solid]; rfl), List.append_nil, List.map_append, List.map_append]
  refine chosen_alike 0 mono skips (List.rel_append (List.rel_append ?_ ?_) ?_)
  · exact alike_of_shifted later (front_shifted rest ne length silent other [])
  · exact alike_of_shifted later (more _)
  · refine .cons ⟨length, rfl, ?_⟩ (alike_of_shifted later (more _))
    simp only [scriptCandidate, Span.push, pieces, piecesOf, silent]
    rfl

/-- Where no more line ends stand or no statements do, an opened script is a script. -/
theorem chosen_opened (text : List Char)
    (one : (rowAt text).get .newlines = [] ∨
      (rowAt text).get .term = [] ∧ isSkippable text = false) :
    chosen text (opened text) = (derivation? text).map pieces := by
  rw [map_derivation?, scriptCandidates_eq]
  unfold opened
  rcases one with none | ⟨none, solid⟩
  · have lines (items : List Item) : openings text (.symbol .newlines :: items) = [] :=
      spans_eq_nil none
    rw [lines, lines]
    -- The numbers of what is left differ by two, so they keep their order.
    simp only [List.map_nil, List.append_nil, List.nil_append]
    refine chosen_alike 2 strictMono_id (fun n => rfl)
      (List.rel_append ?_ (.cons ⟨rfl, rfl, rfl⟩ .nil))
    rw [List.forall₂_map_left_iff, List.forall₂_map_right_iff, List.forall₂_same]
    exact fun s _ => ⟨rfl, rfl, rfl⟩
  · have statements : openings text [.symbol .term] = [] := spans_eq_nil none
    have fails (number : Nat) : (scriptCandidate number ⟨0, []⟩).completes text = false := solid
    rw [statements]
    -- The empty script is passed over, and what is left is the same.
    simp only [List.map_nil, List.nil_append]
    rw [chosen_append (fails 1), ← List.append_assoc, chosen_append (fails 3), List.append_nil]

end ShellInliner.Grammar
