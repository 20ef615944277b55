import ShellInliner.Parse.Piece
import ShellInliner.Proofs.Node.Fields
import ShellInliner.Text.Lines

/-! # Points of a text

    A point of a text is told by the line and the column of a character and the
    number of characters before it.  A part of the text goes from the point of its
    first character to one column past its last one, on the row of that one. -/

namespace ShellInliner

/-! ### Points -/

namespace Text

/-- The point at which a character of the text stands. -/
def pointAt (source : List Char) (i : Nat) : Position :=
  ⟨(placeAfter (source.take i)).1, (placeAfter (source.take i)).2, i⟩

/-- The point past a character of the text, on the row of the character. -/
def pointPast (source : List Char) (i : Nat) : Position :=
  ⟨(pointAt source i).row, (pointAt source i).col + 1, i + 1⟩

/-- The part of the text from one character up to another. -/
def extent (source : List Char) (a b : Nat) : Extent :=
  .between (pointAt source a) (pointPast source (b - 1))

/-- A part of the text has its bounds for it. -/
theorem extent_inj {source : List Char} {a b c d : Nat} (first : 0 < b) (second : 0 < d)
    (same : extent source a b = extent source c d) : a = c ∧ b = d := by
  injection same with starts stops
  have start : (a : Int) = c := congrArg Position.char starts
  have stop : ((b - 1 : Nat) : Int) + 1 = ((d - 1 : Nat) : Int) + 1 := congrArg Position.char stops
  omega

end Text

namespace Parse

open Text (pointAt pointPast extent)

section

variable {source text rest : List Char} {i : Nat}

/-- A character leads from its point to the next one. -/
theorem step_pointAt {c : Char} (there : source[i]? = some c) :
    step (pointAt source i) c = pointAt source (i + 1) := by
  have taken : source.take (i + 1) = source.take i ++ [c] := by
    rw [List.take_add_one, there]
    rfl
  unfold step
  by_cases feed : c = '\n'
  · subst feed
    simp [pointAt, Text.placeAfter, Text.lineFeeds, taken]
  · simp [pointAt, Text.placeAfter, Text.lineFeeds, taken, feed]

/-- A text leads from the point where it starts to the point where it ends. -/
theorem advance_pointAt (here : source.drop i = text ++ rest) :
    advance (pointAt source i) text = pointAt source (i + text.length) := by
  induction text generalizing i with
  | nil => rfl
  | cons c text ih =>
    -- The first character takes the point one place on, the others do the rest.
    have first : source[i]? = some c := by
      have head := congrArg List.head? here
      rwa [List.head?_drop] at head
    have others : source.drop (i + 1) = text ++ rest := by
      rw [← List.drop_drop, here]
      rfl
    show advance (step (pointAt source i) c) text = _
    rw [step_pointAt first, ih others, List.length_cons]
    congr 1
    omega

/-- A token goes from the point where it starts to the point past its last
    character. -/
theorem tokenEnd_pointAt (here : source.drop i = text ++ rest) (some : text ≠ []) :
    tokenEnd (pointAt source i) text = pointPast source (i + text.length - 1) := by
  have split : text = text.dropLast ++ [text.getLast some] := (List.dropLast_concat_getLast some).symm
  have front : source.drop i = text.dropLast ++ ([text.getLast some] ++ rest) := by
    rw [here, ← List.append_assoc, ← split]
  have positive := List.length_pos_of_ne_nil some
  have last : i + text.dropLast.length = i + text.length - 1 := by
    rw [List.length_dropLast]
    omega
  unfold tokenEnd
  rw [advance_pointAt front, last]
  rfl

theorem extract_eq (here : source.drop i = text ++ rest) :
    source.extract i (i + text.length) = text := by
  rw [List.extract_eq_take_drop, here, Nat.add_sub_cancel_left, List.take_left]

theorem bound_of_drop (here : source.drop i = text ++ rest) (some : text ≠ []) :
    i + text.length ≤ source.length := by
  have length := congrArg List.length here
  have positive := List.length_pos_of_ne_nil some
  rw [List.length_drop, List.length_append] at length
  omega

end

end Parse

/-! ### Nodes that cover a part of the text -/

namespace Node

open Text (extent)

/-- The place of the node is the part of the source from one character up to
    another, which is not empty. -/
def Covers (source : List Char) (n : Node) (a b : Nat) : Prop :=
  a < b ∧ b ≤ source.length ∧ n.loc = some (extent source a b)

/-- The node and everything below it, each at its place, stand between two
    characters of the source. -/
inductive Inside (source : List Char) : Nat → Nat → Node → Prop
  /-- What stands below a node that has a place stands in this place. -/
  | between {a b x y : Nat} {n : Node} (start : a ≤ x) (covers : n.Covers source x y) (stop : y ≤ b)
      (below : ∀ c ∈ n.children, Inside source x y c.2) : Inside source a b n
  /-- A node may have no place in the source. -/
  | without {a b : Nat} {n : Node} (none : ∀ start stop, n.loc ≠ some (.between start stop))
      (below : ∀ c ∈ n.children, Inside source a b c.2) : Inside source a b n

/-- The nodes are words and names that stand one after the other between two
    characters of the source, and each has the text that it covers. -/
inductive Row (source : List Char) : Nat → List Node → Nat → Prop
  /-- There are none. -/
  | nil {a b : Nat} (le : a ≤ b) : Row source a [] b
  /-- One stands before the others. -/
  | cons {a b x y : Nat} {n : Node} {ns : List Node} (start : a ≤ x) (covers : n.Covers source x y)
      (text : n.text? = some (String.ofList (source.extract x y))) (others : Row source y ns b) :
      Row source a (n :: ns) b

variable {source : List Char} {n m t : Node} {a b c d : Nat}

theorem Covers.eq (h : n.Covers source a b) (h' : n.Covers source c d) : a = c ∧ b = d :=
  Text.extent_inj (by have := h.1; omega) (by have := h'.1; omega)
    (Option.some.inj (h.2.2.symm.trans h'.2.2))

/-! ### What stands inside a part of the text -/

theorem Inside.mono (h : Inside source c d n) (start : a ≤ c) (stop : d ≤ b) : Inside source a b n := by
  induction h generalizing a b with
  | between start' covers stop' below => exact .between (by omega) covers (by omega) below
  | without none _ ih => exact .without none fun e he => ih e he start stop

theorem Inside.child (h : Inside source a b n) {e : Field × Node} (he : e ∈ n.children) :
    Inside source a b e.2 := by
  cases h with
  | between start covers stop below => exact (below e he).mono start stop
  | without none below => exact below e he

theorem Inside.holds (h : Inside source a b t) (holds : t.Holds n) : Inside source a b n := by
  rcases holds with rfl | ⟨f, site⟩
  · exact h
  induction site with
  | child mem => exact h.child mem
  | deeper mem _ ih => exact ih (h.child mem)

/-- What stands inside a part of the text and has a place in the source covers a
    part of that part. -/
theorem Inside.exists_covers (h : Inside source a b n) {start stop : Position}
    (place : n.loc = some (.between start stop)) : ∃ c d, n.Covers source c d ∧ a ≤ c ∧ d ≤ b := by
  cases h with
  | between first covers last _ => exact ⟨_, _, covers, first, last⟩
  | without none _ => exact absurd place (none _ _)

theorem Inside.covers_le (h : Inside source a b n) (covers : n.Covers source c d) : a ≤ c ∧ d ≤ b := by
  obtain ⟨c', d', covers', start, stop⟩ := h.exists_covers covers.2.2
  obtain ⟨rfl, rfl⟩ := covers.eq covers'
  exact ⟨start, stop⟩

/-- A part of the text that a node covers holds all parts that are covered below
    the node. -/
theorem Inside.nested (h : Inside source a b n) {c' d' : Nat} {f : Field} (outer : n.Covers source c d)
    (site : n.Site f m) (inner : m.Covers source c' d') : c ≤ c' ∧ d' ≤ d := by
  cases h with
  | between _ covers _ below =>
    obtain ⟨rfl, rfl⟩ := outer.eq covers
    have inside : Inside source c d m := by
      cases site with
      | child mem => exact below _ mem
      | deeper mem site => exact (below _ mem).holds (.inr ⟨f, site⟩)
    exact inside.covers_le inner
  | without none _ => exact absurd outer.2.2 (none _ _)

/-! ### Rows of words and names -/

theorem Row.le (h : Row source a ns b) : a ≤ b := by
  induction h with
  | nil le => exact le
  | cons start covers _ _ ih =>
    have := covers.1
    omega

theorem Row.mono (h : Row source c ns d) (start : a ≤ c) (stop : d ≤ b) : Row source a ns b := by
  induction h generalizing a with
  | nil le => exact .nil (by omega)
  | cons start' covers text _ ih => exact .cons (by omega) covers text (ih (Nat.le_refl _) stop)

theorem Row.append {ns ms : List Node} (h : Row source a ns b) (h' : Row source b ms c) :
    Row source a (ns ++ ms) c := by
  induction h with
  | nil le => exact h'.mono le (Nat.le_refl _)
  | cons start covers text _ ih => exact .cons start covers text (ih h')

theorem Row.exists_covers {ns : List Node} (h : Row source a ns b) (hn : n ∈ ns) :
    ∃ c d, n.Covers source c d ∧ a ≤ c ∧ n.text? = some (String.ofList (source.extract c d)) := by
  induction h with
  | nil => cases hn
  | cons start covers text _ ih =>
    rcases List.mem_cons.mp hn with rfl | hn
    · exact ⟨_, _, covers, start, text⟩
    · obtain ⟨c, d, covers', le, text'⟩ := ih hn
      have := covers.1
      exact ⟨c, d, covers', by omega, text'⟩

/-- Each word or name of a row ends before the next ones start. -/
theorem Row.pairwise {ns : List Node} (h : Row source a ns b) :
    ns.Pairwise fun m n => ∀ c d c' d', m.Covers source c d → n.Covers source c' d' → d ≤ c' := by
  induction h with
  | nil => exact .nil
  | cons start covers text others ih =>
    refine .cons (fun n hn c d c' d' first second => ?_) ih
    obtain ⟨x, y, covers', le, -⟩ := others.exists_covers hn
    obtain ⟨rfl, rfl⟩ := first.eq covers
    obtain ⟨rfl, rfl⟩ := second.eq covers'
    exact le

end Node

end ShellInliner
