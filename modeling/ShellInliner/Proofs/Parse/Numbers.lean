import ShellInliner.Proofs.Node.Dumping
import ShellInliner.Proofs.Parse.Places
import ShellInliner.Proofs.Source.Spelled

/-! # Numbers of a tree that was read

    A tree that is read with its places has two sorts of numbers.  Those of places are
    rows, columns and offsets in the source, none of which is greater than its length
    and one.  Those of file descriptors have no more digits than can be read. -/

namespace ShellInliner

open Text (pointAt pointPast extent)

/-! ### Numbers of places -/

section

variable {source : List Char} {p : Int → Prop} {a b i : Nat}

/-- The row and the column of a character are at most its number and one. -/
theorem Text.pointAt_le (source : List Char) (inside : i ≤ source.length) : ∃ row col : Nat,
    pointAt source i = ⟨row, col, i⟩ ∧ row ≤ i + 1 ∧ col ≤ i + 1 := by
  have taken : (source.take i).length = i := List.length_take_of_le inside
  have row : Text.lineFeeds (source.take i) ≤ i := by
    have le := List.count_le_length (a := '\n') (l := source.take i)
    rwa [taken] at le
  have col : ((source.take i).reverse.takeWhile (· != '\n')).length ≤ i := by
    have le := (List.takeWhile_sublist (p := (· != '\n')) (l := (source.take i).reverse)).length_le
    rwa [List.length_reverse, taken] at le
  exact ⟨_, _, rfl, Nat.succ_le_succ row, Nat.succ_le_succ col⟩

theorem Text.numbers_extent (small : ∀ k : Nat, k ≤ source.length + 1 → p k) (lt : a < b)
    (bound : b ≤ source.length) : (extent source a b).Numbers p := by
  have before : a ≤ source.length := by omega
  have last : b - 1 ≤ source.length := by omega
  obtain ⟨row, col, start, rowLe, colLe⟩ := Text.pointAt_le source before
  obtain ⟨row', col', stop, rowLe', colLe'⟩ := Text.pointAt_le source last
  rw [extent, pointPast, start, stop]
  have next (k : Nat) (le : k ≤ source.length) : p ((k : Int) + 1) := small (k + 1) (by omega)
  exact ⟨⟨small _ (by omega), small _ (by omega), small _ (by omega)⟩,
    small _ (by omega), next _ (by omega), next _ (by omega)⟩

end

namespace Node

section

variable {t n : Node} {P : Node → Prop}

/-- What holds of a node and of every child holds throughout. -/
theorem throughout_of_children (here : P t) (each : ∀ m, t.Holds m → ∀ c ∈ m.children, P c.2) :
    Throughout P t := by
  induction t using induct with
  | step h l cs ih =>
    refine throughout_iff.mpr ⟨here, fun c hc => ?_⟩
    have own := each (mk h l cs) (.inl rfl)
    exact ih c hc (own c hc) fun m hm => each m (holds_of_child hc hm)

/-- Only what has a text has expansions. -/
theorem exists_text_of_expansion (typed : n.isWellTyped = true) {c : Field × Node}
    (hc : c ∈ n.children) (expansion : c.2.kind.isExpansion = true) : ∃ text, n.text? = some text := by
  have admits := admits_of_mem typed hc
  have never (none : n.kind.members.all (memberHolds fun _ below => !below.isExpansion) = true) :
      False := by
    have other := admits.holds none
    rw [expansion] at other
    cases other
  cases n with
  | mk h l cs =>
    cases h
    case name | word | assignmentWord => exact ⟨_, rfl⟩
    all_goals exact (never rfl).elim

end

end Node

namespace Parse

open Node

variable {source : List Char} {p : Int → Prop} {t : Node}

/-- What holds of all small numbers and of all with few digits holds of the numbers of
    a tree that is read with its places. -/
theorem numbers_parse (parsed : parse source { locate := true } = .ok t)
    (small : ∀ k : Nat, k ≤ source.length + 1 → p k)
    (few : ∀ k : Nat, (Nat.toDigits 10 k).length ≤ digitLimit → p k) : Throughout (Numbers p) t := by
  obtain ⟨a, b, inside, row⟩ := exists_inside rfl parsed
  obtain ⟨script, typed, regular⟩ := sound_parse parsed
  have bare := parse_unplaced source { locate := true }
  rw [parsed] at bare
  -- A file descriptor is the same without the places.
  have descriptors : Throughout (fun n => ∀ op i, n.head = .redirect op (some i) → p i) t := by
    refine throughout_of_unplaced (spelled_parse bare) fun n spelled op i head => ?_
    obtain ⟨-, number⟩ := spelled.redirection op (some i) (by rwa [head_unplaced])
    obtain ⟨k, rfl, digits⟩ := number i rfl
    exact few k digits
  have descriptor := throughout_iff_forall.mp descriptors
  have wellTyped := throughout_iff_forall.mp (throughout_isWellTyped typed)
  have placed {n : Node} (holds : t.Holds n) (other : n.kind.isExpansion = false) : Numbers p n := by
    refine ⟨fun l place => ?_, descriptor n holds⟩
    have fits := (isWellTyped_iff.mp (wellTyped n holds)).1
    rw [place] at fits
    cases l with
    | between start stop =>
      obtain ⟨c, d, ⟨lt, bound, covered⟩, -⟩ := (inside.holds holds).exists_covers place
      rw [Option.some.inj (place.symm.trans covered)]
      exact Text.numbers_extent small lt bound
    | offsets first last =>
      change n.kind.isExpansion = true at fits
      rw [other] at fits
      cases fits
  refine throughout_of_children (placed (.inl rfl) (by rw [script]; rfl)) fun m holds c hc => ?_
  have child : t.Holds c.2 := by
    rcases holds with rfl | ⟨f, site⟩
    · exact .inr ⟨c.1, .child hc⟩
    · exact .inr ⟨c.1, site.trans (.child hc)⟩
  cases expansion : c.2.kind.isExpansion with
  | false => exact placed child expansion
  | true =>
    -- An expansion stands in a text, which is a part of the source.
    obtain ⟨text, named⟩ := exists_text_of_expansion (wellTyped m holds) hc expansion
    obtain ⟨first, last, place, lt, le⟩ :=
      exists_offsets (wellTyped m holds) (throughout_iff_forall.mp regular m holds) named hc
    have leaf : m ∈ t.leaves := (mem_leaves_iff typed).mpr ⟨holds, by rw [named]; rfl⟩
    obtain ⟨x, y, covers, -, own⟩ := row.exists_covers leaf
    have length : text.toList.length ≤ source.length := by
      obtain rfl := Option.some.inj (named.symm.trans own)
      rw [String.toList_ofList, List.extract_eq_take_drop, List.length_take, List.length_drop]
      omega
    refine ⟨fun l here => ?_, descriptor c.2 child⟩
    obtain rfl : Extent.offsets first last = l := Option.some.inj (place.symm.trans here)
    exact ⟨small first (by omega), small last (by omega)⟩

end Parse

end ShellInliner
