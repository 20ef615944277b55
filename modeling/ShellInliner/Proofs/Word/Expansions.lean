import ShellInliner.Proofs.Grammar.Closed
import ShellInliner.Word.Expansion

/-! # The expansions found in a word

    Every expansion stands inside the word it is found in, is not empty and has
    nothing below it. -/

namespace ShellInliner.Word

/-! ### Pieces -/

/-- An expansion takes some characters, and no more than there are. -/
structure ExpansionFits (h : Head) (n : Nat) (cs : List Char) : Prop where
  /-- It is one of the three kinds of expansions. -/
  kind : h.kind.isExpansion = true
  /-- It is not empty. -/
  positive : 0 < n
  /-- It ends with the text at the latest. -/
  bound : n ≤ cs.length

theorem isExpansion_bracedParameter (inside : List Char) :
    (bracedParameter inside).kind.isExpansion = true := by
  -- With an operator or without one the node is a parameter.
  have other : (bracedParameter.parameterAndOperator inside).kind.isExpansion = true := by
    unfold bracedParameter.parameterAndOperator
    dsimp only
    split
    · rfl
    · split <;> rfl
  unfold bracedParameter
  split
  · split
    · exact other
    · rfl
  · exact other

theorem fits_commandPiece {cs : List Char} {h : Head} {n : Nat}
    (made : dollarPiece.commandPiece cs = .expansion h n) : ExpansionFits h n ('$' :: '(' :: cs) := by
  unfold dollarPiece.commandPiece at made
  split at made
  · rename_i k inside
    cases made
    have bound := (commandInside?_append inside []).2
    exact ⟨rfl, by omega, by simp only [List.length_cons]; omega⟩
  · cases made

theorem fits_plain {cs : List Char} {k n : Nat} {h : Head} (bound : k ≤ cs.length)
    (made : dollarPiece.plain k cs = .expansion h n) : ExpansionFits h n ('$' :: cs) := by
  cases made
  exact ⟨rfl, Nat.succ_pos _, Nat.succ_le_succ bound⟩

theorem fits_dollarPiece {cs : List Char} {h : Head} {n : Nat}
    (made : dollarPiece cs = .expansion h n) : ExpansionFits h n ('$' :: cs) := by
  unfold dollarPiece at made
  -- The arms are those of the brackets after the dollar sign; a name or a sign comes last.
  split at made
  · rename_i rest
    split at made
    · rename_i k inside
      cases made
      have bound := (arithmeticInside?_append inside []).2
      exact ⟨rfl, by omega, by simp only [List.length_cons]; omega⟩
    · exact fits_commandPiece made
  · exact fits_commandPiece made
  · rename_i rest
    split at made
    · rename_i k inside
      cases made
      have bound := (spanTo_append inside []).2
      exact ⟨isExpansion_bracedParameter _, by omega, by simp only [List.length_cons]; omega⟩
    · cases made
  · rename_i c rest _ _ _
    split at made
    · exact fits_plain (identifierLength_le _) made
    · split at made
      · exact fits_plain (Nat.succ_le_succ (Nat.zero_le _)) made
      · cases made
  · cases made

theorem fits_piece {quoted : Bool} {cs : List Char} {h : Head} {n : Nat}
    (made : piece quoted cs = .expansion h n) : ExpansionFits h n cs := by
  revert made
  fun_cases piece quoted cs with
  | case6 =>
    rename_i k inside _ _ _
    rintro ⟨⟩
    have bound := (escapedSpanTo_append inside []).2
    exact ⟨rfl, by omega, by simp only [List.length_cons]; omega⟩
  | case8 cs => exact fits_dollarPiece
  | _ => rintro ⟨⟩

/-! ### Expansions -/

/-- The node is an expansion that stands between the two offsets of its word. -/
structure IsExpansionNode (first last : Nat) (n : Node) : Prop where
  /-- It is one of the three kinds of expansions. -/
  kind : n.kind.isExpansion = true
  /-- There is nothing below it. -/
  leaf : n.children = []
  /-- It is not empty and does not go beyond the offsets. -/
  place : ∃ start stop : Nat, n.loc = some (.offsets start stop) ∧ first ≤ start ∧ start < stop ∧
    stop ≤ last

theorem mem_expansionsFrom {quoted : Bool} {offset skip : Nat} {cs : List Char} {n : Node}
    (mem : n ∈ expansionsFrom quoted offset skip cs) :
    IsExpansionNode offset (offset + cs.length) n := by
  -- What lies in the rest lies in the whole, one place further on.
  have later {m : Node} {offset length : Nat} (h : IsExpansionNode (offset + 1) (offset + 1 + length) m) :
      IsExpansionNode offset (offset + (length + 1)) m := by
    obtain ⟨start, stop, loc, first, order, last⟩ := h.place
    exact ⟨h.kind, h.leaf, start, stop, loc, by omega, order, by omega⟩
  fun_induction expansionsFrom quoted offset skip cs with
  | case1 => cases mem
  | case2 _ _ _ _ _ ih => exact later (ih mem)
  | case3 _ _ _ _ _ _ ih => exact later (ih mem)
  | case4 _ _ _ _ _ ih => exact later (ih mem)
  | case5 quoted offset c cs h k made ih =>
    cases mem with
    | head =>
      have fits := fits_piece made
      exact ⟨fits.kind, rfl, offset, offset + k, rfl, Nat.le_refl _, Nat.lt_add_of_pos_right fits.positive,
        Nat.add_le_add_left fits.bound _⟩
    | tail _ mem => exact later (ih mem)

/-- The expansions of a word stand inside it. -/
theorem mem_expansionChildren {cs : List Char} {c : Field × Node} (mem : c ∈ expansionChildren cs) :
    c.1 = .expansion ∧ IsExpansionNode 0 cs.length c.2 := by
  obtain ⟨n, found, rfl⟩ := List.mem_map.mp mem
  have inside := mem_expansionsFrom found
  rw [Nat.zero_add] at inside
  exact ⟨rfl, inside⟩

end ShellInliner.Word
