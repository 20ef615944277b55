import Mathlib.Order.Bounds.Basic
import ShellInliner.Text.Lines

/-! # Places and lines

    A text has one line more than line feeds.  The column of a place counts from the
    start of its line: the last place, up to this one, at which the text starts or
    that follows a line feed. -/

namespace ShellInliner.Text

theorem length_lines (cs : List Char) : (lines cs).length = lineFeeds cs + 1 := by
  induction cs with
  | nil => rfl
  | cons c cs ih =>
    unfold lineFeeds at *
    by_cases feed : c = '\n'
    · subst feed
      simp [lines, ih]
    · have other : (c == '\n') = false := beq_false_of_ne feed
      rw [List.count_cons_of_ne feed, ← ih, lines]
      simp only [other, Bool.false_eq_true, if_false]
      -- A text has at least one line, which the character joins.
      cases split : lines cs with
      | nil =>
        rw [split] at ih
        cases ih
      | cons l ls => rfl

theorem lineFeeds_take_le (cs : List Char) (n : Nat) : lineFeeds (cs.take n) ≤ lineFeeds cs :=
  (List.take_sublist n cs).count_le '\n'

theorem lineFeeds_dropFinalLineFeeds_le (cs : List Char) :
    lineFeeds (dropFinalLineFeeds cs) ≤ lineFeeds cs := by
  unfold lineFeeds dropFinalLineFeeds
  rw [List.count_reverse]
  refine ((List.dropWhile_sublist _).count_le '\n').trans ?_
  rw [List.count_reverse]

/-- Line feeds are counted up to a place. -/
theorem lineFeeds_take_eq {cs : List Char} {m n : Nat} (le : m ≤ n)
    (free : ∀ p, m ≤ p → p < n → cs[p]? ≠ some '\n') :
    lineFeeds (cs.take n) = lineFeeds (cs.take m) := by
  induction n with
  | zero =>
    have zero : m = 0 := by omega
    rw [zero]
  -- The last character that is taken is no line feed, or nothing more is taken.
  | succ n ih =>
    rcases Nat.lt_or_eq_of_le le with lt | rfl
    · have last := free n (by omega) (by omega)
      have earlier := ih (by omega) fun p above below => free p above (by omega)
      unfold lineFeeds at *
      rw [List.take_add_one, List.count_append, earlier]
      cases here : cs[n]? with
      | none => simp
      | some c =>
        rw [here] at last
        have other : c ≠ '\n' := fun same => last (congrArg some same)
        simp [other]
    · rfl

/-- A line of the text starts at the place. -/
def StartsLine (cs : List Char) (place : Nat) : Prop :=
  place = 0 ∨ cs[place - 1]? = some '\n'

/-- The column of a place counts from the start of its line. -/
theorem exists_lineStart {cs : List Char} {place : Nat} (inside : place ≤ cs.length) :
    ∃ start, IsGreatest {s | s ≤ place ∧ StartsLine cs s} start ∧
      (placeAfter (cs.take place)).2 = place - start + 1 := by
  unfold placeAfter
  induction place with
  | zero => exact ⟨0, ⟨⟨Nat.le_refl _, .inl rfl⟩, fun s mem => mem.1⟩, by simp⟩
  | succ n ih =>
    obtain ⟨c, here⟩ : ∃ c, cs[n]? = some c := ⟨cs[n], List.getElem?_eq_getElem inside⟩
    have taken : cs.take (n + 1) = cs.take n ++ [c] := by
      rw [List.take_add_one, here]
      rfl
    rw [taken, List.reverse_append, List.reverse_singleton, List.singleton_append]
    by_cases feed : c = '\n'
    · refine ⟨n + 1, ⟨⟨Nat.le_refl _, .inr ?_⟩, fun s mem => mem.1⟩, ?_⟩
      · rw [Nat.add_sub_cancel, here, feed]
      · rw [List.takeWhile_cons_of_neg (by simp [feed])]
        simp
    · obtain ⟨start, greatest, column⟩ := ih (by omega)
      refine ⟨start, ⟨⟨greatest.1.1.trans (Nat.le_succ n), greatest.1.2⟩, ?_⟩, ?_⟩
      · rintro s ⟨le, starts⟩
        -- The place after a character that is no line feed starts no line.
        have other : s ≠ n + 1 := by
          rintro rfl
          rcases starts with zero | after
          · cases zero
          · rw [Nat.add_sub_cancel, here] at after
            exact feed (Option.some.inj after)
        exact greatest.2 ⟨by omega, starts⟩
      · rw [List.takeWhile_cons_of_pos (by simpa using feed), List.length_cons]
        simp only at column ⊢
        have le := greatest.1.1
        omega

/-- Where no line ends in between, two places have the same line start. -/
theorem lineStart_eq {cs : List Char} {m n start : Nat} (le : m ≤ n)
    (free : ∀ p, m ≤ p → p < n → cs[p]? ≠ some '\n')
    (greatest : IsGreatest {s | s ≤ n ∧ StartsLine cs s} start) :
    IsGreatest {s | s ≤ m ∧ StartsLine cs s} start := by
  refine ⟨⟨?_, greatest.1.2⟩, fun s mem => greatest.2 ⟨mem.1.trans le, mem.2⟩⟩
  obtain ⟨within, starts⟩ := greatest.1
  apply Nat.not_lt.mp
  intro lt
  rcases starts with zero | after
  · omega
  · exact free (start - 1) (by omega) (by omega) after

/-! ### Line ends of one form -/

end ShellInliner.Text
