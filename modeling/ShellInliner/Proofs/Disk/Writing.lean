import ShellInliner.Disk.Basic

/-! # Writing to a disk

    A text that is written to a file is all that changes: the path leads to the same
    place as before, the text stands there, and everything else stands as it stood. -/

namespace ShellInliner.Disk

variable {d d' : Disk} {l m : Location} {p : List Char} {i : Item}

/-! ### Putting something at a place -/

theorem lookup_replaced (es : List (Location × Item)) :
    (es.map fun e => if e.1 == l then (l, i) else e).lookup m =
      if m = l then (es.lookup l).map fun _ => i else es.lookup m := by
  induction es with
  | nil => simp
  | cons e es ih =>
    obtain ⟨k, j⟩ := e
    rw [List.map_cons, List.lookup_cons, List.lookup_cons, ih]
    by_cases place : k = l
    · subst place
      by_cases same : m = k
      · simp [same]
      · simp [same, List.lookup_cons, beq_false_of_ne same]
    · -- This entry is another place: the one asked for, or neither.
      by_cases same : m = k
      · simp [same, place]
      · simp [place, List.lookup_cons, beq_false_of_ne same, beq_false_of_ne (Ne.symm place)]

theorem lookup_put : (d.put l i).items.lookup m = if m = l then some i else d.items.lookup m := by
  unfold put
  split
  · -- What stood at the place is replaced.
    rename_i here
    rw [lookup_replaced]
    obtain ⟨⟨k, j⟩, mem, same⟩ := List.any_eq_true.mp here
    obtain rfl : k = l := eq_of_beq same
    have found : (d.items.lookup k).isSome = true :=
      List.lookup_isSome_iff.mpr ⟨(k, j), mem, beq_self_eq_true k⟩
    obtain ⟨j', found⟩ := Option.isSome_iff_exists.mp found
    rw [found]
    rfl
  · -- Nothing stood there, and the new entry is the last.
    rename_i absent
    have none : d.items.lookup l = .none := by
      rw [List.lookup_eq_none_iff]
      intro e he
      refine bne_iff_ne.mpr fun same => absent ?_
      exact List.any_eq_true.mpr ⟨e, he, beq_iff_eq.mpr same.symm⟩
    rw [List.lookup_append, List.lookup_cons]
    by_cases same : m = l
    · simp [same, none]
    · simp [same, beq_false_of_ne same]

/-- What is put at a place stands there. -/
theorem item?_put (below : l ≠ []) : (d.put l i).item? l = some i := by
  unfold item?
  rw [if_neg (by simpa using below), lookup_put, if_pos rfl]

/-- Everything else stands as it stood. -/
theorem item?_put_of_ne (other : m ≠ l) : (d.put l i).item? m = d.item? m := by
  unfold item?
  rw [lookup_put, if_neg other]

/-! ### Following paths after a file was written -/

/-- A path that leads somewhere still leads there once a file stands where there was no
    directory: it only passes through directories. -/
theorem walk_put (free : d.item? l ≠ some .directory) (cs : List (List Char)) {s : Location}
    (leads : d.walk s cs = .ok m) : (d.put l i).walk s cs = .ok m := by
  induction cs generalizing s with
  | nil => exact leads
  | cons c cs ih =>
    unfold walk at leads ⊢
    cases found : d.item? s with
    | none =>
      rw [found] at leads
      cases leads
    | some here =>
      cases here with
      | file bytes =>
        rw [found] at leads
        cases leads
      | directory =>
        -- The walk goes through a directory, and there is none where the file is put.
        have other : s ≠ l := by
          rintro rfl
          exact free found
        rw [item?_put_of_ne other, found]
        rw [found] at leads
        simp only at leads ⊢
        split at leads
        · rw [if_pos ‹_›]
          exact ih leads
        · rw [if_neg ‹_›]
          split at leads
          · rw [if_pos ‹_›]
            exact ih leads
          · rw [if_neg ‹_›]
            exact ih leads

theorem follow_put (free : d.item? l ≠ some .directory) (leads : d.follow p = .ok m) :
    (d.put l i).follow p = .ok m := by
  have cwd : (d.put l i).cwd = d.cwd := by
    unfold put
    split <;> rfl
  unfold follow at leads ⊢
  -- What refuses a path before it is followed does not depend on the disk.
  split
  · rename_i null
    rw [if_pos null] at leads
    cases leads
  · rename_i plain
    rw [if_neg plain] at leads
    split
    · rename_i empty
      rw [if_pos empty] at leads
      cases leads
    · rename_i some
      rw [if_neg some] at leads
      rw [cwd]
      exact walk_put free _ leads

/-! ### Written files -/

/-- The second disk is the first one with a text written to the file that a path leads
    to. -/
structure Gains (d : Disk) (p : List Char) (text : String) (d' : Disk) : Prop where
  /-- The file holds the text. -/
  content : d'.readBytes p = .ok (Text.encode text)
  /-- The path leads to a single place, no directory before, and nothing else has changed. -/
  frame : ∃ l, d.follow p = .ok l ∧ d.item? l ≠ some .directory ∧ ∀ m ≠ l, d'.item? m = d.item? m
  /-- The disk is seen from the same directory, -/
  cwd : d'.cwd = d.cwd
  /-- with the same home. -/
  home : d'.home = d.home

/-- A disk that a text is written to gains the text. -/
theorem gains_of_writeText {text : String} (written : d.writeText p text = .ok d') :
    d.Gains p text d' := by
  unfold writeText at written
  cases leads : d.follow p with
  | error r =>
    rw [leads] at written
    cases written
  | ok l =>
    have free : d.item? l ≠ some .directory := by
      intro directory
      simp only [leads, directory] at written
      cases written
    have put : d' = d.put l (.file (Text.encode text)) := by
      simp only [leads] at written
      exact (Except.ok.inj written).symm
    -- The root is a directory, so the place has a directory above it.
    have below : l ≠ [] := by
      rintro rfl
      exact free rfl
    subst put
    refine ⟨?content, ⟨l, leads, free, fun m other => item?_put_of_ne other⟩, ?cwd, ?home⟩
    case content =>
      unfold readBytes find
      rw [follow_put free leads]
      simp only [item?_put below]
    case cwd =>
      unfold Disk.put
      split <;> rfl
    case home =>
      unfold Disk.put
      split <;> rfl

end ShellInliner.Disk
