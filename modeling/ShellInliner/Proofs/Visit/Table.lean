import ShellInliner.Visit.Visitor

/-! # Tables with other entries

    A visitor that records what it does, and the handlers that rules give, are tables
    with other entries under the same names.  What is found under a name follows the
    entries, and which names are known does not change. -/

namespace ShellInliner.Table

variable {α β : Type}

theorem lookup_map (t : Table α) (g : Option α → Option β) (name : String) :
    (t.map fun e => (e.1, g e.2)).lookup name = (t.lookup name).map g := by
  induction t with
  | nil => rfl
  | cons e t ih =>
    rw [List.map_cons, List.lookup_cons, List.lookup_cons]
    cases name == e.1 with
    | true => rfl
    | false => exact ih

theorem under_map (t : Table α) (g : α → β) (name : String) :
    under (t.map fun e => (e.1, e.2.map g)) name = (t.under name).map g := by
  unfold under
  rw [lookup_map t (·.map g)]
  -- An entry that is empty stays empty.
  cases t.lookup name with
  | none => rfl
  | some entry => rfl

/-- The same kinds have entries. -/
theorem entry?_map (t : Table α) (g : α → β) (k : Kind) :
    entry? (t.map fun e => (e.1, e.2.map g)) k = (t.entry? k).map g := by
  unfold entry?
  rw [under_map, under_map]
  cases t.under k.label with
  | none => rfl
  | some own => rfl

theorem unknownNames_map (t : Table α) (g : Option α → Option β) :
    unknownNames (t.map fun e => (e.1, g e.2)) = t.unknownNames := by
  unfold unknownNames
  rw [List.map_map]
  rfl

end ShellInliner.Table
