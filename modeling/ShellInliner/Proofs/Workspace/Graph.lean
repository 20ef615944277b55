import Mathlib.Data.Finset.Card
import Mathlib.Data.Set.List
import Mathlib.Data.Finset.Range
import Mathlib.Logic.Relation
import ShellInliner.Proofs.Node.Subtree
import ShellInliner.Workspace.Basic

/-! # The graph of a workspace

    The nodes of a workspace form a graph: a node may be a child of several
    others.  Where no node lies below itself the graph has no cycle, and then a
    recursion along the children needs no more fuel than there are cells. -/

namespace ShellInliner.Workspace

open Relation (ReflTransGen TransGen)

/-- An array that grows keeps its elements. -/
theorem getElem?_push_of_eq_some {α : Type} {xs : Array α} {i : Nat} {x : α}
    (found : xs[i]? = some x) (y : α) : (xs.push y)[i]? = some x := by
  obtain ⟨inside, here⟩ := Array.getElem?_eq_some_iff.mp found
  rw [Array.getElem?_push_lt inside, here]

/-! ### Children -/

/-- The second node is a child of the first, in a single field or in a row. -/
def IsChild (w : Workspace) (p h : Handle) : Prop :=
  ∃ c, w.cells[p]? = some c ∧
    ((∃ f, (f, some h) ∈ c.singles) ∨
      ∃ f r xs, (f, r) ∈ c.sequences ∧ w.rows[r]? = some xs ∧ some h ∈ xs)

/-- The second node is the first one or lies below it. -/
def Below (w : Workspace) : Handle → Handle → Prop :=
  ReflTransGen w.IsChild

/-- No node lies below itself. -/
def IsAcyclic (w : Workspace) : Prop :=
  ∀ h, ¬ TransGen w.IsChild h h

/-- A node with children is a node of the workspace. -/
theorem IsChild.lt_size {w : Workspace} {p h : Handle} (child : w.IsChild p h) :
    p < w.cells.size := by
  obtain ⟨c, cell, -⟩ := child
  exact (Array.getElem?_eq_some_iff.mp cell).1

/-! ### Depth -/

/-- No way down from the node is longer than this. -/
def IsWithin (w : Workspace) : Nat → Handle → Prop
  | 0, _ => False
  | n + 1, h => ∀ x, w.IsChild h x → IsWithin w n x

theorem IsWithin.child {w : Workspace} {n : Nat} {h x : Handle} (within : w.IsWithin (n + 1) h)
    (child : w.IsChild h x) : w.IsWithin n x :=
  within x child

theorem IsWithin.mono {w : Workspace} {n m : Nat} {h : Handle} (within : w.IsWithin n h)
    (le : n ≤ m) : w.IsWithin m h := by
  induction n generalizing m h with
  | zero => exact within.elim
  | succ n ih =>
    obtain ⟨m, rfl⟩ : ∃ k, m = k + 1 := ⟨m - 1, by omega⟩
    intro x child
    exact ih (within.child child) (by omega)

theorem IsWithin.grandchild {w : Workspace} {n : Nat} {h x y : Handle}
    (within : w.IsWithin (n + 1) h) (child : w.IsChild h x) (deeper : w.IsChild x y) :
    w.IsWithin n y := by
  have below : w.IsWithin n x := within.child child
  cases n with
  | zero => exact below.elim
  | succ n => exact (below.child deeper).mono (by omega)

open Classical in
/-- The nodes of the workspace at and below a node. -/
noncomputable def spread (w : Workspace) (h : Handle) : Finset Handle :=
  (Finset.range w.cells.size).filter (w.Below h)

theorem mem_spread {w : Workspace} {h x : Handle} :
    x ∈ w.spread h ↔ x < w.cells.size ∧ w.Below h x := by
  classical
  unfold spread
  rw [Finset.mem_filter, Finset.mem_range]

theorem card_spread_le (w : Workspace) (h : Handle) : (w.spread h).card ≤ w.cells.size := by
  have subset : w.spread h ⊆ Finset.range w.cells.size := fun x mem =>
    Finset.mem_range.mpr (mem_spread.mp mem).1
  simpa using Finset.card_le_card subset

/-- Fewer nodes lie below a child than below its parent, which does not lie below
    itself. -/
theorem card_spread_lt {w : Workspace} {p h : Handle} (child : w.IsChild p h)
    (apart : ¬ TransGen w.IsChild p p) : (w.spread h).card < (w.spread p).card := by
  have subset : w.spread h ⊆ w.spread p := fun x mem =>
    mem_spread.mpr ⟨(mem_spread.mp mem).1, .head child (mem_spread.mp mem).2⟩
  apply Finset.card_lt_card
  rw [Finset.ssubset_iff_of_subset subset]
  refine ⟨p, mem_spread.mpr ⟨child.lt_size, .refl⟩, ?_⟩
  intro mem
  exact apart (.head' child (mem_spread.mp mem).2)

/-- Where nothing below a node lies below itself, no way down from the node is
    longer than there are nodes. -/
theorem isWithin_fuel {w : Workspace} {h : Handle}
    (apart : ∀ x, w.Below h x → ¬ TransGen w.IsChild x x) : w.IsWithin w.fuel h := by
  have within : ∀ n h, (∀ x, w.Below h x → ¬ TransGen w.IsChild x x) →
      (w.spread h).card ≤ n → w.IsWithin (n + 1) h := by
    -- The induction is on a bound of the number of nodes at and below the node.
    intro n
    induction n with
    | zero =>
      intro h apart le x child
      have := card_spread_lt child (apart h .refl)
      omega
    | succ n ih =>
      intro h apart le x child
      have lt := card_spread_lt child (apart h .refl)
      exact ih x (fun y below => apart y (.head child below)) (by omega)
  exact within _ h apart (w.card_spread_le h)

theorem IsAcyclic.isWithin {w : Workspace} (acyclic : w.IsAcyclic) (h : Handle) :
    w.IsWithin w.fuel h :=
  isWithin_fuel fun x _ => acyclic x

/-! ### Well-typed cells -/

/-- The node is there, and a field of the kind admits it. -/
def Takes (w : Workspace) (k : Kind) (f : Field) (h : Handle) : Prop :=
  ∃ d, w.cells[h]? = some d ∧ Node.Admits k f d.head.kind

/-- The cell keeps to the table of members: it has the fields of its kind, every
    required child is there, and so are all others, each of a kind that its field
    admits. -/
structure Fits (w : Workspace) (c : Cell) : Prop where
  /-- The place has the form that places of the kind have. -/
  place : Node.fitsLoc c.head.kind c.loc = true
  /-- The single fields are those of the kind. -/
  singleFields : c.singles.map (·.1) = c.head.kind.singleFields
  /-- The sequences are those of the kind. -/
  sequenceFields : c.sequences.map (·.1) = c.head.kind.sequenceFields
  /-- An empty field need not be filled. -/
  vacant : ∀ f, (f, none) ∈ c.singles → c.head.kind.requires f = false
  /-- A single child is one that its field admits. -/
  single : ∀ f h, (f, some h) ∈ c.singles → w.Takes c.head.kind f h
  /-- A row is there, and its elements are nodes that its field admits. -/
  row : ∀ f r, (f, r) ∈ c.sequences →
    ∃ hs : List Handle, w.rows[r]? = some (hs.map some) ∧ ∀ h ∈ hs, w.Takes c.head.kind f h

/-- The rows of the cell are there. -/
def HasRows (w : Workspace) (c : Cell) : Prop :=
  ∀ s ∈ c.sequences, ∃ xs, w.rows[s.2]? = some xs

theorem Fits.hasRows {w : Workspace} {c : Cell} (fits : w.Fits c) : w.HasRows c := by
  intro s mem
  obtain ⟨hs, row, -⟩ := fits.row s.1 s.2 mem
  exact ⟨_, row⟩

/-- All nodes of the workspace keep to the table of members. -/
def IsWellTyped (w : Workspace) : Prop :=
  ∀ (h : Handle) (c : Cell), w.cells[h]? = some c → w.Fits c

theorem mem_of_lookup {α : Type} {f : Field} {x : α} {entries : List (Field × α)}
    (found : entries.lookup f = some x) : (f, x) ∈ entries := by
  obtain ⟨before, after, rfl, -⟩ := List.lookup_eq_some_iff.mp found
  simp

theorem exists_lookup {α : Type} {f : Field} {entries : List (Field × α)}
    (mem : f ∈ entries.map (·.1)) : ∃ x, entries.lookup f = some x := by
  obtain ⟨entry, here, rfl⟩ := List.mem_map.mp mem
  have found : (entries.lookup entry.1).isSome = true :=
    List.lookup_isSome_iff.mpr ⟨entry, here, by simp⟩
  exact Option.isSome_iff_exists.mp found

theorem mem_singleFields_of_requires {k : Kind} {f : Field} (required : k.requires f = true) :
    f ∈ k.singleFields := by
  unfold Kind.requires at required
  obtain ⟨m, mem, here⟩ := List.any_eq_true.mp required
  refine List.mem_filterMap.mpr ⟨m, mem, ?_⟩
  rcases m with ⟨a, type⟩ | ⟨g, arity, admission⟩
  · cases here
  · cases arity with
    | required => simpa using here
    | optional => cases here
    | many => cases here

theorem singleFields_disjoint (k : Kind) : ∀ f ∈ k.singleFields, f ∉ k.sequenceFields := by
  cases k <;> decide

namespace Fits

variable {w : Workspace} {c : Cell}

/-- A required child is there. -/
theorem exists_child (fits : w.Fits c) {f : Field} (required : c.head.kind.requires f = true) :
    ∃ h, child? c f = some h ∧ w.Takes c.head.kind f h := by
  have single : f ∈ c.singles.map (·.1) := by
    rw [fits.singleFields]
    exact mem_singleFields_of_requires required
  obtain ⟨x, found⟩ := exists_lookup single
  have mem := mem_of_lookup found
  cases x with
  | none =>
    have optional := fits.vacant f mem
    rw [required] at optional
    cases optional
  | some h => exact ⟨h, by simp [child?, found], fits.single f h mem⟩

theorem takes_of_child? (fits : w.Fits c) {f : Field} {h : Handle}
    (found : child? c f = some h) : w.Takes c.head.kind f h :=
  fits.single f h (mem_of_lookup (Option.join_eq_some_iff.mp found))

/-- A sequence of the kind has its row. -/
theorem exists_row (fits : w.Fits c) {f : Field} (sequence : f ∈ c.head.kind.sequenceFields) :
    ∃ (r : RowHandle) (hs : List Handle), c.sequences.lookup f = some r ∧
      w.rows[r]? = some (hs.map some) ∧ ∀ h ∈ hs, w.Takes c.head.kind f h := by
  rw [← fits.sequenceFields] at sequence
  obtain ⟨r, found⟩ := exists_lookup sequence
  obtain ⟨hs, row, takes⟩ := fits.row f r (mem_of_lookup found)
  exact ⟨r, hs, found, row, takes⟩

theorem lookup_sequences_eq_none (fits : w.Fits c) {f : Field}
    (single : f ∈ c.head.kind.singleFields) : c.sequences.lookup f = none := by
  cases found : c.sequences.lookup f with
  | none => rfl
  | some r =>
    have mem : f ∈ c.sequences.map (·.1) := List.mem_map.mpr ⟨_, mem_of_lookup found, rfl⟩
    rw [fits.sequenceFields] at mem
    exact absurd mem (singleFields_disjoint _ f single)

/-- Every child is there. -/
theorem exists_cell (fits : w.Fits c) {p h : Handle} (cell : w.cells[p]? = some c)
    (child : w.IsChild p h) : ∃ d, w.cells[h]? = some d := by
  obtain ⟨c', cell', mem⟩ := child
  rw [cell] at cell'
  cases cell'
  -- A child stands in a field of its own or in a row.
  rcases mem with ⟨f, single⟩ | ⟨f, r, xs, sequence, row, mem⟩
  · obtain ⟨d, found, -⟩ := fits.single f h single
    exact ⟨d, found⟩
  · obtain ⟨hs, row', takes⟩ := fits.row f r sequence
    rw [row] at row'
    cases row'
    obtain ⟨x, here, same⟩ := List.mem_map.mp mem
    cases same
    obtain ⟨d, found, -⟩ := takes h here
    exact ⟨d, found⟩

end Fits

/-! ### Checking a workspace -/

instance (w : Workspace) (k : Kind) (f : Field) (h : Handle) : Decidable (w.Takes k f h) :=
  decidable_of_iff (∃ d ∈ w.cells[h]?, Node.Admits k f d.head.kind) <| by
    simp [Takes]

/-- A row is there and full of nodes that a field of a kind admits. -/
theorem exists_full_row_iff {w : Workspace} {k : Kind} {f : Field} {r : RowHandle} :
    (∃ xs ∈ w.rows[r]?, ∀ x ∈ xs, ∃ h ∈ x, w.Takes k f h) ↔
      ∃ hs : List Handle, w.rows[r]? = some (hs.map some) ∧ ∀ h ∈ hs, w.Takes k f h := by
  constructor
  · rintro ⟨xs, row, each⟩
    -- No place in the row is empty.
    have full : xs ∈ Set.range (List.map some) := by
      rw [Set.range_list_map]
      intro x mem
      obtain ⟨h, rfl, -⟩ := each x mem
      exact ⟨h, rfl⟩
    obtain ⟨hs, rfl⟩ := full
    refine ⟨hs, row, fun h mem => ?_⟩
    obtain ⟨h', same, takes⟩ := each (some h) (List.mem_map_of_mem mem)
    cases same
    exact takes
  · rintro ⟨hs, row, takes⟩
    refine ⟨_, row, fun x mem => ?_⟩
    obtain ⟨h, here, rfl⟩ := List.mem_map.mp mem
    exact ⟨h, rfl, takes h here⟩

instance (w : Workspace) (c : Cell) : Decidable (w.Fits c) :=
  decidable_of_iff (Node.fitsLoc c.head.kind c.loc = true ∧
    c.singles.map (·.1) = c.head.kind.singleFields ∧
    c.sequences.map (·.1) = c.head.kind.sequenceFields ∧
    (∀ s ∈ c.singles, s.2 = none → c.head.kind.requires s.1 = false) ∧
    (∀ s ∈ c.singles, ∀ h ∈ s.2, w.Takes c.head.kind s.1 h) ∧
    ∀ s ∈ c.sequences, ∃ xs ∈ w.rows[s.2]?, ∀ x ∈ xs, ∃ h ∈ x, w.Takes c.head.kind s.1 h) <| by
  constructor
  · rintro ⟨place, singleFields, sequenceFields, vacant, single, row⟩
    exact ⟨place, singleFields, sequenceFields, fun f mem => vacant _ mem rfl,
      fun f h mem => single _ mem h rfl, fun f r mem => exists_full_row_iff.mp (row _ mem)⟩
  · rintro ⟨place, singleFields, sequenceFields, vacant, single, row⟩
    refine ⟨place, singleFields, sequenceFields, fun s mem none => vacant s.1 (none ▸ mem),
      fun s mem h some => single s.1 h (some ▸ mem), fun s mem => ?_⟩
    exact exists_full_row_iff.mpr (row s.1 s.2 mem)

instance (w : Workspace) : Decidable w.IsWellTyped :=
  decidable_of_iff (∀ c ∈ w.cells, w.Fits c) <| by
    constructor
    · intro each h c cell
      exact each c (Array.mem_of_getElem? cell)
    · intro typed c mem
      obtain ⟨h, cell⟩ := Array.mem_iff_getElem?.mp mem
      exact typed h c cell

/-- The children of a cell, field by field. -/
def childHandles (w : Workspace) (c : Cell) : List Handle :=
  c.singles.filterMap (·.2) ++ c.sequences.flatMap fun s => (w.rows[s.2]?.getD []).filterMap id

/-- Where every child is older than its parents, no node lies below itself. -/
theorem isAcyclic_of_older {w : Workspace}
    (older : ∀ p < w.cells.size, ∀ c ∈ w.cells[p]?, ∀ h ∈ w.childHandles c, h < p) : w.IsAcyclic := by
  have lt (p h : Handle) (child : w.IsChild p h) : h < p := by
    obtain ⟨c, cell, mem⟩ := child
    refine older p (Array.getElem?_eq_some_iff.mp cell).1 c cell h ?_
    unfold childHandles
    rw [List.mem_append, List.mem_filterMap, List.mem_flatMap]
    rcases mem with ⟨f, single⟩ | ⟨f, r, xs, sequence, row, mem⟩
    · exact .inl ⟨_, single, rfl⟩
    · exact .inr ⟨_, sequence, by simpa [row] using mem⟩
  intro h cycle
  -- Along a way down the numbers fall, and on a cycle they would fall below themselves.
  have below (x y : Handle) (way : TransGen w.IsChild x y) : y < x := by
    induction way with
    | single child => exact lt _ _ child
    | tail _ child ih => exact (lt _ _ child).trans ih
  exact lt_irrefl h (below h h cycle)

end ShellInliner.Workspace
