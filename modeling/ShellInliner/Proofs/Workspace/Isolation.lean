import ShellInliner.Proofs.Workspace.Growth
import ShellInliner.Proofs.Workspace.Installing

/-! # What a traversal leaves is apart from the tree it came from

    A traversal copies every node with children into a new node with new rows, and
    it shares the leaves.  If its handlers change nothing that is there and bring
    in only trees of their own, then nothing that was there before has changed when
    it ends, well or badly, and everything that can be reached from what it leaves
    is new or a leaf of the old tree.  Installing layouts has handlers that do
    change nodes, but of the old ones only leaves of the tree, and only their
    style. -/

namespace ShellInliner.Workspace

open Relation (ReflTransGen)
open Run (Chains Ensures Keeps)

/-! ### What stays -/

/-- All nodes and rows of the first workspace are in the second one just as they
    were, except that a node may have got a style that it is allowed to get. -/
structure Spares (S : Handle → Style → Prop) (w v : Workspace) : Prop where
  /-- A node stays, or has got a style. -/
  cell : ∀ (h : Handle) (c : Cell), w.cells[h]? = some c → v.cells[h]? = some c ∨
    ∃ style, S h style ∧ v.cells[h]? = some { c with style := some style }
  /-- A row stays. -/
  row : ∀ (r : RowHandle) (xs : List (Option Handle)), w.rows[r]? = some xs → v.rows[r]? = some xs

/-- All nodes and rows of the first workspace are in the second one just as they
    were. -/
abbrev Frame : Workspace → Workspace → Prop :=
  Spares fun _ _ => False

instance (S : Handle → Style → Prop) : Growth (Spares S) where
  refl _ := ⟨fun _ _ found => .inl found, fun _ _ found => found⟩
  trans u v w first next := by
    constructor
    · intro h c found
      -- Of two styles that a node has got the later one stays.
      rcases first.cell h c found with same | ⟨style, allowed, styled⟩
      · exact next.cell h c same
      · rcases next.cell h _ styled with same' | ⟨style', allowed', styled'⟩
        · exact .inr ⟨style, allowed, same'⟩
        · exact .inr ⟨style', allowed', styled'⟩
    · exact fun r xs found => next.row r xs (first.row r xs found)
  push_cell _ d := ⟨fun _ _ found => .inl (getElem?_push_of_eq_some found d), fun _ _ found => found⟩
  push_row _ ys := ⟨fun _ _ found => .inl found, fun _ _ found => getElem?_push_of_eq_some found ys⟩
  aside _ _ _ := ⟨fun _ _ found => .inl found, fun _ _ found => found⟩

/-- Where every element of an array stays in some form, the array gets no shorter. -/
theorem size_le_of_getElem? {α : Type} {xs ys : Array α}
    (stays : ∀ (i : Nat) x, xs[i]? = some x → ∃ y, ys[i]? = some y) : xs.size ≤ ys.size := by
  by_contra shorter
  obtain ⟨y, found⟩ := stays ys.size xs[ys.size] (Array.getElem?_eq_getElem (by omega))
  simp at found

namespace Spares

variable {S : Handle → Style → Prop} {w v : Workspace}

theorem exists_style (spared : Spares S w v) {h : Handle} {c : Cell}
    (found : w.cells[h]? = some c) : ∃ style, v.cells[h]? = some { c with style } := by
  rcases spared.cell h c found with same | ⟨style, -, styled⟩
  · exact ⟨c.style, same⟩
  · exact ⟨some style, styled⟩

theorem size_cells (spared : Spares S w v) : w.cells.size ≤ v.cells.size :=
  size_le_of_getElem? fun _ _ found => (spared.exists_style found).imp' _ fun _ here => here

theorem size_rows (spared : Spares S w v) : w.rows.size ≤ v.rows.size :=
  size_le_of_getElem? fun r xs found => ⟨xs, spared.row r xs found⟩

end Spares

/-! ### What is new -/

/-- The node is new since the workspace, and so are its rows. -/
def IsNew (w : Workspace) (h : Handle) (c : Cell) : Prop :=
  w.cells.size ≤ h ∧ ∀ s ∈ c.sequences, w.rows.size ≤ s.2

/-- All nodes at and below the node are there with their rows, and each of them is
    new since the first workspace, or one of the shared nodes. -/
def Made (w : Workspace) (shared : Handle → Prop) (v : Workspace) (h : Handle) : Prop :=
  ∀ x, v.Below h x → ∃ c, v.cells[x]? = some c ∧ v.HasRows c ∧ (w.IsNew x c ∨ shared x)

/-- A child that a node has after others have been spared is one that it had
    before. -/
theorem Spares.isChild_of {S : Handle → Style → Prop} {w v : Workspace} (spared : Spares S w v)
    {p h : Handle} {c : Cell} (found : w.cells[p]? = some c) (rows : w.HasRows c)
    (child : v.IsChild p h) : w.IsChild p h := by
  obtain ⟨style, kept⟩ := spared.exists_style found
  obtain ⟨d, found', place⟩ := child
  rw [kept] at found'
  cases found'
  refine ⟨c, found, ?_⟩
  rcases place with single | ⟨f, r, xs, sequence, row, mem⟩
  · exact .inl single
  · -- The row was there before, and rows stay as they are.
    obtain ⟨ys, row'⟩ := rows (f, r) sequence
    have same := spared.row r ys row'
    rw [row] at same
    cases same
    exact .inr ⟨f, r, xs, sequence, row', mem⟩

theorem Spares.hasRows {S : Handle → Style → Prop} {w v : Workspace} (spared : Spares S w v)
    {c : Cell} (rows : w.HasRows c) : v.HasRows c := by
  intro s mem
  obtain ⟨xs, row⟩ := rows s mem
  exact ⟨xs, spared.row s.2 xs row⟩

/-- What lies below a node after others have been spared lay below it before, if
    everything there was whole. -/
theorem Spares.below_of {S : Handle → Style → Prop} {w v : Workspace} (spared : Spares S w v)
    {h x : Handle} (whole : ∀ y, w.Below h y → ∃ c, w.cells[y]? = some c ∧ w.HasRows c)
    (below : v.Below h x) : w.Below h x := by
  induction below with
  | refl => exact .refl
  | tail _ child ih =>
    obtain ⟨c, found, rows⟩ := whole _ ih
    exact ih.tail (spared.isChild_of found rows child)

namespace Made

variable {u w v : Workspace} {shared shared' : Handle → Prop} {h : Handle}

theorem whole (made : w.Made shared v h) :
    ∀ x, v.Below h x → ∃ c, v.cells[x]? = some c ∧ v.HasRows c := by
  intro x below
  obtain ⟨c, found, rows, -⟩ := made x below
  exact ⟨c, found, rows⟩

theorem below (made : w.Made shared v h) {x : Handle} (below : v.Below h x) :
    w.Made shared v x :=
  fun y deeper => made y (below.trans deeper)

/-- Trees stay made when their nodes are spared. -/
theorem spared {S : Handle → Style → Prop} (made : w.Made shared v h) (spared : Spares S v u) :
    w.Made shared u h := by
  intro x below
  obtain ⟨c, found, rows, kind⟩ := made x (spared.below_of made.whole below)
  obtain ⟨style, kept⟩ := spared.exists_style found
  exact ⟨{ c with style }, kept, spared.hasRows rows, kind⟩

theorem mono (made : u.Made shared v h) (cells : w.cells.size ≤ u.cells.size)
    (rows : w.rows.size ≤ u.rows.size) (more : ∀ x, shared x → shared' x) :
    w.Made shared' v h := by
  intro x below
  obtain ⟨c, found, whole, new | old⟩ := made x below
  · refine ⟨c, found, whole, .inl ⟨cells.trans new.1, fun s mem => ?_⟩⟩
    exact rows.trans (new.2 s mem)
  · exact ⟨c, found, whole, .inr (more x old)⟩

/-- A new node above nodes that are made is made. -/
theorem push {c : Cell} (cells : w.cells.size ≤ v.cells.size)
    (singles : ∀ s ∈ c.singles, ∀ x, s.2 = some x → w.Made shared v x)
    (rows : ∀ s ∈ c.sequences, w.rows.size ≤ s.2 ∧
      ∃ xs, v.rows[s.2]? = some xs ∧ ∀ x, some x ∈ xs → w.Made shared v x) :
    w.Made shared { v with cells := v.cells.push c } v.cells.size := by
  have grown : Frame v { v with cells := v.cells.push c } := Growth.push_cell v c
  have here : (v.cells.push c)[v.cells.size]? = some c := by simp
  intro x below
  rcases ReflTransGen.cases_head below with rfl | ⟨y, child, deeper⟩
  · refine ⟨c, here, fun s mem => ?_, .inl ⟨cells, fun s mem => (rows s mem).1⟩⟩
    obtain ⟨-, xs, row, -⟩ := rows s mem
    exact ⟨xs, row⟩
  · -- The children of the new node were made before.
    have made : w.Made shared v y := by
      obtain ⟨d, found, place⟩ := child
      rw [here] at found
      cases found
      rcases place with ⟨f, mem⟩ | ⟨f, r, xs, sequence, row, mem⟩
      · exact singles (f, some y) mem y rfl
      · obtain ⟨-, ys, row', each⟩ := rows (f, r) sequence
        have same : v.rows[r]? = some xs := row
        rw [row'] at same
        cases same
        exact each y mem
    exact made.spared grown x deeper

end Made

/-- What is related to all elements of a list is related to one of them each. -/
theorem exists_of_mem_right {α β : Type} {P : α → β → Prop} {xs : List α} {ys : List β}
    (all : List.Forall₂ P xs ys) {y : β} (mem : y ∈ ys) : ∃ x ∈ xs, P x y := by
  induction all with
  | nil => cases mem
  | @cons x z xs ys here _ ih =>
    rcases List.mem_cons.mp mem with rfl | later
    · exact ⟨x, List.mem_cons_self .., here⟩
    · obtain ⟨x', mem', there⟩ := ih later
      exact ⟨x', List.mem_cons_of_mem _ mem', there⟩

/-! ### Looking and adding -/

section

variable {S : Handle → Style → Prop}

theorem ensures_cell (h : Handle) (w : Workspace) :
    Ensures (Spares S) (cell h) w fun c _ => w.cells[h]? = some c := by
  refine .look (keeps_cell h) fun c ended => ?_
  rw [run_cell] at ended
  cases found : w.cells[h]? with
  | none =>
    rw [found] at ended
    cases ended
  | some d =>
    rw [found] at ended
    cases ended
    rfl

theorem ensures_row {w : Workspace} {r : RowHandle} {xs : List (Option Handle)}
    (found : w.rows[r]? = some xs) : Ensures (Spares S) (row r) w fun ys _ => ys = xs := by
  refine .look (keeps_row r) fun ys ended => ?_
  rw [run_row found] at ended
  cases ended
  rfl

/-- A new row is new, and holds what it was made of. -/
theorem ensures_newRow (w : Workspace) (xs : List (Option Handle)) :
    Ensures (Spares S) (newRow xs) w fun r v => r = w.rows.size ∧ v.rows[r]? = some xs := by
  constructor
  · exact Growth.push_row w xs
  · rintro r v ⟨⟩
    exact ⟨rfl, by simp⟩

/-- A node that is made from nodes that are. -/
theorem ensures_newCell {u w : Workspace} {shared : Handle → Prop}
    {c : Cell} (cells : u.cells.size ≤ w.cells.size)
    (singles : ∀ s ∈ c.singles, ∀ x, s.2 = some x → u.Made shared w x)
    (rows : ∀ s ∈ c.sequences, u.rows.size ≤ s.2 ∧
      ∃ xs, w.rows[s.2]? = some xs ∧ ∀ x, some x ∈ xs → u.Made shared w x) :
    Ensures (Spares S) (newCell c) w fun h v =>
      u.Made shared v h ∧ h = w.cells.size ∧ v.cells[h]? = some c := by
  constructor
  · exact Growth.push_cell w c
  · rintro h v ⟨⟩
    exact ⟨.push cells singles rows, rfl, by simp⟩

end

/-! ### Trees that are put into a workspace -/

/-- The node is the root of a tree that has been built since. -/
abbrev Built (w v : Workspace) (h : Handle) : Prop :=
  w.Made (fun _ => False) v h

mutual

/-- A tree that is put into a workspace is built of new nodes. -/
theorem ensures_addTree : ∀ (n : Node) {w v : Workspace}, Frame w v →
    Ensures Frame (addTree n) v fun h u => w.Built u h
  | .mk hd l cs, w, v, grown => by
    unfold addTree
    refine (ensures_addChildren cs grown).bind fun ds v₁ grown₁ built => ?_
    have size₁ := (Chains.trans _ _ _ grown grown₁ : Frame w v₁)
    let inField := fun f => ds.filterMap fun d => if d.1 = f then some d.2 else none
    have mem_of_inField : ∀ f x, x ∈ inField f → w.Built v₁ x := by
      intro f x mem
      obtain ⟨d, here, same⟩ := List.mem_filterMap.mp mem
      split at same
      · cases same
        exact built d here
      · cases same
    -- Each row is made after the children and stays while the others are made.
    have rows : Ensures Frame
        (hd.kind.sequenceFields.mapM fun f => do return (f, ← newRow ((inField f).map some))) v₁
        fun ss u => List.Forall₂ (fun f s => w.rows.size ≤ s.2 ∧
          u.rows[s.2]? = some ((inField f).map some)) hd.kind.sequenceFields ss := by
      refine Ensures.mapM (fun f s u u' kept here => ⟨here.1, kept.row _ _ here.2⟩) ?_
      intro f _ u kept
      refine (ensures_newRow u _).bind fun r u' kept' made => .pure ?_
      have size := size₁.size_rows.trans kept.size_rows
      exact ⟨made.1 ▸ size, made.2⟩
    refine rows.bind fun sequences v₂ grown₂ rowed => ?_
    refine (ensures_newCell (size₁.size_cells.trans grown₂.size_cells) ?_ ?_).mono
      fun h u _ made => made.1
    · intro s mem x child
      obtain ⟨f, -, rfl⟩ := List.mem_map.mp mem
      exact (mem_of_inField f x (List.mem_of_mem_head? child)).spared grown₂
    · intro s mem
      obtain ⟨f, -, new, row⟩ := exists_of_mem_right rowed mem
      refine ⟨new, _, row, fun x child => ?_⟩
      obtain ⟨y, here, same⟩ := List.mem_map.mp child
      cases same
      exact (mem_of_inField f x here).spared grown₂

theorem ensures_addChildren : ∀ (cs : List (Field × Node)) {w v : Workspace}, Frame w v →
    Ensures Frame (addChildren cs) v fun ds u => ∀ d ∈ ds, w.Built u d.2
  | [], w, v, grown => by
    unfold addChildren
    exact .pure (by simp)
  | (f, n) :: cs, w, v, grown => by
    unfold addChildren
    refine (ensures_addTree n grown).bind fun h v₁ grown₁ here => ?_
    refine (ensures_addChildren cs (Chains.trans _ _ _ grown grown₁)).bind
      fun others v₂ grown₂ there => .pure ?_
    intro d mem
    rcases List.mem_cons.mp mem with rfl | mem'
    · -- The first child stays as it is while the others are added.
      exact here.spared grown₂
    · exact there d mem'

end

/-! ### The leaves of a tree -/

/-- The node is a leaf at or below the root. -/
def LeafOf (w : Workspace) (root : Handle) (h : Handle) : Prop :=
  w.Below root h ∧ ∃ c, w.cells[h]? = some c ∧ c.head.kind.isLeaf = true

/-- The node is the root of a tree: everything at and below it is there, with the
    sequences of its kind, and below leaves there are only leaves. -/
structure IsSound (w : Workspace) (root : Handle) : Prop where
  /-- A node is there, with its rows. -/
  cell : ∀ x, w.Below root x → ∃ c, w.cells[x]? = some c ∧ w.HasRows c ∧
    c.sequences.map (·.1) = c.head.kind.sequenceFields
  /-- A child of a leaf is a leaf. -/
  leaf : ∀ x y, w.LeafOf root x → w.IsChild x y → w.LeafOf root y

/-- A well-typed tree is one. -/
theorem isSound_of_fits {w : Workspace} {root : Handle}
    (typed : ∀ x, w.Below root x → ∃ c, w.cells[x]? = some c ∧ w.Fits c) : w.IsSound root := by
  constructor
  · intro x below
    obtain ⟨c, found, fits⟩ := typed x below
    exact ⟨c, found, fits.hasRows, fits.sequenceFields⟩
  · rintro x y ⟨below, c, found, leaf⟩ child
    obtain ⟨d, found', fits⟩ := typed x below
    rw [found] at found'
    cases found'
    obtain ⟨f, mem⟩ := (fits.hasRows.isChild_iff found).mp child
    obtain ⟨d, there, admits⟩ := fits.takes mem
    exact ⟨below.tail child, d, there, isLeaf_of_isExpansion (isExpansion_of_admits leaf admits)⟩

section

variable {w₀ : Workspace} {root : Handle}

theorem LeafOf.below (sound : w₀.IsSound root) {h x : Handle} (leaf : w₀.LeafOf root h)
    (below : w₀.Below h x) : w₀.LeafOf root x := by
  induction below with
  | refl => exact leaf
  | tail _ child ih => exact sound.leaf _ _ ih child

/-- A leaf of the tree is shared with everything below it. -/
theorem LeafOf.made (sound : w₀.IsSound root) {h : Handle} (leaf : w₀.LeafOf root h) :
    w₀.Made (w₀.LeafOf root) w₀ h := by
  intro x below
  obtain ⟨c, found, rows, -⟩ := sound.cell x (leaf.1.trans below)
  exact ⟨c, found, rows, .inr (leaf.below sound below)⟩

/-! ### Traversals -/

theorem mem_sequence_of_single {visited : Visited Handle} {k : Kind} {f : Field} {h : Handle}
    (taken : visited.single k f = .ok (some h)) : h ∈ visited.sequence := by
  unfold Visited.single at taken
  split at taken
  · cases taken
    simp [Visited.sequence]
  · cases taken
    simp [Visited.sequence]
  · split at taken <;> cases taken
  · split at taken <;> cases taken
  · cases taken

/-- What handlers are given: a leaf of the tree, or a new node without expansions
    of its own. -/
structure Given (w₀ : Workspace) (root : Handle) (w : Workspace) (h : Handle) : Prop where
  /-- Everything at and below the node is new or a leaf of the tree. -/
  made : w₀.Made (w₀.LeafOf root) w h
  /-- The node itself is a leaf of the tree, or new and without expansions. -/
  cases : w₀.LeafOf root h ∨
    w₀.cells.size ≤ h ∧ ∃ c, w.cells[h]? = some c ∧ .expansion ∉ c.sequences.map (·.1)

theorem Given.spared {S : Handle → Style → Prop} {w v : Workspace} {h : Handle}
    (given : w₀.Given root w h) (spared : Spares S w v) : w₀.Given root v h := by
  refine ⟨given.made.spared spared, ?_⟩
  rcases given.cases with old | ⟨new, c, found, plain⟩
  · exact .inl old
  · obtain ⟨style, kept⟩ := spared.exists_style found
    exact .inr ⟨new, _, kept, plain⟩

variable {S : Handle → Style → Prop}

/-- From every workspace that the first one was spared in, the visit of the node
    ends with what is apart from the tree. -/
def Separates (S : Handle → Style → Prop) (w₀ : Workspace) (root : Handle)
    (visit : Handle → Work (Visited Handle)) (h : Handle) : Prop :=
  ∀ w, Spares S w₀ w → Ensures (Spares S) (visit h) w fun visited v =>
    ∀ g ∈ visited.sequence, w₀.Made (w₀.LeafOf root) v g

section

variable {visit : Handle → Work (Visited Handle)} {w : Workspace} (spared : Spares S w₀ w)
include spared

theorem ensures_traverseSingle (k : Kind) {s : Field × Option Handle}
    (visits : ∀ x, s.2 = some x → Separates S w₀ root visit x) :
    Ensures (Spares S) (traverseSingle visit k s) w fun s' v =>
      ∀ x, s'.2 = some x → w₀.Made (w₀.LeafOf root) v x := by
  unfold traverseSingle
  cases child : s.2 with
  | none => exact .pure nofun
  | some h =>
    refine (visits h child w spared).bind fun visited v _ apart => ?_
    -- One node at most comes out of a single field, and it is among the visited.
    have taken : Ensures (Spares S) (Run.lift (visited.single k s.1)) v fun x _ =>
        ∀ g, x = some g → g ∈ visited.sequence := by
      refine .lift fun x single g same => ?_
      subst same
      exact mem_sequence_of_single single
    refine taken.bind fun x v' kept' mem => .pure fun g same => ?_
    exact (apart g (mem g same)).spared kept'

theorem ensures_traverseSequence {s : Field × RowHandle} {xs : List (Option Handle)}
    (row₀ : w₀.rows[s.2]? = some xs) (visits : ∀ x, some x ∈ xs → Separates S w₀ root visit x) :
    Ensures (Spares S) (traverseSequence visit s) w fun s' v =>
      s'.1 = s.1 ∧ w₀.rows.size ≤ s'.2 ∧
        ∃ xs, v.rows[s'.2]? = some xs ∧ ∀ x, some x ∈ xs → w₀.Made (w₀.LeafOf root) v x := by
  unfold traverseSequence
  refine (ensures_row (spared.row s.2 _ row₀)).bind fun ys v₁ kept₁ same => ?_
  subst same
  have spared₁ : Spares S w₀ v₁ := Chains.trans _ _ _ spared kept₁
  -- Each element is visited in a store that has only grown since the row was looked up.
  have walk : Ensures (Spares S) (ys.mapM (visitElement visit)) v₁ fun left v =>
      List.Forall₂ (fun _ gs => ∀ g ∈ gs, w₀.Made (w₀.LeafOf root) v g) ys left := by
    refine Ensures.mapM (fun x gs u u' kept here g mem => (here g mem).spared kept) ?_
    intro x mem u kept
    cases x with
    | none => exact .pure (by simp)
    | some h =>
      refine (visits h mem u (Chains.trans _ _ _ spared₁ kept)).bind fun visited v _ apart => ?_
      exact .pure apart
  refine walk.bind fun left v₂ kept₂ apart => ?_
  refine (ensures_newRow v₂ _).bind fun r v₃ kept₃ made => .pure ⟨rfl, ?_, _, made.2, ?_⟩
  · have size := spared₁.size_rows.trans kept₂.size_rows
    exact made.1 ▸ size
  · intro x mem
    obtain ⟨y, mem', same⟩ := List.mem_map.mp mem
    cases same
    obtain ⟨gs, there, here⟩ := List.mem_flatten.mp mem'
    obtain ⟨-, -, each⟩ := exists_of_mem_right apart there
    exact (each x here).spared kept₃

/-- A node is handed on as a leaf, or copied into a new node with new rows. -/
theorem ensures_descend (sound : w₀.IsSound root) {h : Handle} (below : w₀.Below root h)
    (visits : ∀ x, w₀.IsChild h x → Separates S w₀ root visit x) :
    Ensures (Spares S) (descend visit h) w fun d v => w₀.Given root v d := by
  obtain ⟨c₀, found, rows, fields⟩ := sound.cell h below
  obtain ⟨style, kept⟩ := spared.exists_style found
  unfold descend
  refine (ensures_cell h w).bind fun c v₁ kept₁ same => ?_
  rw [kept] at same
  cases same
  have spared₁ : Spares S w₀ v₁ := Chains.trans _ _ _ spared kept₁
  cases leaf : c₀.head.kind.isLeaf with
  | true =>
    -- A leaf stays what it is.
    have old : w₀.LeafOf root h := ⟨below, c₀, found, leaf⟩
    simp only [if_true]
    exact .pure ⟨(old.made sound).spared spared₁, .inl old⟩
  | false =>
    simp only [Bool.false_eq_true, if_false]
    have singles : Ensures (Spares S)
        (c₀.singles.mapM (traverseSingle visit c₀.head.kind)) v₁ fun singles v =>
        List.Forall₂ (fun _ s => ∀ x, s.2 = some x → w₀.Made (w₀.LeafOf root) v x)
          c₀.singles singles := by
      refine Ensures.mapM (fun s s' u u' kept here x same => (here x same).spared kept) ?_
      intro s mem u kept
      refine ensures_traverseSingle (Chains.trans _ _ _ spared₁ kept) _ fun x child => ?_
      exact visits x ⟨c₀, found, .inl ⟨s.1, by rw [← child]; exact mem⟩⟩
    refine singles.bind fun singles v₂ kept₂ apart => ?_
    have spared₂ : Spares S w₀ v₂ := Chains.trans _ _ _ spared₁ kept₂
    have sequences : Ensures (Spares S)
        (c₀.sequences.mapM (traverseSequence visit)) v₂ fun sequences v =>
        List.Forall₂ (fun s s' => s'.1 = s.1 ∧ w₀.rows.size ≤ s'.2 ∧
          ∃ xs, v.rows[s'.2]? = some xs ∧ ∀ x, some x ∈ xs → w₀.Made (w₀.LeafOf root) v x)
          c₀.sequences sequences := by
      refine Ensures.mapM ?_ ?_
      · rintro s s' u u' kept ⟨same, new, xs, row, each⟩
        exact ⟨same, new, xs, kept.row _ _ row, fun x mem => (each x mem).spared kept⟩
      · intro s mem u kept
        obtain ⟨xs, row⟩ := rows s mem
        refine ensures_traverseSequence (Chains.trans _ _ _ spared₂ kept) row fun x mem' => ?_
        exact visits x ⟨c₀, found, .inr ⟨s.1, s.2, xs, mem, row, mem'⟩⟩
    refine sequences.bind fun sequences v₃ kept₃ rowed => ?_
    have cells : w₀.cells.size ≤ v₃.cells.size :=
      (Chains.trans _ _ _ spared₂ kept₃ : Spares S w₀ v₃).size_cells
    refine Ensures.mono (P := fun d v => w₀.Made (w₀.LeafOf root) v d ∧ d = v₃.cells.size ∧
      v.cells[d]? = some { c₀ with singles, sequences, style, memo := none })
      (ensures_newCell cells ?_ ?_) ?_
    · intro s mem x child
      obtain ⟨-, -, each⟩ := exists_of_mem_right apart mem
      exact (each x child).spared kept₃
    · intro s mem
      obtain ⟨-, -, -, new, xs, row, each⟩ := exists_of_mem_right rowed mem
      exact ⟨new, xs, row, each⟩
    · -- The copy has rows for the fields of its kind, which has none for expansions.
      rintro d v - ⟨made, rfl, here⟩
      refine ⟨made, .inr ⟨cells, _, here, fun mem => ?_⟩⟩
      obtain ⟨s, mem', expansion⟩ := List.mem_map.mp mem
      obtain ⟨s₀, mem₀, same, -⟩ := exists_of_mem_right rowed mem'
      apply expansion_not_mem leaf
      rw [← fields, ← expansion, same]
      exact List.mem_map_of_mem mem₀

end

/-- A handler that spares what was there and leaves what is apart from the tree,
    when it is given a leaf of the tree or a new node. -/
def Respects (S : Handle → Style → Prop) (w₀ : Workspace) (root : Handle)
    (handler : WorkHandler) : Prop :=
  ∀ d parent w, Spares S w₀ w → w₀.Given root w d →
    Ensures (Spares S) (handler d parent root) w fun outcome v =>
      ∀ g ∈ (outcome.apply d).sequence, w₀.Made (w₀.LeafOf root) v g

theorem separates_traverseAt (sound : w₀.IsSound root) {table : Table WorkHandler}
    (handlers : ∀ k handler, Table.entry? table k = some handler → Respects S w₀ root handler)
    (m : Nat) {parent : Option Handle} {h : Handle} (below : w₀.Below root h) :
    Separates S w₀ root (traverseAt table root m parent) h := by
  -- The fuel goes down with the node.
  induction m generalizing parent h with
  | zero => exact fun w _ => .throw _
  | succ m ih =>
    intro w spared
    unfold traverseAt
    refine (ensures_descend spared sound below fun x child => ih (below.tail child)).bind
      fun d v kept given => ?_
    refine ((keeps_cell d).ensures v).bind fun c v₁ kept₁ _ => ?_
    have spared₁ : Spares S w₀ v₁ := Chains.trans _ _ _ spared (Chains.trans _ _ _ kept kept₁)
    have given₁ : w₀.Given root v₁ d := given.spared kept₁
    cases found : Table.entry? table c.head.kind with
    | none =>
      refine .pure fun g mem => ?_
      obtain rfl : g = d := by simpa [Visited.sequence] using mem
      exact given₁.made
    | some handler =>
      refine (handlers _ handler found d parent v₁ spared₁ given₁).bind fun outcome v₂ _ apart => ?_
      exact .pure apart

/-- A traversal spares what its handlers spare, and leaves what is apart from the
    tree. -/
theorem ensures_traverse (sound : w₀.IsSound root) {table : Table WorkHandler}
    (handlers : ∀ k handler, Table.entry? table k = some handler → Respects S w₀ root handler) :
    Ensures (Spares S) (traverse table root) w₀ fun visited v =>
      ∀ g ∈ visited.sequence, w₀.Made (w₀.LeafOf root) v g := by
  unfold traverse
  cases Table.unknownNames table with
  | nil =>
    refine (Keeps.get.ensures w₀).bind fun w v kept _ => ?_
    exact separates_traverseAt sound handlers w.fuel .refl v kept
  | cons name names => exact .throw _

end

/-! ### Handlers that change nothing -/

/-- The handler changes nothing that is there, and what it leaves is the node that
    it was given, or a tree that it has built of new nodes. -/
def IsModest (handler : WorkHandler) : Prop :=
  ∀ h parent root w, Ensures Frame (handler h parent root) w fun outcome v =>
    ∀ g ∈ (outcome.apply h).sequence, g = h ∨ w.Built v g

theorem IsModest.respects {handler : WorkHandler} (modest : IsModest handler) (w₀ : Workspace)
    (root : Handle) : Respects (fun _ _ => False) w₀ root handler := by
  intro d parent w spared given
  refine (modest d parent root w).mono fun outcome v kept leaves g mem => ?_
  rcases leaves g mem with rfl | built
  · exact given.made.spared kept
  · exact built.mono spared.size_cells spared.size_rows fun _ => False.elim

/-! ### Handlers given as rules -/

theorem Made.since {w v u : Workspace} {h : Handle} (built : v.Built u h) (grown : Frame w v) :
    w.Built u h :=
  built.mono grown.size_cells grown.size_rows fun _ => id

theorem ensures_loadTree (v : Json.Value) {w u : Workspace} (grown : Frame w u) :
    Ensures Frame (loadTree v) u fun h u' => w.Built u' h := by
  unfold loadTree
  refine ((Keeps.lift _).ensures u).bind fun n u₁ kept _ => ?_
  exact ensures_addTree n (Chains.trans _ _ _ grown kept)

theorem ensures_loadOptionalTree (v : Json.Value) {w u : Workspace} (grown : Frame w u) :
    Ensures Frame (loadOptionalTree v) u fun x u' => ∀ h, x = some h → w.Built u' h := by
  unfold loadOptionalTree
  split
  · exact .pure nofun
  · refine (ensures_loadTree _ grown).bind fun h u₁ _ built => .pure ?_
    rintro g ⟨⟩
    exact built

theorem ensures_loadTrees (vs : List Json.Value) {w u : Workspace} (grown : Frame w u) :
    Ensures Frame (vs.mapM loadOptionalTree) u fun xs u' => ∀ h, some h ∈ xs → w.Built u' h := by
  refine (Ensures.mapM (P := fun _ x u' => ∀ h, x = some h → w.Built u' h) ?_ ?_).mono ?_
  · exact fun _ x u₁ u₂ kept built h same => (built h same).spared kept
  · exact fun v _ u₁ kept => ensures_loadOptionalTree v (Chains.trans _ _ _ grown kept)
  · intro xs u₁ _ all h mem
    obtain ⟨v, -, built⟩ := exists_of_mem_right all mem
    exact built h rfl

/-- Every action but appending text hands on the node or brings in new trees.  A
    copy with more text shares the expansions of the node. -/
theorem ensures_perform (h : Handle) {action : Action} (plain : ∀ text, action ≠ .append text)
    (w : Workspace) : Ensures Frame (perform h action) w fun outcome u =>
      ∀ g ∈ (outcome.apply h).sequence, g = h ∨ w.Built u g := by
  have refl : Frame w w := Chains.refl w
  cases action with
  | append text => exact absurd rfl (plain text)
  | keep => exact .pure (by simp [Outcome.apply, Visited.sequence])
  | same => exact .pure (by simp [Outcome.apply, Visited.sequence])
  | remove => exact .pure (by simp [Outcome.apply, Visited.sequence])
  | replace tree =>
    refine (ensures_loadTree tree refl).bind fun x u _ built => .pure fun g mem => ?_
    obtain rfl : g = x := by simpa [Outcome.apply, Visited.sequence] using mem
    exact .inr built
  | splice trees =>
    refine (ensures_loadTrees trees refl).bind fun xs u _ built => .pure fun g mem => ?_
    exact .inr (built g (by simpa [Outcome.apply, Visited.sequence] using mem))
  -- The node itself stands between trees that were brought in before and after it.
  | wrap before after =>
    refine (ensures_loadTrees before refl).bind fun b u grown first => ?_
    refine (ensures_loadTrees after grown).bind fun a u' kept last => .pure fun g mem => ?_
    have place : some g ∈ b ∨ g = h ∨ some g ∈ a := by
      simpa [Outcome.apply, Visited.sequence] using mem
    rcases place with inBefore | same | inAfter
    · exact .inr ((first g inBefore).spared kept)
    · exact .inl same
    · exact .inr (last g inAfter)

/-- Handlers given as rules change nothing, and bring in only trees of their own as
    long as they append no text. -/
theorem isModest_ruleHandler {rules : List VisitRule}
    (plain : ∀ rule ∈ rules, ∀ text, rule.action ≠ .append text) :
    IsModest (ruleHandler rules) := by
  intro h parent root w
  -- Writing a call down does not touch the store.
  have record (call : Call) : Keeps Frame
      (modify fun w => { w with trace := call :: w.trace } : Work PUnit) :=
    .modify fun w => Growth.aside w w.slots (call :: w.trace)
  unfold ruleHandler
  refine ((keeps_callOf h parent root).ensures w).bind fun call w₁ kept₁ _ => ?_
  refine ((record call).ensures w₁).bind fun _ w₂ kept₂ _ => ?_
  have grown : Frame w w₂ := Chains.trans _ _ _ kept₁ kept₂
  unfold decide?
  cases found : rules.find? (·.condition.holds call) with
  | none => exact .pure (by simp [Outcome.apply, Visited.sequence])
  | some rule =>
    have mem := List.mem_of_find?_eq_some found
    refine (ensures_perform h (plain rule mem) w₂).mono fun outcome u _ leaves g mem' => ?_
    rcases leaves g mem' with same | built
    · exact .inl same
    · exact .inr (built.since grown)

/-! ### Installing layouts -/

/-- The styles that installing may give: a leaf of the tree may get the plain one,
    and a new node any. -/
def MayStyle (w₀ : Workspace) (root : Handle) (h : Handle) (style : Style) : Prop :=
  w₀.LeafOf root h ∧ style = .plain ∨ w₀.cells.size ≤ h

theorem keeps_install {S : Handle → Style → Prop} {style : Style} {h : Handle}
    (allowed : S h style) : Keeps (Spares S) (install style h) := by
  intro w
  constructor
  · intro x c found
    by_cases here : h = x
    · subst here
      exact .inr ⟨style, allowed, by simp [install, changeCell, Array.getElem?_modify, found]⟩
    · exact .inl (by simpa [install, changeCell, Array.getElem?_modify, here] using found)
  · exact fun _ _ found => found

section

variable {w₀ : Workspace} {root : Handle} (sound : w₀.IsSound root)
include sound

omit sound in
/-- Some leaves of the tree get their style, and then the node its own. -/
theorem ensures_install {d : Handle} {xs : List (Option Handle)} {style : Style} (v : Workspace)
    (leaves : ∀ x, some x ∈ xs → w₀.LeafOf root x) (allowed : w₀.MayStyle root d style) :
    Ensures (Spares (w₀.MayStyle root)) (do
      forIn xs PUnit.unit installElement
      install style d
      return Outcome.replace d) v fun outcome _ => outcome = .replace d := by
  have loop : Keeps (Spares (w₀.MayStyle root)) (forIn xs PUnit.unit installElement) := by
    refine .forIn fun e mem u => ?_
    cases e with
    | none => exact .bind (.throw _) fun _ => .pure _
    | some x => exact .bind (keeps_install (.inl ⟨leaves x mem, rfl⟩)) fun _ => .pure _
  refine (loop.ensures v).bind fun _ v₁ _ _ => ?_
  exact ((keeps_install allowed).ensures v₁).bind fun _ _ _ _ => .pure rfl

/-- The handler that installs layouts gives styles to the node and, if that is a
    leaf of the tree, to its expansions. -/
theorem ensures_installer {d : Handle} {w : Workspace} (parent : Option Handle)
    (spared : Spares (w₀.MayStyle root) w₀ w) (given : w₀.Given root w d) :
    Ensures (Spares (w₀.MayStyle root)) (installer d parent root) w
      fun outcome _ => outcome = .replace d := by
  have kindOf (p : Handle) : Keeps (Spares (w₀.MayStyle root)) (do return (← cell p).head.kind) :=
    .bind (keeps_cell p) fun _ => .pure _
  unfold installer
  refine (ensures_cell d w).bind fun c v₁ kept₁ found => ?_
  refine ((Keeps.optionMapM kindOf).ensures v₁).bind fun parentKind v₂ kept₂ _ => ?_
  have spared₂ : Spares (w₀.MayStyle root) w₀ v₂ :=
    Chains.trans _ _ _ spared (Chains.trans _ _ _ kept₁ kept₂)
  have nothing (v : Workspace) : Ensures (Spares (w₀.MayStyle root))
      (pure [] : Work (List (Option Handle))) v fun xs _ => xs = [] := .pure rfl
  rcases given.cases with old | ⟨new, c', found', plain⟩
  · -- A leaf of the tree may get the plain style, and leaves have no other.
    have ⟨below, c₀, found₀, leaf⟩ := old
    obtain ⟨style, kept⟩ := spared.exists_style found₀
    rw [kept] at found
    cases found
    have allowed : w₀.MayStyle root d (styleUnder parentKind c₀.head.kind) :=
      .inl ⟨old, styleUnder_of_isLeaf parentKind leaf⟩
    cases expansion : c₀.sequences.lookup .expansion with
    | none =>
      refine (nothing v₂).bind fun xs v₃ _ none => ?_
      subst none
      exact ensures_install v₃ (by simp) allowed
    | some r =>
      obtain ⟨c₁, found₁, rows, -⟩ := sound.cell d below
      rw [found₀] at found₁
      cases found₁
      have sequence := mem_of_lookup expansion
      obtain ⟨xs, row⟩ := rows _ sequence
      refine (ensures_row (spared₂.row r _ row)).bind fun ys v₃ _ same => ?_
      subst same
      refine ensures_install v₃ (fun x mem => sound.leaf d x old ?_) allowed
      exact ⟨c₀, found₀, .inr ⟨_, r, ys, sequence, row, mem⟩⟩
  · -- A new node has no expansions.
    rw [found'] at found
    cases found
    simp only [lookup_eq_none plain]
    refine (nothing v₂).bind fun xs v₃ _ none => ?_
    subst none
    exact ensures_install v₃ (by simp) (.inr new)

theorem respects_installer : Respects (w₀.MayStyle root) w₀ root installer := by
  intro d parent w spared given
  refine (ensures_installer sound parent spared given).mono fun outcome v kept left g mem => ?_
  subst left
  obtain rfl : g = d := by simpa [Outcome.apply, Visited.sequence] using mem
  exact given.made.spared kept

/-- Installing layouts changes no more of what was there than the styles of leaves
    of the tree, and what it leaves is apart from the tree. -/
theorem ensures_generate : Ensures (Spares (w₀.MayStyle root)) (generate root) w₀
    fun visited v => ∀ g ∈ visited.sequence, w₀.Made (w₀.LeafOf root) v g := by
  refine ensures_traverse sound fun k handler found => ?_
  rw [entry?_installers] at found
  cases found
  exact respects_installer sound

end

end ShellInliner.Workspace
