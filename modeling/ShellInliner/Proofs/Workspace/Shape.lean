import ShellInliner.Proofs.Workspace.Graph

/-! # Trees in a workspace

    `Shows P` says that a tree lies in a workspace with a handle as its root:
    every node of it is a cell that keeps to the table of members, with the head,
    the place and the children of the node.  Cells may be shared.  `P` is asked
    of every cell, with the kind of the parent that it has in the tree, which
    allows for what a tree does not tell: the style and the text that is kept. -/

namespace ShellInliner.Workspace

open Relation (ReflTransGen TransGen)

/-! ### The children of a cell -/

/-- The children in single fields. -/
def singleEntries (singles : List (Field × Option Handle)) : List (Field × Handle) :=
  singles.filterMap fun s => s.2.map (s.1, ·)

/-- The children in a row. -/
def rowEntries (w : Workspace) (s : Field × RowHandle) : List (Field × Handle) :=
  ((w.rows[s.2]?.getD []).filterMap id).map (s.1, ·)

/-- The children of a cell with their fields, in visiting order. -/
def entries (w : Workspace) (c : Cell) : List (Field × Handle) :=
  singleEntries c.singles ++ c.sequences.flatMap w.rowEntries

theorem mem_singleEntries {singles : List (Field × Option Handle)} {f : Field} {h : Handle} :
    (f, h) ∈ singleEntries singles ↔ (f, some h) ∈ singles := by
  unfold singleEntries
  rw [List.mem_filterMap]
  constructor
  · rintro ⟨⟨g, x⟩, mem, same⟩
    obtain ⟨y, rfl, pair⟩ := Option.map_eq_some_iff.mp same
    cases pair
    exact mem
  · exact fun mem => ⟨_, mem, rfl⟩

theorem rowEntries_eq {w : Workspace} {f : Field} {r : RowHandle} {hs : List Handle}
    (row : w.rows[r]? = some (hs.map some)) : w.rowEntries (f, r) = hs.map (f, ·) := by
  unfold rowEntries
  rw [row]
  simp [List.filterMap_map]

theorem HasRows.mem_entries_iff {w : Workspace} {c : Cell} (rows : w.HasRows c) {f : Field}
    {h : Handle} : (f, h) ∈ w.entries c ↔ (f, some h) ∈ c.singles ∨
      ∃ r xs, (f, r) ∈ c.sequences ∧ w.rows[r]? = some xs ∧ some h ∈ xs := by
  unfold entries
  rw [List.mem_append, mem_singleEntries, List.mem_flatMap]
  -- The rows are all there, so looking one up does not fail.
  refine or_congr_right ⟨?_, ?_⟩
  · rintro ⟨⟨g, r⟩, sequence, mem⟩
    obtain ⟨xs, row⟩ := rows (g, r) sequence
    obtain ⟨x, here, pair⟩ := List.mem_map.mp mem
    cases pair
    refine ⟨r, xs, sequence, row, ?_⟩
    simpa [row] using here
  · rintro ⟨r, xs, sequence, row, mem⟩
    refine ⟨_, sequence, ?_⟩
    unfold rowEntries
    simpa [row] using mem

theorem Fits.takes {w : Workspace} {c : Cell} (fits : w.Fits c) {f : Field} {h : Handle}
    (mem : (f, h) ∈ w.entries c) : w.Takes c.head.kind f h := by
  rcases fits.hasRows.mem_entries_iff.mp mem with single | ⟨r, xs, sequence, row, mem⟩
  · exact fits.single f h single
  · obtain ⟨hs, row', takes⟩ := fits.row f r sequence
    rw [row] at row'
    cases row'
    exact takes h (by simpa using mem)

theorem HasRows.isChild_iff {w : Workspace} {c : Cell} (rows : w.HasRows c) {p h : Handle}
    (cell : w.cells[p]? = some c) : w.IsChild p h ↔ ∃ f, (f, h) ∈ w.entries c := by
  unfold IsChild
  simp only [cell, Option.some.injEq, exists_eq_left', rows.mem_entries_iff, exists_or]

/-! ### Trees -/

/-- What may be asked of the cells of a tree, given the kind of the parent. -/
abbrev CellCondition := Option Kind → Cell → Prop

mutual

/-- The tree lies in the workspace with the node as its root. -/
def Shows (w : Workspace) (P : CellCondition) : Option Kind → Node → Handle → Prop
  | parent, .mk hd l cs, h =>
    ∃ c, w.cells[h]? = some c ∧ w.Fits c ∧ P parent c ∧ c.head = hd ∧ c.loc = l ∧
      ShowsAll w P hd.kind cs (w.entries c)

/-- The trees lie in the workspace, field by field, with these nodes as roots. -/
def ShowsAll (w : Workspace) (P : CellCondition) (k : Kind) :
    List (Field × Node) → List (Field × Handle) → Prop
  | [], es => es = []
  | (f, n) :: cs, es => ∃ h es', es = (f, h) :: es' ∧ Shows w P (some k) n h ∧ ShowsAll w P k cs es'

end

variable {w : Workspace} {P Q : CellCondition}

theorem shows_iff {parent : Option Kind} {n : Node} {h : Handle} :
    w.Shows P parent n h ↔ ∃ c, w.cells[h]? = some c ∧ w.Fits c ∧ P parent c ∧
      n = .mk c.head c.loc n.children ∧ w.ShowsAll P c.head.kind n.children (w.entries c) := by
  cases n with
  | mk hd l cs =>
    unfold Shows
    constructor
    · rintro ⟨c, cell, fits, cond, rfl, rfl, all⟩
      exact ⟨c, cell, fits, cond, rfl, all⟩
    · rintro ⟨c, cell, fits, cond, same, all⟩
      cases same
      exact ⟨c, cell, fits, cond, rfl, rfl, all⟩

theorem showsAll_append {k : Kind} {cs ds : List (Field × Node)}
    {es es' : List (Field × Handle)} (first : w.ShowsAll P k cs es)
    (others : w.ShowsAll P k ds es') : w.ShowsAll P k (cs ++ ds) (es ++ es') := by
  induction cs generalizing es with
  | nil =>
    cases first
    exact others
  | cons c cs ih =>
    obtain ⟨h, es, rfl, shows, all⟩ := first
    exact ⟨h, es ++ es', rfl, shows, ih all⟩

theorem ShowsAll.exists_split {k : Kind} {cs : List (Field × Node)} {es es' : List (Field × Handle)}
    (all : w.ShowsAll P k cs (es ++ es')) :
    ∃ ds ds', cs = ds ++ ds' ∧ w.ShowsAll P k ds es ∧ w.ShowsAll P k ds' es' := by
  induction es generalizing cs with
  | nil => exact ⟨[], cs, rfl, rfl, all⟩
  | cons e es ih =>
    cases cs with
    | nil => cases all
    | cons c cs =>
      obtain ⟨h, rest, same, shows, others⟩ := all
      cases same
      obtain ⟨ds, ds', rfl, first, second⟩ := ih others
      exact ⟨c :: ds, ds', rfl, ⟨h, es, rfl, shows, first⟩, second⟩

theorem ShowsAll.exists_tree {k : Kind} {cs : List (Field × Node)} {es : List (Field × Handle)}
    (all : w.ShowsAll P k cs es) {f : Field} {h : Handle} (mem : (f, h) ∈ es) :
    ∃ n, (f, n) ∈ cs ∧ w.Shows P (some k) n h := by
  induction cs generalizing es with
  | nil =>
    cases all
    cases mem
  | cons c cs ih =>
    obtain ⟨x, es, rfl, shows, all⟩ := all
    rcases List.mem_cons.mp mem with here | there
    · cases here
      exact ⟨c.2, List.mem_cons_self .., shows⟩
    · obtain ⟨n, mem, below⟩ := ih all there
      exact ⟨n, List.mem_cons_of_mem _ mem, below⟩

theorem ShowsAll.exists_handle {k : Kind} {cs : List (Field × Node)} {es : List (Field × Handle)}
    (all : w.ShowsAll P k cs es) {f : Field} {n : Node} (mem : (f, n) ∈ cs) :
    ∃ h, (f, h) ∈ es ∧ w.Shows P (some k) n h := by
  induction cs generalizing es with
  | nil => cases mem
  | cons c cs ih =>
    obtain ⟨x, es, rfl, shows, all⟩ := all
    rcases List.mem_cons.mp mem with here | there
    · cases here
      exact ⟨x, List.mem_cons_self .., shows⟩
    · obtain ⟨h, mem, below⟩ := ih all there
      exact ⟨h, List.mem_cons_of_mem _ mem, below⟩

theorem Shows.exists_cell {parent : Option Kind} {n : Node} {h : Handle}
    (shows : w.Shows P parent n h) :
    ∃ c, w.cells[h]? = some c ∧ w.Fits c ∧ P parent c ∧ c.head.kind = n.kind := by
  obtain ⟨c, cell, fits, cond, same, -⟩ := shows_iff.mp shows
  rw [same]
  exact ⟨c, cell, fits, cond, rfl⟩

/-- A node admits the children that it has in the tree. -/
theorem Shows.admits {parent : Option Kind} {n : Node} {h : Handle}
    (shows : w.Shows P parent n h) {f : Field} {m : Node} (mem : (f, m) ∈ n.children) :
    Node.Admits n.kind f m.kind := by
  obtain ⟨c, cell, fits, -, same, all⟩ := shows_iff.mp shows
  obtain ⟨x, mem', below⟩ := all.exists_handle mem
  obtain ⟨d, found, admits⟩ := fits.takes mem'
  obtain ⟨d', found', -, -, kind⟩ := below.exists_cell
  rw [found] at found'
  cases found'
  rw [kind] at admits
  rw [same]
  exact admits

/-- Another condition holds of a tree if it holds of the root and of the trees
    below it. -/
theorem Shows.of_root {parent : Option Kind} {n : Node} {h : Handle}
    (shows : w.Shows P parent n h)
    (here : ∀ c, w.cells[h]? = some c → c.head.kind = n.kind → P parent c → Q parent c)
    (below : ∀ f x m, (f, m) ∈ n.children → w.IsChild h x → w.Shows P (some n.kind) m x →
      w.Shows Q (some n.kind) m x) :
    w.Shows Q parent n h := by
  obtain ⟨c, cell, fits, cond, same, all⟩ := shows_iff.mp shows
  have kind : c.head.kind = n.kind := by rw [same]; rfl
  refine shows_iff.mpr ⟨c, cell, fits, here c cell kind cond, same, ?_⟩
  have children : ∀ e ∈ w.entries c, w.IsChild h e.2 := fun e mem =>
    (fits.hasRows.isChild_iff cell).mpr ⟨e.1, mem⟩
  rw [kind] at all ⊢
  -- The children are compared one by one, and no more is known of them than this.
  generalize w.entries c = es at all children
  generalize n.children = cs at all below
  induction cs generalizing es with
  | nil => exact all
  | cons d cs ih =>
    obtain ⟨x, es, rfl, shows', all⟩ := all
    have first := below d.1 x d.2 (List.mem_cons_self ..) (children _ (List.mem_cons_self ..)) shows'
    refine ⟨x, es, rfl, first, ih es (fun e mem => ?_) all fun f y m mem => ?_⟩
    · exact children e (List.mem_cons_of_mem _ mem)
    · exact below f y m (List.mem_cons_of_mem _ mem)

/-- Every child of a node that shows a tree shows a tree. -/
theorem Shows.child {parent : Option Kind} {n : Node} {p h : Handle}
    (shows : w.Shows P parent n p) (child : w.IsChild p h) :
    ∃ f m, (f, m) ∈ n.children ∧ w.Shows P (some n.kind) m h := by
  obtain ⟨c, cell, fits, -, same, all⟩ := shows_iff.mp shows
  obtain ⟨f, mem⟩ := (fits.hasRows.isChild_iff cell).mp child
  obtain ⟨m, mem', below⟩ := all.exists_tree mem
  rw [same]
  exact ⟨f, m, mem', below⟩

/-- So does everything below it. -/
theorem Shows.below {parent : Option Kind} {n : Node} {h x : Handle}
    (shows : w.Shows P parent n h) (below : w.Below h x) : ∃ k m, w.Shows P k m x := by
  induction below with
  | refl => exact ⟨parent, n, shows⟩
  | tail _ child ih =>
    obtain ⟨k, m, shows⟩ := ih
    obtain ⟨f, m', -, shows'⟩ := shows.child child
    exact ⟨_, m', shows'⟩

/-- A node that shows a tree can be reached from above only finitely often. -/
theorem Shows.acc {parent : Option Kind} {n : Node} {h : Handle} (shows : w.Shows P parent n h) :
    Acc (fun x y => w.IsChild y x) h := by
  induction n using Node.induct generalizing parent h with
  | step hd l cs ih =>
    refine ⟨h, fun x child => ?_⟩
    obtain ⟨f, m, mem, below⟩ := shows.child child
    exact ih (f, m) mem below

theorem not_below_itself_of_acc {h : Handle} (acc : Acc (fun x y => w.IsChild y x) h) :
    ¬ TransGen w.IsChild h h := by
  induction acc with
  | intro h _ ih =>
    intro cycle
    -- The cycle goes through a child, and so it is a cycle of the child as well.
    obtain ⟨x, child, back⟩ := TransGen.head'_iff.mp cycle
    exact ih x child (TransGen.tail' back child)

/-- The fuel suffices for every node that shows a tree. -/
theorem Shows.isWithin {parent : Option Kind} {n : Node} {h : Handle}
    (shows : w.Shows P parent n h) : w.IsWithin w.fuel h := by
  refine isWithin_fuel fun x below => ?_
  obtain ⟨k, m, shows'⟩ := shows.below below
  exact not_below_itself_of_acc shows'.acc

mutual

/-- A condition may be weakened. -/
theorem Shows.imp (weaken : ∀ k c, P k c → Q k c) {parent : Option Kind} :
    ∀ {n : Node} {h : Handle}, w.Shows P parent n h → w.Shows Q parent n h
  | .mk hd l cs, h, shows => by
    unfold Shows at shows ⊢
    obtain ⟨c, cell, fits, cond, same, place, all⟩ := shows
    exact ⟨c, cell, fits, weaken _ _ cond, same, place, ShowsAll.imp weaken all⟩

theorem ShowsAll.imp (weaken : ∀ k c, P k c → Q k c) {k : Kind} :
    ∀ {cs : List (Field × Node)} {es : List (Field × Handle)},
      w.ShowsAll P k cs es → w.ShowsAll Q k cs es
  | [], _, all => all
  | _ :: _, _, ⟨h, es, same, shows, all⟩ =>
    ⟨h, es, same, Shows.imp weaken shows, ShowsAll.imp weaken all⟩

end

/-! ### The tree below a node -/

/-- Where everything below a node is well-typed and meets the condition, the node
    shows a tree. -/
theorem exists_shows {m : Nat} {h : Handle} (within : w.IsWithin m h)
    (cells : ∀ x, w.Below h x → ∃ c, w.cells[x]? = some c ∧ w.Fits c ∧ ∀ k, P k c)
    (parent : Option Kind) : ∃ n, w.Shows P parent n h := by
  induction m generalizing h parent with
  | zero => exact within.elim
  | succ m ih =>
    obtain ⟨c, cell, fits, cond⟩ := cells h .refl
    -- A child is less deep, and what is below it is below the node.
    have below : ∀ e ∈ w.entries c, ∃ n, w.Shows P (some c.head.kind) n e.2 := by
      intro e mem
      have child := (fits.hasRows.isChild_iff cell).mpr ⟨e.1, mem⟩
      exact ih (within.child child) (fun x below => cells x (.head child below)) _
    have all : ∀ es : List (Field × Handle), (∀ e ∈ es, ∃ n, w.Shows P (some c.head.kind) n e.2) →
        ∃ cs, w.ShowsAll P c.head.kind cs es := by
      intro es
      induction es with
      | nil => exact fun _ => ⟨[], rfl⟩
      | cons e es ihs =>
        intro each
        obtain ⟨n, shows⟩ := each e (List.mem_cons_self ..)
        obtain ⟨cs, others⟩ := ihs fun e' mem => each e' (List.mem_cons_of_mem _ mem)
        exact ⟨(e.1, n) :: cs, e.2, es, rfl, shows, others⟩
    obtain ⟨cs, children⟩ := all _ below
    exact ⟨.mk c.head c.loc cs, shows_iff.mpr ⟨c, cell, fits, cond parent, rfl, children⟩⟩

/-- A walk over rows, whose results are put one after the other, is a walk over
    the rows put one after the other. -/
theorem mapM_flatMap {α β γ : Type} {F : α → List β} {g : β → Option γ}
    {G : α → Option (List γ)} {xs : List α} (each : ∀ x ∈ xs, G x = (F x).mapM g) :
    (xs.flatMap F).mapM g = (xs.mapM G).map List.flatten := by
  induction xs with
  | nil => rfl
  | cons x xs ih =>
    have others := ih fun y mem => each y (List.mem_cons_of_mem _ mem)
    rw [List.flatMap_cons, List.mapM_append, List.mapM_cons, each x (List.mem_cons_self ..), others]
    -- Either walk ends where the first of its parts fails.
    cases (F x).mapM g with
    | none => rfl
    | some ys =>
      cases xs.mapM G with
      | none => rfl
      | some yss => rfl

/-- The tree below a child, with the field of the child. -/
def branch? (w : Workspace) (m : Nat) (e : Field × Handle) : Option (Field × Node) := do
  return (e.1, ← w.tree? m e.2)

/-- The tree below a node is made of the trees below its children. -/
theorem tree?_succ {m : Nat} {h : Handle} {c : Cell} (cell : w.cells[h]? = some c)
    (rows : w.HasRows c) : w.tree? (m + 1) h =
      ((w.entries c).mapM (w.branch? m)).map (.mk c.head c.loc) := by
  unfold tree? entries
  rw [List.mapM_append, mapM_flatMap (G := fun s => do
    let xs ← w.rows[s.2]?
    (xs.filterMap id).mapM fun x => do return (s.1, ← w.tree? m x)), cell]
  · show (singleEntries c.singles).mapM (w.branch? m) >>= _ = _
    cases (singleEntries c.singles).mapM (w.branch? m) with
    | none => rfl
    | some cs =>
      -- What the rows hold is the same on both sides.
      generalize (c.sequences.mapM fun s => do
        let xs ← w.rows[s.2]?
        (xs.filterMap id).mapM fun x => do return (s.1, ← w.tree? m x)) = others
      cases others with
      | none => rfl
      | some css => rfl
  · rintro ⟨f, r⟩ sequence
    obtain ⟨xs, row⟩ := rows (f, r) sequence
    unfold rowEntries
    rw [List.mapM_map, row]
    rfl

/-- The tree that a node shows is the tree below it. -/
theorem Shows.tree?_eq {m : Nat} {parent : Option Kind} {n : Node} {h : Handle}
    (shows : w.Shows P parent n h) (within : w.IsWithin m h) : w.tree? m h = some n := by
  induction m generalizing parent n h with
  | zero => exact within.elim
  | succ m ih =>
    obtain ⟨c, cell, fits, -, same, all⟩ := shows_iff.mp shows
    -- The children of the cell are walked beside those of the tree.
    have walk : ∀ (cs : List (Field × Node)) (es : List (Field × Handle)),
        w.ShowsAll P c.head.kind cs es → (∀ e ∈ es, w.IsChild h e.2) →
        es.mapM (w.branch? m) = some cs := by
      intro cs
      induction cs with
      | nil =>
        intro es all _
        cases all
        rfl
      | cons d cs ihs =>
        rintro es ⟨x, es', rfl, shows', all⟩ children
        have first := ih shows' (within.child (children _ (List.mem_cons_self ..)))
        have others := ihs es' all fun e mem => children e (List.mem_cons_of_mem _ mem)
        rw [List.mapM_cons, others, branch?, first]
        rfl
    rw [tree?_succ cell fits.hasRows, walk _ _ all fun e mem => (fits.hasRows.isChild_iff cell).mpr ⟨e.1, mem⟩,
      Option.map_some, ← same]

end ShellInliner.Workspace
