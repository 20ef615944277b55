import ShellInliner.Proofs.Run
import ShellInliner.Proofs.Workspace.Reading
import ShellInliner.Proofs.Workspace.Shape
import ShellInliner.Source.Render
import ShellInliner.Workspace.Traverse

/-! # What installing layouts leaves

    Installing layouts copies every node with children and hands the leaves on.
    The copies form a tree of the same shape, in which every cell has the style
    that its kind and the kind of its parent ask for; no text is kept but by
    leaves.  Of the nodes that were there before only leaves have changed, and
    only their style. -/

namespace ShellInliner.Workspace

open Source (isBraced)

/-! ### Workspaces that grow -/

/-- The second workspace has all cells and rows of the first one, except that a
    leaf may have got its style. -/
structure Extends (w v : Workspace) : Prop where
  /-- A cell stays, or is a leaf that has got its style. -/
  cell : ∀ (h : Handle) (c : Cell), w.cells[h]? = some c → v.cells[h]? = some c ∨
    c.head.kind.isLeaf = true ∧ v.cells[h]? = some { c with style := some .plain }
  /-- A row stays. -/
  row : ∀ (r : RowHandle) (xs : List (Option Handle)), w.rows[r]? = some xs → v.rows[r]? = some xs

namespace Extends

theorem refl (w : Workspace) : w.Extends w :=
  ⟨fun _ _ cell => .inl cell, fun _ _ row => row⟩

theorem trans {u v w : Workspace} (first : u.Extends v) (next : v.Extends w) : u.Extends w where
  cell h c found := by
    rcases first.cell h c found with same | ⟨leaf, styled⟩
    · exact next.cell h c same
    · rcases next.cell h _ styled with same' | ⟨-, styled'⟩
      · exact .inr ⟨leaf, same'⟩
      · exact .inr ⟨leaf, styled'⟩
  row r xs found := next.row r xs (first.row r xs found)

variable {w v : Workspace}

/-- Only the style of a cell can change. -/
theorem exists_style (grown : w.Extends v) {h : Handle} {c : Cell}
    (found : w.cells[h]? = some c) : ∃ style, v.cells[h]? = some { c with style } := by
  rcases grown.cell h c found with same | ⟨-, styled⟩
  · exact ⟨c.style, same⟩
  · exact ⟨_, styled⟩

theorem cell_of_not_leaf (grown : w.Extends v) {h : Handle} {c : Cell}
    (found : w.cells[h]? = some c) (inner : c.head.kind.isLeaf = false) : v.cells[h]? = some c := by
  rcases grown.cell h c found with same | ⟨leaf, -⟩
  · exact same
  · rw [inner] at leaf
    cases leaf

theorem takes (grown : w.Extends v) {k : Kind} {f : Field} {h : Handle} (here : w.Takes k f h) :
    v.Takes k f h := by
  obtain ⟨d, found, admits⟩ := here
  obtain ⟨style, kept⟩ := grown.exists_style found
  exact ⟨_, kept, admits⟩

theorem fits (grown : w.Extends v) {c : Cell} (here : w.Fits c) (style : Option Style) :
    v.Fits { c with style } where
  place := here.place
  singleFields := here.singleFields
  sequenceFields := here.sequenceFields
  vacant := here.vacant
  single f h mem := grown.takes (here.single f h mem)
  row f r mem := by
    obtain ⟨hs, row, each⟩ := here.row f r mem
    exact ⟨hs, grown.row r _ row, fun h mem => grown.takes (each h mem)⟩

theorem entries_eq (grown : w.Extends v) {c : Cell} (here : w.Fits c) :
    v.entries c = w.entries c := by
  unfold entries
  congr 1
  refine List.flatMap_congr fun s mem => ?_
  obtain ⟨hs, row, -⟩ := here.row s.1 s.2 mem
  rw [rowEntries_eq row, rowEntries_eq (grown.row _ _ row)]

/-- Trees stay where they are, if their condition does not mind that a leaf gets
    its style. -/
theorem shows (grown : w.Extends v) {P : CellCondition}
    (lax : ∀ k c, c.head.kind.isLeaf = true → P k c → P k { c with style := some .plain })
    {parent : Option Kind} {n : Node} {h : Handle} (here : w.Shows P parent n h) :
    v.Shows P parent n h := by
  induction n using Node.induct generalizing parent h with
  | step hd l cs ih =>
    obtain ⟨c, found, fits, cond, same, all⟩ := shows_iff.mp here
    have below : ∀ (ds : List (Field × Node)) (es : List (Field × Handle)), (∀ d ∈ ds, d ∈ cs) →
        w.ShowsAll P c.head.kind ds es → v.ShowsAll P c.head.kind ds es := by
      intro ds
      induction ds with
      | nil => exact fun es _ all => all
      | cons d ds ihs =>
        rintro es sub ⟨x, es', rfl, first, others⟩
        exact ⟨x, es', rfl, ih d (sub d (List.mem_cons_self ..)) first,
          ihs es' (fun d' mem => sub d' (List.mem_cons_of_mem _ mem)) others⟩
    have children := below cs _ (fun _ mem => mem) all
    rw [← grown.entries_eq fits] at children
    -- A cell that was there has at most got its style, and then it is a leaf.
    rcases grown.cell h c found with kept | ⟨leaf, styled⟩
    · exact shows_iff.mpr ⟨c, kept, grown.fits fits c.style, cond, same, children⟩
    · exact shows_iff.mpr ⟨_, styled, grown.fits fits _, lax _ _ leaf cond, same, children⟩

/-- A new cell. -/
theorem push_cell (w : Workspace) (c : Cell) :
    w.Extends { w with cells := w.cells.push c } where
  cell _ _ found := .inl (getElem?_push_of_eq_some found c)
  row _ _ found := found

/-- A new row. -/
theorem push_row (w : Workspace) (xs : List (Option Handle)) :
    w.Extends { w with rows := w.rows.push xs } where
  cell _ _ found := .inl found
  row _ _ found := getElem?_push_of_eq_some found xs

end Extends

/-! ### Conditions on cells -/

/-- A condition on leaves, which a style is nothing to. -/
class OfLeaves (P : CellCondition) : Prop where
  /-- The style does not matter. -/
  style : ∀ k c style, P k c → P k { c with style }
  /-- A node with children meets the condition. -/
  inner : ∀ k c, c.head.kind.isLeaf = false → P k c

/-- A leaf keeps no text, or its own. -/
def IsHonest : CellCondition := fun _ c =>
  c.head.kind.isLeaf = true → ∀ s, c.memo = some s → (Node.mk c.head c.loc []).source none = .ok s

instance : OfLeaves IsHonest where
  style _ _ _ honest := honest
  inner k c inner leaf := by
    rw [inner] at leaf
    cases leaf

/-- No condition at all. -/
def IsAny : CellCondition := fun _ _ => True

instance : OfLeaves IsAny where
  style _ _ _ _ := trivial
  inner _ _ _ := trivial

/-- The style that a node of a kind has under a parent of a kind. -/
def styleUnder (parent : Option Kind) (k : Kind) : Style :=
  if isBraced parent k then .braced else .plain

/-- The cell has the style that its kind and its parent ask for, no text is kept
    but by leaves, and the cell meets the condition that it has met before. -/
def Installed (P : CellCondition) : CellCondition := fun parent c =>
  c.style = some (styleUnder parent c.head.kind) ∧ (c.memo ≠ none → c.head.kind.isLeaf = true) ∧
    P parent c

/-- The cell has the style that its kind and its parent ask for, and no text is
    kept but that of a leaf. -/
def IsInstalled : CellCondition := fun parent c =>
  c.style = some (styleUnder parent c.head.kind) ∧ (c.memo ≠ none → c.head.kind.isLeaf = true) ∧
    IsHonest parent c

/-- Only lists of statements are put between braces. -/
theorem styleUnder_of_isLeaf (parent : Option Kind) {k : Kind} (leaf : k.isLeaf = true) :
    styleUnder parent k = .plain := by
  revert leaf
  cases k <;> simp [styleUnder, isBraced, Kind.isLeaf, Kind.isExpansion, Kind.expansions]

theorem Extends.shows_leaves {P : CellCondition} [ofLeaves : OfLeaves P] {w v : Workspace}
    (grown : w.Extends v) {parent : Option Kind} {n : Node} {h : Handle}
    (here : w.Shows P parent n h) : v.Shows P parent n h :=
  grown.shows (fun k c _ holds => ofLeaves.style k c _ holds) here

theorem Extends.shows_installed {P : CellCondition} [ofLeaves : OfLeaves P] {w v : Workspace}
    (grown : w.Extends v) {parent : Option Kind} {n : Node} {h : Handle}
    (here : w.Shows (Installed P) parent n h) : v.Shows (Installed P) parent n h := by
  refine grown.shows (fun k c leaf installed => ?_) here
  have plain : styleUnder k c.head.kind = .plain := styleUnder_of_isLeaf k leaf
  obtain ⟨-, kept, holds⟩ := installed
  exact ⟨by rw [plain], kept, ofLeaves.style k c _ holds⟩

theorem ShowsAll.mono {w v : Workspace} {P Q : CellCondition} {k : Kind}
    {cs : List (Field × Node)} {es : List (Field × Handle)} (all : w.ShowsAll P k cs es)
    (each : ∀ n h, w.Shows P (some k) n h → v.Shows Q (some k) n h) : v.ShowsAll Q k cs es := by
  induction cs generalizing es with
  | nil => exact all
  | cons c cs ih =>
    obtain ⟨h, es, rfl, shows, all⟩ := all
    exact ⟨h, es, rfl, each _ _ shows, ih all⟩

/-! ### Visiting children -/

/-- From every workspace that has grown from the first one, the visit of the node
    ends with a node that shows the same tree, with everything installed. -/
def Installs (w₀ : Workspace) (P : CellCondition) (visit : Handle → Work (Visited Handle))
    (parent : Option Kind) (n : Node) (h : Handle) : Prop :=
  ∀ w, w₀.Extends w → ∃ g w', (visit h).run.run w = (.ok (.one g), w') ∧ w.Extends w' ∧
    w'.Shows (Installed P) parent n g

section

variable {w₀ : Workspace} {visit : Handle → Work (Visited Handle)} {k : Kind} {P : CellCondition}
  [ofLeaves : OfLeaves P]

/-- The single fields of a copy. -/
theorem run_singles {singles : List (Field × Option Handle)} {cs : List (Field × Node)}
    (all : w₀.ShowsAll P k cs (singleEntries singles))
    (each : ∀ e ∈ singleEntries singles, ∀ n, w₀.Shows P (some k) n e.2 →
      w₀.Installs P visit (some k) n e.2) {w : Workspace} (grown : w₀.Extends w) :
    ∃ singles' w', (singles.mapM (traverseSingle visit k)).run.run w = (.ok singles', w') ∧
      w.Extends w' ∧ singles'.map (·.1) = singles.map (·.1) ∧
      (∀ f, (f, none) ∈ singles' → (f, none) ∈ singles) ∧
      w'.ShowsAll (Installed P) k cs (singleEntries singles') := by
  induction singles generalizing cs w with
  | nil =>
    cases cs with
    | nil => exact ⟨[], w, rfl, .refl w, rfl, fun _ mem => mem, rfl⟩
    | cons c cs =>
      obtain ⟨h, es, none, -⟩ := all
      cases none
  | cons s singles ih =>
    obtain ⟨f, x⟩ := s
    rw [List.mapM_cons]
    cases x with
    | none =>
      -- An empty field stays empty.
      obtain ⟨singles', w', ended, grown', fields, vacant, all'⟩ := ih all each grown
      refine ⟨(f, none) :: singles', w', ?_, grown', ?_, ?_, all'⟩
      · have single : (traverseSingle visit k (f, none)).run.run w = (.ok (f, none), w) := rfl
        rw [Run.run_bind_ok single, Run.run_bind_ok ended]
        rfl
      · simp [fields]
      · intro g mem
        rcases List.mem_cons.mp mem with here | there
        · cases here
          exact List.mem_cons_self ..
        · exact List.mem_cons_of_mem _ (vacant g there)
    | some h =>
      have split : singleEntries ((f, some h) :: singles) = (f, h) :: singleEntries singles := rfl
      rw [split] at all each
      cases cs with
      | nil => cases all
      | cons c cs =>
        obtain ⟨h', es, same, shows, all⟩ := all
        cases same
        obtain ⟨g, w₁, visited, grown₁, shows'⟩ :=
          each (c.1, h) (List.mem_cons_self ..) c.2 shows w grown
        obtain ⟨singles', w', ended, grown', fields, vacant, all'⟩ :=
          ih all (fun e mem => each e (List.mem_cons_of_mem _ mem)) (grown.trans grown₁)
        refine ⟨(c.1, some g) :: singles', w', ?_, grown₁.trans grown', ?_, ?_, ?_⟩
        · have single : (traverseSingle visit k (c.1, some h)).run.run w =
              (.ok (c.1, some g), w₁) := by
            unfold traverseSingle
            rw [Run.run_bind_ok visited]
            rfl
          rw [Run.run_bind_ok single, Run.run_bind_ok ended]
          rfl
        · simp [fields]
        · intro f' mem
          rcases List.mem_cons.mp mem with here | there
          · cases here
          · exact List.mem_cons_of_mem _ (vacant f' there)
        · exact ⟨g, _, rfl, grown'.shows_installed shows', all'⟩

/-- What the visit of an element of a row leaves. -/
def visitElement (visit : Handle → Work (Visited Handle)) : Option Handle → Work (List Handle)
  | none => return []
  | some h => return (← visit h).sequence

/-- The elements of a row are visited one after the other, and each leaves one
    node. -/
theorem run_elements {f : Field} {hs : List Handle} {cs : List (Field × Node)}
    (all : w₀.ShowsAll P k cs (hs.map (f, ·)))
    (each : ∀ h ∈ hs, ∀ n, w₀.Shows P (some k) n h → w₀.Installs P visit (some k) n h)
    {w : Workspace} (grown : w₀.Extends w) :
    ∃ (gs : List Handle) (w' : Workspace),
      ((hs.map some).mapM (visitElement visit)).run.run w = (.ok (gs.map ([·])), w') ∧
      w.Extends w' ∧ w'.ShowsAll (Installed P) k cs (gs.map (f, ·)) := by
  -- Each visit moves `w` on; what is still to be visited is shown where the row began, in `w₀`.
  induction hs generalizing cs w with
  | nil =>
    cases cs with
    | nil => exact ⟨[], w, rfl, .refl w, rfl⟩
    | cons c cs =>
      obtain ⟨h, es, none, -⟩ := all
      cases none
  | cons h hs ih =>
    cases cs with
    | nil => cases all
    | cons c cs =>
      obtain ⟨h', es, same, shows, all⟩ := all
      cases same
      obtain ⟨g, w₁, visited, grown₁, shows'⟩ :=
        each h (List.mem_cons_self ..) c.2 shows w grown
      obtain ⟨gs, w', ended, grown', all'⟩ :=
        ih all (fun x mem => each x (List.mem_cons_of_mem _ mem)) (grown.trans grown₁)
      refine ⟨g :: gs, w', ?_, grown₁.trans grown', g, _, rfl, grown'.shows_installed shows', all'⟩
      have first : (visitElement visit (some h)).run.run w = (.ok [g], w₁) := by
        unfold visitElement
        rw [Run.run_bind_ok visited]
        rfl
      rw [List.map_cons, List.mapM_cons, Run.run_bind_ok first, Run.run_bind_ok ended]
      rfl

theorem run_row {w : Workspace} {r : RowHandle} {xs : List (Option Handle)}
    (found : w.rows[r]? = some xs) : (row r).run.run w = (.ok xs, w) := by
  unfold row
  rw [Run.run_bind_ok (Run.run_get w), found]
  rfl

/-- A sequence of a copy gets a row of its own. -/
theorem run_sequence {f : Field} {r : RowHandle} {hs : List Handle} {cs : List (Field × Node)}
    (found : w₀.rows[r]? = some (hs.map some)) (all : w₀.ShowsAll P k cs (hs.map (f, ·)))
    (each : ∀ h ∈ hs, ∀ n, w₀.Shows P (some k) n h → w₀.Installs P visit (some k) n h)
    {w : Workspace} (grown : w₀.Extends w) :
    ∃ (r' : RowHandle) (gs : List Handle) (w' : Workspace),
      (traverseSequence visit (f, r)).run.run w = (.ok (f, r'), w') ∧ w.Extends w' ∧
      w'.rows[r']? = some (gs.map some) ∧ w'.ShowsAll (Installed P) k cs (gs.map (f, ·)) := by
  obtain ⟨gs, w₁, ended, grown₁, all'⟩ :=
    run_elements all each grown
  have pushed := Extends.push_row w₁ (gs.map some)
  refine ⟨w₁.rows.size, gs, { w₁ with rows := w₁.rows.push (gs.map some) }, ?_,
    grown₁.trans pushed, by simp, all'.mono fun n h => pushed.shows_installed⟩
  -- Every element is left one node, so the row keeps its length.
  have flat : (gs.map ([·])).flatten = gs := by simp [← List.flatMap_def]
  unfold traverseSequence
  rw [Run.run_bind_ok (run_row (grown.row r _ found))]
  refine (Run.run_bind_ok ended).trans ?_
  rw [flat]
  rfl

/-- The sequences of a copy. -/
theorem run_sequences {sequences : List (Field × RowHandle)} {cs : List (Field × Node)}
    (full : ∀ s ∈ sequences, ∃ hs : List Handle, w₀.rows[s.2]? = some (hs.map some))
    (all : w₀.ShowsAll P k cs (sequences.flatMap w₀.rowEntries))
    (each : ∀ e ∈ sequences.flatMap w₀.rowEntries, ∀ n, w₀.Shows P (some k) n e.2 →
      w₀.Installs P visit (some k) n e.2) {w : Workspace} (grown : w₀.Extends w) :
    ∃ sequences' w', (sequences.mapM (traverseSequence visit)).run.run w = (.ok sequences', w') ∧
      w.Extends w' ∧ sequences'.map (·.1) = sequences.map (·.1) ∧
      (∀ s ∈ sequences', ∃ hs : List Handle, w'.rows[s.2]? = some (hs.map some)) ∧
      w'.ShowsAll (Installed P) k cs (sequences'.flatMap w'.rowEntries) := by
  induction sequences generalizing cs w with
  | nil =>
    cases cs with
    | nil => exact ⟨[], w, rfl, .refl w, rfl, by simp, rfl⟩
    | cons c cs =>
      obtain ⟨h, es, none, -⟩ := all
      cases none
  | cons s sequences ih =>
    obtain ⟨f, r⟩ := s
    obtain ⟨hs, found⟩ := full (f, r) (List.mem_cons_self ..)
    rw [List.flatMap_cons, rowEntries_eq found] at all each
    obtain ⟨ds, ds', rfl, first, others⟩ := all.exists_split
    obtain ⟨r', gs, w₁, visited, grown₁, found', first'⟩ := run_sequence found first
      (fun h mem => each (f, h) (List.mem_append_left _ (List.mem_map_of_mem mem))) grown
    obtain ⟨sequences', w', ended, grown', fields, full', others'⟩ :=
      ih (fun s mem => full s (List.mem_cons_of_mem _ mem)) others
        (fun e mem => each e (List.mem_append_right _ mem)) (grown.trans grown₁)
    -- The row of the first sequence is still there after the others.
    have kept := grown'.row r' _ found'
    refine ⟨(f, r') :: sequences', w', ?_, grown₁.trans grown', by simp [fields], ?_, ?_⟩
    · rw [List.mapM_cons, Run.run_bind_ok visited, Run.run_bind_ok ended]
      rfl
    · intro s mem
      rcases List.mem_cons.mp mem with rfl | there
      · exact ⟨gs, kept⟩
      · exact full' s there
    · rw [List.flatMap_cons, rowEntries_eq kept]
      exact showsAll_append (first'.mono fun n h => grown'.shows_installed) others'

/-- A node with children is copied.  The copy has what the visits of its children
    have left and keeps no text; once it has the style it asks for, it shows the
    same tree with everything installed. -/
theorem run_descend {n : Node} {parent : Option Kind} {h : Handle} {c : Cell}
    (shows : w₀.Shows P parent n h) (found : w₀.cells[h]? = some c)
    (inner : c.head.kind.isLeaf = false)
    (each : ∀ x m, w₀.IsChild h x → w₀.Shows P (some c.head.kind) m x →
      w₀.Installs P visit (some c.head.kind) m x)
    {w : Workspace} (grown : w₀.Extends w) :
    ∃ (d : Cell) (v : Workspace), (descend visit h).run.run w =
        (.ok v.cells.size, { v with cells := v.cells.push d }) ∧ w.Extends v ∧
      d.head = c.head ∧ d.sequences.map (·.1) = c.sequences.map (·.1) ∧
      Shows { v with cells := v.cells.push { d with style := some (styleUnder parent c.head.kind) } }
        (Installed P) parent n v.cells.size := by
  obtain ⟨c', found', fits, -, same, all⟩ := shows_iff.mp shows
  rw [found] at found'
  cases found'
  have child : ∀ e ∈ w₀.entries c, w₀.IsChild h e.2 := fun e mem =>
    (fits.hasRows.isChild_iff found).mpr ⟨e.1, mem⟩
  have installs : ∀ e ∈ w₀.entries c, ∀ m, w₀.Shows P (some c.head.kind) m e.2 →
      w₀.Installs P visit (some c.head.kind) m e.2 := fun e mem m => each e.2 m (child e mem)
  unfold entries at all installs
  obtain ⟨ds, ds', split, first, others⟩ := all.exists_split
  obtain ⟨singles, v₁, ended₁, grown₁, fields₁, vacant, first'⟩ := run_singles first
    (fun e mem => installs e (List.mem_append_left _ mem)) grown
  obtain ⟨sequences, v, ended, grown', fields, full, others'⟩ := run_sequences
    (fun s mem => (fits.row s.1 s.2 mem).imp fun _ row => row.1) others
    (fun e mem => installs e (List.mem_append_right _ mem)) (grown.trans grown₁)
  -- The new cell refers to what the visits have left, in the same fields as the old one.
  let d : Cell := { c with singles, sequences, memo := none }
  refine ⟨d, v, ?_, grown₁.trans grown', rfl, fields, ?_⟩
  · have look := run_cell h w
    rw [grown.cell_of_not_leaf found inner] at look
    unfold descend
    rw [Run.run_bind_ok look]
    simp only [inner, Bool.false_eq_true, if_false]
    rw [Run.run_bind_ok ended₁, Run.run_bind_ok ended]
    rfl
  · let g : Cell := { d with style := some (styleUnder parent c.head.kind) }
    have pushed := Extends.push_cell v g
    let v' : Workspace := { v with cells := v.cells.push g }
    have here : v'.cells[v.cells.size]? = some g := by simp [v']
    have children : v'.ShowsAll (Installed P) c.head.kind n.children (v'.entries g) := by
      rw [split]
      exact showsAll_append (first'.mono fun m x => (grown'.trans pushed).shows_installed)
        (others'.mono fun m x => pushed.shows_installed)
    have takes : ∀ f x, (f, x) ∈ v'.entries g → v'.Takes c.head.kind f x := by
      intro f x mem
      obtain ⟨m, mem', below⟩ := children.exists_tree mem
      obtain ⟨e, there, -, -, kind⟩ := below.exists_cell
      have admits := shows.admits mem'
      rw [same] at admits
      exact ⟨e, there, by rw [kind]; exact admits⟩
    have holds : P parent g := ofLeaves.inner parent g inner
    refine shows_iff.mpr ⟨g, here, ?_, ⟨rfl, fun kept => absurd rfl kept, holds⟩, same, children⟩
    · constructor
      case place => exact fits.place
      case singleFields => exact fields₁.trans fits.singleFields
      case sequenceFields => exact fields.trans fits.sequenceFields
      case vacant => exact fun f mem => fits.vacant f (vacant f mem)
      case single =>
        exact fun f x mem => takes f x (List.mem_append_left _ (mem_singleEntries.mpr mem))
      case row =>
        intro f r mem
        obtain ⟨hs, row⟩ := full (f, r) mem
        refine ⟨hs, row, fun x here => takes f x (List.mem_append_right _ ?_)⟩
        refine List.mem_flatMap.mpr ⟨(f, r), mem, ?_⟩
        rw [rowEntries_eq (w := v') row]
        exact List.mem_map_of_mem here

end

/-! ### Installing at one node -/

/-- Every kind has the handler. -/
theorem entry?_installers (k : Kind) : Table.entry? installers k = some installer := by
  cases k <;> rfl

theorem unknownNames_installers : Table.unknownNames installers = [] := by
  rfl

/-- The parent is a node of the kind, or there is none. -/
def IsOfKind (w : Workspace) : Option Handle → Option Kind → Prop
  | none, none => True
  | some p, some k => ∃ c, w.cells[p]? = some c ∧ c.head.kind = k
  | _, _ => False

theorem Extends.isOfKind {w v : Workspace} (grown : w.Extends v) {p : Option Handle}
    {k : Option Kind} (here : w.IsOfKind p k) : v.IsOfKind p k := by
  cases p with
  | none =>
    cases k with
    | none => trivial
    | some k => exact here.elim
  | some p =>
    cases k with
    | none => exact here.elim
    | some k =>
      obtain ⟨c, found, kind⟩ := here
      -- A cell never changes its kind.
      obtain ⟨style, kept⟩ := grown.exists_style found
      exact ⟨_, kept, kind⟩

theorem run_parentKind {w : Workspace} {p : Option Handle} {k : Option Kind}
    (here : w.IsOfKind p k) :
    (p.mapM fun h => do return (← cell h).head.kind : Work (Option Kind)).run.run w =
      (.ok k, w) := by
  cases p with
  | none =>
    cases k with
    | none => rfl
    | some k => exact here.elim
  | some p =>
    cases k with
    | none => exact here.elim
    | some k =>
      obtain ⟨c, found, rfl⟩ := here
      have look := run_cell p w
      rw [found] at look
      show (some <$> (cell p >>= fun d => pure d.head.kind) : Work _).run.run w = _
      rw [map_eq_pure_bind, bind_assoc, Run.run_bind_ok look]
      rfl

/-- A leaf may get its style. -/
theorem extends_style {w : Workspace} {h : Handle}
    (leaf : ∀ c, w.cells[h]? = some c → c.head.kind.isLeaf = true) :
    w.Extends { w with cells := w.cells.modify h fun c => { c with style := some .plain } } where
  cell x c found := by
    by_cases here : h = x
    · subst here
      exact .inr ⟨leaf c found, by simp [Array.getElem?_modify, found]⟩
    · exact .inl (by simpa [Array.getElem?_modify, here] using found)
  row _ _ found := found

theorem Extends.style_of_isLeaf {w v : Workspace} (grown : w.Extends v) {h : Handle} {c : Cell}
    (found : w.cells[h]? = some c) (styled : c.style = some .plain) :
    ∃ d, v.cells[h]? = some d ∧ d.style = some .plain := by
  rcases grown.cell h c found with same | ⟨-, kept⟩
  · exact ⟨c, same, styled⟩
  · exact ⟨_, kept, rfl⟩

/-- One turn of the loop over the expansions of a word. -/
def installElement (e : Option Handle) (_ : PUnit) : Work (ForInStep PUnit) :=
  match e with
  | some x => do
    install .plain x
    return .yield ⟨⟩
  | none => do
    throw .missingPart
    return .yield ⟨⟩

/-- The expansions of a word get their style one after the other. -/
theorem run_forIn_install {hs : List Handle} {w : Workspace}
    (leaves : ∀ h ∈ hs, ∃ c, w.cells[h]? = some c ∧ c.head.kind.isLeaf = true) :
    ∃ w', (forIn (hs.map some) PUnit.unit installElement).run.run w = (.ok ⟨⟩, w') ∧ w.Extends w' ∧
      ∀ h ∈ hs, ∃ c, w'.cells[h]? = some c ∧ c.style = some .plain := by
  induction hs generalizing w with
  | nil => exact ⟨w, rfl, .refl w, by simp⟩
  | cons h hs ih =>
    obtain ⟨c, found, leaf⟩ := leaves h (List.mem_cons_self ..)
    let w₁ : Workspace :=
      { w with cells := w.cells.modify h fun c => { c with style := some .plain } }
    have grown : w.Extends w₁ := extends_style fun d found' => by
      rw [found] at found'
      cases found'
      exact leaf
    have styled : w₁.cells[h]? = some { c with style := some .plain } := by
      simp [w₁, Array.getElem?_modify, found]
    -- The other expansions are still leaves once the first has its style.
    obtain ⟨w', ended, grown', others⟩ := ih (w := w₁) fun x mem => by
      obtain ⟨d, there, leaf'⟩ := leaves x (List.mem_cons_of_mem _ mem)
      obtain ⟨style, kept⟩ := grown.exists_style there
      exact ⟨_, kept, leaf'⟩
    refine ⟨w', ?_, grown.trans grown', fun x mem => ?_⟩
    · have first : (installElement (some h) PUnit.unit).run.run w = (.ok (.yield ⟨⟩), w₁) := rfl
      rw [List.map_cons, List.forIn_cons, Run.run_bind_ok first]
      exact ended
    · rcases List.mem_cons.mp mem with rfl | there
      · exact grown'.style_of_isLeaf styled rfl
      · exact others x there

/-! ### Leaves -/

theorem fields_of_isLeaf {k : Kind} (leaf : k.isLeaf = true) :
    k.singleFields = [] ∧ (k.sequenceFields = [] ∨ k.sequenceFields = [.expansion]) := by
  revert leaf
  cases k <;> decide

/-- Only leaves have expansions. -/
theorem expansion_not_mem {k : Kind} (inner : k.isLeaf = false) :
    .expansion ∉ k.sequenceFields := by
  revert inner
  cases k <;> decide

theorem lookup_eq_none {α : Type} {f : Field} {entries : List (Field × α)}
    (absent : f ∉ entries.map (·.1)) : entries.lookup f = none := by
  cases found : entries.lookup f with
  | none => rfl
  | some x => exact absurd (List.mem_map.mpr ⟨_, mem_of_lookup found, rfl⟩) absent

/-- The children of a leaf are the expansions in its row, if it has one. -/
theorem Fits.leaf_cases {w : Workspace} {c : Cell} (fits : w.Fits c)
    (leaf : c.head.kind.isLeaf = true) :
    (c.sequences.lookup .expansion = none ∧ w.entries c = []) ∨
      ∃ (r : RowHandle) (hs : List Handle), c.sequences.lookup .expansion = some r ∧
        w.rows[r]? = some (hs.map some) ∧ w.entries c = hs.map (.expansion, ·) := by
  obtain ⟨single, sequence⟩ := fields_of_isLeaf leaf
  have singles : c.singles = [] := by
    rw [← List.map_eq_nil_iff (f := (·.1)), fits.singleFields, single]
  have fields := fits.sequenceFields
  -- A leaf has no single fields, and a row of expansions at most.
  rcases sequence with none | one
  · left
    rw [none] at fields
    have sequences := List.map_eq_nil_iff.mp fields
    simp [entries, singles, sequences, singleEntries]
  · right
    rw [one] at fields
    obtain ⟨⟨f, r⟩, rest, sequences, rfl, nil⟩ := List.map_eq_cons_iff.mp fields
    have rest_nil := List.map_eq_nil_iff.mp nil
    obtain ⟨hs, row, -⟩ := fits.row .expansion r (by rw [sequences]; exact List.mem_cons_self ..)
    refine ⟨r, hs, by simp [sequences], row, ?_⟩
    simp [entries, singles, sequences, rest_nil, singleEntries, rowEntries_eq row]

/-- The child of a leaf is an expansion. -/
theorem isExpansion_of_admits {k below : Kind} {f : Field} (leaf : k.isLeaf = true)
    (admits : Node.Admits k f below) : below.isExpansion = true :=
  admits.holds (p := fun _ below => below.isExpansion) (by
    revert leaf
    cases k <;> decide)

/-- An expansion has no children. -/
theorem not_admits_of_isExpansion {k below : Kind} {f : Field} (expansion : k.isExpansion = true) :
    ¬ Node.Admits k f below := by
  intro admits
  have impossible := admits.holds (p := fun _ _ => false) (by
    revert expansion
    cases k <;> decide)
  cases impossible

theorem isLeaf_of_isExpansion {k : Kind} (expansion : k.isExpansion = true) : k.isLeaf = true := by
  unfold Kind.isLeaf
  rw [expansion, Bool.or_true]

/-- A leaf whose style has been installed is installed, if its children are. -/
theorem Shows.installed_of_style {P : CellCondition} {w : Workspace} {parent : Option Kind}
    {n : Node} {h : Handle}
    (shows : w.Shows P parent n h) (leaf : n.kind.isLeaf = true)
    (styled : ∃ c, w.cells[h]? = some c ∧ c.style = some .plain)
    (below : ∀ f x m, (f, m) ∈ n.children → w.IsChild h x → w.Shows P (some n.kind) m x →
      w.Shows (Installed P) (some n.kind) m x) : w.Shows (Installed P) parent n h := by
  refine shows.of_root (fun c found kind holds => ?_) below
  obtain ⟨d, found', plain⟩ := styled
  rw [found] at found'
  cases found'
  rw [← kind] at leaf
  refine ⟨?_, fun _ => leaf, holds⟩
  rw [plain, styleUnder_of_isLeaf parent leaf]

/-- A leaf is installed once it and its children have got their style. -/
theorem Shows.installed_of_styles {P : CellCondition} {w : Workspace} {parent : Option Kind}
    {n : Node} {h : Handle}
    (shows : w.Shows P parent n h) (leaf : n.kind.isLeaf = true)
    (styled : ∃ c, w.cells[h]? = some c ∧ c.style = some .plain)
    (styled' : ∀ x, w.IsChild h x → ∃ c, w.cells[x]? = some c ∧ c.style = some .plain) :
    w.Shows (Installed P) parent n h := by
  refine shows.installed_of_style leaf styled fun f x m mem child shows' => ?_
  have expansion := isExpansion_of_admits leaf (shows.admits mem)
  refine shows'.installed_of_style (isLeaf_of_isExpansion expansion) (styled' x child) ?_
  intro g y m' mem'
  exact absurd (shows'.admits mem') (not_admits_of_isExpansion expansion)

theorem styled_modify {w : Workspace} {h : Handle} {c : Cell} (found : w.cells[h]? = some c) :
    (w.cells.modify h fun c => { c with style := some .plain })[h]? =
      some { c with style := some .plain } := by
  simp [Array.getElem?_modify, found]

/-- The handler installs a leaf with all its expansions. -/
theorem run_installer_leaf {P : CellCondition} [OfLeaves P] {w : Workspace} {p : Option Handle}
    {parent : Option Kind} {n : Node} {h : Handle} (root : Handle) (shows : w.Shows P parent n h)
    (leaf : n.kind.isLeaf = true) (known : w.IsOfKind p parent) :
    ∃ w', (installer h p root).run.run w = (.ok (.replace h), w') ∧ w.Extends w' ∧
      w'.Shows (Installed P) parent n h := by
  obtain ⟨c, found, fits, -, kind⟩ := shows.exists_cell
  have look := run_cell h w
  rw [found] at look
  have leaf' : c.head.kind.isLeaf = true := kind ▸ leaf
  have style : (if isBraced parent c.head.kind then Style.braced else .plain) = .plain :=
    styleUnder_of_isLeaf parent leaf'
  -- Once the expansions have their style, the leaf gets its own.
  have finish (w₁ : Workspace) (grown : w.Extends w₁) (styled : ∀ e ∈ w.entries c,
      ∃ d, w₁.cells[e.2]? = some d ∧ d.style = some .plain) :
      ∃ w', (install .plain h).run.run w₁ = (.ok ⟨⟩, w') ∧ w.Extends w' ∧
        w'.Shows (Installed P) parent n h := by
    obtain ⟨style₁, found₁⟩ := grown.exists_style found
    have grown₁ := extends_style (w := w₁) (h := h) fun d found' => by
      rw [found₁] at found'
      cases found'
      exact leaf'
    have grown' := grown.trans grown₁
    refine ⟨_, rfl, grown', ?_⟩
    have here : (w₁.cells.modify h fun c => { c with style := some .plain })[h]? =
        some { c with style := some .plain } := (styled_modify found₁ :)
    refine (grown'.shows_leaves shows).installed_of_styles leaf ⟨_, here, rfl⟩ fun x child => ?_
    obtain ⟨f, mem⟩ := ((grown'.fits fits (some .plain)).hasRows.isChild_iff here).mp child
    have mem' : (f, x) ∈ w.entries c := by
      rw [← grown'.entries_eq fits]
      exact mem
    obtain ⟨d, there, plain⟩ := styled (f, x) mem'
    exact grown₁.style_of_isLeaf there plain
  unfold installer
  rw [Run.run_bind_ok look, Run.run_bind_ok (run_parentKind known)]
  rcases fits.leaf_cases leaf' with ⟨absent, entries⟩ | ⟨r, hs, present, row, entries⟩
  · obtain ⟨w', ended, grown, installed⟩ := finish w (.refl w) (by simp [entries])
    refine ⟨w', ?_, grown, installed⟩
    simp only [absent, style]
    rw [Run.run_bind_ok (Run.run_pure [] w), List.forIn_nil, Run.run_bind_ok (Run.run_pure _ w),
      Run.run_bind_ok ended]
    rfl
  · have leaves : ∀ x ∈ hs, ∃ d, w.cells[x]? = some d ∧ d.head.kind.isLeaf = true := by
      intro x mem
      have entry : (Field.expansion, x) ∈ w.entries c := by
        rw [entries]
        exact List.mem_map_of_mem mem
      obtain ⟨d, there, admits⟩ := fits.takes entry
      exact ⟨d, there, isLeaf_of_isExpansion (isExpansion_of_admits leaf' admits)⟩
    obtain ⟨w₁, visited, grown₁, styled⟩ := run_forIn_install leaves
    obtain ⟨w', ended, grown, installed⟩ := finish w₁ grown₁ fun e mem => by
      rw [entries] at mem
      obtain ⟨x, here, rfl⟩ := List.mem_map.mp mem
      exact styled x here
    refine ⟨w', ?_, grown, installed⟩
    simp only [present, style]
    rw [Run.run_bind_ok (run_row row)]
    refine (Run.run_bind_ok visited).trans ?_
    rw [Run.run_bind_ok ended]
    rfl

/-! ### Installing on a whole tree -/

/-- The handler gives a node with children the style that it asks for. -/
theorem run_installer_inner {w : Workspace} {p : Option Handle} {parent : Option Kind}
    {h : Handle} (root : Handle) {d : Cell} (found : w.cells[h]? = some d)
    (inner : d.sequences.lookup .expansion = none) (known : w.IsOfKind p parent) :
    (installer h p root).run.run w = (.ok (.replace h), { w with cells := w.cells.modify h fun c =>
      { c with style := some (styleUnder parent d.head.kind) } }) := by
  have look := run_cell h w
  rw [found] at look
  unfold installer
  rw [Run.run_bind_ok look, Run.run_bind_ok (run_parentKind known)]
  simp only [inner]
  rw [Run.run_bind_ok (Run.run_pure [] w), List.forIn_nil, Run.run_bind_ok (Run.run_pure _ w)]
  rfl

theorem modify_push_size (cells : Array Cell) (d : Cell) (f : Cell → Cell) :
    (cells.push d).modify cells.size f = cells.push (f d) := by
  apply Array.ext_getElem?
  intro i
  rw [Array.getElem?_modify, Array.getElem?_push, Array.getElem?_push]
  by_cases last : cells.size = i
  · simp [last]
  · have last' : i ≠ cells.size := fun same => last same.symm
    simp [last, last']

/-- The traversal installs a tree in a copy of it. -/
theorem installs_traverseAt {P : CellCondition} [OfLeaves P] {w₀ : Workspace} (root : Handle)
    {m : Nat} {p : Option Handle} {parent : Option Kind} {n : Node} {h : Handle}
    (within : w₀.IsWithin m h) (known : w₀.IsOfKind p parent)
    (shows : w₀.Shows P parent n h) :
    w₀.Installs P (traverseAt installers root m p) parent n h := by
  induction m generalizing p parent n h with
  | zero => exact within.elim
  | succ m ih =>
    intro w grown
    obtain ⟨c, found, fits, -, kind⟩ := shows.exists_cell
    obtain ⟨style, kept⟩ := grown.exists_style found
    have look := run_cell h w
    rw [kept] at look
    unfold traverseAt
    cases leaf : c.head.kind.isLeaf with
    | true =>
      -- A leaf is not copied.
      obtain ⟨w', installed, grown', shows'⟩ := run_installer_leaf root
        (grown.shows_leaves shows) (kind ▸ leaf) (grown.isOfKind known)
      have descended :
          (descend (traverseAt installers root m (some h)) h).run.run w = (.ok h, w) := by
        unfold descend
        rw [Run.run_bind_ok look]
        simp only [leaf, if_true]
        rfl
      refine ⟨h, w', ?_, grown', shows'⟩
      rw [Run.run_bind_ok descended, Run.run_bind_ok look]
      simp only [entry?_installers]
      rw [Run.run_bind_ok installed]
      rfl
    | false =>
      have children (k : Handle) (x : Node) (child : w₀.IsChild h k)
          (below : w₀.Shows P (some c.head.kind) x k) :=
        ih (p := some h) (within.child child) (by exact ⟨c, found, rfl⟩) below
      obtain ⟨d, v, descended, grown', head, sequences, shows'⟩ :=
        run_descend shows found leaf children grown
      have here : (v.cells.push d)[v.cells.size]? = some d := by simp
      have look' := run_cell v.cells.size { v with cells := v.cells.push d }
      simp only [here] at look'
      have none : d.sequences.lookup .expansion = none := lookup_eq_none <| by
        rw [sequences, fits.sequenceFields]
        exact expansion_not_mem leaf
      have pushed := Extends.push_cell v d
      have installed := run_installer_inner root here none
        ((grown'.trans pushed).isOfKind (grown.isOfKind known))
      have pushed' := Extends.push_cell v { d with style := some (styleUnder parent c.head.kind) }
      refine ⟨v.cells.size, _, ?_, grown'.trans pushed', shows'⟩
      rw [Run.run_bind_ok descended, Run.run_bind_ok look']
      simp only [entry?_installers]
      rw [Run.run_bind_ok installed]
      simp only [modify_push_size, head]
      rfl

/-- Installing layouts leaves a node that shows the same tree with everything
    installed. -/
theorem run_generate {P : CellCondition} [OfLeaves P] {w : Workspace} {n : Node} {h : Handle}
    (shows : w.Shows P none n h) :
    ∃ g w', (generate h).run.run w = (.ok (.one g), w') ∧ w.Extends w' ∧
      w'.Shows (Installed P) none n g := by
  have rootless : w.IsOfKind none none := trivial
  obtain ⟨g, w', ended, grown, installed⟩ :=
    installs_traverseAt h shows.isWithin rootless shows w (.refl w)
  refine ⟨g, w', ?_, grown, installed⟩
  unfold generate traverse
  simp only [unknownNames_installers]
  rw [Run.run_bind_ok (Run.run_get w)]
  exact ended

end ShellInliner.Workspace
