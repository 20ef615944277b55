import ShellInliner.Proofs.Workspace.Isolation
import ShellInliner.Proofs.Workspace.Memory

/-! # Edits of one tree do not show in another

    Sets, moves and pops change a node or a row in place.  A tree does not show
    them if it has neither that node nor that row.  A tree and what a traversal
    leaves of it have only leaves in common, and so edits of the other nodes of
    the one never show in the other. -/

namespace ShellInliner.Workspace

open Relation (ReflTransGen TransGen)
open Run (Chains Keeps)

/-! ### Trees and fuel -/

theorem mapM_congr_left {α β : Type} {f g : α → Option β} {xs : List α}
    (same : ∀ x ∈ xs, f x = g x) : xs.mapM f = xs.mapM g := by
  induction xs with
  | nil => rfl
  | cons x xs ih =>
    rw [List.mapM_cons, List.mapM_cons, same x (List.mem_cons_self ..),
      ih fun y mem => same y (List.mem_cons_of_mem _ mem)]

theorem exists_of_mapM_eq_some {α β : Type} {f : α → Option β} {xs : List α} {ys : List β}
    (all : xs.mapM f = some ys) {x : α} (mem : x ∈ xs) : ∃ y, f x = some y := by
  induction xs generalizing ys with
  | nil => cases mem
  | cons z xs ih =>
    rw [List.mapM_cons] at all
    obtain ⟨y, here, rest⟩ := Option.bind_eq_some_iff.mp all
    rcases List.mem_cons.mp mem with rfl | later
    · exact ⟨y, here⟩
    · obtain ⟨ys', others, -⟩ := Option.bind_eq_some_iff.mp rest
      exact ih others later

/-- Everything at and below the node is there, with its rows. -/
def WholeBelow (w : Workspace) (h : Handle) : Prop :=
  ∀ x, w.Below h x → ∃ c, w.cells[x]? = some c ∧ w.HasRows c

theorem WholeBelow.child {w : Workspace} {h x : Handle} (whole : w.WholeBelow h)
    (child : w.IsChild h x) : w.WholeBelow x :=
  fun y below => whole y (.head child below)

section

variable {w : Workspace}

theorem IsWithin.acc {m : Nat} {h : Handle} (within : w.IsWithin m h) :
    Acc (fun x y => w.IsChild y x) h := by
  induction m generalizing h with
  | zero => exact within.elim
  | succ m ih => exact ⟨h, fun x child => ih (within.child child)⟩

/-- A tree that is found is not deeper than the fuel. -/
theorem isWithin_of_tree? {m : Nat} {h : Handle} {n : Node} (whole : w.WholeBelow h)
    (tree : w.tree? m h = some n) : w.IsWithin m h := by
  induction m generalizing h n with
  | zero => cases tree
  | succ m ih =>
    intro x child
    obtain ⟨c, found, rows⟩ := whole h .refl
    rw [tree?_succ found rows] at tree
    obtain ⟨cs, all, -⟩ := Option.map_eq_some_iff.mp tree
    obtain ⟨f, mem⟩ := (rows.isChild_iff found).mp child
    obtain ⟨b, branch⟩ := exists_of_mapM_eq_some all mem
    obtain ⟨n', tree', -⟩ := Option.bind_eq_some_iff.mp branch
    exact ih (whole.child child) tree'

/-- More fuel than the depth finds no other tree. -/
theorem tree?_add {m : Nat} {h : Handle} (whole : w.WholeBelow h) (within : w.IsWithin m h)
    (k : Nat) : w.tree? (m + k) h = w.tree? m h := by
  induction m generalizing h with
  | zero => exact within.elim
  | succ m ih =>
    obtain ⟨c, found, rows⟩ := whole h .refl
    have step : m + 1 + k = m + k + 1 := by omega
    rw [step, tree?_succ found rows, tree?_succ found rows]
    congr 1
    refine mapM_congr_left fun e mem => ?_
    have child : w.IsChild h e.2 := (rows.isChild_iff found).mpr ⟨e.1, mem⟩
    unfold branch?
    rw [ih (whole.child child) (within.child child)]

/-- The fuel of a workspace finds a tree if any fuel does. -/
theorem tree?_of_fuel_le {m : Nat} {h : Handle} (whole : w.WholeBelow h) (le : w.fuel ≤ m) :
    w.tree? m h = w.tree? w.fuel h := by
  by_cases within : w.IsWithin w.fuel h
  · obtain ⟨k, rfl⟩ := Nat.exists_eq_add_of_le le
    exact tree?_add whole within k
  · -- Then a node lies below itself, and no fuel is enough.
    have none : ∀ m, w.tree? m h = none := by
      intro m
      by_contra some
      obtain ⟨n, tree⟩ := Option.ne_none_iff_exists'.mp some
      have acc := (isWithin_of_tree? whole tree).acc
      apply within
      refine isWithin_fuel fun x below => not_below_itself_of_acc ?_
      induction below with
      | refl => exact acc
      | tail _ child ih => exact ih.inv child
    rw [none, none]

/-- The tree below a node depends only on the nodes at and below it. -/
theorem tree?_congr {v : Workspace} {m : Nat} {h : Handle}
    (same : ∀ x, w.Below h x → ∃ c style memo, w.cells[x]? = some c ∧ w.HasRows c ∧
      v.cells[x]? = some { c with style, memo } ∧ ∀ s ∈ c.sequences, v.rows[s.2]? = w.rows[s.2]?) :
    v.tree? m h = w.tree? m h := by
  induction m generalizing h with
  | zero => rfl
  | succ m ih =>
    obtain ⟨c, style, memo, found, rows, kept, stay⟩ := same h .refl
    -- The cells agree but for styles and texts, which no tree shows.
    have rows' : v.HasRows { c with style, memo } := by
      intro s mem
      obtain ⟨xs, row⟩ := rows s mem
      exact ⟨xs, (stay s mem).trans row⟩
    have entries : v.entries { c with style, memo } = w.entries c := by
      unfold Workspace.entries
      congr 1
      refine List.flatMap_congr fun s mem => ?_
      unfold rowEntries
      rw [stay s mem]
    rw [tree?_succ kept rows', tree?_succ found rows, entries]
    congr 1
    refine mapM_congr_left fun e mem => ?_
    have child : w.IsChild h e.2 := (rows.isChild_iff found).mpr ⟨e.1, mem⟩
    unfold branch?
    rw [ih fun x below => same x (.head child below)]

end

/-- What a node is written as. -/
def dump (w : Workspace) (h : Handle) : Except Error Json.Value :=
  ((dumpRef (.node h)).run.run w).1

theorem dump_congr {w v : Workspace} {h : Handle} (same : v.tree? v.fuel h = w.tree? w.fuel h) :
    v.dump h = w.dump h := by
  have written (u : Workspace) : u.dump h =
      ((u.tree? u.fuel h).map fun n => .ok (n.dump .drop)).getD (.error .circular) := by
    unfold dump dumpRef tree
    rw [Run.run_bind, Run.run_bind_ok (Run.run_get u)]
    cases u.tree? u.fuel h with
    | some n => rfl
    | none => rfl
  rw [written, written, same]

/-! ### What edits leave alone -/

/-- Nothing is lost, and nodes and rows that may not be edited are as they were,
    but for styles and texts. -/
structure Unedited (D : Handle → Prop) (E : RowHandle → Prop) (w v : Workspace) : Prop where
  /-- There are at least as many nodes. -/
  size : w.cells.size ≤ v.cells.size
  /-- Another node stays. -/
  cell : ∀ (h : Handle) (c : Cell), ¬ D h → w.cells[h]? = some c →
    ∃ style memo, v.cells[h]? = some { c with style, memo }
  /-- Another row stays. -/
  row : ∀ (r : RowHandle) (xs : List (Option Handle)), ¬ E r → w.rows[r]? = some xs →
    v.rows[r]? = some xs

section

variable {D : Handle → Prop} {E : RowHandle → Prop}

theorem Unedited.refl (w : Workspace) : Unedited D E w w :=
  ⟨le_rfl, fun _ c _ found => ⟨c.style, c.memo, found⟩, fun _ _ _ found => found⟩

instance : Growth (Unedited D E) where
  refl := .refl
  trans u v w first next := by
    constructor
    · exact first.size.trans next.size
    · intro h c other found
      obtain ⟨style, memo, kept⟩ := first.cell h c other found
      obtain ⟨style', memo', kept'⟩ := next.cell h _ other kept
      exact ⟨style', memo', kept'⟩
    · exact fun r xs other found => next.row r xs other (first.row r xs other found)
  push_cell w d :=
    ⟨by simp, fun h c _ found => ⟨c.style, c.memo, getElem?_push_of_eq_some found d⟩,
      fun _ _ _ found => found⟩
  push_row w ys :=
    ⟨le_rfl, fun _ c _ found => ⟨c.style, c.memo, found⟩,
      fun _ _ _ found => getElem?_push_of_eq_some found ys⟩
  aside w _ _ := ⟨le_rfl, fun _ c _ found => ⟨c.style, c.memo, found⟩, fun _ _ _ found => found⟩

/-- A change to a cell that may be edited, or to the style and the text of any. -/
theorem unedited_changeCell {x : Handle} {f : Cell → Cell}
    (allowed : D x ∨ ∀ c, ∃ style memo, f c = { c with style, memo }) :
    Keeps (Unedited D E) (changeCell x f) := by
  intro w
  constructor
  · simp [changeCell]
  · intro h c other found
    by_cases here : x = h
    · subst here
      -- This cell may not be edited, so the change is one that is allowed anywhere.
      have outside : ∀ c, ∃ style memo, f c = { c with style, memo } := by
        rcases allowed with edited | outside
        · exact absurd edited other
        · exact outside
      obtain ⟨style, memo, same⟩ := outside c
      exact ⟨style, memo, by simp [changeCell, Array.getElem?_modify, found, same]⟩
    · refine ⟨c.style, c.memo, ?_⟩
      simpa [changeCell, Array.getElem?_modify, here] using found
  · exact fun _ _ _ found => found

theorem unedited_changeRow {r : RowHandle} (allowed : E r)
    (f : List (Option Handle) → List (Option Handle)) : Keeps (Unedited D E) (changeRow r f) := by
  intro w
  constructor
  · exact le_rfl
  · exact fun h c _ found => ⟨c.style, c.memo, found⟩
  · intro q xs other found
    have elsewhere : r ≠ q := by
      rintro rfl
      exact other allowed
    simpa [changeRow, Array.getElem?_modify, elsewhere] using found

theorem unedited_readAt (m : Nat) (x : Handle) : Keeps (Unedited D E) (readAt m x) := by
  induction m generalizing x with
  | zero => exact .throw _
  | succ m ih =>
    unfold readAt
    refine .bind (keeps_cell x) fun c => ?_
    split
    · exact .pure _
    · exact .throw _
    · refine .bind (keeps_layout ih _ c) fun text => ?_
      exact .bind (unedited_changeCell (.inr fun c => ⟨c.style, some text, rfl⟩)) fun _ => .pure _

/-! ### Edits in a session -/

/-- If the step is a set, it goes to a node of these; if it is a move or a pop, it
    goes to a row of these. -/
def EditsAt (D : Handle → Prop) (E : RowHandle → Prop) (w : Workspace) : SessionStep → Prop
  | .assign a _ _ => ∀ h, w.LeadsTo a h → D h
  | .move a _ | .pop a => ∀ r, w.LeadsToRow a r → E r
  | _ => True

/-- All sets, moves and pops of a session go to these nodes and rows. -/
def EditsOnly (D : Handle → Prop) (E : RowHandle → Prop) : Workspace → List SessionStep → Prop
  | _, [] => True
  | w, step :: steps =>
    EditsAt D E w step ∧ EditsOnly D E ((carryOut step).run.run w).2 steps

theorem unedited_carryOut {w : Workspace} {step : SessionStep} (edits : EditsAt D E w step) :
    Unedited D E w ((carryOut step).run.run w).2 := by
  -- Reading, installing and forgetting touch styles and texts only.
  apply kept_carryOut
  case reads => exact fun x => .bind .get fun w => unedited_readAt w.fuel x
  case installs =>
    exact fun style x => unedited_changeCell (.inr fun c => ⟨some style, c.memo, rfl⟩)
  case forgets => exact fun a x _ _ => unedited_changeCell (.inr fun c => ⟨c.style, none, rfl⟩)
  case assigns =>
    rintro a name v x rfl leads
    exact keeps_assignMember (fun f _ => unedited_changeCell (.inl (edits x leads))) name v
  case moves =>
    rintro a item r f rfl leads
    exact unedited_changeRow (edits r leads) f
  case pops =>
    rintro a r f rfl leads
    exact unedited_changeRow (edits r leads) f

theorem unedited_stateAfter {w : Workspace} {steps : List SessionStep}
    (edits : EditsOnly D E w steps) : Unedited D E w (w.stateAfter steps) := by
  induction steps generalizing w with
  | nil => exact .refl w
  | cons step steps ih => exact Chains.trans _ _ _ (unedited_carryOut edits.1) (ih edits.2)

/-- A tree without the nodes and the rows that are edited is written as before. -/
theorem Unedited.dump_eq {w v : Workspace} (unedited : Unedited D E w v) {h : Handle}
    (apart : ∀ x, w.Below h x → ¬ D x ∧ ∃ c, w.cells[x]? = some c ∧ w.HasRows c ∧
      ∀ s ∈ c.sequences, ¬ E s.2) : v.dump h = w.dump h := by
  have whole : w.WholeBelow h := by
    intro x below
    obtain ⟨-, c, found, rows, -⟩ := apart x below
    exact ⟨c, found, rows⟩
  -- The tree is the same for any fuel, and what fuel the nodes added since give is enough.
  have fuel : w.fuel ≤ v.fuel := Nat.succ_le_succ unedited.size
  refine dump_congr (Eq.trans (tree?_congr fun x below => ?_) (tree?_of_fuel_le whole fuel))
  obtain ⟨other, c, found, rows, others⟩ := apart x below
  obtain ⟨style, memo, kept⟩ := unedited.cell x c other found
  refine ⟨c, style, memo, found, rows, kept, fun s mem => ?_⟩
  obtain ⟨xs, row⟩ := rows s mem
  rw [row, unedited.row s.2 xs (others s mem) row]

end

/-! ### A tree and what was made of it -/

/-- The node has children by its kind, and is at or below the root. -/
def InnerOf (w : Workspace) (root : Handle) (h : Handle) : Prop :=
  w.Below root h ∧ ∃ c, w.cells[h]? = some c ∧ c.head.kind.isLeaf = false

/-- The row is one of such a node. -/
def InnerRowOf (w : Workspace) (root : Handle) (r : RowHandle) : Prop :=
  ∃ h c f, w.Below root h ∧ w.cells[h]? = some c ∧ c.head.kind.isLeaf = false ∧
    (f, r) ∈ c.sequences

/-- No leaf of the tree has a row in common with a node that has children by its
    kind. -/
def LeavesApart (w : Workspace) (root : Handle) : Prop :=
  ∀ h c s, w.LeafOf root h → w.cells[h]? = some c → s ∈ c.sequences → ¬ w.InnerRowOf root s.2

/-- Rows of leaves and of other nodes are apart in the tree if they are in the
    whole workspace. -/
theorem leavesApart_of_cells {w : Workspace} (root : Handle)
    (apart : ∀ c ∈ w.cells, c.head.kind.isLeaf = true → ∀ d ∈ w.cells,
      d.head.kind.isLeaf = false → ∀ s ∈ c.sequences, ∀ t ∈ d.sequences, s.2 ≠ t.2) :
    w.LeavesApart root := by
  rintro h c s ⟨-, c', found', leaf⟩ found mem ⟨x, d, f, -, there, inner, mem'⟩
  rw [found] at found'
  cases found'
  exact apart c (Array.mem_of_getElem? found) leaf d (Array.mem_of_getElem? there) inner s mem
    (f, s.2) mem' rfl

/-- What was left in the second workspace is isolated from the tree that it was
    made of in the first one. -/
structure Isolated (w : Workspace) (root : Handle) (v : Workspace) (g : Handle) : Prop where
  /-- No node that has children by its kind was there before, and none of its rows
      was. -/
  new : ∀ x c, v.Below g x → v.cells[x]? = some c → c.head.kind.isLeaf = false →
    w.cells.size ≤ x ∧ ∀ s ∈ c.sequences, w.rows.size ≤ s.2
  /-- It is written as before after a session with edits of the old tree. -/
  later : ∀ slots steps, EditsOnly (w.InnerOf root) (w.InnerRowOf root) { v with slots } steps →
    (stateAfter { v with slots } steps).dump g = v.dump g
  /-- The old tree is written as before after a session with edits of the new one. -/
  conversely : ∀ slots steps, EditsOnly (v.InnerOf g) (v.InnerRowOf g) { v with slots } steps →
    (stateAfter { v with slots } steps).dump root = w.dump root

section

variable {w v : Workspace} {root g : Handle} {S : Handle → Style → Prop}
  (spared : Spares S w v) (sound : w.IsSound root) (made : w.Made (w.LeafOf root) v g)
include spared

theorem unedited_of_spares {D : Handle → Prop} {E : RowHandle → Prop} : Unedited D E w v := by
  constructor
  · exact spared.size_cells
  · intro h c _ found
    obtain ⟨style, kept⟩ := spared.exists_style found
    exact ⟨style, c.memo, kept⟩
  · exact fun r xs _ found => spared.row r xs found

include made

/-- What is apart from the tree has only new nodes that have children. -/
theorem isNew_of_made {x : Handle} {c : Cell} (below : v.Below g x)
    (found : v.cells[x]? = some c) (inner : c.head.kind.isLeaf = false) : w.IsNew x c := by
  obtain ⟨d, found', -, new | ⟨-, e, there, leaf⟩⟩ := made x below
  · rw [found] at found'
    cases found'
    exact new
  · obtain ⟨style, kept⟩ := spared.exists_style there
    rw [found] at kept
    cases kept
    rw [leaf] at inner
    cases inner

include sound

theorem dump_eq_of_edits_of_old (apart : w.LeavesApart root) {u : Workspace}
    (unedited : Unedited (w.InnerOf root) (w.InnerRowOf root) v u) : u.dump g = v.dump g := by
  refine unedited.dump_eq fun x below => ?_
  obtain ⟨c, found, rows, kind⟩ := made x below
  -- Old rows are in the range that the old workspace had.
  have inRange : ∀ r, w.InnerRowOf root r → r < w.rows.size := by
    rintro r ⟨h, d, f, below', there, -, mem⟩
    obtain ⟨d', there', rows, -⟩ := sound.cell h below'
    rw [there] at there'
    cases there'
    obtain ⟨xs, row⟩ := rows (f, r) mem
    exact (Array.getElem?_eq_some_iff.mp row).1
  rcases kind with ⟨newer, newRows⟩ | leaf
  · refine ⟨?_, c, found, rows, fun s mem edited => ?_⟩
    · rintro ⟨-, d, there, -⟩
      have := (Array.getElem?_eq_some_iff.mp there).1
      omega
    · exact absurd (inRange s.2 edited) (Nat.not_lt.mpr (newRows s mem))
  · have ⟨_, d, there, isLeaf⟩ := leaf
    obtain ⟨style, kept⟩ := spared.exists_style there
    rw [found] at kept
    cases kept
    refine ⟨?_, _, found, rows, fun s mem => apart x d s leaf there mem⟩
    rintro ⟨-, d', there', inner⟩
    rw [there] at there'
    cases there'
    rw [isLeaf] at inner
    cases inner

theorem dump_eq_of_edits_of_new {u : Workspace}
    (unedited : Unedited (v.InnerOf g) (v.InnerRowOf g) v u) : u.dump root = w.dump root := by
  have both : Unedited (v.InnerOf g) (v.InnerRowOf g) w u :=
    Chains.trans _ _ _ (unedited_of_spares spared) unedited
  -- What was there when the work began is older than all that is edited.
  refine both.dump_eq fun x below => ?_
  obtain ⟨c, found, rows, -⟩ := sound.cell x below
  have inside := (Array.getElem?_eq_some_iff.mp found).1
  refine ⟨?_, c, found, rows, ?_⟩
  · rintro ⟨below', d, there, inner⟩
    have newer := (isNew_of_made spared made below' there inner).1
    omega
  · rintro s mem ⟨h, d, f, below', there, inner, mem'⟩
    obtain ⟨xs, row⟩ := rows s mem
    have within := (Array.getElem?_eq_some_iff.mp row).1
    have newer := (isNew_of_made spared made below' there inner).2 _ mem'
    simp only at newer
    omega

theorem isolated_of_made (apart : w.LeavesApart root) : Isolated w root v g := by
  have aside (D : Handle → Prop) (E : RowHandle → Prop) (slots : List (String × Ref)) :
      Unedited D E v { v with slots } := Growth.aside v slots v.trace
  constructor
  · exact fun x c below found inner => isNew_of_made spared made below found inner
  · intro slots steps edits
    apply dump_eq_of_edits_of_old spared sound made apart
    exact Chains.trans _ _ _ (aside _ _ slots) (unedited_stateAfter edits)
  · intro slots steps edits
    apply dump_eq_of_edits_of_new spared sound made
    exact Chains.trans _ _ _ (aside _ _ slots) (unedited_stateAfter edits)

end

/-- Rewriting a tree leaves everything alone that was there before, and what it
    leaves is isolated from the tree.  This goes for traversals whose handlers
    change nothing and bring in only trees of their own, whether they succeed or
    fail; and for installing layouts, except that leaves of the tree get their
    style. -/
theorem rewriting_isolated {w : Workspace} {root : Handle} (sound : w.IsSound root)
    (apart : w.LeavesApart root) :
    (∀ table : Table WorkHandler,
      (∀ k handler, Table.entry? table k = some handler → IsModest handler) →
      Frame w ((traverse table root).run.run w).2 ∧
      ∀ visited v, (traverse table root).run.run w = (.ok visited, v) →
        ∀ g ∈ visited.sequence, Isolated w root v g) ∧
    Spares (fun h style => w.LeafOf root h ∧ style = .plain) w ((generate root).run.run w).2 ∧
      ∀ visited v, (generate root).run.run w = (.ok visited, v) →
        ∀ g ∈ visited.sequence, Isolated w root v g := by
  refine ⟨fun table modest => ?_, ?_, ?_⟩
  · have ensured := ensures_traverse sound fun k handler found =>
      (modest k handler found).respects w root
    refine ⟨ensured.kept, fun visited v ended g mem => ?_⟩
    have kept := ensured.kept
    rw [ended] at kept
    exact isolated_of_made kept sound (ensured.result visited v ended g mem) apart
  · have kept := (ensures_generate sound).kept
    constructor
    · intro h c found
      rcases kept.cell h c found with same | ⟨style, old | new, styled⟩
      · exact .inl same
      · exact .inr ⟨style, old, styled⟩
      · have inside := (Array.getElem?_eq_some_iff.mp found).1
        omega
    · exact kept.row
  · intro visited v ended g mem
    have kept := (ensures_generate sound).kept
    rw [ended] at kept
    exact isolated_of_made kept sound ((ensures_generate sound).result visited v ended g mem) apart

theorem exists_of_toOption {x : Work (Visited Handle)} {w : Workspace} {hs : List Handle}
    (left : (x.run.run w).1.toOption.map Visited.sequence = some hs) :
    ∃ visited v, x.run.run w = (.ok visited, v) ∧ visited.sequence = hs := by
  obtain ⟨visited, result, same⟩ := Option.map_eq_some_iff.mp left
  refine ⟨visited, (x.run.run w).2, Prod.ext ?_ rfl, same⟩
  cases ended : (x.run.run w).1 with
  | error e =>
    rw [ended] at result
    cases result
  | ok a =>
    rw [ended] at result
    cases result
    rfl

/-- A visitor takes the second word out of a script, or layouts are installed in it.
    Then the word goes from the old command, which is put into the background, and the
    new command is put into the new script a second time: neither script shows what was
    done to the other. -/
theorem rewriting_isolated_removed :
    let w : Workspace :=
      { cells := #[⟨.word "a", none, [], [(.expansion, 0)], none, none⟩,
          ⟨.word "b", none, [], [(.expansion, 1)], none, none⟩,
          ⟨.command false, none, [(.name, some 0)], [(.leading, 2), (.suffix, 3)], none, none⟩,
          ⟨.script, none, [], [(.commands, 4)], none, none⟩]
        rows := #[[], [], [], [some 1], [some 2]] }
    let rules : List VisitRule := [⟨{ label := some (some "b") }, .remove⟩]
    let command : List PathStep := [.key "commands", .index 0]
    let removal := traverse (ruleHandlers [("Word", some rules)]) 3
    Frame w (removal.run.run w).2 ∧
    Spares (fun h style => w.LeafOf 3 h ∧ style = .plain) w ((generate 3).run.run w).2 ∧
    ∀ rewriting ∈ [removal, generate 3],
      ∃ visited v, rewriting.run.run w = (.ok visited, v) ∧ visited.sequence = [5] ∧
        (stateAfter { v with slots := [("s", .node 3)] }
          [.pop ⟨"s", command ++ [.key "suffix"]⟩,
            .assign ⟨"s", command⟩ "async" (.bool true)]).dump 5 = v.dump 5 ∧
        (stateAfter { v with slots := [("g", .node 5)] }
          [.move ⟨"g", [.key "commands"]⟩ ⟨"g", command⟩]).dump 3 = w.dump 3 := by
  intro w rules command removal
  have typed : w.IsWellTyped := by decide
  have sound : w.IsSound 3 := isSound_of_fits fun x below =>
    exists_fits_of_below typed (by decide) below
  have apart : w.LeavesApart 3 := leavesApart_of_cells 3 (by decide)
  have modest : ∀ k handler, Table.entry? (ruleHandlers [("Word", some rules)]) k = some handler →
      IsModest handler := by
    intro k handler found
    obtain rfl : ruleHandler rules = handler := by
      cases k <;> first | exact Option.some.inj found | cases found
    exact isModest_ruleHandler (by simp [rules])
  obtain ⟨traversed, spared, generated⟩ := rewriting_isolated sound apart
  obtain ⟨frame, removed⟩ := traversed _ modest
  refine ⟨frame, spared, fun rewriting listed => ?_⟩
  have isolated : ∀ visited v, rewriting.run.run w = (.ok visited, v) →
      ∀ g ∈ visited.sequence, Isolated w 3 v g := by
    rcases List.mem_pair.mp listed with rfl | rfl
    · exact removed
    · exact generated
  -- Both leave a new script in the same place.
  have left : (rewriting.run.run w).1.toOption.map Visited.sequence = some [5] ∧
      (rewriting.run.run w).2.cells[5]?.map (fun c => (c.head, c.sequences)) =
        some (.script, [(.commands, 7)]) := by
    clear isolated
    revert rewriting
    decide +kernel
  have leads : LeadsToRow { (rewriting.run.run w).2 with slots := [("s", .node 3)] }
        ⟨"s", command ++ [.key "suffix"]⟩ 3 ∧
      LeadsTo (stateAfter { (rewriting.run.run w).2 with slots := [("s", .node 3)] }
        [.pop ⟨"s", command ++ [.key "suffix"]⟩]) ⟨"s", command⟩ 2 ∧
      LeadsToRow { (rewriting.run.run w).2 with slots := [("g", .node 5)] }
        ⟨"g", [.key "commands"]⟩ 7 := by
    clear isolated left
    revert rewriting
    decide +kernel
  obtain ⟨result, cell⟩ := left
  obtain ⟨toSuffix, toCommand, toCommands⟩ := leads
  obtain ⟨visited, v, ended, sequence⟩ := exists_of_toOption result
  have isolated := isolated visited v ended 5 (by simp [sequence])
  obtain rfl : (rewriting.run.run w).2 = v := congrArg Prod.snd ended
  refine ⟨visited, _, ended, sequence, isolated.later _ _ ?_, isolated.conversely _ _ ?_⟩
  · -- Both edits of the old script go to its command.
    have below : w.Below 3 2 :=
      .single ⟨_, rfl, .inr ⟨.commands, 4, [some 2], List.mem_cons_self .., rfl, by simp⟩⟩
    refine ⟨fun r leads => ?_, fun h leads => ?_, trivial⟩
    · obtain rfl : 3 = r := toSuffix.unique leads
      exact ⟨2, _, .suffix, below, rfl, rfl, List.mem_cons_of_mem _ (List.mem_cons_self ..)⟩
    · obtain rfl : 2 = h := toCommand.unique leads
      exact ⟨below, _, rfl, rfl⟩
  · refine ⟨fun r leads => ?_, trivial⟩
    obtain rfl : 7 = r := toCommands.unique leads
    obtain ⟨c, cell, same⟩ := Option.map_eq_some_iff.mp cell
    obtain ⟨head, rows⟩ := Prod.mk.inj same
    exact ⟨5, c, .commands, .refl, cell, by rw [head]; rfl, by rw [rows]; exact List.mem_cons_self ..⟩

end ShellInliner.Workspace
