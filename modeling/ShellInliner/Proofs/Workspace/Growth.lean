import ShellInliner.Proofs.Run
import ShellInliner.Proofs.Visit.Table
import ShellInliner.Workspace.Traverse

/-! # Work that only adds

    Most work adds nodes and rows to a workspace and leaves those alone that were
    there before.  A relation between workspaces that does not mind additions, nor
    what slots and traces hold, is kept by all such work: by loading trees, by
    copies, and by traversals whose handlers keep it. -/

namespace ShellInliner.Workspace

open Run (Chains Keeps)

/-- A relation that does not mind additions. -/
class Growth (R : Workspace → Workspace → Prop) : Prop extends Chains R where
  /-- A new node. -/
  push_cell : ∀ w c, R w { w with cells := w.cells.push c }
  /-- A new row. -/
  push_row : ∀ w xs, R w { w with rows := w.rows.push xs }
  /-- Other slots and another trace. -/
  aside : ∀ w slots trace, R w { w with slots, trace }

section

variable {R : Workspace → Workspace → Prop}

/-! ### Looking -/

section

variable [Chains R]

theorem keeps_cell (h : Handle) : Keeps R (cell h) := by
  unfold cell
  refine .bind .get fun w => ?_
  cases w.cells[h]? with
  | some c => exact .pure c
  | none => exact .throw _

theorem keeps_row (r : RowHandle) : Keeps R (row r) := by
  unfold row
  refine .bind .get fun w => ?_
  cases w.rows[r]? with
  | some xs => exact .pure xs
  | none => exact .throw _

theorem keeps_tree (e : Error) (h : Handle) : Keeps R (tree e h) := by
  unfold tree
  refine .bind .get fun w => ?_
  cases w.tree? w.fuel h with
  | some n => exact .pure n
  | none => exact .throw e

end

/-! ### Adding -/

variable [growth : Growth R]

theorem keeps_newCell (c : Cell) : Keeps R (newCell c) :=
  fun w => growth.push_cell w c

theorem keeps_newRow (xs : List (Option Handle)) : Keeps R (newRow xs) :=
  fun w => growth.push_row w xs

mutual

theorem keeps_addTree : ∀ n, Keeps R (addTree n)
  | .mk h l cs => by
    unfold addTree
    refine .bind (keeps_addChildren cs) fun ds => ?_
    refine .bind (.mapM fun f _ => ?_) fun sequences => ?_
    · exact .bind (keeps_newRow _) fun _ => .pure _
    · exact keeps_newCell _

theorem keeps_addChildren : ∀ cs, Keeps R (addChildren cs)
  | [] => by
    unfold addChildren
    exact .pure _
  | (f, n) :: cs => by
    unfold addChildren
    refine .bind (keeps_addTree n) fun h => ?_
    refine .bind (keeps_addChildren cs) fun others => ?_
    exact .pure _

end

/-! ### Traversals -/

section

variable {visit : Handle → Work (Visited Handle)} (visits : ∀ h, Keeps R (visit h))
include visits

theorem keeps_traverseSingle (k : Kind) (s : Field × Option Handle) :
    Keeps R (traverseSingle visit k s) := by
  unfold traverseSingle
  cases s.2 with
  | none => exact .pure _
  | some h =>
    refine .bind (visits h) fun x => ?_
    exact .bind (.lift _) fun _ => .pure _

theorem keeps_traverseSequence (s : Field × RowHandle) : Keeps R (traverseSequence visit s) := by
  unfold traverseSequence
  refine .bind (keeps_row s.2) fun xs => ?_
  refine .bind (.mapM fun x _ => ?_) fun left => ?_
  · cases x with
    | none => exact .pure _
    | some h => exact .bind (visits h) fun _ => .pure _
  · exact .bind (keeps_newRow _) fun _ => .pure _

theorem keeps_descend (h : Handle) : Keeps R (descend visit h) := by
  unfold descend
  refine .bind (keeps_cell h) fun c => ?_
  cases c.head.kind.isLeaf with
  | true => exact .pure h
  | false =>
    refine .bind (.mapM fun s _ => ?_) fun singles => ?_
    · exact keeps_traverseSingle visits _ s
    refine .bind (.mapM fun s _ => ?_) fun sequences => ?_
    · exact keeps_traverseSequence visits s
    exact keeps_newCell _

end

theorem keeps_traverseAt {table : Table WorkHandler}
    (handlers : ∀ k handler, Table.entry? table k = some handler →
      ∀ h parent root, Keeps R (handler h parent root)) (root : Handle) (m : Nat)
    (parent : Option Handle) (h : Handle) : Keeps R (traverseAt table root m parent h) := by
  induction m generalizing parent h with
  | zero => exact .throw _
  | succ m ih =>
    unfold traverseAt
    refine .bind (keeps_descend (ih (some h)) h) fun d => ?_
    refine .bind (keeps_cell d) fun c => ?_
    cases found : Table.entry? table c.head.kind with
    | none => exact .pure _
    | some handler =>
      -- Children first, then the handler of the kind on what became of the node.
      refine .bind (handlers _ handler found d parent root) fun outcome => ?_
      exact .pure _

/-- A traversal keeps what its handlers keep. -/
theorem keeps_traverse {table : Table WorkHandler}
    (handlers : ∀ k handler, Table.entry? table k = some handler →
      ∀ h parent root, Keeps R (handler h parent root)) (root : Handle) :
    Keeps R (traverse table root) := by
  unfold traverse
  cases Table.unknownNames table with
  | nil =>
    refine .bind .get fun w => ?_
    exact keeps_traverseAt handlers root w.fuel none root
  | cons name names => exact .throw _

/-! ### Handlers given as rules -/

theorem keeps_label? (h : Handle) : Keeps R (label? h) := by
  unfold label?
  refine .bind (keeps_cell h) fun c => ?_
  split
  all_goals try exact .pure _
  all_goals
    split
    · exact .pure _
    · exact .bind (keeps_cell _) fun _ => .pure _

theorem keeps_callOf (h : Handle) (parent : Option Handle) (root : Handle) :
    Keeps R (callOf h parent root) := by
  have keeps_kind (x : Handle) : Keeps R (do return (← cell x).head.kind) :=
    .bind (keeps_cell x) fun _ => .pure _
  unfold callOf
  refine .bind (keeps_kind h) fun kind => .bind (keeps_label? h) fun label => ?_
  refine .bind (.optionMapM keeps_kind) fun parentKind => ?_
  refine .bind (.optionMapM keeps_label?) fun parentLabel => ?_
  exact .bind (keeps_kind root) fun rootKind => .pure _

theorem keeps_loadTree (v : Json.Value) : Keeps R (loadTree v) := by
  unfold loadTree
  exact .bind (.lift _) fun n => keeps_addTree n

theorem keeps_loadOptionalTree (v : Json.Value) : Keeps R (loadOptionalTree v) := by
  unfold loadOptionalTree
  split
  · exact .pure _
  · exact .bind (keeps_loadTree _) fun _ => .pure _

theorem keeps_appendText (h : Handle) (text : String) : Keeps R (appendText h text) := by
  unfold appendText
  refine .bind (keeps_cell h) fun c => ?_
  cases c.head.text? with
  | none => exact .throw _
  | some t => exact keeps_newCell _

theorem keeps_perform (h : Handle) (action : Action) : Keeps R (perform h action) := by
  cases action with
  | keep => exact .pure _
  | same => exact .pure _
  | remove => exact .pure _
  | replace tree => exact .bind (keeps_loadTree tree) fun _ => .pure _
  | splice trees =>
    exact .bind (.mapM fun v _ => keeps_loadOptionalTree v) fun _ => .pure _
  | wrap before after =>
    refine .bind (.mapM fun v _ => keeps_loadOptionalTree v) fun b => ?_
    exact .bind (.mapM fun v _ => keeps_loadOptionalTree v) fun a => .pure _
  | append text => exact .bind (keeps_appendText h text) fun _ => .pure _

/-- A handler given as rules records the call and adds what its action brings in. -/
theorem keeps_ruleHandler (rules : List VisitRule) (h : Handle) (parent : Option Handle)
    (root : Handle) : Keeps R (ruleHandler rules h parent root) := by
  unfold ruleHandler
  refine .bind (keeps_callOf h parent root) fun call => ?_
  refine .bind (.modify fun w => growth.aside w w.slots (call :: w.trace)) fun _ => ?_
  cases decide? rules call with
  | none => exact .pure _
  | some action => exact keeps_perform h action

theorem exists_rules_of_entry? {t : RuleTable} {k : Kind} {handler : WorkHandler}
    (found : Table.entry? (ruleHandlers t) k = some handler) :
    ∃ rules, handler = Workspace.ruleHandler rules := by
  unfold ruleHandlers at found
  rw [Table.entry?_map t Workspace.ruleHandler k] at found
  obtain ⟨rules, -, rfl⟩ := Option.map_eq_some_iff.mp found
  exact ⟨rules, rfl⟩

/-- A traversal with handlers given as rules only adds. -/
theorem keeps_traverse_rules (t : RuleTable) (root : Handle) :
    Keeps R (traverse (ruleHandlers t) root) := by
  refine keeps_traverse (fun k handler found => ?_) root
  obtain ⟨rules, rfl⟩ := exists_rules_of_entry? found
  exact keeps_ruleHandler rules

end

end ShellInliner.Workspace
