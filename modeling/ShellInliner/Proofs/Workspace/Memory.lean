import ShellInliner.Proofs.Workspace.Growth
import ShellInliner.Proofs.Workspace.Installing
import ShellInliner.Workspace.Session

/-! # A text that has been read stays

    Once a node keeps a text, no step of a session takes it away or puts another
    one in its place, except for the step that forgets the source of that very
    node.  Reads only write where nothing is kept; copies are new nodes; and what
    changes members or styles leaves the text alone. -/

namespace ShellInliner.Workspace

open Run (Chains Ensures Keeps)
open Source (Follows Related layout)

/-- The node is still there, and keeps the text that it kept, if it kept one. -/
def Retains (h : Handle) (w v : Workspace) : Prop :=
  ∀ c, w.cells[h]? = some c →
    ∃ d, v.cells[h]? = some d ∧ ∀ s, c.memo = some s → d.memo = some s

theorem retains_of_cells {h : Handle} {w v : Workspace}
    (same : ∀ c, w.cells[h]? = some c → v.cells[h]? = some c) : Retains h w v :=
  fun c found => ⟨c, same c found, fun _ kept => kept⟩

instance (h : Handle) : Growth (Retains h) where
  refl _ := retains_of_cells fun _ found => found
  trans _ _ _ first next c found := by
    obtain ⟨d, found', kept⟩ := first c found
    obtain ⟨e, found'', kept'⟩ := next d found'
    exact ⟨e, found'', fun s here => kept' s (kept s here)⟩
  push_cell _ d := retains_of_cells fun _ found => getElem?_push_of_eq_some found d
  push_row _ _ := retains_of_cells fun _ found => found
  aside _ _ _ := retains_of_cells fun _ found => found

variable {h : Handle}

/-! ### Changes to cells and rows -/

theorem retains_modify {w : Workspace} {x : Handle} {f : Cell → Cell}
    (same : x = h → ∀ c, w.cells[h]? = some c → ∀ s, c.memo = some s → (f c).memo = some s) :
    Retains h w { w with cells := w.cells.modify x f } := by
  intro c found
  by_cases here : x = h
  · subst here
    exact ⟨f c, by simp [Array.getElem?_modify, found], same rfl c found⟩
  · exact ⟨c, by simpa [Array.getElem?_modify, here] using found, fun _ kept => kept⟩

/-- A change that does not touch the text. -/
theorem retains_changeCell (x : Handle) {f : Cell → Cell} (same : ∀ c, (f c).memo = c.memo) :
    Keeps (Retains h) (changeCell x f) :=
  fun w => retains_modify (w := w) fun _ c _ _ kept => (same c).trans kept

theorem retains_changeRow (r : RowHandle)
    (f : List (Option Handle) → List (Option Handle)) : Keeps (Retains h) (changeRow r f) :=
  fun _ => retains_of_cells fun _ found => found

theorem retains_install (style : Style) (x : Handle) : Keeps (Retains h) (install style x) :=
  retains_changeCell x fun _ => rfl

theorem retains_forget {x : Handle} (other : x ≠ h) : Keeps (Retains h) (forget x) :=
  fun w => retains_modify (w := w) fun same => absurd same other

/-! ### Reads -/

section

variable {R : Workspace → Workspace → Prop} [Chains R]

theorem follows_keeps : Follows (m := Work) (fun _ _ => True) fun x _ => Keeps R x where
  pure a := .pure a
  bind first next := .bind first fun a => next a trivial

theorem keeps_children (c : Cell) (f : Field) : Keeps R (children c f) := by
  unfold children
  cases c.sequences.lookup f with
  | some r => exact keeps_row r
  | none => exact .pure _

variable {read : Handle → Work String} (reads : ∀ x, Keeps R (read x))
include reads

theorem keeps_readAll (xs : List (Option Handle)) : Keeps R (readAll read xs) := by
  unfold readAll
  refine .mapM fun x _ => ?_
  cases x with
  | some x => exact reads x
  | none => exact .throw _

/-- A layout does what the reads do that it asks for. -/
theorem keeps_layout (braced : Bool) (c : Cell) :
    Keeps R (layout braced c.head (parts read c)) := by
  -- The layout is compared with one whose parts are all empty: what it asks for is the same.
  have related : Related (fun _ _ => True) (fun x _ => Keeps R x) c.head.kind (parts read c)
      ⟨fun _ => .ok [], fun _ => .ok none, fun _ => .ok ""⟩ := by
    constructor
    case all =>
      intro f
      exact .bind (keeps_children c f) fun xs => keeps_readAll reads xs
    case statements =>
      intro f _ _
      simp only [parts]
      cases child? c f with
      | none => exact .pure _
      | some x =>
        refine .bind (keeps_cell x) fun d => ?_
        cases d.sequences.lookup .commands with
        | none => exact .throw _
        | some r =>
          refine .bind (keeps_row r) fun xs => ?_
          exact .bind (keeps_readAll reads xs) fun _ => .pure _
    case bare =>
      intro _
      simp only [parts]
      cases child? c .name with
      | none => exact .throw _
      | some x =>
        refine .bind (keeps_cell x) fun d => ?_
        cases d.head.text? with
        | none => exact .throw _
        | some t => exact .pure _
    case missing => exact fun _ _ _ => .throw _
    case missingClause => exact fun _ _ => .throw _
  exact related.layout follows_keeps braced

end

/-- To keep a text with a node that kept none at first loses nothing. -/
theorem retains_keep {w v : Workspace} (retained : Retains h w v) {x : Handle} {c : Cell}
    (found : w.cells[x]? = some c) (empty : c.memo = none) (t : String) :
    Retains h w { v with cells := v.cells.modify x fun c => { c with memo := some t } } := by
  intro d there
  obtain ⟨e, there', kept⟩ := retained d there
  by_cases here : x = h
  · subst here
    rw [found] at there
    cases there
    refine ⟨{ e with memo := some t }, by simp [Array.getElem?_modify, there'], fun s stays => ?_⟩
    rw [empty] at stays
    cases stays
  · exact ⟨e, by simpa [Array.getElem?_modify, here] using there', kept⟩

/-- Reading keeps a text with a node only where none is kept. -/
theorem retains_readAt (m : Nat) (x : Handle) : Keeps (Retains h) (readAt m x) := by
  induction m generalizing x with
  | zero => exact .throw _
  | succ m ih =>
    intro w
    have look := run_cell x w
    unfold readAt
    cases found : w.cells[x]? with
    | none =>
      rw [found] at look
      rw [Run.run_bind_error look]
      exact retains_of_cells fun _ there => there
    | some c =>
      rw [found] at look
      rw [Run.run_bind_ok look]
      cases memo : c.memo with
      | some t => exact retains_of_cells fun _ there => there
      | none =>
        cases styled : c.style with
        | none => exact retains_of_cells fun _ there => there
        | some style =>
          -- The layout may have done anything to the node that reads can do, but
          -- at the start the node kept nothing that could be lost.
          have laid := keeps_layout (R := Retains h) ih (style = .braced) c w
          simp only [Run.run_bind]
          generalize (layout (decide (style = .braced)) c.head (parts (readAt m) c)).run.run w =
            ended at laid ⊢
          obtain ⟨outcome, v⟩ := ended
          cases outcome with
          | error e => exact laid
          | ok t => exact retains_keep laid found memo t

theorem retains_read (x : Handle) : Keeps (Retains h) (read x) :=
  .bind .get fun w => retains_readAt w.fuel x

/-! ### Steps of a session -/

section

variable {R : Workspace → Workspace → Prop} [Chains R]

theorem keeps_slot (name : String) : Keeps R (slot name) := by
  unfold slot
  refine .bind .get fun w => ?_
  cases w.slots.lookup name with
  | some r => exact .pure _
  | none => exact .throw _

theorem keeps_member (c : Cell) (name : String) : Keeps R (member c name) := by
  unfold member
  split
  · exact .pure _
  · cases c.sequences.lookup _ with
    | some r => exact .pure _
    | none => exact .throw _
  · cases c.head.attributes.lookup _ with
    | some s => exact .pure _
    | none => exact .throw _
  · exact .throw _

theorem keeps_element (xs : List (Option Handle)) (i : Int) : Keeps R (element xs i) := by
  unfold element
  generalize (if i < 0 then i + xs.length else i) = j
  simp only
  split
  · exact .throw _
  · split
    · exact .pure _
    · exact .throw _

theorem keeps_followPath (r : Ref) (path : List PathStep) : Keeps R (followPath r path) := by
  induction path generalizing r with
  | nil =>
    unfold followPath
    exact .pure r
  | cons step rest ih =>
    -- A key leads on from a node and a number from a row; the rest lead nowhere.
    cases r with
    | node x =>
      cases step with
      | key name =>
        unfold followPath
        exact .bind (keeps_cell x) fun c => .bind (keeps_member c name) ih
      | index i => exact .throw _
    | row r =>
      cases step with
      | key name => exact .throw _
      | index i =>
        unfold followPath
        exact .bind (keeps_row r) fun xs => .bind (keeps_element xs i) ih
    | null => cases step <;> exact .throw _
    | scalar s => cases step <;> exact .throw _

theorem keeps_resolve (a : Address) : Keeps R (resolve a) :=
  .bind (keeps_slot a.slot) fun r => keeps_followPath r a.path

theorem keeps_nodeAt (a : Address) : Keeps R (nodeAt a) := by
  refine .bind (keeps_resolve a) fun r => ?_
  cases r with
  | node x => exact .pure x
  | row r => exact .throw _
  | null => exact .throw _
  | scalar s => exact .throw _

theorem keeps_rowAt (a : Address) : Keeps R (rowAt a) := by
  refine .bind (keeps_resolve a) fun r => ?_
  cases r with
  | row r => exact .pure r
  | node x => exact .throw _
  | null => exact .throw _
  | scalar s => exact .throw _

theorem keeps_dumpRef (r : Ref) : Keeps R (dumpRef r) := by
  cases r with
  | null => exact .pure _
  | scalar s => exact .pure _
  | node x => exact .bind (keeps_tree _ x) fun _ => .pure _
  | row r =>
    refine .bind (keeps_row r) fun xs => .bind (.mapM fun x _ => ?_) fun vs => .pure _
    cases x with
    | none => exact .pure _
    | some x => exact .bind (keeps_tree _ x) fun _ => .pure _

end

section

variable {R : Workspace → Workspace → Prop} [growth : Growth R]

theorem keeps_assignSlot (name : String) (r : Ref) : Keeps R (assignSlot name r) :=
  fun w => growth.aside w ((name, r) :: w.slots) w.trace

theorem keeps_keepVisited (x : Visited Handle) : Keeps R (keepVisited x) := by
  cases x with
  | one x => exact .pure _
  | several xs => exact .bind (keeps_newRow xs) fun _ => .pure _
  | nothing => exact .pure _

theorem keeps_qualifyCell (x : Handle) (moduleName separator : String) :
    Keeps R (qualifyCell x moduleName separator) := by
  unfold qualifyCell
  refine .bind (keeps_cell x) fun c => ?_
  cases child? c .name with
  | none => exact .throw _
  | some n =>
    refine .bind (keeps_cell n) fun d => ?_
    cases d.head.text? with
    | none => exact .throw _
    | some t =>
      refine .bind (keeps_newCell _) fun renamed => ?_
      exact .bind (keeps_newCell _) fun _ => .pure _

end

section

variable {R : Workspace → Workspace → Prop} [Growth R]
  (installs : ∀ style x, Keeps R (install style x))
include installs

theorem keeps_installer (x : Handle) (parent : Option Handle) (root : Handle) :
    Keeps R (installer x parent root) := by
  -- With expansions or without, the end is the same.
  have finish (xs : List (Option Handle)) (style : Style)
      (f : Option Handle → PUnit → Work (ForInStep PUnit))
      (each : ∀ x u, Keeps R (f x u)) : Keeps R (do
        forIn xs PUnit.unit f
        install style x
        return Outcome.replace x) :=
    .bind (.forIn fun x _ => each x) fun _ => .bind (installs style x) fun _ => .pure _
  unfold installer
  refine .bind (keeps_cell x) fun c => ?_
  refine .bind (.optionMapM fun p => .bind (keeps_cell p) fun _ => .pure _) fun parentKind => ?_
  have each (e : Option Handle) (u : PUnit) : Keeps R (installElement e u) := by
    cases e with
    | none => exact .bind (.throw _) fun _ => .pure _
    | some y => exact .bind (installs _ y) fun _ => .pure _
  cases c.sequences.lookup .expansion with
  | some r => exact .bind (keeps_row r) fun xs => finish xs _ installElement each
  | none => exact .bind (.pure []) fun xs => finish xs _ installElement each

theorem keeps_generate (x : Handle) : Keeps R (generate x) := by
  refine keeps_traverse (fun k handler found => ?_) x
  rw [entry?_installers] at found
  cases found
  exact keeps_installer installs

end

/-- A member is changed by a change to the cell that leaves the text alone. -/
theorem keeps_assignMember {R : Workspace → Workspace → Prop} [Chains R] {x : Handle}
    (changes : ∀ f : Cell → Cell, (∀ c, (f c).memo = c.memo) → Keeps R (changeCell x f))
    (name : String) (v : Json.Value) : Keeps R (assignMember x name v) := by
  unfold assignMember
  refine .bind (keeps_cell x) fun c => ?_
  split
  · split
    · exact changes _ fun _ => rfl
    · exact .throw _
  · split
    · exact changes _ fun _ => rfl
    · exact .throw _
  · exact .throw _

/-! ### One step of a session -/

/-- The address leads to the node. -/
def LeadsTo (w : Workspace) (a : Address) (h : Handle) : Prop :=
  ((nodeAt a).run.run w).1 = .ok h

instance (w : Workspace) (a : Address) (h : Handle) : Decidable (w.LeadsTo a h) :=
  decidable_of_iff (((nodeAt a).run.run w).1.toOption = some h) <| by
    unfold LeadsTo
    cases ((nodeAt a).run.run w).1 with
    | ok x => simp [Except.toOption]
    | error e => simp [Except.toOption]

/-- The address leads to the row. -/
def LeadsToRow (w : Workspace) (a : Address) (r : RowHandle) : Prop :=
  ((rowAt a).run.run w).1 = .ok r

instance (w : Workspace) (a : Address) (r : RowHandle) : Decidable (w.LeadsToRow a r) :=
  decidable_of_iff (((rowAt a).run.run w).1.toOption = some r) <| by
    unfold LeadsToRow
    cases ((rowAt a).run.run w).1 with
    | ok x => simp [Except.toOption]
    | error e => simp [Except.toOption]

theorem LeadsTo.unique {w : Workspace} {a : Address} {h x : Handle} (here : w.LeadsTo a h)
    (there : w.LeadsTo a x) : h = x :=
  Except.ok.inj (Eq.trans (Eq.symm here) there)

theorem LeadsToRow.unique {w : Workspace} {a : Address} {r q : RowHandle}
    (here : w.LeadsToRow a r) (there : w.LeadsToRow a q) : r = q :=
  Except.ok.inj (Eq.trans (Eq.symm here) there)

section

variable {R : Workspace → Workspace → Prop} [Growth R] {α : Type} {w : Workspace} {a : Address}

theorem kept_nodeAt {next : Handle → Work α} (each : ∀ x, w.LeadsTo a x → Keeps R (next x)) :
    R w ((nodeAt a >>= next).run.run w).2 := by
  have found : Ensures R (nodeAt a) w fun x _ => w.LeadsTo a x :=
    .look (keeps_nodeAt a) fun _ ended => congrArg Prod.fst ended
  exact (found.bind fun x v _ leads => (each x leads).ensures v).kept

theorem kept_rowAt {next : RowHandle → Work α} (each : ∀ r, w.LeadsToRow a r → Keeps R (next r)) :
    R w ((rowAt a >>= next).run.run w).2 := by
  have found : Ensures R (rowAt a) w fun r _ => w.LeadsToRow a r :=
    .look (keeps_rowAt a) fun _ ended => congrArg Prod.fst ended
  exact (found.bind fun r v _ leads => (each r leads).ensures v).kept

/-- A step keeps a relation that does not mind additions, if reads and installing
    keep it and the change that the step asks for does. -/
theorem kept_carryOut (reads : ∀ x, Keeps R (read x))
    (installs : ∀ style x, Keeps R (install style x)) {step : SessionStep}
    (forgets : ∀ a x, step = .forget a → w.LeadsTo a x → Keeps R (forget x))
    (assigns : ∀ a name v x, step = .assign a name v → w.LeadsTo a x →
      Keeps R (assignMember x name v))
    (moves : ∀ a item r f, step = .move a item → w.LeadsToRow a r → Keeps R (changeRow r f))
    (pops : ∀ a r f, step = .pop a → w.LeadsToRow a r → Keeps R (changeRow r f)) :
    R w ((carryOut step).run.run w).2 := by
  have length (r : RowHandle) : Keeps R (do return SessionAnswer.length (← row r).length) :=
    .bind (keeps_row r) fun _ => .pure _
  have kind (x : Handle) : Keeps R (do return SessionAnswer.kind (← cell x).head.kind) :=
    .bind (keeps_cell x) fun _ => .pure _
  -- Four steps change what was there; every other one reads, installs, adds or fills a slot.
  cases step with
  | assign a name v =>
    exact kept_nodeAt fun x leads => .bind (assigns a name v x rfl leads) fun _ => kind x
  | forget a => exact kept_nodeAt fun x leads => .bind (forgets a x rfl leads) fun _ => kind x
  | move a item =>
    refine kept_rowAt fun r leads => .bind (keeps_resolve item) fun ref => ?_
    cases ref with
    | node x => exact .bind (moves a item r _ rfl leads) fun _ => length r
    | row r' => exact .bind (.throw _) fun _ => length r
    | null => exact .bind (.throw _) fun _ => length r
    | scalar s => exact .bind (.throw _) fun _ => length r
  | pop a =>
    refine kept_rowAt fun r leads => .bind (keeps_row r) fun xs => ?_
    cases xs with
    | nil => exact .bind (.throw _) fun _ => length r
    | cons x xs => exact .bind (pops a r _ rfl leads) fun _ => length r
  | parse source options slot =>
    have keeps : Keeps R (carryOut (.parse source options slot)) := by
      refine .bind (.lift _) fun options => .bind (.lift _) fun script => ?_
      refine .bind (keeps_addTree script) fun x => ?_
      exact .bind (keeps_assignSlot slot _) fun _ => .pure _
    exact keeps w
  | load v slot =>
    have keeps : Keeps R (carryOut (.load v slot)) := by
      refine .bind (.lift _) fun n => .bind (keeps_addTree n) fun x => ?_
      exact .bind (keeps_assignSlot slot _) fun _ => .pure _
    exact keeps w
  | generate a slot =>
    refine kept_nodeAt fun x _ => .bind (keeps_generate installs x) fun visited => ?_
    refine .bind (keeps_keepVisited visited) fun r => ?_
    cases r with
    | node g => exact .bind (keeps_assignSlot slot _) fun _ => kind g
    | row r => exact .throw _
    | null => exact .throw _
    | scalar s => exact .throw _
  | source a => exact kept_nodeAt fun x _ => .bind (reads x) fun _ => .pure _
  | qualify a moduleName separator slot =>
    refine kept_nodeAt fun x _ => .bind (keeps_qualifyCell x moduleName separator) fun renamed => ?_
    exact .bind (keeps_assignSlot slot _) fun _ => .pure _
  | traverse a table slot =>
    refine kept_nodeAt fun x _ => ?_
    refine .bind (.modify fun w => Growth.aside w w.slots []) fun _ => ?_
    refine .bind (keeps_traverse_rules table x) fun visited => ?_
    refine .bind (keeps_keepVisited visited) fun r => ?_
    exact .bind (keeps_assignSlot slot r) fun _ => .bind .get fun _ => .pure _
  | functions a =>
    refine kept_nodeAt fun x _ => .bind (keeps_tree _ x) fun n => ?_
    exact .bind (.lift _) fun _ => .pure _
  | same a b =>
    have keeps : Keeps R (carryOut (.same a b)) :=
      .bind (keeps_resolve a) fun _ => .bind (keeps_resolve b) fun _ => .pure _
    exact keeps w
  | dump a =>
    have keeps : Keeps R (carryOut (.dump a)) :=
      .bind (keeps_resolve a) fun r => .bind (keeps_dumpRef r) fun _ => .pure _
    exact keeps w

end

/-- Every step retains the text of a node, unless it forgets the source of the node. -/
theorem retains_carryOut {w : Workspace} {step : SessionStep}
    (kept : ∀ a, step = .forget a → ¬ w.LeadsTo a h) :
    Retains h w ((carryOut step).run.run w).2 := by
  apply kept_carryOut retains_read retains_install
  · rintro a x rfl leads
    have other : x ≠ h := by
      rintro rfl
      exact kept a rfl leads
    exact retains_forget other
  · exact fun a name v x _ _ => keeps_assignMember (fun _ same => retains_changeCell x same) name v
  · exact fun a item r f _ _ => retains_changeRow r f
  · exact fun a r f _ _ => retains_changeRow r f

/-! ### Texts that have been read -/

/-- The node keeps the text. -/
def Remembers (w : Workspace) (h : Handle) (s : String) : Prop :=
  ∃ c, w.cells[h]? = some c ∧ c.memo = some s

theorem Retains.remembers {w v : Workspace} {s : String} (retained : Retains h w v)
    (kept : w.Remembers h s) : v.Remembers h s := by
  obtain ⟨c, found, memo⟩ := kept
  obtain ⟨d, found', memo'⟩ := retained c found
  exact ⟨d, found', memo' s memo⟩

/-- A read that succeeds leaves its text with the node. -/
theorem remembers_of_readAt {w v : Workspace} {m : Nat} {s : String}
    (ended : (readAt m h).run.run w = (.ok s, v)) : v.Remembers h s := by
  cases m with
  | zero => cases ended
  | succ m =>
    have look := run_cell h w
    unfold readAt at ended
    cases found : w.cells[h]? with
    | none =>
      rw [found] at look
      rw [Run.run_bind_error look] at ended
      cases ended
    | some c =>
      rw [found] at look
      rw [Run.run_bind_ok look] at ended
      cases memo : c.memo with
      | some t =>
        rw [memo] at ended
        cases ended
        exact ⟨c, found, memo⟩
      | none =>
        cases styled : c.style with
        | none =>
          rw [memo, styled] at ended
          cases ended
        | some style =>
          -- The text is written to the cell as it stands after its parts have been read.
          have laid := keeps_layout (R := Retains h) (retains_readAt m) (style = .braced) c w
          simp only [memo, styled, Run.run_bind] at ended
          generalize (layout (decide (style = .braced)) c.head (parts (readAt m) c)).run.run w =
            left at laid ended
          obtain ⟨outcome, u⟩ := left
          cases outcome with
          | error e => cases ended
          | ok t =>
            obtain ⟨d, there, -⟩ := laid c found
            cases ended
            exact ⟨{ d with memo := some s }, by simp [Array.getElem?_modify, there], rfl⟩

theorem remembers_of_read {w v : Workspace} {s : String}
    (ended : (read h).run.run w = (.ok s, v)) : v.Remembers h s := by
  unfold read at ended
  rw [Run.run_bind_ok (Run.run_get w)] at ended
  exact remembers_of_readAt ended

/-- A read of a node that keeps a text gives that text and changes nothing. -/
theorem Remembers.read_eq {w : Workspace} {s : String} (kept : w.Remembers h s) :
    (read h).run.run w = (.ok s, w) := by
  obtain ⟨c, found, memo⟩ := kept
  have look := run_cell h w
  rw [found] at look
  unfold read
  rw [Run.run_bind_ok (Run.run_get w)]
  unfold fuel readAt
  rw [Run.run_bind_ok look, memo]
  rfl

/-! ### Sessions -/

/-- What a session leaves. -/
def stateAfter (w : Workspace) : List SessionStep → Workspace
  | [] => w
  | step :: steps => stateAfter ((carryOut step).run.run w).2 steps

theorem stateAfter_append (w : Workspace) (steps steps' : List SessionStep) :
    w.stateAfter (steps ++ steps') = (w.stateAfter steps).stateAfter steps' := by
  induction steps generalizing w with
  | nil => rfl
  | cons step steps ih => exact ih _

theorem stateAfter_take_succ (w : Workspace) {steps : List SessionStep} {i : Nat}
    {step : SessionStep} (here : steps[i]? = some step) :
    w.stateAfter (steps.take (i + 1)) =
      ((carryOut step).run.run (w.stateAfter (steps.take i))).2 := by
  rw [List.take_add_one, here, Option.toList_some, stateAfter_append]
  rfl

/-- The answer to a step is the one that it gives in the state that the steps
    before it have left. -/
theorem getElem?_runSession (w : Workspace) (steps : List SessionStep) (i : Nat) :
    (runSession w steps)[i]? = steps[i]?.map fun step =>
      ((carryOut step).run.run (w.stateAfter (steps.take i))).1 := by
  induction steps generalizing w i with
  | nil => rfl
  | cons step steps ih =>
    cases i with
    | zero => rfl
    | succ i => exact ih _ i

/-- A text stays with a node during a session, as long as no step forgets the
    source of the node. -/
theorem remembers_stateAfter {w : Workspace} {steps : List SessionStep} {s : String} {i j : Nat}
    (le : i ≤ j) (kept : (w.stateAfter (steps.take i)).Remembers h s)
    (unforgotten : ∀ k a, i ≤ k → k < j → steps[k]? = some (.forget a) →
      ¬ (w.stateAfter (steps.take k)).LeadsTo a h) :
    (w.stateAfter (steps.take j)).Remembers h s := by
  induction j, le using Nat.le_induction with
  | base => exact kept
  | succ j le ih =>
    have before := ih fun k a le' lt => unforgotten k a le' (lt.trans j.lt_succ_self)
    cases here : steps[j]? with
    | none =>
      -- The session is over, so nothing happens any more.
      have past := List.getElem?_eq_none_iff.mp here
      rw [List.take_of_length_le (past.trans j.le_succ)]
      rwa [List.take_of_length_le past] at before
    | some step =>
      rw [stateAfter_take_succ w here]
      refine (retains_carryOut fun a forgets => ?_).remembers before
      exact unforgotten j a le j.lt_succ_self (by rw [here, forgets])

theorem run_source {w : Workspace} {a : Address} (leads : w.LeadsTo a h) :
    (carryOut (.source a)).run.run w =
      (do return SessionAnswer.source (← read h) : Work SessionAnswer).run.run w := by
  have look := (keeps_nodeAt (R := Eq) a).run_eq w
  rw [leads] at look
  unfold carryOut
  rw [Run.run_bind_ok look]

/-- Once a read of a node has returned a text, every later read of the node returns
    the same text and changes nothing, whatever steps there are in between, until a
    step forgets the source of that very node. -/
theorem runSession_source_stays (w : Workspace) (steps : List SessionStep) {i j : Nat}
    {a : Address} {s : String} (source : steps[i]? = some (.source a))
    (leads : (w.stateAfter (steps.take i)).LeadsTo a h)
    (answer : (runSession w steps)[i]? = some (.ok (.source s))) (later : i < j)
    (unforgotten : ∀ k c, i < k → k < j → steps[k]? = some (.forget c) →
      ¬ (w.stateAfter (steps.take k)).LeadsTo c h) :
    (read h).run.run (w.stateAfter (steps.take j)) = (.ok s, w.stateAfter (steps.take j)) ∧
    ∀ b, steps[j]? = some (.source b) → (w.stateAfter (steps.take j)).LeadsTo b h →
      (runSession w steps)[j]? = some (.ok (.source s)) := by
  have kept : (w.stateAfter (steps.take (i + 1))).Remembers h s := by
    rw [getElem?_runSession, source] at answer
    rw [stateAfter_take_succ w source]
    simp only [Option.map_some, Option.some.injEq, run_source leads, Run.run_bind] at answer ⊢
    generalize ended : (read h).run.run (w.stateAfter (steps.take i)) = left at answer ⊢
    obtain ⟨outcome, v⟩ := left
    cases outcome with
    | error e => cases answer
    | ok t =>
      cases answer
      exact remembers_of_read ended
  have stays := (remembers_stateAfter later kept unforgotten).read_eq
  refine ⟨stays, fun b source' leads' => ?_⟩
  rw [getElem?_runSession, source', Option.map_some, run_source leads', Run.run_bind_ok stays]
  rfl

/-- The source of a command is read, its name is changed and forgotten, and it is
    put behind the command as an argument as well.  The name reads as changed, but
    the command itself still reads as before. -/
theorem runSession_source_stays_renamed :
    let w : Workspace :=
      { cells := #[⟨.word "a", none, [], [(.expansion, 0)], some .plain, none⟩,
          ⟨.command false, none, [(.name, some 0)], [(.leading, 1), (.suffix, 2)], some .plain, none⟩]
        rows := #[[], [], []]
        slots := [("g", .node 1)] }
    let steps : List SessionStep :=
      [.source ⟨"g", []⟩, .assign ⟨"g", [.key "name"]⟩ "text" (.string "b"),
        .forget ⟨"g", [.key "name"]⟩, .move ⟨"g", [.key "suffix"]⟩ ⟨"g", [.key "name"]⟩,
        .source ⟨"g", [.key "name"]⟩, .source ⟨"g", []⟩]
    (runSession w steps)[4]? = some (.ok (.source "b")) ∧
      (runSession w steps)[5]? = some (.ok (.source " a ")) := by
  intro w steps
  have unforgotten : ∀ k c, 0 < k → k < 5 → steps[k]? = some (.forget c) →
      ¬ (w.stateAfter (steps.take k)).LeadsTo c 1 := by
    intro k c low high forgets leads
    have bounds : k = 1 ∨ k = 2 ∨ k = 3 ∨ k = 4 := by omega
    -- Only the step with number 2 forgets anything, and that is the name.
    rcases bounds with rfl | rfl | rfl | rfl <;> cases forgets
    revert leads
    decide +kernel
  refine ⟨by rfl, ?_⟩
  have stays := runSession_source_stays w steps (i := 0) (j := 5) (h := 1) (s := " a ")
    (by rfl) (by decide +kernel) (by rfl) (by decide) unforgotten
  exact stays.2 ⟨"g", []⟩ (by rfl) (by decide +kernel)

end ShellInliner.Workspace
