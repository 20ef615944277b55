import ShellInliner.Proofs.Visit.Identity

/-! # Visitors in a row

    Rows of visitors may be nested, but the nesting has no meaning: a visit applies
    the single visitors from the first to the last, each to what the one before it
    has left, and calls handlers in that order.  Once nothing is left of the node, or
    several nodes are, the visitors that are still to come have no part in the visit.

    Calls are seen as for traversals: every visitor of a tree is replaced by one that
    does the same and records its calls. -/

namespace ShellInliner

variable {σ : Type}

/-! ### One visitor after the other -/

namespace Visitor

/-- Apply visitors from the first to the last. -/
def inTurn (parent : Option Node) (root : Node) (vs : List (Visitor σ)) (x : Visited Node) :
    Run σ (Visited Node) :=
  vs.foldlM (fun y v => v.visit parent root y) x

/-- The calls that visitors make when they are applied from the first to the last. -/
def callsInTurn (parent : Option Node) (root : Node) (vs : List (Visitor σ)) (x : Visited Node)
    (s : σ) : List HandlerCall :=
  ((inTurn parent root (vs.map recorded) x).run.run (s, [])).2.2

section

variable {parent : Option Node} {root : Node}

theorem inTurn_cons (v : Visitor σ) (vs : List (Visitor σ)) (x : Visited Node) :
    inTurn parent root (v :: vs) x = v.visit parent root x >>= inTurn parent root vs :=
  List.foldlM_cons ..

theorem inTurn_singleton (v : Visitor σ) (x : Visited Node) :
    inTurn parent root [v] x = v.visit parent root x := by
  rw [inTurn_cons]
  exact bind_pure _

theorem inTurn_append (vs ws : List (Visitor σ)) (x : Visited Node) :
    inTurn parent root (vs ++ ws) x = inTurn parent root vs x >>= inTurn parent root ws :=
  List.foldlM_append ..

/-! ### The end of a visit -/

/-- Only a single node is visited. -/
theorem visit_of_settled {x : Visited Node} (settled : ∀ n, x ≠ .one n) (v : Visitor σ) :
    v.visit parent root x = pure x := by
  cases x with
  | one n => exact absurd rfl (settled n)
  | several ns => rfl
  | nothing => rfl

/-- No visitor is applied to several nodes or to nothing. -/
theorem inTurn_of_settled {x : Visited Node} (settled : ∀ n, x ≠ .one n)
    (vs : List (Visitor σ)) : inTurn parent root vs x = pure x := by
  induction vs with
  | nil => rfl
  | cons v vs ih => rw [inTurn_cons, visit_of_settled settled, pure_bind, ih]

/-- A handler that removes the node or puts several in its place has the last word. -/
theorem run_inTurn_ends {before after : List (Visitor σ)} {v : Visitor σ} {x : Visited Node}
    {n : Node} {h : Handler σ} {o : Outcome Node} {s s₁ s₂ : σ}
    (first : (inTurn parent root before x).run.run s = (.ok (.one n), s₁))
    (found : Table.entry? v n.kind = some h)
    (called : (h n parent root).run.run s₁ = (.ok o, s₂))
    (ends : o = .remove ∨ ∃ ns, o = .splice ns) :
    (inTurn parent root (before ++ v :: after) x).run.run s = (.ok (o.apply n), s₂) := by
  have settled : ∀ m, o.apply n ≠ .one m := by
    intro m same
    obtain rfl | ⟨ns, rfl⟩ := ends <;> cases same
  rw [inTurn_append, Run.run_bind_ok first, inTurn_cons,
    Run.run_bind_ok (run_visit_of_some found called), inTurn_of_settled settled, Run.run_pure]

end

/-! ### Recording -/

/-- The second run does the same as the first, whatever it records. -/
def Mirrors {α : Type} (x : Run σ α) (y : Run (σ × List HandlerCall) α) : Prop :=
  ∀ s log, ∃ log', y.run.run (s, log) = ((x.run.run s).1, (x.run.run s).2, log')

section

variable {α β : Type} {parent : Option Node} {root : Node}

theorem mirrors_pure (a : α) : Mirrors (pure a : Run σ α) (pure a) :=
  fun _ log => ⟨log, rfl⟩

theorem Records.mirrors {due : List (Node × Option Node)} {x : Run σ α}
    {y : Run (σ × List HandlerCall) α} (records : Records root due x y) : Mirrors x y := by
  intro s log
  obtain ⟨made, ended, -⟩ := records s log
  exact ⟨log ++ made, ended⟩

theorem Mirrors.bind {x : Run σ α} {y : Run (σ × List HandlerCall) α} {f : α → Run σ β}
    {g : α → Run (σ × List HandlerCall) β} (first : Mirrors x y)
    (next : ∀ a, Mirrors (f a) (g a)) : Mirrors (x >>= f) (y >>= g) := by
  intro s log
  obtain ⟨log₁, ended⟩ := first s log
  rw [Run.run_bind, Run.run_bind, ended]
  generalize x.run.run s = left
  obtain ⟨outcome, s₁⟩ := left
  cases outcome with
  | ok a => exact next a s₁ log₁
  | error e => exact ⟨log₁, rfl⟩

theorem mirrors_visit (v : Visitor σ) (x : Visited Node) :
    Mirrors (v.visit parent root x) (v.recorded.visit parent root x) := by
  cases x with
  | one n => exact (records_visit v ⟨rfl, rfl, fun _ => rfl, rfl, rfl⟩).mirrors
  | several ns => exact mirrors_pure _
  | nothing => exact mirrors_pure _

/-- Visitors that record their calls do the same when they are applied in turn. -/
theorem mirrors_inTurn (parent : Option Node) (root : Node) (vs : List (Visitor σ))
    (x : Visited Node) :
    Mirrors (inTurn parent root vs x) (inTurn parent root (vs.map recorded) x) := by
  -- What the first visitor leaves is what the others are applied to.
  induction vs generalizing x with
  | nil => exact mirrors_pure x
  | cons v vs ih =>
    rw [List.map_cons, inTurn_cons, inTurn_cons]
    exact (mirrors_visit v x).bind ih

/-- The calls of visitors in turn, and what they end with. -/
theorem run_inTurn_recorded (parent : Option Node) (root : Node) (vs : List (Visitor σ))
    (x : Visited Node) (s : σ) :
    (inTurn parent root (vs.map recorded) x).run.run (s, []) =
      (((inTurn parent root vs x).run.run s).1, ((inTurn parent root vs x).run.run s).2,
        callsInTurn parent root vs x s) := by
  obtain ⟨log, ended⟩ := mirrors_inTurn parent root vs x s []
  unfold callsInTurn
  rw [ended]

/-- The call of a handler that removes the node or puts several in its place is the
    last call. -/
theorem callsInTurn_ends {before after : List (Visitor σ)} {v : Visitor σ} {x : Visited Node}
    {n : Node} {h : Handler σ} {o : Outcome Node} {s s₁ s₂ : σ}
    (first : (inTurn parent root before x).run.run s = (.ok (.one n), s₁))
    (found : Table.entry? v n.kind = some h)
    (called : (h n parent root).run.run s₁ = (.ok o, s₂))
    (ends : o = .remove ∨ ∃ ns, o = .splice ns) :
    callsInTurn parent root (before ++ v :: after) x s =
      callsInTurn parent root before x s ++ [⟨n, parent, root⟩] := by
  -- The visitors that record their calls end in the same way, each at the same place.
  have first' := run_inTurn_recorded parent root before x s
  rw [first] at first'
  have found' : Table.entry? v.recorded n.kind = some (recording h) := by
    rw [entry?_recorded, found]
    rfl
  have called' := run_recording h n parent root s₁ (callsInTurn parent root before x s)
  rw [called] at called'
  unfold callsInTurn
  rw [List.map_append, List.map_cons, run_inTurn_ends first' found' called' ends]
  rfl

end

end Visitor

/-! ### Trees of visitors -/

namespace VisitorTree

mutual

/-- The tree of visitors that do the same and record all calls. -/
def recorded : VisitorTree σ → VisitorTree (σ × List Visitor.HandlerCall)
  | .table v => .table v.recorded
  | .row ts => .row (recordedRow ts)

/-- The row of visitors that do the same and record all calls. -/
def recordedRow : List (VisitorTree σ) → List (VisitorTree (σ × List Visitor.HandlerCall))
  | [] => []
  | t :: ts => recorded t :: recordedRow ts

end

/-- The calls that a visit makes from a state on. -/
def calls (t : VisitorTree σ) (parent : Option Node) (root : Node) (x : Visited Node) (s : σ) :
    List Visitor.HandlerCall :=
  ((t.recorded.visit parent root x).run.run (s, [])).2.2

mutual

/-- Recording leaves the order of the single visitors alone. -/
theorem flatten_recorded : (t : VisitorTree σ) →
    t.recorded.flatten = t.flatten.map Visitor.recorded
  | .table _ => rfl
  | .row ts => flattenRow_recordedRow ts

theorem flattenRow_recordedRow : (ts : List (VisitorTree σ)) →
    flattenRow (recordedRow ts) = (flattenRow ts).map Visitor.recorded
  | [] => rfl
  | t :: ts => by
    rw [recordedRow, flattenRow, flattenRow, List.map_append, flatten_recorded t,
      flattenRow_recordedRow ts]

end

mutual

/-- The nesting of rows has no meaning. -/
theorem visit_eq_inTurn (parent : Option Node) (root : Node) : (t : VisitorTree σ) →
    t.visit parent root = Visitor.inTurn parent root t.flatten
  | .table v => by
    funext x
    rw [visit, flatten, Visitor.inTurn_singleton]
  | .row ts => by
    funext x
    rw [visit, flatten, visitRow_eq_inTurn parent root ts]

theorem visitRow_eq_inTurn (parent : Option Node) (root : Node) : (ts : List (VisitorTree σ)) →
    visitRow parent root ts = Visitor.inTurn parent root (flattenRow ts)
  | [] => rfl
  | t :: ts => by
    funext x
    rw [visitRow, flattenRow, Visitor.inTurn_append, visit_eq_inTurn parent root t,
      visitRow_eq_inTurn parent root ts]

end

theorem calls_eq (t : VisitorTree σ) (parent : Option Node) (root : Node) (x : Visited Node)
    (s : σ) : t.calls parent root x s = Visitor.callsInTurn parent root t.flatten x s := by
  unfold calls Visitor.callsInTurn
  rw [visit_eq_inTurn, flatten_recorded]

/-- A visit with visitors in nested rows is a visit with the single visitors one after
    the other, from the first to the last: it ends with the same result or error and in
    the same state, and it makes the same calls.  A tree of visitors that record their
    calls does the same as the tree itself.  Once a handler has removed the node or has
    put several in its place, this is what the visit ends with, and the call is the last
    one: the visitors before have made their calls, and those after it make none. -/
theorem visit_flatten (t : VisitorTree σ) (parent : Option Node) (root : Node)
    (x : Visited Node) (s : σ) :
    t.visit parent root x = t.flatten.foldlM (fun y v => v.visit parent root y) x ∧
    t.calls parent root x s = Visitor.callsInTurn parent root t.flatten x s ∧
    (t.recorded.visit parent root x).run.run (s, []) =
      (((t.visit parent root x).run.run s).1, ((t.visit parent root x).run.run s).2,
        t.calls parent root x s) ∧
    ∀ (before : List (Visitor σ)) (v : Visitor σ) (after : List (Visitor σ)) (n : Node)
      (h : Handler σ) (o : Outcome Node) (s₁ s₂ : σ), t.flatten = before ++ v :: after →
      (Visitor.inTurn parent root before x).run.run s = (.ok (.one n), s₁) →
      Table.entry? v n.kind = some h → (h n parent root).run.run s₁ = (.ok o, s₂) →
      (o = .remove ∨ ∃ ns, o = .splice ns) →
        (t.visit parent root x).run.run s = (.ok (o.apply n), s₂) ∧
        t.calls parent root x s =
          Visitor.callsInTurn parent root before x s ++ [⟨n, parent, root⟩] := by
  have flat := congrFun (visit_eq_inTurn parent root t) x
  refine ⟨flat, calls_eq t parent root x s, ?_, ?_⟩
  · have recorded := congrFun (visit_eq_inTurn parent root t.recorded) x
    rw [flatten_recorded] at recorded
    rw [recorded, Visitor.run_inTurn_recorded, calls_eq, flat]
  · intro before v after n h o s₁ s₂ split first found called ends
    rw [flat, calls_eq, split]
    exact ⟨Visitor.run_inTurn_ends first found called ends,
      Visitor.callsInTurn_ends first found called ends⟩

/-- The first of three visitors puts another word in the place of a word, and the
    second, in a row of its own, removes that one.  The third is not called. -/
theorem visit_flatten_removed :
    let a : Node := .mk (.word "a") none []
    let b : Node := .mk (.word "b") none []
    let replacing : Visitor Unit := [("Word", some fun _ _ _ => pure (.replace b))]
    let removing : Visitor Unit := [("Word", some fun _ _ _ => pure .remove)]
    let doubling : Visitor Unit := [("defaultMethod", some fun n _ _ =>
      pure (.splice [some n, some n]))]
    let t : VisitorTree Unit := .row [.table replacing, .row [.table removing], .table doubling]
    (t.visit none a (.one a)).run.run () = (.ok .nothing, ()) ∧
      t.calls none a (.one a) () = [⟨a, none, a⟩, ⟨b, none, a⟩] := by
  intro a b replacing removing doubling t
  obtain ⟨-, -, -, ends⟩ := visit_flatten t none a (.one a) ()
  have last := ends [replacing] removing [doubling] b (fun _ _ _ => pure .remove) .remove () ()
    rfl rfl rfl rfl (.inl rfl)
  have first : Visitor.callsInTurn none a [replacing] (.one a) () = [⟨a, none, a⟩] := by rfl
  rw [first] at last
  exact last

end VisitorTree

end ShellInliner
