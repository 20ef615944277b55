import Mathlib.Data.List.Forall2
import ShellInliner.Proofs.Node.Subtree
import ShellInliner.Proofs.Run
import ShellInliner.Proofs.Visit.Table
import ShellInliner.Visit.Traverse

/-! # The calls of a traversal

    A traversal calls handlers for nodes of the tree that it was started on, each
    at most once, children before their parents and field by field.  What handlers
    return has no say in this: nodes that they bring in are never visited, and what
    they take away has been visited before.

    To see the calls, a visitor is replaced by one that does the same and records
    them beside its state. -/

namespace ShellInliner.Visitor

variable {σ : Type}

/-! ### Recording calls -/

/-- What a handler has been called with. -/
structure HandlerCall where
  /-- The node, with the children that earlier visits have left. -/
  node : Node
  /-- Its parent. -/
  parent : Option Node
  /-- The root. -/
  root : Node

/-- The handler that does the same and records its calls. -/
def recording (h : Handler σ) : Handler (σ × List HandlerCall) := fun n parent root => do
  let (s, made) ← get
  let (outcome, s') := (h n parent root).run.run s
  set (s', made ++ [⟨n, parent, root⟩])
  Run.lift outcome

/-- The visitor that does the same and records all calls. -/
def recorded (v : Visitor σ) : Visitor (σ × List HandlerCall) :=
  v.map fun e => (e.1, e.2.map recording)

/-- The calls that a traversal makes from a state on. -/
def calls (v : Visitor σ) (t : Node) (s : σ) : List HandlerCall :=
  ((traverse v.recorded t).run.run (s, [])).2.2

/-- The same kinds have handlers. -/
theorem entry?_recorded (v : Visitor σ) (k : Kind) :
    Table.entry? v.recorded k = (Table.entry? v k).map recording :=
  Table.entry?_map v recording k

theorem unknownNames_recorded (v : Visitor σ) :
    Table.unknownNames v.recorded = Table.unknownNames v :=
  Table.unknownNames_map v (·.map recording)

/-! ### The nodes of a tree in visiting order -/

mutual

/-- The nodes of a tree with their parents, in the order in which they are visited:
    children before their parents, field by field, and nothing below a leaf. -/
def postOrder (parent : Option Node) : Node → List (Node × Option Node)
  | .mk h l cs =>
    let below := postOrders (.mk h l cs) cs
    (if h.kind.isLeaf then []
      else h.kind.fieldOrder.flatMap fun f => (below.filter (·.1 = f)).flatMap (·.2)) ++
      [(.mk h l cs, parent)]

/-- The nodes at and below each child of a node, with the field of the child. -/
def postOrders (parent : Node) : List (Field × Node) → List (Field × List (Node × Option Node))
  | [] => []
  | (f, n) :: cs => (f, postOrder (some parent) n) :: postOrders parent cs

end

theorem postOrders_eq (parent : Node) (cs : List (Field × Node)) :
    postOrders parent cs = cs.map fun c => (c.1, postOrder (some parent) c.2) := by
  induction cs with
  | nil => rfl
  | cons c cs ih =>
    obtain ⟨f, n⟩ := c
    unfold postOrders
    rw [ih]
    rfl

/-- In a well-typed tree children are visited in the order in which they stand. -/
theorem postOrder_eq {t : Node} (typed : t.isWellTyped = true) (parent : Option Node) :
    postOrder parent t =
      (if t.kind.isLeaf then [] else t.children.flatMap fun c => postOrder (some t) c.2) ++
        [(t, parent)] := by
  have order := Node.children_eq_flatMap typed
  cases t with
  | mk h l cs =>
    conv_lhs => unfold postOrder
    rw [postOrders_eq]
    cases leaf : h.kind.isLeaf with
    | true => simp [Node.kind, Node.head, leaf]
    | false =>
      have below : ∀ f, ((cs.map fun c => (c.1, postOrder (some (.mk h l cs)) c.2)).filter
          (·.1 = f)).flatMap (·.2) =
            (cs.filter (·.1 = f)).flatMap fun c => postOrder (some (.mk h l cs)) c.2 := by
        intro f
        rw [List.filter_map, List.flatMap_map]
        rfl
      -- The children of a well-typed node are sorted by their fields already.
      have split (g : Field × Node → List (Node × Option Node)) :
          cs.flatMap g = h.kind.fieldOrder.flatMap fun f => (cs.filter (·.1 = f)).flatMap g := by
        rw [← List.flatMap_assoc]
        exact congrArg (List.flatMap g) order
      simp only [Node.kind, Node.head, Node.children, leaf, Bool.false_eq_true, if_false]
      rw [split]
      simp only [below]

/-- The nodes of a tree that a visitor has handlers for, in visiting order. -/
def handled (v : Visitor σ) (nodes : List (Node × Option Node)) : List (Node × Option Node) :=
  nodes.filter fun e => (Table.entry? v e.1.kind).isSome

theorem handled_append (v : Visitor σ) (xs ys : List (Node × Option Node)) :
    v.handled (xs ++ ys) = v.handled xs ++ v.handled ys :=
  List.filter_append ..

/-! ### One call after the other -/

/-- The call is for the node: it has its values and its place, its parent and the
    root as they were at first, and a leaf has its children as well. -/
structure Serves (root : Node) (e : Node × Option Node) (c : HandlerCall) : Prop where
  /-- The kind and the plain values. -/
  head : c.node.head = e.1.head
  /-- The place. -/
  loc : c.node.loc = e.1.loc
  /-- A leaf is handed on as it is. -/
  leaf : e.1.kind.isLeaf = true → c.node = e.1
  /-- The parent. -/
  parent : c.parent = e.2
  /-- The root. -/
  root : c.root = root

/-- The calls that have been made, if the run has ended like this: all that were
    due, or the first ones of them. -/
def Made {α : Type} (root : Node) (due : List (Node × Option Node)) (made : List HandlerCall) :
    Except Error α → Prop
  | .ok _ => List.Forall₂ (Serves root) due made
  | .error _ => ∃ first, first <+: due ∧ List.Forall₂ (Serves root) first made

/-- The second run does the same as the first, and records the calls that were due. -/
def Records {α : Type} (root : Node) (due : List (Node × Option Node)) (x : Run σ α)
    (y : Run (σ × List HandlerCall) α) : Prop :=
  ∀ s log, ∃ made, y.run.run (s, log) = ((x.run.run s).1, (x.run.run s).2, log ++ made) ∧
    Made root due made (x.run.run s).1

section

variable {α β : Type} {root : Node}

theorem records_throw (due : List (Node × Option Node)) (e : Error) :
    Records root due (throw e : Run σ α) (throw e) :=
  fun s log => ⟨[], by rw [List.append_nil]; rfl, [], List.nil_prefix, .nil⟩

theorem records_pure (a : α) : Records root [] (pure a : Run σ α) (pure a) :=
  fun s log => ⟨[], by rw [List.append_nil]; rfl, .nil⟩

theorem records_lift (r : Except Error α) : Records root [] (Run.lift r : Run σ α) (Run.lift r) := by
  cases r with
  | ok a => exact records_pure a
  | error e => exact records_throw [] e

theorem Records.bind {due due' : List (Node × Option Node)} {x : Run σ α}
    {y : Run (σ × List HandlerCall) α} {f : α → Run σ β} {g : α → Run (σ × List HandlerCall) β}
    (first : Records root due x y) (next : ∀ a, Records root due' (f a) (g a)) :
    Records root (due ++ due') (x >>= f) (y >>= g) := by
  intro s log
  obtain ⟨made, ended, complete⟩ := first s log
  rw [Run.run_bind, Run.run_bind, ended]
  generalize x.run.run s = left at complete ⊢
  obtain ⟨outcome, s'⟩ := left
  -- A run that fails has made the first calls of those that were due: if it is the second one,
  -- all calls of the first come before them.
  cases outcome with
  | ok a =>
    obtain ⟨made', ended', complete'⟩ := next a s' (log ++ made)
    refine ⟨made ++ made', by simp only [ended', List.append_assoc], ?_⟩
    simp only
    generalize ((f a).run.run s').1 = outcome' at complete' ⊢
    cases outcome' with
    | ok b => exact List.rel_append complete complete'
    | error e =>
      obtain ⟨initial, before, some⟩ := complete'
      exact ⟨due ++ initial, List.prefix_append_right_inj due |>.mpr before,
        List.rel_append complete some⟩
  | error e =>
    obtain ⟨initial, before, some⟩ := complete
    exact ⟨made, rfl, initial, before.trans (List.prefix_append due due'), some⟩

end

/-! ### Calls at a node -/

/-- A handler that records its calls does the same and adds this call to them. -/
theorem run_recording (h : Handler σ) (n : Node) (parent : Option Node) (root : Node) (s : σ)
    (log : List HandlerCall) :
    (recording h n parent root).run.run (s, log) =
      (((h n parent root).run.run s).1, ((h n parent root).run.run s).2,
        log ++ [⟨n, parent, root⟩]) := by
  unfold recording
  rw [Run.run_bind_ok (Run.run_get _)]
  refine (Run.run_bind_ok (Run.run_set _ _)).trans ?_
  rw [Run.run_lift]
  rfl

theorem records_recording {n m : Node} {parent : Option Node} {root : Node} {h : Handler σ}
    (serves : Serves root (m, parent) ⟨n, parent, root⟩) :
    Records root [(m, parent)] (h n parent root) (recording h n parent root) := by
  intro s log
  refine ⟨[⟨n, parent, root⟩], run_recording h n parent root s log, ?_⟩
  cases ((h n parent root).run.run s).1 with
  | ok outcome => exact .cons serves .nil
  | error e => exact ⟨[(m, parent)], List.prefix_rfl, .cons serves .nil⟩

/-- A node is visited at most once: when its kind has a handler. -/
theorem records_visit (v : Visitor σ) {n m : Node} {parent : Option Node} {root : Node}
    (serves : Serves root (m, parent) ⟨n, parent, root⟩) :
    Records root (v.handled [(m, parent)]) (v.visit parent root (.one n))
      (v.recorded.visit parent root (.one n)) := by
  have kind : n.kind = m.kind := congrArg Head.kind serves.head
  unfold visit
  simp only [entry?_recorded]
  cases found : Table.entry? v n.kind with
  | none =>
    -- Without a handler nothing is due and nothing is recorded.
    have due : v.handled [(m, parent)] = [] := by simp [handled, ← kind, found]
    rw [due]
    exact records_pure _
  | some h =>
    have due : v.handled [(m, parent)] = [(m, parent)] ++ [] := by simp [handled, ← kind, found]
    rw [due]
    exact (records_recording serves).bind fun outcome => records_pure _

theorem records_traverseChildren (v : Visitor σ) {root parent : Node} {cs : List (Field × Node)}
    (each : ∀ c ∈ cs, Records root (v.handled (postOrder (some parent) c.2))
      (traverseNode v root (some parent) c.2) (traverseNode v.recorded root (some parent) c.2)) :
    Records root (v.handled (cs.flatMap fun c => postOrder (some parent) c.2))
      (traverseChildren v root parent cs) (traverseChildren v.recorded root parent cs) := by
  induction cs with
  | nil => exact records_pure []
  | cons c cs ih =>
    obtain ⟨f, n⟩ := c
    have others := ih fun c mem => each c (List.mem_cons_of_mem _ mem)
    unfold traverseChildren
    rw [List.flatMap_cons, handled_append]
    -- What is left of this child only stands before the others.
    have rest (here : List (Field × Node)) :
        Records root (v.handled (cs.flatMap fun c => postOrder (some parent) c.2) ++ [])
          (do return here ++ (← traverseChildren v root parent cs))
          (do return here ++ (← traverseChildren v.recorded root parent cs)) :=
      others.bind fun _ => records_pure _
    rw [List.append_nil] at rest
    exact (each (f, n) (List.mem_cons_self ..)).bind fun x =>
      (records_lift (settle parent.kind f x)).bind rest

/-- A traversal of a node calls the handlers for the nodes at and below it. -/
theorem records_traverseNode (v : Visitor σ) (root : Node) {n : Node}
    (typed : n.isWellTyped = true) (parent : Option Node) :
    Records root (v.handled (postOrder parent n)) (traverseNode v root parent n)
      (traverseNode v.recorded root parent n) := by
  induction n using Node.induct generalizing parent with
  | step h l cs ih =>
    rw [postOrder_eq typed, handled_append]
    unfold traverseNode
    cases leaf : h.kind.isLeaf with
    | true =>
      simp only [Node.kind, Node.head, leaf, if_true]
      exact records_visit v ⟨rfl, rfl, fun _ => rfl, rfl, rfl⟩
    | false =>
      simp only [Node.kind, Node.head, leaf, Bool.false_eq_true, if_false]
      refine (records_traverseChildren v fun c mem => ?_).bind fun ds => ?_
      · exact ih c mem (Node.isWellTyped_of_mem typed mem) _
      · -- The node is handed on with its new children, which only a leaf must not have.
        refine records_visit v ⟨rfl, rfl, fun inner => ?_, rfl, rfl⟩
        simp only [Node.kind, Node.head] at inner
        rw [leaf] at inner
        cases inner

/-- The nodes of a tree that a traversal calls handlers for, in visiting order. -/
def originals (v : Visitor σ) (t : Node) : List (Node × Option Node) :=
  v.handled (postOrder none t)

theorem records_traverse (v : Visitor σ) {t : Node} (typed : t.isWellTyped = true) :
    Records t (v.originals t) (traverse v t) (traverse v.recorded t) := by
  unfold traverse originals
  rw [unknownNames_recorded]
  cases Table.unknownNames v with
  | nil => exact records_traverseNode v t typed none
  | cons name names => exact records_throw _ _

theorem originals_congr {τ : Type} {v : Visitor σ} {w : Visitor τ}
    (same : ∀ k, (Table.entry? v k).isSome = (Table.entry? w k).isSome) (t : Node) :
    v.originals t = w.originals t := by
  unfold originals handled
  simp only [same]

theorem exists_of_forall₂ {α β : Type} {R : α → β → Prop} {xs : List α} {ys : List β}
    (each : List.Forall₂ R xs ys) {i : Nat} {y : β} (found : ys[i]? = some y) :
    ∃ x, xs[i]? = some x ∧ R x y := by
  induction each generalizing i with
  | nil => cases found
  | cons first _ ih =>
    cases i with
    | zero =>
      cases found
      exact ⟨_, rfl, first⟩
    | succ i => exact ih found

/-- Each call that has been made was due at its place. -/
theorem Made.exists_serves {α : Type} {root : Node} {due : List (Node × Option Node)}
    {made : List HandlerCall} {outcome : Except Error α} (complete : Made root due made outcome)
    {i : Nat} {c : HandlerCall} (found : made[i]? = some c) :
    ∃ e, due[i]? = some e ∧ Serves root e c := by
  cases outcome with
  | ok a => exact exists_of_forall₂ complete found
  | error e =>
    obtain ⟨first, ⟨rest, rfl⟩, each⟩ := complete
    obtain ⟨e, here, serves⟩ := exists_of_forall₂ each found
    refine ⟨e, ?_, serves⟩
    rw [List.getElem?_append_left (List.getElem?_eq_some_iff.mp here).1, here]

/-- The calls of a traversal, and what it ends with. -/
theorem made_calls (v : Visitor σ) {t : Node} (typed : t.isWellTyped = true) (s : σ) :
    (traverse v.recorded t).run.run (s, []) =
      (((traverse v t).run.run s).1, ((traverse v t).run.run s).2, v.calls t s) ∧
    Made t (v.originals t) (v.calls t s) ((traverse v t).run.run s).1 := by
  obtain ⟨made, ended, complete⟩ := records_traverse v typed s []
  have same : v.calls t s = made := by
    unfold calls
    rw [ended]
    rfl
  rw [same]
  exact ⟨ended, complete⟩

/-- The calls of a traversal of a well-typed tree are determined by the tree.  A
    visitor that records them does the same as the visitor itself.  If the traversal
    succeeds there is exactly one call for every node of the tree that has a handler
    and does not stand below a leaf, in post-order and field by field, with the
    parent and the root as they were at first, whatever the handlers return.  If it
    fails the calls that were made are the first ones of these.  Two visitors with
    handlers for the same kinds make their calls for the same nodes, as far as both
    get. -/
theorem calls_traverse (v : Visitor σ) (t : Node) (typed : t.isWellTyped = true) (s : σ) :
    ((traverse v.recorded t).run.run (s, [])).1 = ((traverse v t).run.run s).1 ∧
    ((traverse v.recorded t).run.run (s, [])).2.1 = ((traverse v t).run.run s).2 ∧
    (∀ x s', (traverse v t).run.run s = (.ok x, s') →
      List.Forall₂ (Serves t) (v.originals t) (v.calls t s)) ∧
    (∀ e s', (traverse v t).run.run s = (.error e, s') →
      ∃ first, first <+: v.originals t ∧ List.Forall₂ (Serves t) first (v.calls t s)) ∧
    ∀ (τ : Type) (w : Visitor τ) (s' : τ),
      (∀ k, (Table.entry? v k).isSome = (Table.entry? w k).isSome) →
      ∀ (i : Nat) (c d : HandlerCall), (v.calls t s)[i]? = some c → (w.calls t s')[i]? = some d →
        ∃ e, (v.originals t)[i]? = some e ∧ Serves t e c ∧ Serves t e d := by
  obtain ⟨ended, complete⟩ := made_calls v typed s
  refine ⟨by rw [ended], by rw [ended], fun x s' done => ?_, fun e s' done => ?_, ?_⟩
  · rw [done] at complete
    exact complete
  · rw [done] at complete
    exact complete
  · intro τ w s' same i c d first second
    obtain ⟨e, due, serves⟩ := complete.exists_serves first
    obtain ⟨e', due', serves'⟩ := (made_calls w typed s').2.exists_serves second
    rw [← originals_congr same, due] at due'
    cases due'
    exact ⟨e, due, serves, serves'⟩

/-- A word in a sequence is replaced by two words.  Neither of them is visited. -/
theorem calls_traverse_doubled :
    let a : Node := .mk (.word "a") none []
    let b : Node := .mk (.word "b") none []
    let t : Node := .mk (.command false) none [(.name, a), (.suffix, b), (.suffix, a)]
    let v : Visitor Unit := [("Word", some fun n _ _ =>
      pure (if n.text? = some "b" then .splice [some a, some b] else .keep))]
    ∃ c d e, v.calls t () = [c, d, e] ∧ c.node = a ∧ d.node = b ∧ e.node = a ∧
      c.parent = some t ∧ d.parent = some t ∧ e.parent = some t := by
  intro a b t v
  have nodes : v.originals t = [(a, some t), (b, some t), (a, some t)] := by rfl
  obtain ⟨-, -, complete, -⟩ := calls_traverse v t (by decide) ()
  have each := complete _ _ rfl
  rw [nodes] at each
  generalize v.calls t () = made at each
  rcases each with _ | ⟨first, _ | ⟨second, _ | ⟨third, _ | _⟩⟩⟩
  exact ⟨_, _, _, rfl, first.leaf rfl, second.leaf rfl, third.leaf rfl, first.parent,
    second.parent, third.parent⟩

/-- A traversal of an expansion calls the handler for it: only the expansions that
    stand in words are passed over. -/
theorem calls_expansion_root :
    let t : Node := .mk (.arithmeticExpansion "1" false) none []
    let v : Visitor Unit := [("ArithmeticExpansion", some fun _ _ _ => pure .keep)]
    t.isWellTyped = true ∧ Table.unknownNames v = [] ∧ t.kind.isExpansion = true ∧
      (traverse v t).run.run () = (.ok (.one t), ()) ∧ v.calls t () = [⟨t, none, t⟩] :=
  ⟨by decide, by rfl, by rfl, by rfl, by rfl⟩

end ShellInliner.Visitor
