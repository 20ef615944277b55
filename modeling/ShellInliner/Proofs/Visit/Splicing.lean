import ShellInliner.Proofs.Node.Fields
import ShellInliner.Proofs.Visit.Calls

/-! # What a traversal makes of each node

    A traversal that succeeds leaves a record: for every node of the tree, the
    node as it was, the node that its handler was given, and what the handler
    decided.  The splice law says how the given node follows from the record of
    its children.  It has the values and the place of the original; each of its
    sequences holds what the visits of the elements left, one after the other;
    and each of its single fields holds the one node that was left, or nothing
    where the kind allows for that.

    The record is not made up: the decisions in it are those that the handlers
    returned, call by call. -/

namespace ShellInliner.Visitor

open Node (within)

variable {σ : Type}

/-! ### Recording decisions -/

/-- What a handler has been given, and what it has decided. -/
structure Decision where
  /-- The node. -/
  node : Node
  /-- Its parent. -/
  parent : Option Node
  /-- The root. -/
  root : Node
  /-- What becomes of the node. -/
  outcome : Outcome Node

/-- The handler that does the same and records its decisions. -/
def deciding (h : Handler σ) : Handler (σ × List Decision) := fun n parent root => do
  let (s, made) ← get
  let (outcome, s') := (h n parent root).run.run s
  set (s', made ++ outcome.toOption.toList.map (⟨n, parent, root, ·⟩))
  Run.lift outcome

/-- The visitor that does the same and records all decisions. -/
def decided (v : Visitor σ) : Visitor (σ × List Decision) :=
  v.map fun e => (e.1, e.2.map deciding)

/-- The decisions of the handlers in a traversal from a state on. -/
def decisions (v : Visitor σ) (t : Node) (s : σ) : List Decision :=
  ((traverse v.decided t).run.run (s, [])).2.2

/-! ### The record of a traversal -/

/-- The visit of a node, with the visits of its children. -/
inductive Visit
  /-- The node as it was, the node as its handler was given it, what the handler
      has decided, if the kind has one, and the visits of the children. -/
  | mk (original given : Node) (outcome : Option (Outcome Node)) (children : List (Field × Visit))

namespace Visit

/-- The node as it was. -/
def original : Visit → Node
  | mk o _ _ _ => o

/-- The node as its handler was given it. -/
def given : Visit → Node
  | mk _ g _ _ => g

/-- What the handler has decided. -/
def outcome : Visit → Option (Outcome Node)
  | mk _ _ d _ => d

/-- The visits of the children, each with the field of the child. -/
def children : Visit → List (Field × Visit)
  | mk _ _ _ bs => bs

/-- The visits of the children in a field, in order. -/
def inField (a : Visit) (f : Field) : List Visit :=
  a.children.filterMap fun b => if b.1 = f then some b.2 else none

/-- The nodes that stand in the place of the node afterwards. -/
def contribution (a : Visit) : List Node :=
  match a.outcome with
  | none | some .keep => [a.given]
  | some (.replace m) => [m]
  | some (.splice ns) => ns.reduceOption
  | some .remove => []

/-- The visit leaves exactly one node, which may be the only one of a row. -/
def Leaves (a : Visit) (n : Node) : Prop :=
  match a.outcome with
  | none | some .keep => n = a.given
  | some (.replace m) => n = m
  | some (.splice ns) => ns = [some n]
  | some .remove => False

/-- The visit takes the node away. -/
def Removes (a : Visit) : Prop :=
  match a.outcome with
  | some (.splice ns) => ns = [none]
  | some .remove => True
  | _ => False

/-- What the visit leaves. -/
def left (a : Visit) : Visited Node :=
  (a.outcome.getD .keep).apply a.given

mutual

/-- The visits at and below a node with the parents of the nodes, children before
    their parents. -/
def visits (parent : Option Node) : Visit → List (Visit × Option Node)
  | mk o g d bs => visitsBelow o bs ++ [(mk o g d bs, parent)]

/-- The visits at and below the children of a node. -/
def visitsBelow (parent : Node) : List (Field × Visit) → List (Visit × Option Node)
  | [] => []
  | (_, a) :: bs => visits (some parent) a ++ visitsBelow parent bs

end

/-- The decision of a visit, if its kind has a handler. -/
def decision? (root : Node) (e : Visit × Option Node) : Option Decision :=
  e.1.outcome.map fun outcome => ⟨e.1.given, e.2, root, outcome⟩

/-- The splice law: what the handler was given, by what the visits of the
    children have left. -/
structure Splices (a : Visit) : Prop where
  /-- The kind and the plain values are those of the original. -/
  head : a.given.head = a.original.head
  /-- So is the place. -/
  loc : a.given.loc = a.original.loc
  /-- Every child of the original is visited once, in order. -/
  children : a.children.map (fun b => (b.1, b.2.original)) = a.original.children
  /-- A sequence holds what the visits of its elements have contributed. -/
  sequence : ∀ f, f.isSequence = true →
    a.given.all f = (a.inField f).flatMap contribution
  /-- A single field holds the node that the visit of the child has left.  It is
      empty only if it was, or if it may be and the child was removed. -/
  single : ∀ f, f.isSequence = false →
    (a.original.all f = [] ∧ a.given.all f = []) ∨
    ∃ b, a.inField f = [b] ∧
      ((∃ n, b.Leaves n ∧ a.given.all f = [n]) ∨
        (b.Removes ∧ a.original.kind.requires f = false ∧ a.given.all f = []))

/-- What a visit does to its node: a leaf is handed on as it is, and any other
    node obeys the splice law. -/
structure Lawful (v : Visitor σ) (a : Visit) : Prop where
  /-- There is a decision where the kind has a handler. -/
  outcome : a.outcome.isSome = (Table.entry? v a.original.kind).isSome
  /-- A leaf is not looked into. -/
  leaf : a.original.kind.isLeaf = true → a.given = a.original ∧ a.children = []
  /-- The splice law. -/
  splices : a.original.kind.isLeaf = false → a.Splices

end Visit

/-! ### Runs that record -/

/-- The same kinds have handlers. -/
theorem entry?_decided (v : Visitor σ) (k : Kind) :
    Table.entry? v.decided k = (Table.entry? v k).map deciding :=
  Table.entry?_map v deciding k

theorem unknownNames_decided (v : Visitor σ) :
    Table.unknownNames v.decided = Table.unknownNames v :=
  Table.unknownNames_map v (·.map deciding)

/-- A handler that decides has its decision recorded. -/
theorem run_deciding {h : Handler σ} {n root : Node} {parent : Option Node} {s s' : σ}
    {outcome : Outcome Node} (ended : (h n parent root).run.run s = (.ok outcome, s'))
    (made : List Decision) :
    (deciding h n parent root).run.run (s, made) =
      (.ok outcome, (s', made ++ [⟨n, parent, root, outcome⟩])) := by
  unfold deciding
  rw [Run.run_bind_ok (Run.run_get _)]
  refine (Run.run_bind_ok (Run.run_set _ _)).trans ?_
  have plain : h n parent root s = (.ok outcome, s') := ended
  rw [Run.run_lift, plain]
  rfl

/-- The run succeeds, and the recording one with it, which records the decisions. -/
def Succeeds {α : Type} (x : Run σ α) (y : Run (σ × List Decision) α) (s : σ) (a : α) (s' : σ)
    (new : List Decision) : Prop :=
  x.run.run s = (.ok a, s') ∧ ∀ made, y.run.run (s, made) = (.ok a, (s', made ++ new))

section

variable {α β : Type}

/-- A run of two steps that succeeds is one of two runs that do. -/
theorem exists_of_bind {x : Run σ α} {f : α → Run σ β} {s s' : σ} {b : β}
    (ended : (x >>= f).run.run s = (.ok b, s')) :
    ∃ a s₁, x.run.run s = (.ok a, s₁) ∧ (f a).run.run s₁ = (.ok b, s') := by
  rw [Run.run_bind] at ended
  generalize x.run.run s = first at ended ⊢
  obtain ⟨r, s₁⟩ := first
  cases r with
  | ok a => exact ⟨a, s₁, rfl, ended⟩
  | error e => cases ended

theorem Succeeds.bind {x : Run σ α} {y : Run (σ × List Decision) α} {f : α → Run σ β}
    {g : α → Run (σ × List Decision) β} {s s₁ s' : σ} {a : α} {b : β} {new new' : List Decision}
    (first : Succeeds x y s a s₁ new) (next : Succeeds (f a) (g a) s₁ b s' new') :
    Succeeds (x >>= f) (y >>= g) s b s' (new ++ new') := by
  refine ⟨(Run.run_bind_ok first.1).trans next.1, fun made => ?_⟩
  rw [Run.run_bind_ok (first.2 made), next.2, List.append_assoc]

theorem succeeds_pure (a : α) (s : σ) :
    Succeeds (pure a : Run σ α) (pure a) s a s [] :=
  ⟨rfl, fun made => by rw [List.append_nil]; rfl⟩

theorem succeeds_lift {r : Except Error α} {a : α} {s s' : σ}
    (ended : (Run.lift r : Run σ α).run.run s = (.ok a, s')) :
    r = .ok a ∧ s' = s ∧ Succeeds (Run.lift r : Run σ α) (Run.lift r) s a s [] := by
  rw [Run.run_lift] at ended
  obtain ⟨rfl, rfl⟩ := Prod.mk.inj ended
  exact ⟨rfl, rfl, succeeds_pure a s⟩

end

/-! ### One field -/

namespace Visit

theorem sequence_left (a : Visit) : a.left.sequence = a.contribution := by
  obtain ⟨original, given, outcome, children⟩ := a
  cases outcome with
  | none => rfl
  | some decided => cases decided <;> rfl

/-- What is left for a sequence is what the visit has contributed. -/
theorem settle_sequence {k : Kind} {f : Field} {a : Visit} (sequence : f.isSequence = true) :
    settle k f a.left = .ok (a.contribution.map (f, ·)) := by
  rw [settle, if_pos sequence, sequence_left]

/-- A single field that can be settled is left with one node, or with none where
    that is allowed. -/
theorem settle_single {k : Kind} {f : Field} {a : Visit} {here : List (Field × Node)}
    (single : f.isSequence = false) (settled : settle k f a.left = .ok here) :
    here = a.contribution.map (f, ·) ∧
      ((∃ n, a.Leaves n ∧ a.contribution = [n]) ∨
        (a.Removes ∧ k.requires f = false ∧ a.contribution = [])) := by
  rw [settle, if_neg (by rw [single]; exact Bool.false_ne_true)] at settled
  obtain ⟨original, given, outcome, children⟩ := a
  -- A single field is left empty only where the kind does not require it.
  have removed (x : Visited Node)
      (empty : x.single k f = if k.requires f then .error (.removedRequired k f) else .ok none)
      (ended : (x.single k f).map (fun n => n.toList.map (f, ·)) = .ok here) :
      k.requires f = false ∧ here = [] := by
    rw [empty] at ended
    by_cases required : k.requires f = true
    · rw [if_pos required] at ended
      cases ended
    · rw [if_neg required] at ended
      cases ended
      exact ⟨Bool.eq_false_iff.mpr required, rfl⟩
  rcases outcome with _ | _ | m | ns | _
  · cases settled
    exact ⟨rfl, .inl ⟨given, rfl, rfl⟩⟩
  · cases settled
    exact ⟨rfl, .inl ⟨given, rfl, rfl⟩⟩
  · cases settled
    exact ⟨rfl, .inl ⟨m, rfl, rfl⟩⟩
  · rcases ns with _ | ⟨_ | m, _ | ⟨other, rest⟩⟩
    · cases settled
    · obtain ⟨optional, rfl⟩ := removed (.several [none]) rfl settled
      exact ⟨rfl, .inr ⟨rfl, optional, rfl⟩⟩
    · cases settled
    · cases settled
      exact ⟨rfl, .inl ⟨m, rfl, rfl⟩⟩
    · cases settled
  · obtain ⟨optional, rfl⟩ := removed .nothing rfl settled
    exact ⟨rfl, .inr ⟨trivial, optional, rfl⟩⟩

theorem settle_left {k : Kind} {f : Field} {a : Visit} {here : List (Field × Node)}
    (settled : settle k f a.left = .ok here) : here = a.contribution.map (f, ·) := by
  by_cases sequence : f.isSequence = true
  · rw [settle_sequence sequence] at settled
    cases settled
    rfl
  · exact (settle_single (Bool.eq_false_iff.mpr sequence) settled).1

/-! ### The children of a node -/

/-- The contributions of the visits in a field stand in that field. -/
theorem within_contributions (f : Field) (bs : List (Field × Visit)) :
    within f (bs.flatMap fun b => b.2.contribution.map (b.1, ·)) =
      (bs.filterMap fun b => if b.1 = f then some b.2 else none).flatMap contribution := by
  induction bs with
  | nil => rfl
  | cons b bs ih =>
    rw [List.flatMap_cons, Node.within_append, ih]
    -- A contribution stands in the field of its visit.
    by_cases same : b.1 = f
    · have first : (if b.1 = f then some b.2 else none) = some b.2 := if_pos same
      rw [List.filterMap_cons, first, same, Node.within_map_self]
      rfl
    · have first : (if b.1 = f then some b.2 else none) = none := if_neg same
      rw [List.filterMap_cons, first, Node.within_map_of_ne same]
      rfl

/-- The visits in a field are those of the children in that field. -/
theorem map_original_inField (a : Visit) (f : Field) :
    (a.inField f).map original = within f (a.children.map fun b => (b.1, b.2.original)) := by
  unfold inField within
  rw [List.map_filterMap, List.filterMap_map]
  congr 1
  funext b
  by_cases same : b.1 = f
  · simp [same]
  · simp [same]

end Visit

theorem Visit.mem_visits (a : Visit) (parent : Option Node) : (a, parent) ∈ a.visits parent := by
  cases a
  exact List.mem_append_right _ (List.mem_singleton_self _)

/-! ### The record of a traversal is one of its run -/

section

variable {v : Visitor σ} {root : Node}

/-- The visit describes a successful traversal of a node under a parent. -/
structure Describes (v : Visitor σ) (root : Node) (parent : Option Node) (n : Node) (s : σ)
    (x : Visited Node) (s' : σ) (a : Visit) : Prop where
  /-- It is a visit of the node. -/
  original : a.original = n
  /-- It leaves what the traversal leaves. -/
  left : a.left = x
  /-- Its nodes are those at and below the node, in visiting order. -/
  nodes : (a.visits parent).map (fun e => (e.1.original, e.2)) = postOrder parent n
  /-- Its decisions are those of the handlers. -/
  succeeds : Succeeds (traverseNode v root parent n) (traverseNode v.decided root parent n) s x s'
    ((a.visits parent).filterMap (Visit.decision? root))
  /-- All visits in it are lawful. -/
  lawful : ∀ e ∈ a.visits parent, e.1.Lawful v

/-- A handler is called once with the node that is left of the children. -/
theorem exists_of_visit {m n : Node} {parent : Option Node} {s s' : σ} {x : Visited Node}
    (kind : m.kind = n.kind) (ended : (v.visit parent root (.one m)).run.run s = (.ok x, s')) :
    ∃ outcome : Option (Outcome Node),
      outcome.isSome = (Table.entry? v n.kind).isSome ∧ x = (outcome.getD .keep).apply m ∧
      Succeeds (v.visit parent root (.one m)) (v.decided.visit parent root (.one m)) s x s'
        (outcome.map (⟨m, parent, root, ·⟩)).toList := by
  unfold visit at ended ⊢
  simp only [entry?_decided, kind] at ended ⊢
  cases found : Table.entry? v n.kind with
  -- Without a handler the node is kept, as a decision that nobody made.
  | none =>
    rw [found] at ended
    cases ended
    exact ⟨none, rfl, rfl, succeeds_pure _ s⟩
  | some h =>
    rw [found] at ended
    obtain ⟨outcome, s₁, called, rest⟩ := exists_of_bind ended
    cases rest
    refine ⟨some outcome, rfl, rfl, ?_⟩
    exact Succeeds.bind ⟨called, run_deciding called⟩ (succeeds_pure _ _)

/-- What is left of the children comes from the visits of the children, settled
    field by field. -/
theorem exists_visits {parent : Node} {cs ds : List (Field × Node)} {s s' : σ}
    (each : ∀ c ∈ cs, ∀ s x s', (traverseNode v root (some parent) c.2).run.run s = (.ok x, s') →
      ∃ a, Describes v root (some parent) c.2 s x s' a)
    (ended : (traverseChildren v root parent cs).run.run s = (.ok ds, s')) :
    ∃ bs : List (Field × Visit),
      bs.map (fun b => (b.1, b.2.original)) = cs ∧
      ds = bs.flatMap (fun b => b.2.contribution.map (b.1, ·)) ∧
      (∀ b ∈ bs, ∃ here, settle parent.kind b.1 b.2.left = .ok here) ∧
      (Visit.visitsBelow parent bs).map (fun e => (e.1.original, e.2)) =
        cs.flatMap (fun c => postOrder (some parent) c.2) ∧
      Succeeds (traverseChildren v root parent cs) (traverseChildren v.decided root parent cs)
        s ds s' ((Visit.visitsBelow parent bs).filterMap (Visit.decision? root)) ∧
      ∀ e ∈ Visit.visitsBelow parent bs, e.1.Lawful v := by
  -- Along the children, as they are traversed.
  induction cs generalizing s ds with
  | nil =>
    cases ended
    exact ⟨[], rfl, rfl, nofun, rfl, succeeds_pure _ _, nofun⟩
  | cons c cs ih =>
    obtain ⟨f, n⟩ := c
    unfold traverseChildren at ended ⊢
    obtain ⟨x, s₁, first, ended⟩ := exists_of_bind ended
    obtain ⟨here, s₂, settling, ended⟩ := exists_of_bind ended
    obtain ⟨others, s₃, rest, ended⟩ := exists_of_bind ended
    cases ended
    obtain ⟨settled, rfl, lifted⟩ := succeeds_lift settling
    obtain ⟨a, describes⟩ := each (f, n) (List.mem_cons_self ..) s x s₂ first
    obtain ⟨bs, original, rfl, each, nodes, below, lawful⟩ :=
      ih (fun c mem => each c (List.mem_cons_of_mem _ mem)) rest
    rw [← describes.left] at settled
    refine ⟨(f, a) :: bs, ?_, ?_, ?_, ?_, ?_, ?_⟩
    · rw [List.map_cons, original, describes.original]
    · rw [List.flatMap_cons, Visit.settle_left settled]
    · intro b mem
      rcases List.mem_cons.mp mem with rfl | mem
      · exact ⟨here, settled⟩
      · exact each b mem
    · rw [Visit.visitsBelow, List.map_append, List.flatMap_cons, describes.nodes, nodes]
    · have last := below.bind (f := fun others => pure (here ++ others))
        (g := fun others => pure (here ++ others)) (succeeds_pure _ _)
      rw [List.append_nil] at last
      rw [Visit.visitsBelow, List.filterMap_append]
      exact describes.succeeds.bind (lifted.bind last)
    · intro e mem
      rcases List.mem_append.mp mem with mem | mem
      · exact describes.lawful e mem
      · exact lawful e mem

/-- The node that a handler is given holds, in each field, what was left of the
    children. -/
theorem splices_of_settled {h : Head} {l : Option Extent} {cs : List (Field × Node)}
    (typed : (Node.mk h l cs).isWellTyped = true) {bs : List (Field × Visit)}
    (original : bs.map (fun b => (b.1, b.2.original)) = cs)
    (each : ∀ b ∈ bs, ∃ here, settle h.kind b.1 b.2.left = .ok here)
    (outcome : Option (Outcome Node)) :
    (Visit.mk (.mk h l cs) (.mk h l (bs.flatMap fun b => b.2.contribution.map (b.1, ·)))
      outcome bs).Splices := by
  refine ⟨rfl, rfl, original, fun f _ => Visit.within_contributions f bs, fun f single => ?_⟩
  let a := Visit.mk (.mk h l cs) (.mk h l (bs.flatMap fun b => b.2.contribution.map (b.1, ·)))
    outcome bs
  show (a.original.all f = [] ∧ a.given.all f = []) ∨ _
  have given : a.given.all f = (a.inField f).flatMap Visit.contribution :=
    Visit.within_contributions f bs
  have before : (a.inField f).map Visit.original = a.original.all f := by
    rw [Visit.map_original_inField]
    exact congrArg (within f) original
  -- A well-typed node has at most one child in a single field.
  have few : (a.original.all f).length ≤ 1 := Node.length_all_le_one typed single
  rw [← before, List.length_map] at few
  rcases found : a.inField f with _ | ⟨b, others⟩
  · rw [found] at given before
    exact .inl ⟨before.symm, given⟩
  · rw [found, List.length_cons] at few
    have alone : others = [] := List.eq_nil_of_length_eq_zero (by omega)
    subst alone
    have mem : (f, b) ∈ bs := by
      have inside : b ∈ a.inField f := found ▸ List.mem_cons_self ..
      obtain ⟨c, mem, same⟩ := List.mem_filterMap.mp inside
      by_cases here : c.1 = f
      · rw [if_pos here] at same
        cases same
        exact here ▸ mem
      · rw [if_neg here] at same
        cases same
    obtain ⟨here, settled⟩ := each (f, b) mem
    obtain ⟨-, left⟩ := Visit.settle_single single settled
    rw [found, List.flatMap_cons, List.flatMap_nil, List.append_nil] at given
    refine .inr ⟨b, rfl, ?_⟩
    rcases left with ⟨n, leaves, one⟩ | ⟨removes, optional, none⟩
    · exact .inl ⟨n, leaves, given.trans one⟩
    · exact .inr ⟨removes, optional, given.trans none⟩

/-- A successful traversal of a node is described by a visit. -/
theorem exists_describes {n : Node} (typed : n.isWellTyped = true) (parent : Option Node)
    {s s' : σ} {x : Visited Node}
    (ended : (traverseNode v root parent n).run.run s = (.ok x, s')) :
    ∃ a, Describes v root parent n s x s' a := by
  induction n using Node.induct generalizing parent s s' x with
  | step h l cs ih =>
    have order := postOrder_eq typed parent
    unfold traverseNode at ended
    by_cases leaf : h.kind.isLeaf = true
    · rw [if_pos leaf] at ended
      obtain ⟨outcome, present, rfl, called⟩ := exists_of_visit rfl ended
      refine ⟨.mk (.mk h l cs) (.mk h l cs) outcome [], rfl, rfl, ?_, ?_, ?_⟩
      · simp only [Node.kind, Node.head, leaf, if_true] at order
        exact order.symm
      · unfold traverseNode
        rw [if_pos leaf, if_pos leaf]
        cases outcome <;> exact called
      · intro e mem
        cases List.mem_singleton.mp mem
        exact ⟨present, fun _ => ⟨rfl, rfl⟩, fun inner => absurd leaf (Bool.eq_false_iff.mp inner)⟩
    · rw [if_neg leaf] at ended
      obtain ⟨ds, s₁, below, ended⟩ := exists_of_bind ended
      obtain ⟨bs, original, rfl, each, nodes, recorded, lawful⟩ := exists_visits
        (fun c mem s x s' done => ih c mem (Node.isWellTyped_of_mem typed mem) _ done) below
      -- The handler gets the node with what its visited children contribute.
      let given := Node.mk h l (bs.flatMap fun b => b.2.contribution.map (b.1, ·))
      have kind : given.kind = (Node.mk h l cs).kind := rfl
      obtain ⟨outcome, present, rfl, called⟩ := exists_of_visit kind ended
      let a := Visit.mk (.mk h l cs) given outcome bs
      have splices : a.Splices := splices_of_settled typed original each outcome
      refine ⟨a, rfl, rfl, ?_, ?_, ?_⟩
      · simp only [Node.kind, Node.head, Node.children, leaf] at order
        rw [order, ← nodes]
        exact List.map_append
      · unfold traverseNode
        rw [if_neg leaf, if_neg leaf]
        have whole := recorded.bind (f := fun ds => v.visit parent root (.one (.mk h l ds)))
          (g := fun ds => v.decided.visit parent root (.one (.mk h l ds))) called
        show Succeeds _ _ s _ s' ((Visit.visitsBelow _ bs ++ [(a, parent)]).filterMap _)
        rw [List.filterMap_append]
        cases outcome <;> exact whole
      · intro e mem
        -- The visits below are lawful already; what is new is the visit of the node itself.
        rcases List.mem_append.mp mem with mem | mem
        · exact lawful e mem
        · cases List.mem_singleton.mp mem
          exact ⟨present, fun inner => absurd inner leaf, fun _ => splices⟩

end

/-- The splice law.  A traversal of a well-typed tree that succeeds has a record: a
    visit for every node of the tree, in visiting order, with the decisions that the
    handlers returned.  In it a leaf is handed on as it is, and every other node is
    handed on with its own values and its place; each of its sequences is what the
    visits of the elements have contributed, in order; and each of its single fields
    is the node that is left of the child, which is missing only if it was, or if it
    may be and was removed.  What is left of the root is the result. -/
theorem traverse_splices (v : Visitor σ) (t : Node) (typed : t.isWellTyped = true) (s s' : σ)
    (x : Visited Node) (succeeds : (traverse v t).run.run s = (.ok x, s')) :
    ∃ a : Visit,
      (a.visits none).map (fun e => (e.1.original, e.2)) = postOrder none t ∧
      v.decisions t s = (a.visits none).filterMap (Visit.decision? t) ∧
      (∀ e ∈ a.visits none, e.1.Lawful v) ∧
      a.original = t ∧ a.left = x := by
  have names : Table.unknownNames v = [] := by
    unfold traverse at succeeds
    cases found : Table.unknownNames v with
    | nil => rfl
    | cons name names =>
      rw [found] at succeeds
      cases succeeds
  have plain : traverse v t = traverseNode v t none t := by rw [traverse, names]
  have recording : traverse v.decided t = traverseNode v.decided t none t := by
    rw [traverse, unknownNames_decided, names]
  rw [plain] at succeeds
  obtain ⟨a, describes⟩ := exists_describes typed none succeeds
  refine ⟨a, describes.nodes, ?_, describes.lawful, describes.original, describes.left⟩
  unfold decisions
  rw [recording, describes.succeeds.2 []]
  rfl

/-- An argument is removed, another one makes room for two, and the target of a
    redirection is replaced by a row of one. -/
theorem traverse_splices_command :
    let word (text : String) : Node := .mk (.word text) none []
    let redirect (file : Node) : Node := .mk (.redirect ">" none) none [(.file, file)]
    let command (suffix : List Node) : Node :=
      .mk (.command false) none ((.name, word "a") :: suffix.map (.suffix, ·))
    let t := command [word "b", redirect (word "c"), word "d", word "e"]
    let r := command [redirect (word "f"), word "d", word "d", word "e"]
    let v : Visitor Unit := [("Word", some fun n _ _ =>
      pure (if n.text? = some "b" then .remove
        else if n.text? = some "c" then .splice [some (word "f")]
        else if n.text? = some "d" then .splice [some n, none, some n] else .keep))]
    t.isWellTyped = true ∧ (traverse v t).run.run () = (.ok (.one r), ()) ∧
      ∃ a : Visit, a.original = t ∧ a.given = r ∧
        (a.inField .suffix).map Visit.original = t.all .suffix ∧
        r.all .suffix = (a.inField .suffix).flatMap Visit.contribution := by
  intro word redirect command t r v
  have typed : t.isWellTyped = true := by decide
  have ended : (traverse v t).run.run () = (.ok (.one r), ()) := by rfl
  obtain ⟨a, -, -, lawful, original, left⟩ := traverse_splices v t typed () () (.one r) ended
  have own : a.Lawful v := lawful (a, none) (a.mem_visits none)
  have inner : a.original.kind.isLeaf = false := by rw [original]; rfl
  have splices := own.splices inner
  -- Commands have no handler, so what is left is what would have been given.
  have given : a.given = r := by
    have none : a.outcome.isSome = false := by rw [own.outcome, original]; rfl
    have plain : a.outcome = Option.none := by simpa using none
    rw [Visit.left, plain] at left
    exact Visited.one.inj left
  refine ⟨typed, ended, a, original, given, ?_, ?_⟩
  · rw [Visit.map_original_inField, splices.children, original]
    rfl
  · rw [← given]
    exact splices.sequence .suffix rfl

end ShellInliner.Visitor
