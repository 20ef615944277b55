import ShellInliner.Proofs.Visit.Identity

/-! # Two traversals in one

    A visitor that puts another leaf of the same kind in the place of each leaf does
    not change what is visited.  So a traversal by a second one of this kind sees the
    leaves that the first one has left, each once and in the same order, and a single
    traversal that calls both handlers for each leaf does the same as the two.

    Each visitor has a state of its own.  A handler may go by what it has seen so
    far, and the calls of one visitor do not depend on when the other one is called. -/

namespace ShellInliner.Visitor

variable {σ τ : Type}

/-! ### Handlers one after the other -/

/-- The first handler, with its state beside another one. -/
def onFirst (h : Handler σ) : Handler (σ × τ) := fun n parent root => do
  let (s, u) ← get
  let (outcome, s') := (h n parent root).run.run s
  set (s', u)
  Run.lift outcome

/-- The second handler, with its state beside another one. -/
def onSecond (h : Handler τ) : Handler (σ × τ) := fun n parent root => do
  let (s, u) ← get
  let (outcome, u') := (h n parent root).run.run u
  set (s, u')
  Run.lift outcome

/-- A handler after another one: it is given the node that the other one puts in the
    place of its node. -/
def andThen (h : Handler σ) (h' : Handler τ) : Handler (σ × τ) := fun n parent root => do
  match ← onFirst h n parent root with
  | .replace m => onSecond h' m parent root
  | outcome => return outcome

/-- The handler for a kind that one or two visitors have handlers for. -/
def fuse : Option (Handler σ) → Option (Handler τ) → Option (Handler (σ × τ))
  | none, none => none
  | some h, none => some (onFirst h)
  | none, some h' => some (onSecond h')
  | some h, some h' => some (andThen h h')

/-- The kinds of leaves that have a text. -/
def textKinds : List Kind := [.word, .assignmentWord, .name]

/-- The second visitor after the first one, kind by kind. -/
def fused (f : Visitor σ) (g : Visitor τ) : Visitor (σ × τ) :=
  textKinds.map fun k => (k.label, fuse (Table.entry? f k) (Table.entry? g k))

section

variable {h : Handler σ} {h' : Handler τ} {n m : Node} {parent : Option Node} {root : Node}
  {s s' : σ} {u u' : τ}

theorem run_onFirst {o : Outcome Node} (called : (h n parent root).run.run s = (.ok o, s'))
    (u : τ) :
    (onFirst h n parent root).run.run (s, u) = (.ok o, (s', u)) := by
  have plain : h n parent root s = (.ok o, s') := called
  unfold onFirst
  rw [Run.run_bind_ok (Run.run_get _)]
  refine (Run.run_bind_ok (Run.run_set _ _)).trans ?_
  rw [Run.run_lift, plain]

theorem run_onSecond {o : Outcome Node} (called : (h' n parent root).run.run u = (.ok o, u'))
    (s : σ) : (onSecond h' n parent root).run.run (s, u) = (.ok o, (s, u')) := by
  have plain : h' n parent root u = (.ok o, u') := called
  unfold onSecond
  rw [Run.run_bind_ok (Run.run_get _)]
  refine (Run.run_bind_ok (Run.run_set _ _)).trans ?_
  rw [Run.run_lift, plain]

theorem run_andThen {o : Outcome Node}
    (first : (h n parent root).run.run s = (.ok (.replace m), s'))
    (second : (h' m parent root).run.run u = (.ok o, u')) :
    (andThen h h' n parent root).run.run (s, u) = (.ok o, (s', u')) := by
  unfold andThen
  rw [Run.run_bind_ok (run_onFirst first u)]
  exact run_onSecond second s'

end

/-- The kinds of leaves that have a text have the handlers of both visitors, and no
    other kind has one. -/
theorem entry?_fused (f : Visitor σ) (g : Visitor τ) (k : Kind) : Table.entry? (fused f g) k =
    if k ∈ textKinds then fuse (Table.entry? f k) (Table.entry? g k) else none := by
  cases k with
  | word | assignmentWord | name => exact Option.or_none
  | _ => rfl

theorem unknownNames_fused (f : Visitor σ) (g : Visitor τ) :
    Table.unknownNames (fused f g) = [] := by
  rfl

theorem isLeaf_of_mem_textKinds {k : Kind} (text : k ∈ textKinds) : k.isLeaf = true := by
  revert text
  cases k <;> decide

/-! ### Visitors that rewrite leaves -/

/-- The visitor puts another leaf of the same kind in the place of each leaf that it
    has a handler for, and it has handlers for leaves with a text only.  The parent
    and the root are nothing to it. -/
structure RewritesLeaves (v : Visitor σ) : Prop where
  /-- The names in the table are known. -/
  known : Table.unknownNames v = []
  /-- Only leaves with a text have handlers. -/
  leaf : ∀ k h, Table.entry? v k = some h → k ∈ textKinds
  /-- A handler returns a single leaf of the same kind. -/
  rewrites : ∀ k h, Table.entry? v k = some h → ∀ n parent root s, n.kind = k →
    ∃ m s', (h n parent root).run.run s = (.ok (.replace m), s') ∧ m.kind = k
  /-- What it does depends on the leaf alone. -/
  blind : ∀ k h, Table.entry? v k = some h → ∀ n parent root parent' root',
    h n parent root = h n parent' root'

namespace RewritesLeaves

theorem entry?_inner {v : Visitor σ} (rewrites : RewritesLeaves v) {k : Kind}
    (inner : k.isLeaf = false) : Table.entry? v k = none := by
  cases found : Table.entry? v k with
  | none => rfl
  | some h =>
    have leaf := isLeaf_of_mem_textKinds (rewrites.leaf k h found)
    rw [inner] at leaf
    cases leaf

/-- The handler for a leaf puts the same leaf in its place wherever it stands. -/
theorem exists_replace {v : Visitor σ} (rewrites : RewritesLeaves v) {n : Node} {h : Handler σ}
    (found : Table.entry? v n.kind = some h) (s : σ) :
    ∃ m s', (∀ parent root, (h n parent root).run.run s = (.ok (.replace m), s')) ∧
      m.kind = n.kind := by
  obtain ⟨m, s', called, kind⟩ := rewrites.rewrites n.kind h found n none n s rfl
  refine ⟨m, s', fun parent root => ?_, kind⟩
  rw [rewrites.blind n.kind h found n parent root none n]
  exact called

end RewritesLeaves

/-! ### One traversal for two -/

/-- The visit of a node leaves another node, wherever the first one stands. -/
def Turns (v : Visitor σ) (n : Node) (s : σ) (m : Node) (s' : σ) : Prop :=
  ∀ parent root, (v.visit parent root (.one n)).run.run s = (.ok (.one m), s')

/-- The traversal of a node leaves another node, wherever the first one stands. -/
def Leaves (v : Visitor σ) (n : Node) (s : σ) (m : Node) (s' : σ) : Prop :=
  ∀ parent root, (traverseNode v root parent n).run.run s = (.ok (.one m), s')

theorem turns_of_none {v : Visitor σ} {n : Node} (none : Table.entry? v n.kind = none) (s : σ) :
    Turns v n s n s :=
  fun _ _ => run_visit_of_none none s

theorem turns_of_some {v : Visitor σ} {n m : Node} {h : Handler σ} {s s' : σ}
    (found : Table.entry? v n.kind = some h)
    (called : ∀ parent root, (h n parent root).run.run s = (.ok (.replace m), s')) :
    Turns v n s m s' :=
  fun parent root => run_visit_of_some found (called parent root)

section

variable {f : Visitor σ} {g : Visitor τ}

/-- A node is visited by the first visitor, and what that leaves by the second one; or
    both visits are made at once. -/
theorem exists_turns (rewrites : RewritesLeaves f) (rewrites' : RewritesLeaves g) (n : Node)
    (s : σ) (u : τ) :
    ∃ x y s' u', Turns f n s x s' ∧ Turns g x u y u' ∧ Turns (fused f g) n (s, u) y (s', u') ∧
      x.kind = n.kind := by
  have entry := entry?_fused f g n.kind
  cases first : Table.entry? f n.kind with
  | none =>
    have stays := turns_of_none first s
    cases second : Table.entry? g n.kind with
    | none =>
      have neither : Table.entry? (fused f g) n.kind = none := by
        rw [entry, first, second]
        split <;> rfl
      exact ⟨n, n, s, u, stays, turns_of_none second u, turns_of_none neither (s, u), rfl⟩
    | some h' =>
      obtain ⟨m, u', called, -⟩ := rewrites'.exists_replace second u
      have own : Table.entry? (fused f g) n.kind = some (onSecond h') := by
        rw [entry, first, second, if_pos (rewrites'.leaf _ _ second)]
        rfl
      exact ⟨n, m, s, u', stays, turns_of_some second called,
        turns_of_some own fun p r => run_onSecond (called p r) s, rfl⟩
  | some h =>
    obtain ⟨m, s', called, kind⟩ := rewrites.exists_replace first s
    have turns := turns_of_some first called
    have text := rewrites.leaf _ _ first
    cases second : Table.entry? g n.kind with
    | none =>
      have own : Table.entry? (fused f g) n.kind = some (onFirst h) := by
        rw [entry, first, second, if_pos text]
        rfl
      rw [← kind] at second
      exact ⟨m, m, s', u, turns, turns_of_none second u,
        turns_of_some own fun p r => run_onFirst (called p r) u, kind⟩
    | some h' =>
      have both : Table.entry? (fused f g) n.kind = some (andThen h h') := by
        rw [entry, first, second, if_pos text]
        rfl
      -- The second handler is that of the leaf which the first one leaves.
      rw [← kind] at second
      obtain ⟨m', u', called', -⟩ := rewrites'.exists_replace second u
      exact ⟨m, m', s', u', turns, turns_of_some second called',
        turns_of_some both fun p r => run_andThen (called p r) (called' p r), kind⟩

/-- The children of a node one after the other, under any parent. -/
theorem exists_run_children {cs : List (Field × Node)}
    (each : ∀ c ∈ cs, ∀ s u, ∃ x y s' u', Leaves f c.2 s x s' ∧ Leaves g x u y u' ∧
      Leaves (fused f g) c.2 (s, u) y (s', u')) (s : σ) (u : τ) :
    ∃ ds es s' u', (∀ root q, (traverseChildren f root q cs).run.run s = (.ok ds, s')) ∧
      (∀ root q, (traverseChildren g root q ds).run.run u = (.ok es, u')) ∧
      ∀ root q, (traverseChildren (fused f g) root q cs).run.run (s, u) =
        (.ok es, (s', u')) := by
  induction cs generalizing s u with
  | nil => exact ⟨[], [], s, u, fun _ _ => rfl, fun _ _ => rfl, fun _ _ => rfl⟩
  | cons c cs ih =>
    obtain ⟨field, n⟩ := c
    obtain ⟨x, y, s₁, u₁, first, second, both⟩ := each (field, n) (List.mem_cons_self ..) s u
    -- The second traversal goes over the row that the first one leaves.
    obtain ⟨ds, es, s', u', firsts, seconds, boths⟩ :=
      ih (fun d mem => each d (List.mem_cons_of_mem _ mem)) s₁ u₁
    exact ⟨(field, x) :: ds, (field, y) :: es, s', u',
      fun root q => run_traverseChildren_cons (first (some q) root) (firsts root q),
      fun root q => run_traverseChildren_cons (second (some q) root) (seconds root q),
      fun root q => run_traverseChildren_cons (both (some q) root) (boths root q)⟩

/-- The traversals of a node.  What a node becomes does not depend on where it stands,
    and so the parent and the root may differ between the three. -/
theorem exists_leaves (rewrites : RewritesLeaves f) (rewrites' : RewritesLeaves g) (n : Node)
    (s : σ) (u : τ) :
    ∃ x y s' u', Leaves f n s x s' ∧ Leaves g x u y u' ∧
      Leaves (fused f g) n (s, u) y (s', u') := by
  induction n using Node.induct generalizing s u with
  | step h l cs ih =>
    cases leaf : h.kind.isLeaf with
    | true =>
      have leaf' : (Node.mk h l cs).kind.isLeaf = true := leaf
      obtain ⟨x, y, s', u', first, second, both, kind⟩ :=
        exists_turns rewrites rewrites' (.mk h l cs) s u
      -- What the first traversal leaves is a leaf again, so the second one goes no deeper.
      have leaf'' : x.kind.isLeaf = true := by rw [kind, leaf']
      refine ⟨x, y, s', u', fun p r => ?_, fun p r => ?_, fun p r => ?_⟩
      · rw [traverseNode_leaf leaf', first]
      · rw [traverseNode_leaf leaf'', second]
      · rw [traverseNode_leaf leaf', both]
    | false =>
      obtain ⟨ds, es, s', u', firsts, seconds, boths⟩ := exists_run_children ih s u
      -- The node itself is no leaf, and so none of the visitors has a handler for it.
      have no : Table.entry? f h.kind = none := rewrites.entry?_inner leaf
      have no' : Table.entry? g h.kind = none := rewrites'.entry?_inner leaf
      have neither : Table.entry? (fused f g) h.kind = none := by
        rw [entry?_fused, no, no']
        split <;> rfl
      refine ⟨.mk h l ds, .mk h l es, s', u', fun p r => ?_, fun p r => ?_, fun p r => ?_⟩
      · exact (run_traverseNode_inner leaf (firsts r _)).trans (run_visit_of_none no s')
      · exact (run_traverseNode_inner leaf (seconds r _)).trans (run_visit_of_none no' u')
      · exact (run_traverseNode_inner leaf (boths r _)).trans (run_visit_of_none neither (s', u'))

end

/-- The fusion law.  Let two visitors put other leaves of the same kind in the place
    of words, assignments and names, whatever the parent and the root are.  Then the
    traversal of a tree by the first one, the traversal of its result by the second
    one, and a single traversal by both, kind by kind, all succeed; the last two have
    the same result, and the handlers are left in the same states. -/
theorem traverse_fused (f : Visitor σ) (g : Visitor τ) (rewrites : RewritesLeaves f)
    (rewrites' : RewritesLeaves g) (t : Node) (s : σ) (u : τ) :
    ∃ x y s' u', (traverse f t).run.run s = (.ok (.one x), s') ∧
      (traverse g x).run.run u = (.ok (.one y), u') ∧
      (traverse (fused f g) t).run.run (s, u) = (.ok (.one y), (s', u')) := by
  obtain ⟨x, y, s', u', first, second, both⟩ := exists_leaves rewrites rewrites' t s u
  refine ⟨x, y, s', u', ?_, ?_, ?_⟩
  · rw [traverse_of_known rewrites.known]
    exact first none t
  · rw [traverse_of_known rewrites'.known]
    exact second none x
  · rw [traverse_of_known (unknownNames_fused f g)]
    exact both none t

/-- A loop over words.  The first visitor notes the text of each word and puts another
    word in its place; the second one counts the words and the assignments that it
    sees, and renames the variable. -/
theorem traverse_fused_loop :
    let word (text : String) : Node := .mk (.word text) none []
    let name (text : String) : Node := .mk (.name text) none []
    let body (text : String) : Node := .mk (.compoundList false) none
      [(.commands, .mk (.command false) none
        [(.name, word text), (.leading, .mk (.assignmentWord "b=1") none [])])]
    let loop (x text last : String) : Node := .mk (.forLoop false) none
      [(.name, name x), (.loopBody, body text), (.wordlist, word text), (.wordlist, word last)]
    let f : Visitor (List (Option String)) := [("Word", some fun n _ _ => do
      modify (n.text? :: ·)
      return .replace (word "p"))]
    let g : Visitor Nat := [("Name", some fun _ _ _ => return .replace (name "y")),
      ("Word", some fun n _ _ => do
        modify (· + 1)
        return .replace (n.withHead (.word "q"))),
      ("AssignmentWord", some fun n _ _ => do
        modify (· + 1)
        return .replace n)]
    RewritesLeaves f ∧ RewritesLeaves g ∧
      (traverse (fused f g) (loop "x" "a" "c")).run.run ([], 0) =
        (.ok (.one (loop "y" "q" "q")), ([some "c", some "a", some "a"], 4)) := by
  intro word name body loop f g
  have rewrites : RewritesLeaves f := by
    refine ⟨rfl, ?_, ?_, ?_⟩
    · intro k h found
      cases k <;> cases found
      decide
    · intro k h found n parent root s kind
      cases k <;> cases found
      exact ⟨word "p", n.text? :: s, rfl, rfl⟩
    · intro k h found n parent root parent' root'
      cases k <;> cases found
      rfl
  have rewrites' : RewritesLeaves g := by
    refine ⟨rfl, ?_, ?_, ?_⟩
    · intro k h found
      cases k <;> cases found <;> decide
    · intro k h found n parent root u kind
      cases k <;> cases found
      · exact ⟨name "y", u, rfl, rfl⟩
      · exact ⟨n.withHead (.word "q"), u + 1, rfl, rfl⟩
      · exact ⟨n, u + 1, rfl, kind⟩
    · intro k h found n parent root parent' root'
      cases k <;> cases found <;> rfl
  obtain ⟨x, y, s', u', first, second, both⟩ :=
    traverse_fused f g rewrites rewrites' (loop "x" "a" "c") [] 0
  -- The first traversal is run, and then the second one on what it has left.
  have ended : (traverse f (loop "x" "a" "c")).run.run [] =
      (.ok (.one (loop "x" "p" "p")), [some "c", some "a", some "a"]) := by rfl
  rw [ended] at first
  cases first
  have ended' : (traverse g (loop "x" "p" "p")).run.run 0 = (.ok (.one (loop "y" "q" "q")), 4) := by
    rfl
  rw [ended'] at second
  cases second
  exact ⟨rewrites, rewrites', both⟩

end ShellInliner.Visitor
