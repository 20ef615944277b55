import ShellInliner.Proofs.Node.Subtree

/-! # Addresses

    The address of a node in a tree tells which child to take at each step from the
    root.  Addresses tell nodes apart that look the same, and the order in which a tree
    is visited is an order of addresses: a node comes after everything inside it, and
    children come in the order in which they stand.  In a well-typed tree this is the order
    in which their fields are visited. -/

namespace ShellInliner.Node

/-- The node at an address. -/
def at? : Node → List Nat → Option Node
  | t, [] => some t
  | t, i :: a => t.children[i]?.bind fun c => c.2.at? a

/-- What stands at the first address is visited before what stands at the second one. -/
inductive VisitedBefore : List Nat → List Nat → Prop
  /-- It stands inside of it. -/
  | inside (i : Nat) (a : List Nat) : VisitedBefore (i :: a) []
  /-- It stands in an earlier child. -/
  | earlier {i j : Nat} (a b : List Nat) (first : i < j) : VisitedBefore (i :: a) (j :: b)
  /-- Both stand in one child, and there it is visited before. -/
  | same (i : Nat) {a b : List Nat} (before : VisitedBefore a b) :
      VisitedBefore (i :: a) (i :: b)

theorem VisitedBefore.ne {a b : List Nat} (before : VisitedBefore a b) : a ≠ b := by
  induction before with
  | inside i a => exact List.cons_ne_nil i a
  | earlier a b first => exact fun same => Nat.ne_of_lt first (List.cons.inj same).1
  | same i _ ih => exact fun same => ih (List.cons.inj same).2

/-- The children stand in the order in which their fields are visited. -/
def InFieldOrder (n : Node) : Prop :=
  n.children.Pairwise fun c d => n.kind.fieldOrder.idxOf c.1 ≤ n.kind.fieldOrder.idxOf d.1

theorem inFieldOrder {n : Node} (typed : n.isWellTyped = true) : n.InFieldOrder := by
  have ranks : n.kind.fieldOrder.Pairwise fun f g =>
      n.kind.fieldOrder.idxOf f ≤ n.kind.fieldOrder.idxOf g := by
    cases n.kind <;> decide
  have field {f : Field} {c : Field × Node} (mem : c ∈ n.children.filter (·.1 = f)) : c.1 = f :=
    of_decide_eq_true (List.mem_filter.mp mem).2
  unfold InFieldOrder
  rw [children_eq_flatMap typed, List.pairwise_flatMap]
  constructor
  · -- Within a field all ranks are equal.
    intro f _
    refine List.pairwise_of_forall_mem_list fun c first d second => ?_
    exact Nat.le_of_eq (by rw [field first, field second])
  · refine ranks.imp fun before c first d second => ?_
    rwa [field first, field second]

/-- What stands in a well-typed tree is well-typed. -/
theorem isWellTyped_of_at? {t n : Node} (typed : t.isWellTyped = true) {a : List Nat}
    (there : t.at? a = some n) : n.isWellTyped = true := by
  induction a generalizing t with
  | nil =>
    cases there
    exact typed
  | cons i a ih =>
    obtain ⟨c, found, below⟩ := Option.bind_eq_some_iff.mp there
    exact ih (isWellTyped_of_mem typed (List.mem_of_getElem? found)) below

mutual

/-- The nodes of a tree that pass a test, with their addresses, in visiting order. -/
def addressed (p : Node → Bool) : Node → List (List Nat × Node)
  | mk h l cs => addressedIn p 0 cs ++ if p (mk h l cs) then [([], mk h l cs)] else []

/-- The nodes at and below the children from a number on that pass a test. -/
def addressedIn (p : Node → Bool) (i : Nat) : List (Field × Node) → List (List Nat × Node)
  | [] => []
  | (_, n) :: cs => (addressed p n).map (fun x => (i :: x.1, x.2)) ++ addressedIn p (i + 1) cs

end

variable {p : Node → Bool}

theorem mem_addressedIn_iff {i : Nat} {cs : List (Field × Node)} {a : List Nat} {n : Node} :
    (a, n) ∈ addressedIn p i cs ↔
      ∃ j b c, a = (i + j) :: b ∧ cs[j]? = some c ∧ (b, n) ∈ addressed p c.2 := by
  induction cs generalizing i with
  | nil => simp [addressedIn]
  | cons c cs ih =>
    rw [addressedIn, List.mem_append, ih]
    constructor
    · -- An address in the first child has number `i`, and one in the others a later number.
      rintro (here | ⟨j, b, d, rfl, found, mem⟩)
      · obtain ⟨⟨b, m⟩, mem, same⟩ := List.mem_map.mp here
        cases same
        exact ⟨0, b, c, rfl, rfl, mem⟩
      · exact ⟨j + 1, b, d, by rw [Nat.add_right_comm, Nat.add_assoc], found, mem⟩
    · rintro ⟨j, b, d, rfl, found, mem⟩
      cases j with
      | zero =>
        cases found
        exact .inl (List.mem_map.mpr ⟨(b, n), mem, rfl⟩)
      | succ j => exact .inr ⟨j, b, d, by rw [Nat.add_right_comm, Nat.add_assoc], found, mem⟩

/-- All nodes that pass the test are there. -/
theorem mem_addressed_iff {t n : Node} {a : List Nat} :
    (a, n) ∈ addressed p t ↔ t.at? a = some n ∧ p n = true := by
  induction t using induct generalizing a with
  | step h l cs ih =>
    rw [addressed, List.mem_append, mem_addressedIn_iff]
    -- The empty address is that of the root, and any other leads into a child.
    cases a with
    | nil =>
      rw [at?]
      constructor
      · rintro (⟨_, _, _, other, -⟩ | self)
        · cases other
        · split at self
          · cases List.mem_singleton.mp self
            exact ⟨rfl, ‹_›⟩
          · cases self
      · rintro ⟨⟨⟩, passes⟩
        exact .inr (by rw [if_pos passes]; exact List.mem_singleton_self _)
    | cons i a =>
      rw [at?, Option.bind_eq_some_iff]
      constructor
      · rintro (⟨j, b, c, same, found, mem⟩ | self)
        · cases same
          rw [Nat.zero_add]
          obtain ⟨there, passes⟩ := (ih c (List.mem_of_getElem? found)).mp mem
          exact ⟨⟨c, found, there⟩, passes⟩
        · split at self
          · cases List.mem_singleton.mp self
          · cases self
      · rintro ⟨⟨c, found, there⟩, passes⟩
        exact .inl ⟨i, a, c, by rw [Nat.zero_add], found,
          (ih c (List.mem_of_getElem? found)).mpr ⟨there, passes⟩⟩

theorem pairwise_addressedIn {i : Nat} {cs : List (Field × Node)}
    (each : ∀ c ∈ cs, (addressed p c.2).Pairwise fun x y => VisitedBefore x.1 y.1) :
    (addressedIn p i cs).Pairwise fun x y => VisitedBefore x.1 y.1 := by
  induction cs generalizing i with
  | nil => exact .nil
  | cons c cs ih =>
    rw [addressedIn]
    refine List.pairwise_append.mpr ⟨?_, ih fun d mem => each d (List.mem_cons_of_mem _ mem), ?_⟩
    · exact List.pairwise_map.mpr ((each c (List.mem_cons_self ..)).imp fun before => .same i before)
    · rintro x here ⟨b, m⟩ later
      obtain ⟨y, -, rfl⟩ := List.mem_map.mp here
      obtain ⟨j, b', d, rfl, -⟩ := mem_addressedIn_iff.mp later
      exact .earlier _ _ (by omega)

/-- Each stands at its place in the visiting order, and so none stands there twice. -/
theorem pairwise_addressed (t : Node) :
    (addressed p t).Pairwise fun x y => VisitedBefore x.1 y.1 := by
  induction t using induct with
  | step h l cs ih =>
    rw [addressed]
    refine List.pairwise_append.mpr ⟨pairwise_addressedIn ih, ?_, ?_⟩
    · split
      · exact List.pairwise_singleton ..
      · exact .nil
    · -- Whatever stands below a node is visited before it.
      rintro ⟨a, m⟩ below y self
      obtain ⟨j, b, c, rfl, -⟩ := mem_addressedIn_iff.mp below
      split at self
      · cases List.mem_singleton.mp self
        exact .inside _ _
      · cases self

/-- Nothing but the node itself has the empty address. -/
theorem filter_addressed (t : Node) :
    (addressed p t).filter (·.1.length == 0) = if p t then [([], t)] else [] := by
  have below (i : Nat) (cs : List (Field × Node)) :
      (addressedIn p i cs).filter (·.1.length == 0) = [] := by
    refine List.filter_eq_nil_iff.mpr ?_
    rintro ⟨a, m⟩ mem
    obtain ⟨j, b, c, rfl, -⟩ := mem_addressedIn_iff.mp mem
    simp
  cases t with
  | mk h l cs =>
    rw [addressed, List.filter_append, below, List.nil_append]
    split <;> rfl

/-- Addresses of one step are those of the children. -/
theorem filter_addressedIn (i : Nat) (cs : List (Field × Node)) :
    ((addressedIn p i cs).filter (·.1.length == 1)).map (·.2) = (cs.map (·.2)).filter p := by
  induction cs generalizing i with
  | nil => rfl
  | cons c cs ih =>
    obtain ⟨f, n⟩ := c
    -- One step leads to the child itself, whose own address is empty.
    have here : ((addressed p n).map fun x => (i :: x.1, x.2)).filter (·.1.length == 1) =
        ((addressed p n).filter (·.1.length == 0)).map fun x => (i :: x.1, x.2) := by
      rw [List.filter_map]
      congr 2
      funext x
      simp
    rw [addressedIn, List.filter_append, List.map_append, ih, here, filter_addressed, List.map_cons,
      List.filter_cons]
    split <;> rfl

end ShellInliner.Node
