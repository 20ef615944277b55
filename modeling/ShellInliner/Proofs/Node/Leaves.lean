import ShellInliner.Proofs.Node.Assemble

/-! # Leaves

    The words and names of a tree in the order in which they stand in a script.
    This is the order of the fields as they are written, but for commands: what
    comes before the name of a command stands before it. -/

namespace ShellInliner

/-- The field of a member, if it holds children. -/
def Member.field? : Member → Option Field
  | .attribute _ _ => none
  | .child f _ _ => some f

/-- The fields of a kind in the order in which their children stand in a script. -/
def Kind.sourceOrder : Kind → List Field
  | .command => [.leading, .name, .suffix]
  | k => k.members.filterMap Member.field?

namespace Node

mutual

/-- The words and names of a tree, in the order of the script. -/
def leaves : Node → List Node
  | mk h l cs =>
    if h.text?.isSome then [mk h l cs]
    else h.kind.sourceOrder.flatMap fun f => ((leavesIn cs).filter (·.1 = f)).flatMap (·.2)

/-- The words and names of each child, with the field that the child fills. -/
def leavesIn : List (Field × Node) → List (Field × List Node)
  | [] => []
  | (f, n) :: cs => (f, leaves n) :: leavesIn cs

end

variable {t n : Node}

/-! ### Leaves field by field -/

theorem leaves_of_isSome (named : n.text?.isSome = true) : n.leaves = [n] := by
  cases n with
  | mk h l cs =>
    rw [leaves]
    exact if_pos named

theorem flatMap_leavesIn (f : Field) (cs : List (Field × Node)) :
    ((leavesIn cs).filter (·.1 = f)).flatMap (·.2) = (within f cs).flatMap leaves := by
  induction cs with
  | nil => rfl
  | cons c cs ih =>
    obtain ⟨g, n⟩ := c
    by_cases same : g = f
    · simpa [leavesIn, within, same] using ih
    · simpa [leavesIn, within, same] using ih

/-- The leaves of a node are those of its children, field by field. -/
theorem leaves_eq (unnamed : n.text? = none) :
    n.leaves = n.kind.sourceOrder.flatMap fun f => (n.all f).flatMap leaves := by
  cases n with
  | mk h l cs =>
    have none : h.text?.isSome = false := by
      rw [show h.text? = Option.none from unnamed]
      rfl
    rw [leaves, if_neg (by simp [none])]
    exact List.flatMap_congr fun f _ => flatMap_leavesIn f cs

/-- The leaves of a node that is put together field by field. -/
theorem leaves_assemble {h : Head} (fs : List Field) (order : h.kind.sourceOrder = fs)
    (unnamed : h.text? = none) (l : Option Extent) (fields : List (Field × List Node)) :
    (Parse.assemble h l fields).leaves = fs.flatMap fun f =>
      (fields.flatMap fun p => if p.1 = f then p.2 else []).flatMap leaves := by
  rw [leaves_eq (n := Parse.assemble h l fields) unnamed, ← order]
  exact List.flatMap_congr fun f _ => congrArg _ (all_assemble h l fields f)

/-- The leaves do not depend on the place of a node that is none itself. -/
theorem leaves_withLoc (unnamed : n.text? = none) (l : Option Extent) :
    (n.withLoc l).leaves = n.leaves := by
  rw [leaves_eq unnamed, leaves_eq (n := n.withLoc l) unnamed]
  rfl

/-! ### Which nodes are leaves -/

theorem isLeaf_of_text? {text : String} (named : n.text? = some text) : n.kind.isLeaf = true := by
  cases n with
  | mk h l cs => cases h <;> first | rfl | cases named

theorem text?_eq_none (other : n.kind.isLeaf = false) : n.text? = none := by
  cases named : n.text? with
  | none => rfl
  | some text =>
    rw [isLeaf_of_text? named] at other
    cases other

/-- A leaf holds expansions, and an expansion holds nothing. -/
theorem not_isSome_of_leaf (typed : t.isWellTyped = true) (leaf : t.kind.isLeaf = true)
    {f : Field} (site : Site t f n) : n.text?.isSome = false := by
  -- The kinds of leaves admit nothing but expansions, and those of expansions nothing.
  have below {m : Node} {g : Field} (typed : m.isWellTyped = true) (leaf : m.kind.isLeaf = true)
      {c : Node} (mem : (g, c) ∈ m.children) : c.kind.isExpansion = true := by
    have admits := admits_of_mem typed mem
    have check : m.kind.members.all (memberHolds fun _ k => k.isExpansion) = true := by
      revert leaf
      cases m.kind <;> decide
    exact admits.holds (p := fun _ k => k.isExpansion) check
  induction site with
  | child mem =>
    have expansion := below typed leaf mem
    rename_i m n f
    cases n with
    | mk h l cs => cases h <;> first | rfl | cases expansion
  | deeper mem _ ih =>
    refine ih (isWellTyped_of_mem typed mem) ?_
    have expansion := below typed leaf mem
    simp [Kind.isLeaf, expansion]

theorem mem_sourceOrder {k : Kind} {f : Field} {arity : Arity} {admission : Admission}
    (mem : Member.child f arity admission ∈ k.members) : f ∈ k.sourceOrder := by
  have field : f ∈ k.members.filterMap Member.field? :=
    List.mem_filterMap.mpr ⟨_, mem, rfl⟩
  cases k with
  | command =>
    have check : ∀ g ∈ Kind.command.members.filterMap Member.field?, g ∈ Kind.command.sourceOrder := by
      decide
    exact check f field
  | _ => exact field

theorem holds_of_mem_leaves (mem : n ∈ t.leaves) : t.Holds n ∧ n.text?.isSome = true := by
  induction t using induct with
  | step h l cs ih =>
    cases named : (mk h l cs).text? with
    | some text =>
      rw [leaves_of_isSome (by rw [named]; rfl), List.mem_singleton] at mem
      subst mem
      exact ⟨.inl rfl, by rw [named]; rfl⟩
    | none =>
      -- A node that is none itself has the leaves of its children.
      rw [leaves_eq named] at mem
      obtain ⟨f, -, there⟩ := List.mem_flatMap.mp mem
      obtain ⟨c, hc, there⟩ := List.mem_flatMap.mp there
      have child := mem_all_iff.mp hc
      obtain ⟨holds, some⟩ := ih (f, c) child there
      refine ⟨.inr ?_, some⟩
      rcases holds with rfl | ⟨g, site⟩
      · exact ⟨f, .child child⟩
      · exact ⟨g, .deeper child site⟩

/-- The leaves of a well-typed tree are all of its words and names. -/
theorem mem_leaves_iff (typed : t.isWellTyped = true) :
    n ∈ t.leaves ↔ t.Holds n ∧ n.text?.isSome = true := by
  refine ⟨holds_of_mem_leaves, ?_⟩
  rintro ⟨holds, named⟩
  induction t using induct with
  | step h l cs ih =>
    rcases holds with rfl | ⟨f, site⟩
    · rw [leaves_of_isSome named]
      exact List.mem_singleton_self _
    -- Something with a text stands below, so the node is no leaf.
    have unnamed : (mk h l cs).text? = none := by
      cases own : (mk h l cs).text? with
      | none => rfl
      | some text =>
        rw [not_isSome_of_leaf typed (isLeaf_of_text? own) site] at named
        cases named
    have through {g : Field} {c : Node} (mem : (g, c) ∈ (mk h l cs).children) (holds : c.Holds n) :
        n ∈ (mk h l cs).leaves := by
      obtain ⟨arity, admission, member, -⟩ := admits_of_mem typed mem
      rw [leaves_eq unnamed]
      exact List.mem_flatMap.mpr ⟨g, mem_sourceOrder member, List.mem_flatMap.mpr
        ⟨c, mem_all_iff.mpr mem, ih (g, c) mem (isWellTyped_of_mem typed mem) holds⟩⟩
    cases site with
    | child mem => exact through mem (.inl rfl)
    | deeper mem site => exact through mem (.inr ⟨f, site⟩)

end Node

end ShellInliner
