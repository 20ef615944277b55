import ShellInliner.Proofs.Node.Fields

/-! # Trees put together

    A node that is put together field by field has these children in its fields.
    It is well-typed if the children in every field fit the table of members. -/

namespace ShellInliner.Node

open Parse (assemble)

/-! ### Children -/

theorem within_map (f g : Field) (ns : List Node) :
    within f (ns.map (g, ·)) = if g = f then ns else [] := by
  by_cases same : g = f
  · rw [if_pos same, same, within_map_self]
  · rw [if_neg same, within_map_of_ne same]

/-- The children in a field are those that were put there. -/
theorem all_assemble (h : Head) (l : Option Extent) (fields : List (Field × List Node)) (f : Field) :
    (assemble h l fields).all f = fields.flatMap fun p => if p.1 = f then p.2 else [] := by
  show within f (fields.flatMap fun p => p.2.map (p.1, ·)) = _
  induction fields with
  | nil => rfl
  | cons p fields ih => rw [List.flatMap_cons, List.flatMap_cons, within_append, within_map, ih]

theorem mem_children_assemble {h : Head} {l : Option Extent} {fields : List (Field × List Node)}
    {c : Field × Node} (hc : c ∈ (assemble h l fields).children) : ∃ p ∈ fields, c.2 ∈ p.2 := by
  obtain ⟨p, hp, here⟩ := List.mem_flatMap.mp hc
  obtain ⟨n, hn, rfl⟩ := List.mem_map.mp here
  exact ⟨p, hp, hn⟩

theorem throughout_assemble {P : Node → Prop} {h : Head} {l : Option Extent}
    {fields : List (Field × List Node)} (here : P (assemble h l fields))
    (below : ∀ p ∈ fields, ∀ c ∈ p.2, Throughout P c) : Throughout P (assemble h l fields) := by
  refine throughout_iff.mpr ⟨here, fun c hc => ?_⟩
  obtain ⟨p, hp, mem⟩ := mem_children_assemble hc
  exact below p hp c.2 mem

/-! ### Well-typed trees -/

section

variable {n : Node} {h : Head} {fields : List (Field × List Node)}

/-- Do the children of a node fit a member of the table? -/
def Fills (n : Node) : Member → Prop
  | .attribute _ _ => True
  | .child f arity admission => (∀ c ∈ n.all f, c.kind ∈ admission.kinds) ∧
    match arity with
    | .required => (n.all f).length = 1
    | .optional => (n.all f).length ≤ 1
    | .many => True

theorem fitsMember_iff (m : Member) :
    fitsMember (n.children.map fun c => (c.1, c.2.kind)) m = true ↔ n.Fills m := by
  rcases m with ⟨a, type⟩ | ⟨f, arity, admission⟩
  · simp [fitsMember, Fills]
  · simp only [fitsMember, Fills, kinds_within, Bool.and_eq_true]
    show _ ∧ _ ↔ (∀ c ∈ within f n.children, _) ∧ _
    apply and_congr
    · simp
    · cases arity <;> simp [all]

theorem isWellTyped_iff :
    n.isWellTyped = true ↔ fitsLoc n.kind n.loc = true ∧ fitsOrder n.kind (n.children.map (·.1)) = true ∧
      (∀ m ∈ n.kind.members, n.Fills m) ∧ ∀ c ∈ n.children, c.2.isWellTyped = true := by
  obtain ⟨hd, l, cs⟩ := n
  have members : (∀ m ∈ hd.kind.members, fitsMember (cs.map fun c => (c.1, c.2.kind)) m = true) ↔
      ∀ m ∈ hd.kind.members, (mk hd l cs).Fills m :=
    forall₂_congr fun m _ => fitsMember_iff (n := mk hd l cs) m
  simp only [isWellTyped, fitsChildren, Bool.and_eq_true, areWellTyped_iff, List.all_eq_true,
    members, List.map_map]
  simp only [kind, head, loc, children, and_assoc]
  rfl

/-- Children put into fields in order stand field by field. -/
theorem fitsOrder_of_sublist {order : List Field} (once : order.Nodup)
    (sub : (fields.map (·.1)).Sublist order) :
    (fields.flatMap fun p => p.2.map fun _ => p.1) = order.flatMap fun f =>
      (fields.flatMap fun p => p.2.map fun _ => p.1).filter (· = f) := by
  induction order generalizing fields with
  | nil =>
    obtain rfl := List.map_eq_nil_iff.mp (List.sublist_nil.mp sub)
    rfl
  | cons g order ih =>
    obtain ⟨absent, distinct⟩ := List.nodup_cons.mp once
    have differs {others : List (Field × List Node)} (below : (others.map (·.1)).Sublist order) :
        ∀ f ∈ others.flatMap fun p => p.2.map fun _ => p.1, f ≠ g := by
      rintro f hf rfl
      obtain ⟨p, hp, here⟩ := List.mem_flatMap.mp hf
      obtain ⟨_, _, rfl⟩ := List.mem_map.mp here
      exact absent (below.subset (List.mem_map_of_mem hp))
    rcases List.sublist_cons_iff.mp sub with below | ⟨others, first, below⟩
    · -- The field is empty.
      have none : (fields.flatMap fun p => p.2.map fun _ => p.1).filter (· = g) = [] :=
        List.filter_eq_nil_iff.mpr fun f hf => by simpa using differs below f hf
      rw [List.flatMap_cons, none, List.nil_append]
      exact ih distinct below
    · obtain ⟨p, rest, rfl, rfl, rfl⟩ := List.map_eq_cons_iff.mp first
      have same : ∀ f ∈ p.2.map fun _ => p.1, f = p.1 := by
        intro f hf
        obtain ⟨_, _, rfl⟩ := List.mem_map.mp hf
        rfl
      have here : (p.2.map fun _ => p.1).filter (· = p.1) = p.2.map fun _ => p.1 :=
        List.filter_eq_self.mpr fun f hf => by simpa using same f hf
      have others : (rest.flatMap fun p => p.2.map fun _ => p.1).filter (· = p.1) = [] :=
        List.filter_eq_nil_iff.mpr fun f hf => by simpa using differs below f hf
      rw [List.flatMap_cons, List.flatMap_cons, List.filter_append, here, others, List.append_nil]
      congr 1
      rw [ih distinct below]
      apply List.flatMap_congr
      intro f hf
      have other : (p.2.map fun _ => p.1).filter (· = f) = [] := by
        apply List.filter_eq_nil_iff.mpr
        intro g hg
        have : f ≠ p.1 := fun same => absent (same ▸ hf)
        simpa [same g hg] using this.symm
      rw [List.filter_append, other, List.nil_append, ← ih distinct below]

/-- A node is well-typed if the children in its fields fit. -/
theorem isWellTyped_assemble (order : (fields.map (·.1)).Sublist h.kind.fieldOrder)
    (fills : ∀ m ∈ h.kind.members, (assemble h none fields).Fills m)
    (below : ∀ p ∈ fields, ∀ c ∈ p.2, c.isWellTyped = true) :
    (assemble h none fields).isWellTyped = true := by
  apply isWellTyped_iff.mpr
  refine ⟨rfl, ?_, fills, fun c hc => ?_⟩
  · apply decide_eq_true
    -- The children are written down field by field, so their fields are in order.
    have fs : (assemble h none fields).children.map (·.1) =
        fields.flatMap fun p => p.2.map fun _ => p.1 := by
      simp [assemble, children, List.map_flatMap, Function.comp_def]
    rw [fs]
    exact fitsOrder_of_sublist (fieldOrder_nodup _) order
  · obtain ⟨p, hp, here⟩ := mem_children_assemble hc
    exact below p hp c.2 here

/-- What holds of the children of a node and of those put into its last field holds of
    all children then. -/
theorem of_mem_withLast {P : Node → Prop} {f : Field} {ns : List Node} {c : Field × Node}
    (children : ∀ d ∈ n.children, P d.2) (last : ∀ m ∈ ns, P m)
    (hc : c ∈ (n.withLast f ns).children) : P c.2 := by
  rcases List.mem_append.mp hc with mem | mem
  · exact children c (List.mem_filter.mp mem).1
  · obtain ⟨m, hm, rfl⟩ := List.mem_map.mp mem
    exact last m hm

theorem all_withLast (n : Node) (f g : Field) (ns : List Node) :
    (n.withLast f ns).all g = if g = f then ns else n.all g := by
  show within g (n.children.filter (·.1 ≠ f) ++ ns.map (f, ·)) = _
  rw [within_append, within_map]
  by_cases same : g = f
  · have none : within g (n.children.filter (·.1 ≠ f)) = [] := by
      apply within_eq_nil
      intro c hc
      rw [same]
      simpa using (List.mem_filter.mp hc).2
    rw [if_pos same, if_pos same.symm, none, List.nil_append]
  · -- Taking one field out leaves the others.
    have kept : within g (n.children.filter (·.1 ≠ f)) = n.all g := by
      show List.filterMap _ _ = List.filterMap _ _
      rw [List.filterMap_filter]
      apply List.filterMap_congr
      intro c _
      by_cases here : c.1 = g
      · simp [here, same]
      · simp [here]
    rw [if_neg same, if_neg fun h => same h.symm, kept, List.append_nil]

/-- Other children in the last field of a well-typed node. -/
theorem withLast_eq_assemble (typed : n.isWellTyped = true) {front : List Field} {f : Field}
    (order : n.kind.fieldOrder = front ++ [f]) (l : Option Extent) (ns : List Node) :
    (n.withLast f ns).withLoc l =
      assemble n.head l ((front.map fun g => (g, n.all g)) ++ [(f, ns)]) := by
  have once := fieldOrder_nodup n.kind
  rw [order, List.nodup_append] at once
  have differ : ∀ g ∈ front, g ≠ f := fun g hg => once.2.2 g hg f (List.mem_singleton_self f)
  have kept : n.children.filter (·.1 ≠ f) = front.flatMap fun g => (n.all g).map (g, ·) := by
    conv => lhs; rw [children_eq_flatMap typed, order, List.flatMap_append, List.filter_append]
    -- The old children of the last field go, and those of the fields before it stay in order.
    have last : ([f].flatMap fun g => n.children.filter (·.1 = g)).filter (·.1 ≠ f) = [] := by
      simp
    rw [last, List.append_nil, List.filter_flatMap]
    refine List.flatMap_congr fun g hg => ?_
    rw [filter_eq_map_within, List.filter_eq_self.mpr]
    · rfl
    · intro c hc
      obtain ⟨_, _, rfl⟩ := List.mem_map.mp hc
      exact decide_eq_true (differ g hg)
  show Node.mk n.head l (n.children.filter (·.1 ≠ f) ++ ns.map (f, ·)) = _
  rw [kept]
  simp only [assemble, List.flatMap_append, List.flatMap_map, List.flatMap_singleton]

end

end ShellInliner.Node
