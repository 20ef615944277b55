import ShellInliner.Proofs.Node.Addresses
import ShellInliner.Proofs.Visit.Identity

/-! # The listing of functions

    The visitor that lists functions makes one entry for each definition of a script, at
    whatever depth it stands, in the order in which a traversal completes them.  The
    entries that are not nested are those of the definitions in the script itself. -/

namespace ShellInliner

open Node Visitor

namespace FunctionInfo

/-! ### Entries -/

/-- The entry tells of the definition. -/
structure Describes (n : Node) (info : FunctionInfo) : Prop where
  /-- It has its name. -/
  name : (n.one? .name).bind Node.text? = some info.name
  /-- It has the line on which the definition starts, if there is one. -/
  line : info.line = n.row?

/-- Is the node a function definition? -/
def isDefinition (n : Node) : Bool :=
  n.kind == .function

theorem isDefinition_of_script {n : Node} (script : n.kind = .script) : isDefinition n = false := by
  rw [isDefinition, script]
  rfl

/-- The entry of a definition. -/
def entry (nested : Bool) (n : Node) : FunctionInfo :=
  ⟨((n.one? .name).bind Node.text?).getD "", n.row?, nested⟩

theorem describes_entry {n : Node} (typed : n.isWellTyped = true) (function : isDefinition n = true)
    (nested : Bool) : Describes n (entry nested n) := by
  obtain ⟨name, text⟩ := exists_name_of_function typed (beq_iff_eq.mp function)
  exact ⟨by rw [entry, text]; rfl, rfl⟩

/-! ### One node -/

theorem entry?_visitor (k : Kind) :
    Table.entry? visitor k = if k = .function then some collect else none := by
  cases k <;> rfl

/-- Visiting a node adds its entry if it is a definition, and leaves the node. -/
theorem run_visit {n : Node} (typed : n.isWellTyped = true) (root : Node) (parent : Option Node)
    (s : List FunctionInfo) :
    (Visitor.visit visitor parent root (.one n)).run.run s =
      (.ok (.one n), s ++ if isDefinition n then [entry (parent.any (·.kind != .script)) n] else []) := by
  -- The table has a handler for functions only.
  by_cases function : n.kind = .function
  · obtain ⟨name, text⟩ := exists_name_of_function typed function
    have found : Table.entry? visitor n.kind = some collect := by
      rw [entry?_visitor, if_pos function]
    have own : isDefinition n = true := beq_iff_eq.mpr function
    rw [own, if_pos rfl]
    refine run_visit_of_some (o := .keep) found ?_
    unfold collect
    simp only [text]
    rw [entry, text]
    rfl
  · have found : Table.entry? visitor n.kind = none := by
      rw [entry?_visitor, if_neg function]
    have other : isDefinition n = false := beq_false_of_ne function
    rw [other, if_neg Bool.false_ne_true, List.append_nil]
    exact run_visit_of_none found s

/-! ### A whole tree -/

/-- Only the root of a well-typed tree can be a script. -/
theorem kind_ne_script_of_mem {t : Node} (typed : t.isWellTyped = true) {c : Field × Node}
    (mem : c ∈ t.children) : (c.2.kind != .script) = true := by
  have check : t.kind.members.all (memberHolds fun _ k => k != .script) = true := by
    cases t.kind <;> decide
  exact (admits_of_mem typed mem).holds (p := fun _ k => k != .script) check

/-- Below a leaf there are only leaves. -/
theorem isLeaf_of_at? {t n : Node} (typed : t.isWellTyped = true) (leaf : t.kind.isLeaf = true)
    {a : List Nat} (there : t.at? a = some n) : n.kind.isLeaf = true := by
  induction a generalizing t with
  | nil =>
    cases there
    exact leaf
  | cons i a ih =>
    obtain ⟨c, found, below⟩ := Option.bind_eq_some_iff.mp there
    have mem := List.mem_of_getElem? found
    have check : t.kind.members.all (memberHolds fun _ k => k.isLeaf) = true := by
      revert leaf
      cases t.kind <;> decide
    exact ih (isWellTyped_of_mem typed mem)
      ((admits_of_mem typed mem).holds (p := fun _ k => k.isLeaf) check) below

theorem addressed_of_leaf {t : Node} (typed : t.isWellTyped = true) (leaf : t.kind.isLeaf = true) :
    addressed isDefinition t = [] := by
  refine List.eq_nil_iff_forall_not_mem.mpr ?_
  rintro ⟨a, n⟩ mem
  obtain ⟨there, function⟩ := mem_addressed_iff.mp mem
  have below := isLeaf_of_at? typed leaf there
  rw [beq_iff_eq.mp function] at below
  cases below

/-- The entries of the definitions at and below a node.  What stands below the node is
    nested; the node itself may be so by its parent. -/
def entries (nested : Bool) (n : Node) : List FunctionInfo :=
  (addressed isDefinition n).map fun x => entry (nested || x.1.length != 0) x.2

theorem run_traverseChildren (root parent : Node) {cs : List (Field × Node)}
    (each : ∀ c ∈ cs, ∀ s, (traverseNode visitor root (some parent) c.2).run.run s =
      (.ok (.one c.2), s ++ entries (parent.kind != .script) c.2))
    (i : Nat) (s : List FunctionInfo) :
    (traverseChildren visitor root parent cs).run.run s = (.ok cs, s ++
      (addressedIn isDefinition i cs).map fun x =>
        entry (parent.kind != .script || x.1.length != 1) x.2) := by
  induction cs generalizing i s with
  | nil => rw [addressedIn, List.map_nil, List.append_nil]; rfl
  | cons c cs ih =>
    obtain ⟨f, n⟩ := c
    have first := each (f, n) (List.mem_cons_self ..) s
    have others := ih (fun d mem => each d (List.mem_cons_of_mem _ mem)) (i + 1)
      (s ++ entries (parent.kind != .script) n)
    -- The entries of the first child come before those of the others.
    rw [run_traverseChildren_cons first others, addressedIn, List.map_append, List.map_map,
      List.append_assoc, entries]
    simp [Function.comp_def]

/-- A traversal of a node that is no script adds the entries of the definitions in it. -/
theorem run_traverseNode {root n : Node} (typed : n.isWellTyped = true)
    (inner : (n.kind != .script) = true) (parent : Option Node) (s : List FunctionInfo) :
    (traverseNode visitor root parent n).run.run s =
      (.ok (.one n), s ++ entries (parent.any (·.kind != .script)) n) := by
  induction n using Node.induct generalizing parent s with
  | step h l cs ih =>
    cases leaf : h.kind.isLeaf with
    | true =>
      have leaf' : (Node.mk h l cs).kind.isLeaf = true := leaf
      have other : isDefinition (.mk h l cs) = false := by
        refine beq_false_of_ne fun function => ?_
        rw [function] at leaf'
        cases leaf'
      rw [traverseNode_leaf leaf', run_visit typed, other, entries, addressed_of_leaf typed leaf']
      rfl
    | false =>
      have below := run_traverseChildren root (.mk h l cs) (fun c (mem : c ∈ cs) s =>
        ih c mem (isWellTyped_of_mem typed mem) (kind_ne_script_of_mem typed mem) _ s) 0 s
      -- The children have other places than the root, so that all entries below are nested.
      have nested : ((addressedIn isDefinition 0 cs).map fun x =>
            entry ((Node.mk h l cs).kind != .script || x.1.length != 1) x.2) =
          (addressedIn isDefinition 0 cs).map fun x =>
            entry (parent.any (·.kind != .script) || x.1.length != 0) x.2 := by
        refine List.map_congr_left ?_
        rintro ⟨a, n⟩ mem
        obtain ⟨j, b, c, rfl, -⟩ := mem_addressedIn_iff.mp mem
        simp [inner]
      have own : ((if isDefinition (.mk h l cs) then [([], .mk h l cs)] else []).map
            fun x : List Nat × Node => entry (parent.any (·.kind != .script) || x.1.length != 0) x.2) =
          if isDefinition (.mk h l cs) then [entry (parent.any (·.kind != .script)) (.mk h l cs)]
          else [] := by
        split
        · simp
        · rfl
      rw [run_traverseNode_inner leaf below, run_visit typed, entries, addressed, List.map_append,
        own, nested, List.append_assoc]

/-- A traversal of a script adds the entries of all definitions in it. -/
theorem functions_eq {t : Node} (typed : t.isWellTyped = true) (script : t.kind = .script) :
    t.functions = .ok ((addressed isDefinition t).map fun x => entry (x.1.length != 1) x.2) := by
  obtain ⟨h, l, cs⟩ := t
  have inner : h.kind.isLeaf = false := by
    rw [show h.kind = .script from script]
    rfl
  have other := isDefinition_of_script script
  have below := run_traverseChildren (.mk h l cs) (.mk h l cs) (fun c (mem : c ∈ cs) s =>
    run_traverseNode (isWellTyped_of_mem typed mem) (kind_ne_script_of_mem typed mem) _ s) 0 []
  unfold Node.functions
  rw [traverse_of_known rfl, run_traverseNode_inner inner below, run_visit typed, addressed, other]
  simp [script]

/-- All children of a well-typed script are statements of it. -/
theorem all_commands_of_script {t : Node} (typed : t.isWellTyped = true)
    (script : t.kind = .script) : t.all .commands = t.children.map (·.2) := by
  have commands : ∀ c ∈ t.children, c.1 = .commands := by
    intro c mem
    obtain ⟨arity, admission, member, -⟩ := admits_of_mem typed mem
    rw [script] at member
    exact (Member.child.inj (List.mem_singleton.mp member)).1
  have taken : t.children.filterMap (fun c => if c.1 = .commands then some c.2 else none) =
      t.children.filterMap fun c => some c.2 :=
    List.filterMap_congr fun c mem => if_pos (commands c mem)
  rw [Node.all, within, taken, List.filterMap_eq_map']

/-- The entries that are not nested are those of the definitions in the script itself. -/
theorem filter_nested {t : Node} (typed : t.isWellTyped = true) (script : t.kind = .script) :
    ((addressed isDefinition t).map fun x => entry (x.1.length != 1) x.2).filter (!·.nested) =
      t.topLevelFunctions.map (entry false) := by
  obtain ⟨h, l, cs⟩ := t
  have other := isDefinition_of_script script
  -- An address of one step leads to a child of the script.
  have direct : ((addressedIn isDefinition 0 cs).filter (·.1.length == 1)).map (·.2) =
      (Node.mk h l cs).topLevelFunctions := by
    rw [filter_addressedIn, Node.topLevelFunctions, all_commands_of_script typed script]
    rfl
  have kept : ((!·.nested) ∘ fun x : List Nat × Node => entry (x.1.length != 1) x.2) =
      (·.1.length == 1) := funext fun x => Bool.not_not _
  rw [addressed, other, if_neg Bool.false_ne_true, List.append_nil, List.filter_map, kept, ← direct,
    List.map_map]
  refine List.map_congr_left fun x mem => ?_
  have one : x.1.length = 1 := beq_iff_eq.mp (List.mem_filter.mp mem).2
  rw [one]
  rfl

/-- A script is listed with one entry for each definition in it, at whatever depth.  They
    are in visiting order, in which a definition comes after those inside of it and other
    nodes come in the order of the fields they stand in.  Each entry tells of its
    definition, and says that it is nested if it does not stand in the script itself; those
    that do are the functions at the top level, in the same order. -/
theorem functions_complete {t : Node} (typed : t.isWellTyped = true) (script : t.kind = .script) :
    ∃ (places : List (List Nat)) (infos : List FunctionInfo), t.functions = .ok infos ∧
      (∀ a, a ∈ places ↔ ∃ n, t.at? a = some n ∧ n.kind = .function) ∧
      places.Nodup ∧ places.Pairwise VisitedBefore ∧
      (∀ a n, t.at? a = some n → n.InFieldOrder) ∧
      List.Forall₂ (fun a info => ∃ n, t.at? a = some n ∧ Describes n info ∧
        (info.nested = true ↔ a.length ≠ 1)) places infos ∧
      List.Forall₂ Describes t.topLevelFunctions (infos.filter (!·.nested)) := by
  have order : ((addressed isDefinition t).map (·.1)).Pairwise VisitedBefore :=
    List.pairwise_map.mpr (pairwise_addressed t)
  have once : ((addressed isDefinition t).map (·.1)).Nodup := order.imp fun before => before.ne
  -- The places are the addresses of the definitions, which the entries are made from.
  refine ⟨(addressed isDefinition t).map (·.1), _, functions_eq typed script, fun a => ?places,
    once, order, fun a n there => inFieldOrder (isWellTyped_of_at? typed there), ?entries, ?top⟩
  case places =>
    constructor
    · intro mem
      obtain ⟨⟨_, n⟩, found, rfl⟩ := List.mem_map.mp mem
      obtain ⟨there, function⟩ := mem_addressed_iff.mp found
      exact ⟨n, there, beq_iff_eq.mp function⟩
    · rintro ⟨n, there, function⟩
      exact List.mem_map.mpr ⟨(a, n), mem_addressed_iff.mpr ⟨there, beq_iff_eq.mpr function⟩, rfl⟩
  case entries =>
    refine List.forall₂_map_left_iff.mpr (List.forall₂_map_right_iff.mpr ?_)
    refine List.forall₂_same.mpr fun x mem => ?_
    obtain ⟨there, function⟩ := mem_addressed_iff.mp mem
    have tells := describes_entry (isWellTyped_of_at? typed there) function (x.1.length != 1)
    exact ⟨x.2, there, tells, bne_iff_ne⟩
  case top =>
    rw [filter_nested typed script]
    refine List.forall₂_map_right_iff.mpr (List.forall₂_same.mpr fun n mem => ?_)
    obtain ⟨child, function⟩ := List.mem_filter.mp mem
    rw [all_commands_of_script typed script] at child
    obtain ⟨c, statement, rfl⟩ := List.mem_map.mp child
    exact describes_entry (isWellTyped_of_mem typed statement) function false

/-- One definition stands in a branch of a conditional in the body of another one, and one
    is the second operand of an expression: both are nested. -/
theorem functions_complete_nested :
    let define (name : String) (row : Int) (body : List (Field × Node)) : Node :=
      .mk (.function false) (some (.between ⟨row, 1, 0⟩ ⟨row, 9, 8⟩))
        [(.name, .mk (.name name) none []), (.body, .mk (.compoundList false) none body)]
    let say : Node := .mk (.command false) none [(.name, .mk (.word "echo") none [])]
    let list : Node := .mk (.compoundList false) none [(.commands, say)]
    let inner := define "inner" 2 [(.commands, say)]
    let choice : Node := .mk (.ifElse false) none
      [(.clause, list), (.thenBranch, .mk (.compoundList false) none [(.commands, inner)])]
    let outer := define "outer" 1 [(.commands, choice)]
    let other : Node := .mk (.function false) none
      [(.name, .mk (.name "other") none []), (.body, list)]
    let t : Node := .mk .script none
      [(.commands, outer), (.commands, .mk (.logicalExpression false .or) none
        [(.left, say), (.right, other)])]
    let infos : List FunctionInfo :=
      [⟨"inner", some 2, true⟩, ⟨"outer", some 1, false⟩, ⟨"other", none, true⟩]
    t.isWellTyped = true ∧ t.kind = .script ∧ t.functions = .ok infos ∧
      ∃ places : List (List Nat),
        (∀ a, a ∈ places ↔ ∃ n, t.at? a = some n ∧ n.kind = .function) ∧
        places.Pairwise VisitedBefore ∧
        List.Forall₂ (fun a info => ∃ n, t.at? a = some n ∧ Describes n info ∧
          (info.nested = true ↔ a.length ≠ 1)) places infos ∧
        List.Forall₂ Describes [outer] [⟨"outer", some 1, false⟩] := by
  intro define say list inner choice outer other t infos
  have typed : t.isWellTyped = true := by decide
  have listed : t.functions = .ok infos := by rfl
  obtain ⟨places, found, run, complete, -, order, -, entries, top⟩ :=
    functions_complete (t := t) typed rfl
  cases Except.ok.inj (run.symm.trans listed)
  exact ⟨typed, rfl, listed, places, complete, order, entries, top⟩

end FunctionInfo

end ShellInliner
