import ShellInliner.Proofs.Import.Inlining
import ShellInliner.Proofs.Import.Preview
import ShellInliner.Proofs.Source.Reparse

/-! # Trees with their imports inlined

    An import gives way to functions, and functions may stand wherever commands may.
    So a tree with its imports inlined is well-typed and spelled as terminals take it,
    and every node has the form that its text needs, as long as no list and no
    pipeline was left without commands and no function was put to the background in
    a place where it may not be. -/

namespace ShellInliner

open Parse Grammar

/-! ### The children of an inlined tree -/

namespace Node

/-- What stands in the place of a node when its imports are inlined. -/
def inlined (functions : Node → List Node) (n : Node) : List Node :=
  if n.isImport then functions n else [n.inline functions]

section

variable {functions : Node → List Node} {n c : Node} {f : Field}

@[simp] theorem head_inline : (n.inline functions).head = n.head := by
  cases n
  rfl

@[simp] theorem kind_inline : (n.inline functions).kind = n.kind := by
  cases n
  rfl

theorem inlineIn_eq (cs : List (Field × Node)) :
    inlineIn functions cs = cs.flatMap fun c => (inlined functions c.2).map (c.1, ·) := by
  induction cs with
  | nil => rfl
  | cons c cs ih =>
    obtain ⟨g, m⟩ := c
    rw [inlineIn, List.flatMap_cons, ih, inlined]
    split <;> rfl

theorem children_inline : (n.inline functions).children = inlineIn functions n.children := by
  cases n
  rfl

theorem all_inline (n : Node) (f : Field) :
    (n.inline functions).all f = (n.all f).flatMap (inlined functions) := by
  show within f (n.inline functions).children = (within f n.children).flatMap (inlined functions)
  rw [children_inline, inlineIn_eq]
  induction n.children with
  | nil => rfl
  | cons c cs ih =>
    rw [List.flatMap_cons, within_append, within_map, ih]
    by_cases same : c.1 = f
    · simp [within, same]
    · simp [within, same]

/-- A child of an inlined tree is an inlined child or a function that came for an import. -/
theorem mem_all_inline (hc : c ∈ (n.inline functions).all f) :
    ∃ d ∈ n.all f, d.isImport = false ∧ c = d.inline functions ∨
      d.isImport = true ∧ c ∈ functions d := by
  rw [all_inline] at hc
  obtain ⟨d, hd, here⟩ := List.mem_flatMap.mp hc
  refine ⟨d, hd, ?_⟩
  unfold inlined at here
  -- A node makes room for the functions of its import, or stays with its own inlined.
  cases isImport : d.isImport with
  | false =>
    rw [isImport] at here
    exact .inl ⟨rfl, List.mem_singleton.mp here⟩
  | true =>
    rw [isImport] at here
    exact .inr ⟨rfl, here⟩

theorem isImport_eq_false (other : n.kind ≠ .command) : n.isImport = false := by
  simp [isImport, other]

/-- Words, names and redirections stay as they are. -/
theorem all_inline_of_part (typed : n.isWellTyped = true)
    (part : ∀ d ∈ n.all f, isCommandPart d.kind = true) : (n.inline functions).all f = n.all f := by
  rw [all_inline]
  -- A part of a command is no command itself, so no import.
  have each : ∀ d ∈ n.all f, inlined functions d = [d] := by
    intro d hd
    have other : d.kind ≠ .command := by
      intro command
      have here := part d hd
      rw [command] at here
      cases here
    have same : d.inline functions = d :=
      inline_command_part (isWellTyped_of_mem_all typed hd) (.inr (part d hd))
    rw [inlined, isImport_eq_false other, same]
    rfl
  rw [List.flatMap_congr each, List.flatMap_singleton']

/-- A field that holds no commands is not emptied. -/
theorem all_inline_ne_nil (some : n.all f ≠ []) (plain : ∀ d ∈ n.all f, d.kind ≠ .command) :
    (n.inline functions).all f ≠ [] := by
  obtain ⟨d, ds, all⟩ := List.exists_cons_of_ne_nil some
  have other := plain d (by rw [all]; exact List.mem_cons_self ..)
  rw [all_inline, all, List.flatMap_cons, inlined, isImport_eq_false other]
  exact List.cons_ne_nil _ _

/-- If one node stands in the place of each child of a field, there are as many. -/
theorem length_all_inline (each : ∀ d ∈ n.all f, (inlined functions d).length = 1) :
    ((n.inline functions).all f).length = (n.all f).length := by
  rw [all_inline, List.length_flatMap, List.map_congr_left each]
  simp

/-- What holds of the inlined nodes that are left and throughout the functions holds
    throughout the inlined tree. -/
theorem throughout_inline {P : Node → Prop} {t : Node}
    (here : ∀ n, t.Holds n → (t.inline functions).Holds (n.inline functions) →
      P (n.inline functions))
    (brought : ∀ f n, Site t f n → n.isImport = true → ∀ g ∈ functions n, Throughout P g) :
    Throughout P (t.inline functions) := by
  induction t using Node.induct with
  | step h l cs ih =>
    refine throughout_iff.mpr ⟨here _ (.inl rfl) (.inl rfl), fun c hc => ?_⟩
    have mem : c.2 ∈ ((mk h l cs).inline functions).all c.1 := mem_all_iff.mpr hc
    -- A child was there before or came with an import.
    obtain ⟨d, hd, ⟨-, same⟩ | ⟨isImport, mem⟩⟩ := mem_all_inline mem
    · have child := mem_all_iff.mp hd
      have left : (c.1, d.inline functions) ∈ ((mk h l cs).inline functions).children := same ▸ hc
      rw [same]
      exact ih (c.1, d) child
        (fun n holds holds' => here n (holds_of_child child holds) (holds_of_child left holds'))
        fun f n site => brought f n (.deeper child site)
    · exact brought c.1 d (.child (mem_all_iff.mp hd)) isImport c.2 mem

/-! ### Well-typed trees -/

/-- Does a member that admits commands admit functions? -/
def memberSwaps : Member → Bool
  | .attribute _ _ => true
  | .child _ _ admission => !admission.kinds.contains .command || admission.kinds.contains .function

/-- Where a command may stand, a function may. -/
theorem function_mem_kinds {k : Kind} {arity : Arity} {admission : Admission}
    (mem : Member.child f arity admission ∈ k.members) (command : .command ∈ admission.kinds) :
    .function ∈ admission.kinds := by
  have check : k.members.all memberSwaps = true := by cases k <;> decide
  have here := List.all_eq_true.mp check _ mem
  simpa [memberSwaps, command] using here

/-- The functions may stand in the places of the imports of the tree. -/
structure Supplies (functions : Node → List Node) (t : Node) : Prop where
  /-- They are functions. -/
  kind : ∀ f n, Site t f n → n.isImport = true → ∀ g ∈ functions n, g.kind = .function
  /-- They are well-typed. -/
  typed : ∀ f n, Site t f n → n.isImport = true → ∀ g ∈ functions n, g.isWellTyped = true
  /-- There is one for an import that is an operand. -/
  operand : ∀ f n, Site t f n → n.isImport = true → f.isSequence = false → (functions n).length = 1

theorem Supplies.child {t : Node} (supplies : Supplies functions t) (hc : (f, c) ∈ t.children) :
    Supplies functions c :=
  ⟨fun g n site => supplies.kind g n (.deeper hc site),
    fun g n site => supplies.typed g n (.deeper hc site),
    fun g n site => supplies.operand g n (.deeper hc site)⟩

theorem kind_of_isImport (h : n.isImport = true) : n.kind = .command := by
  simp only [isImport, Bool.and_eq_true, beq_iff_eq] at h
  exact h.1

/-- An inlined tree has its children field by field. -/
theorem fitsOrder_inline (typed : n.isWellTyped = true) :
    fitsOrder n.kind ((n.inline functions).children.map (·.1)) = true := by
  -- The fields of the children come in the order of the kind, each as often as it has children.
  have fields : (n.inline functions).children.map (·.1) =
      (n.kind.fieldOrder.map fun f => (f, (n.inline functions).all f)).flatMap
        fun p => p.2.map fun _ => p.1 := by
    rw [children_inline, inlineIn_eq, children_eq_flatMap typed, List.flatMap_assoc,
      List.map_flatMap, List.flatMap_map]
    refine List.flatMap_congr fun f _ => ?_
    rw [filter_eq_map_within, List.flatMap_map, all_inline, List.map_flatMap, List.map_flatMap]
    refine List.flatMap_congr fun c _ => ?_
    rw [List.map_map]
    rfl
  apply decide_eq_true
  rw [fields]
  apply fitsOrder_of_sublist (fieldOrder_nodup _)
  rw [List.map_map]
  simp [Function.comp_def]

/-- A tree stays well-typed when its imports give way to functions. -/
theorem isWellTyped_inline {t : Node} (typed : t.isWellTyped = true)
    (supplies : Supplies functions t) : (t.inline functions).isWellTyped = true := by
  induction t using Node.induct with
  | step h l cs ih =>
    obtain ⟨loc, -, members, below⟩ := isWellTyped_iff.mp typed
    have site {f : Field} {d : Node} (hd : d ∈ (mk h l cs).all f) : Site (mk h l cs) f d :=
      .child (mem_all_iff.mp hd)
    refine isWellTyped_iff.mpr ⟨loc, fitsOrder_inline typed, ?members, ?below⟩
    case below =>
      intro c hc
      have mem : c.2 ∈ ((mk h l cs).inline functions).all c.1 := mem_all_iff.mpr hc
      obtain ⟨d, hd, ⟨-, same⟩ | ⟨isImport, mem⟩⟩ := mem_all_inline mem
      · have child := mem_all_iff.mp hd
        rw [same]
        exact ih (c.1, d) child (isWellTyped_of_mem typed child) (supplies.child child)
      · exact supplies.typed _ _ (site hd) isImport _ mem
    case members =>
      intro m hm
      match m with
      | .attribute a type => exact trivial
      | .child f arity admission =>
        obtain ⟨kinds, count⟩ := members _ hm
        refine ⟨fun c hc => ?_, ?_⟩
        · obtain ⟨d, hd, ⟨-, rfl⟩ | ⟨isImport, mem⟩⟩ := mem_all_inline hc
          · rw [kind_inline]
            exact kinds d hd
          · rw [supplies.kind _ _ (site hd) isImport c mem]
            have command := kinds d hd
            rw [kind_of_isImport isImport] at command
            exact function_mem_kinds hm command
        · -- Outside of a sequence an import gives way to exactly one function.
          have length (single : f.isSequence = false) :
              (((mk h l cs).inline functions).all f).length = ((mk h l cs).all f).length := by
            refine length_all_inline fun d hd => ?_
            unfold inlined
            split
            · rename_i isImport
              exact supplies.operand _ _ (site hd) isImport single
            · rfl
          have sequence := eq_many_iff hm
          cases arity with
          | many => exact trivial
          | required =>
            have single : f.isSequence = false := Bool.eq_false_iff.mpr fun h => by cases sequence.mpr h
            exact (length single).trans count
          | optional =>
            have single : f.isSequence = false := Bool.eq_false_iff.mpr fun h => by cases sequence.mpr h
            exact (length single).trans_le count

end

end Node

/-! ### Texts -/

section

open Node

variable {functions : Node → List Node} {n t : Node}

theorem spelled_inline (typed : n.isWellTyped = true) (spelled : Spelled n) :
    Spelled (n.inline functions) := by
  have name : (n.inline functions).all .name = n.all .name := by
    refine all_inline_of_part typed fun d hd => ?_
    have leaf : (Field.name != .name) || isCommandPart d.kind :=
      (admits_of_mem typed (mem_all_iff.mp hd)).holds (p := fun f k => f != .name || isCommandPart k)
        (by cases n.kind <;> decide)
    exact leaf
  refine spelled.congr kind_inline ?_ (fun _ => head_inline) name
  show (n.inline functions).head.text? = n.head.text?
  rw [head_inline]

/-! ### The form of nodes -/

/-- Do the lists below the node have statements where they have to, and does a pipeline
    have commands? -/
def isOccupied (n : Node) : Bool :=
  (n.kind != .pipeline || !(n.all .commands).isEmpty) &&
    n.children.all fun c =>
      mayBeEmpty n.kind c.1 || c.2.kind != .compoundList || !(c.2.all .commands).isEmpty

/-- Does nothing in a pipeline or a row of operands run in the background? -/
def isForward (n : Node) : Bool :=
  (n.kind != .pipeline && n.kind != .logicalExpression) || n.children.all fun c => !c.2.head.async

/-- An inlined node has the form that its text needs. -/
theorem shaped_inline (typed : n.isWellTyped = true) (regular : Regular n)
    (functions_ : ∀ f, ∀ d ∈ n.all f, d.isImport = true → ∀ g ∈ functions d, g.kind = .function)
    (occupied : isOccupied (n.inline functions) = true)
    (forward : isForward (n.inline functions) = true) : Shaped (n.inline functions) := by
  have shaped := regular.shaped typed
  -- A child stood there before, apart from what is inlined in it, or it was brought in; in the
  -- second case it is a function, which only has to stay out of the background.
  have child {f : Field} {c : Node} (hc : c ∈ (n.inline functions).all f) :
      (∃ d ∈ n.all f, c = d.inline functions) ∨ c.kind = .function := by
    obtain ⟨d, hd, ⟨-, same⟩ | ⟨isImport, mem⟩⟩ := mem_all_inline hc
    · exact .inl ⟨d, hd, same⟩
    · exact .inr (functions_ f d hd isImport c mem)
  have front (row : n.kind = .pipeline ∨ n.kind = .logicalExpression) {f : Field} {c : Node}
      (hc : c ∈ (n.inline functions).all f) : c.head.async = false := by
    have all : (n.inline functions).children.all (fun c => !c.2.head.async) = true := by
      rcases row with row | row <;> simpa [isForward, row] using forward
    simpa using List.all_eq_true.mp all _ (mem_all_iff.mp hc)
  simp only [isOccupied, kind_inline, Bool.and_eq_true] at occupied
  refine ⟨?filled, ?plain, ?unnamed, ?piped, ?members, ?operands, ?second, ?positive, ?patterns⟩
  all_goals simp only [kind_inline]
  case filled =>
    intro f some c hc list
    have here := List.all_eq_true.mp occupied.2 _ (mem_all_iff.mp hc)
    simpa [some, list] using here
  case plain =>
    intro group f c hc list
    rcases child hc with ⟨d, hd, rfl⟩ | function
    · obtain ⟨none, foreground⟩ := shaped.plain group f d hd (kind_inline.symm.trans list)
      rw [all_inline, none, head_inline]
      exact ⟨rfl, foreground⟩
    · rw [function] at list
      cases list
  case unnamed =>
    intro kind
    rw [inline_command_part typed (.inl kind)]
    exact shaped.unnamed kind
  case piped =>
    intro kind none
    simp [kind, none] at occupied
  case members =>
    intro kind c hc
    refine ⟨front (.inl kind) hc, ?_⟩
    rcases child hc with ⟨d, hd, rfl⟩ | function
    · rw [kind_inline]
      exact (shaped.members kind d hd).2
    · rw [function]
      exact ⟨nofun, nofun⟩
  case operands => exact fun kind f c hc => front (.inr kind) hc
  case second =>
    intro kind c hc
    rcases child hc with ⟨d, hd, rfl⟩ | function
    · rw [kind_inline]
      exact shaped.second kind d hd
    · rw [function]
      exact nofun
  case positive =>
    intro kind
    refine all_inline_ne_nil (shaped.positive kind) fun d hd command => ?_
    have member : Member.child .thenBranch .optional (.only .compoundList) ∈ n.kind.members := by
      rw [kind]
      decide
    have list := kind_eq_of_mem_all typed member hd
    rw [command] at list
    cases list
  case patterns =>
    intro kind
    refine all_inline_ne_nil (shaped.patterns kind) fun d hd command => ?_
    have member : Member.child .pattern .many (.only .word) ∈ n.kind.members := by
      rw [kind]
      decide
    have word := kind_eq_of_mem_all typed member hd
    rw [command] at word
    cases word

end

end ShellInliner
