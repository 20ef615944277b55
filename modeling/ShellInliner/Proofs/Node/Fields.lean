import ShellInliner.Parse.Piece
import ShellInliner.Proofs.Node.Subtree
import ShellInliner.Source.Render

/-! # Children field by field

    A well-typed tree is put together from the children in its fields, as many as
    each field holds, and the texts of the children in a field are asked for one
    after the other.  What holds of a node and of everything below it is passed
    on from field to field. -/

namespace ShellInliner.Node

/-! ### Heads -/

/-- The heads that nodes of a kind have. -/
def IsHeadOf : Kind → Head → Prop
  | .script, h => h = .script
  | .pipeline, h => ∃ async bang, h = .pipeline async bang
  | .logicalExpression, h => ∃ async op, h = .logicalExpression async op
  | .command, h => ∃ async, h = .command async
  | .function, h => ∃ async, h = .function async
  | .name, h => ∃ text, h = .name text
  | .compoundList, h => ∃ async, h = .compoundList async
  | .subshell, h => ∃ async, h = .subshell async
  | .forLoop, h => ∃ async, h = .forLoop async
  | .caseOf, h => ∃ async, h = .caseOf async
  | .caseItem, h => h = .caseItem
  | .ifElse, h => ∃ async, h = .ifElse async
  | .whileLoop, h => ∃ async, h = .whileLoop async
  | .untilLoop, h => ∃ async, h = .untilLoop async
  | .redirect, h => ∃ op number, h = .redirect op number
  | .word, h => ∃ text, h = .word text
  | .assignmentWord, h => ∃ text, h = .assignmentWord text
  | .arithmeticExpansion, h => ∃ expression resolved, h = .arithmeticExpansion expression resolved
  | .commandExpansion, h =>
    ∃ command backquoted resolved, h = .commandExpansion command backquoted resolved
  | .parameterExpansion, h =>
    ∃ parameter kind word op braced, h = .parameterExpansion parameter kind word op braced

/-- A node has a head of its kind. -/
theorem isHeadOf_kind {n : Node} {k : Kind} (h : n.kind = k) : IsHeadOf k n.head := by
  subst h
  obtain ⟨hd, l, cs⟩ := n
  cases hd with
  | script | caseItem => rfl
  | pipeline | logicalExpression | redirect | arithmeticExpansion => exact ⟨_, _, rfl⟩
  | commandExpansion => exact ⟨_, _, _, rfl⟩
  | parameterExpansion => exact ⟨_, _, _, _, _, rfl⟩
  | _ => exact ⟨_, rfl⟩

/-- Only a statement runs in the background. -/
theorem async_of_not_statement {n : Node} (other : n.kind ∉ Kind.statements) :
    n.head.async = false := by
  obtain ⟨hd, l, cs⟩ := n
  cases hd with
  | script | caseItem | name | redirect | word | assignmentWord | arithmeticExpansion
  | commandExpansion | parameterExpansion => rfl
  | _ => exact absurd (List.contains_iff_mem.mp rfl) other

/-! ### The children in a field -/

theorem mem_all_iff {t n : Node} {f : Field} : n ∈ t.all f ↔ (f, n) ∈ t.children := by
  simp only [all, within, List.mem_filterMap]
  constructor
  · rintro ⟨⟨g, m⟩, mem, here⟩
    split at here
    · rename_i same
      cases here
      exact same ▸ mem
    · cases here
  · intro mem
    exact ⟨_, mem, if_pos rfl⟩

theorem filter_eq_map_within (f : Field) (cs : List (Field × Node)) :
    cs.filter (·.1 = f) = (within f cs).map (f, ·) := by
  induction cs with
  | nil => rfl
  | cons c cs ih =>
    obtain ⟨g, n⟩ := c
    by_cases same : g = f
    · subst same
      simpa [within] using ih
    · simpa [within, same] using ih

/-- A well-typed tree is put together from the children in its fields. -/
theorem eq_assemble {t : Node} (h : t.isWellTyped = true) :
    t = Parse.assemble t.head t.loc (t.kind.fieldOrder.map fun f => (f, t.all f)) := by
  have children : t.children = (t.kind.fieldOrder.map fun f => (f, t.all f)).flatMap
      fun p => p.2.map (p.1, ·) := by
    rw [List.flatMap_map]
    calc t.children = t.kind.fieldOrder.flatMap fun f => t.children.filter (·.1 = f) :=
          children_eq_flatMap h
      _ = t.kind.fieldOrder.flatMap fun f => (t.all f).map (f, ·) :=
          List.flatMap_congr fun f _ => filter_eq_map_within f t.children
  cases t with
  | mk hd l cs =>
    show mk hd l cs = mk hd l _
    congr 1

theorem within_append (f : Field) (cs ds : List (Field × Node)) :
    within f (cs ++ ds) = within f cs ++ within f ds :=
  List.filterMap_append

theorem within_map_self (f : Field) (ns : List Node) : within f (ns.map (f, ·)) = ns := by
  simp [within, List.filterMap_map]

theorem within_map_of_ne {f g : Field} (differ : g ≠ f) (ns : List Node) :
    within f (ns.map (g, ·)) = [] := by
  simp [within, differ]

theorem within_eq_nil {f : Field} {cs : List (Field × Node)} (absent : ∀ c ∈ cs, c.1 ≠ f) :
    within f cs = [] :=
  List.filterMap_eq_nil_iff.mpr fun c hc => if_neg (absent c hc)

/-! ### How many children a field holds -/

section

variable {t n : Node} {f : Field} {arity : Arity} {admission : Admission}

theorem fitsMember_of_mem (h : t.isWellTyped = true) {m : Member} (mem : m ∈ t.kind.members) :
    fitsMember (t.children.map fun c => (c.1, c.2.kind)) m = true := by
  cases t with
  | mk hd l cs =>
    simp only [isWellTyped, fitsChildren, Bool.and_eq_true] at h
    exact List.all_eq_true.mp h.1.2.2 m mem

theorem kinds_within (f : Field) (cs : List (Field × Node)) :
    ((cs.map fun c => (c.1, c.2.kind)).filterMap fun c => if c.1 = f then some c.2 else none) =
      (within f cs).map kind := by
  induction cs with
  | nil => rfl
  | cons c cs ih =>
    obtain ⟨g, n⟩ := c
    by_cases same : g = f
    · simpa [within, same] using ih
    · simpa [within, same] using ih

/-- The children in a field are of the kinds that the field admits. -/
theorem kind_mem_of_mem_all (h : t.isWellTyped = true)
    (mem : Member.child f arity admission ∈ t.kind.members) (hn : n ∈ t.all f) :
    n.kind ∈ admission.kinds := by
  have fits := fitsMember_of_mem h mem
  simp only [fitsMember, kinds_within, Bool.and_eq_true, List.all_eq_true] at fits
  exact List.contains_iff_mem.mp (fits.1 _ (List.mem_map_of_mem hn))

/-- What stands in a field for one kind is of that kind. -/
theorem kind_eq_of_mem_all {k : Kind} (h : t.isWellTyped = true)
    (mem : Member.child f arity (.only k) ∈ t.kind.members) (hn : n ∈ t.all f) : n.kind = k :=
  List.mem_singleton.mp (kind_mem_of_mem_all h mem hn)

/-- A field that has to be filled holds one child. -/
theorem exists_all_eq_of_required (h : t.isWellTyped = true)
    (mem : Member.child f .required admission ∈ t.kind.members) :
    ∃ n, t.all f = [n] ∧ n.kind ∈ admission.kinds := by
  have fits := fitsMember_of_mem h mem
  simp only [fitsMember, kinds_within, Bool.and_eq_true, decide_eq_true_eq, List.length_map] at fits
  obtain ⟨n, one⟩ := List.length_eq_one_iff.mp fits.2
  have here : n ∈ t.all f := by
    show n ∈ within f t.children
    rw [one]
    exact List.mem_singleton_self n
  exact ⟨n, one, kind_mem_of_mem_all h mem here⟩

/-- A function has one name, and so has a loop over words. -/
theorem exists_name (h : t.isWellTyped = true) (kind : t.kind = .function ∨ t.kind = .forLoop) :
    ∃ n, t.all .name = [n] ∧ n.kind = .name := by
  have member : Member.child .name .required (.only .name) ∈ t.kind.members := by
    rcases kind with kind | kind
    · rw [kind]
      decide
    · rw [kind]
      decide
  obtain ⟨n, one, name⟩ := exists_all_eq_of_required h member
  exact ⟨n, one, List.mem_singleton.mp name⟩

theorem kind_eq_name (h : t.isWellTyped = true) (kind : t.kind = .function ∨ t.kind = .forLoop)
    (hn : n ∈ t.all .name) : n.kind = .name := by
  obtain ⟨m, one, name⟩ := exists_name h kind
  rw [one] at hn
  rwa [List.mem_singleton.mp hn]

/-- What stands below a connective is one of its operands. -/
theorem eq_of_operand (h : t.isWellTyped = true) (kind : t.kind = .logicalExpression)
    (hn : n ∈ t.all f) : f = .left ∨ f = .right := by
  have admits := admits_of_mem h (mem_all_iff.mp hn)
  rw [kind] at admits
  simpa using admits.holds (p := fun f _ => f == .left || f == .right) rfl

/-- A field that may be filled holds one child or none. -/
theorem all_eq_of_optional (h : t.isWellTyped = true)
    (mem : Member.child f .optional admission ∈ t.kind.members) :
    t.all f = [] ∨ ∃ n, t.all f = [n] ∧ n.kind ∈ admission.kinds := by
  have fits := fitsMember_of_mem h mem
  simp only [fitsMember, kinds_within, Bool.and_eq_true, decide_eq_true_eq, List.length_map] at fits
  cases found : t.all f with
  | nil => exact .inl rfl
  | cons n ns =>
    have here : n ∈ t.all f := found ▸ List.mem_cons_self ..
    have one : (t.all f).length ≤ 1 := fits.2
    rw [found, List.length_cons] at one
    have none : ns = [] := List.eq_nil_of_length_eq_zero (by omega)
    exact .inr ⟨n, none ▸ rfl, kind_mem_of_mem_all h mem here⟩

/-- Does a member hold any number of children just if its field is a sequence? -/
def memberFitsSequence : Member → Bool
  | .attribute _ _ => true
  | .child g arity _ => (arity == .many) == g.isSequence

/-- A field holds any number of children just if it is a sequence. -/
theorem eq_many_iff {k : Kind} (mem : Member.child f arity admission ∈ k.members) :
    arity = .many ↔ f.isSequence = true := by
  have check : k.members.all memberFitsSequence = true := by cases k <;> rfl
  have here := List.all_eq_true.mp check _ mem
  simp only [memberFitsSequence, beq_iff_eq] at here
  rw [← here, beq_iff_eq]

/-- A field that is no sequence holds at most one child. -/
theorem length_all_le_one (h : t.isWellTyped = true) (single : f.isSequence = false) :
    (t.all f).length ≤ 1 := by
  cases found : t.all f with
  | nil => exact Nat.zero_le _
  | cons n ns =>
    have here : n ∈ t.all f := found ▸ List.mem_cons_self ..
    obtain ⟨arity, admission, mem, -⟩ := admits_of_mem h (mem_all_iff.mp here)
    rw [← found]
    cases arity with
    | required =>
      obtain ⟨m, one, -⟩ := exists_all_eq_of_required h mem
      rw [one]
      exact Nat.le_refl _
    | optional =>
      rcases all_eq_of_optional h mem with none | ⟨m, one, -⟩
      · rw [none]
        exact Nat.zero_le _
      · rw [one]
        exact Nat.le_refl _
    | many =>
      -- A field of many children would be a sequence.
      have sequence := (eq_many_iff mem).mp rfl
      rw [single] at sequence
      cases sequence

theorem isWellTyped_of_mem_all (h : t.isWellTyped = true) (hn : n ∈ t.all f) :
    n.isWellTyped = true :=
  isWellTyped_of_mem h (mem_all_iff.mp hn)

end

/-! ### Throughout a tree -/

/-- It holds of the node and of everything below it. -/
def Throughout (P : Node → Prop) (t : Node) : Prop :=
  P t ∧ ∀ f n, Site t f n → P n

section

variable {P P' : Node → Prop} {t n : Node} {f : Field}

theorem throughout_iff : Throughout P t ↔ P t ∧ ∀ c ∈ t.children, Throughout P c.2 := by
  rw [Throughout, forall_site_iff]
  rfl

theorem Throughout.here (h : Throughout P t) : P t := h.1

theorem Throughout.all (h : Throughout P t) (hn : n ∈ t.all f) : Throughout P n :=
  (throughout_iff.mp h).2 _ (mem_all_iff.mp hn)

theorem Throughout.mono (h : Throughout P t) (weaker : ∀ n, P n → P' n) : Throughout P' t :=
  ⟨weaker _ h.1, fun f n site => weaker _ (h.2 f n site)⟩

theorem Throughout.and (h : Throughout P t) (h' : Throughout P' t) :
    Throughout (fun n => P n ∧ P' n) t :=
  ⟨⟨h.1, h'.1⟩, fun f n site => ⟨h.2 f n site, h'.2 f n site⟩⟩

/-- The second tree is the first one or stands below it. -/
def Holds (t n : Node) : Prop :=
  n = t ∨ ∃ f, Site t f n

theorem holds_of_child {c : Node} (hc : (f, c) ∈ t.children) (h : c.Holds n) : t.Holds n := by
  rcases h with rfl | ⟨g, site⟩
  · exact .inr ⟨f, .child hc⟩
  · exact .inr ⟨g, .deeper hc site⟩

theorem throughout_iff_forall : Throughout P t ↔ ∀ n, t.Holds n → P n := by
  constructor
  · rintro ⟨here, below⟩ n (rfl | ⟨f, site⟩)
    · exact here
    · exact below f n site
  · intro h
    exact ⟨h t (.inl rfl), fun f n site => h n (.inr ⟨f, site⟩)⟩

/-- What holds throughout a tree holds throughout everything in it. -/
theorem Throughout.throughout (h : Throughout P t) : Throughout (Throughout P) t := by
  refine ⟨h, fun f n site => ?_⟩
  induction site with
  | child mem => exact (throughout_iff.mp h).2 _ mem
  | deeper mem _ ih => exact ih ((throughout_iff.mp h).2 _ mem)

theorem throughout_of_everywhere {p : Node → Bool} (h : t.everywhere p = true) :
    Throughout (fun n => p n = true) t :=
  ⟨(everywhere_iff.mp h).1, fun _ _ site => (everywhere_iff.mp (everywhere_of_site h site)).1⟩

theorem everywhere_of_throughout {p : Node → Bool} (h : Throughout (fun n => p n = true) t) :
    t.everywhere p = true := by
  induction t using induct with
  | step hd l cs ih =>
    obtain ⟨here, below⟩ := throughout_iff.mp h
    exact everywhere_iff.mpr ⟨here, fun c hc => ih c hc (below c hc)⟩

theorem everywhere_iff_forall {p : Node → Bool} :
    t.everywhere p = true ↔ ∀ n, t.Holds n → p n = true :=
  ⟨fun h => throughout_iff_forall.mp (throughout_of_everywhere h),
    fun h => everywhere_of_throughout (throughout_iff_forall.mpr h)⟩

theorem throughout_isWellTyped (h : t.isWellTyped = true) :
    Throughout (fun n => n.isWellTyped = true) t :=
  ⟨h, fun _ _ site => isWellTyped_of_site h site⟩

/-- What holds of a node if it holds of everything below it holds of every
    node. -/
theorem induct_below (step : ∀ t, (∀ f n, Site t f n → P n) → P t) (t : Node) : P t := by
  have throughout : Throughout P t := by
    induction t using induct with
    | step h l cs ih =>
      have below : ∀ f n, Site (mk h l cs) f n → P n := forall_site_iff.mpr ih
      exact ⟨step _ below, below⟩
  exact throughout.here

end

/-! ### Texts -/

theorem sourcesIn_eq (k : Kind) (f : Field) (cs : List (Field × Node)) :
    sourcesIn k f cs = (within f cs).mapM (source (some k)) := by
  induction cs with
  | nil => rfl
  | cons c cs ih =>
    obtain ⟨g, n⟩ := c
    unfold sourcesIn
    by_cases same : g = f
    · have first : within f ((g, n) :: cs) = n :: within f cs := by simp [within, same]
      rw [if_pos same, first, List.mapM_cons, ih]
    · have others : within f ((g, n) :: cs) = within f cs := by simp [within, same]
      rw [if_neg same, others, ih]

/-- The texts in a field, if there is one for every child. -/
theorem sourcesIn_eq_ok {k : Kind} {f : Field} {cs : List (Field × Node)} {text : Node → String}
    (h : ∀ n ∈ within f cs, n.source (some k) = .ok (text n)) :
    sourcesIn k f cs = .ok ((within f cs).map text) := by
  rw [sourcesIn_eq]
  generalize within f cs = ns at h
  induction ns with
  | nil => rfl
  | cons n ns ih =>
    have first := h n (List.mem_cons_self ..)
    have others := ih fun m mem => h m (List.mem_cons_of_mem _ mem)
    rw [List.mapM_cons, first, others]
    rfl

/-- The statements of a child are asked for like those of any list. -/
theorem statementsIn_eq (f : Field) (cs : List (Field × Node)) :
    statementsIn f cs =
      match (within f cs).head? with
      | none => .ok none
      | some n =>
        if n.kind.sequenceFields.contains .commands then
          (sourcesIn n.kind .commands n.children).map some
        else .error .missingPart := by
  induction cs with
  | nil => rfl
  | cons c cs ih =>
    obtain ⟨g, hd, l, ds⟩ := c
    unfold statementsIn
    -- Only the first child in the field is looked at.
    by_cases same : g = f
    · subst same
      simp [within, kind, head, children]
    · have nodes : within f ((g, .mk hd l ds) :: cs) = within f cs := by
        simp [within, same]
      rw [if_neg same, ih, nodes]

end ShellInliner.Node
