import ShellInliner.Import
import ShellInliner.Proofs.Node.Subtree

/-! # What resolving the imports of a script does

    Resolving succeeds exactly when every import, however deep it stands, can be
    resolved, and an import that is an operand brings in exactly one function.
    The tree it leaves is the one that `inline` says: each import gives way to
    the functions of its file, and nothing else changes. -/

namespace ShellInliner

/-! ### Results of runs -/

/-- The run ends in this result, whatever state it starts in. -/
def Run.Yields {σ α : Type} (x : Run σ α) (r : Except Error α) : Prop :=
  ∀ s, ∃ s', x.run.run s = (r, s')

namespace Run.Yields

variable {σ α β : Type}

theorem pure (a : α) : Yields (Pure.pure a : Run σ α) (.ok a) :=
  fun s => ⟨s, rfl⟩

theorem lift (r : Except Error α) : Yields (Run.lift r : Run σ α) r := by
  cases r with
  | ok a => exact fun s => ⟨s, rfl⟩
  | error e => exact fun s => ⟨s, rfl⟩

/-- Runs one after the other end as their results one after the other do. -/
theorem bind {x : Run σ α} {f : α → Run σ β} {r : Except Error α} {g : α → Except Error β}
    (hx : Yields x r) (hf : ∀ a, Yields (f a) (g a)) : Yields (x >>= f) (r >>= g) := by
  intro s
  obtain ⟨s₁, h₁⟩ := hx s
  -- After an error the second run is not reached.
  cases r with
  | ok a =>
    obtain ⟨s₂, h₂⟩ := hf a s₁
    refine ⟨s₂, ?_⟩
    rw [ExceptT.run_bind, StateT.run_bind, h₁]
    exact h₂
  | error e =>
    refine ⟨s₁, ?_⟩
    rw [ExceptT.run_bind, StateT.run_bind, h₁]
    rfl

end Run.Yields

/-- The run succeeds with this value exactly under this condition, whatever state
    it starts in. -/
def Run.Decides {σ α : Type} (x : Run σ α) (P : Prop) (a : α) : Prop :=
  (P → x.Yields (.ok a)) ∧ (¬ P → ∃ e, x.Yields (.error e))

theorem Run.Decides.bind {σ α β : Type} {x : Run σ α} {f : α → Run σ β} {P Q : Prop} {a : α} {b : β}
    (hx : x.Decides P a) (hf : P → (f a).Decides Q b) : (x >>= f).Decides (P ∧ Q) b := by
  constructor
  · rintro ⟨hp, hq⟩ s
    obtain ⟨s₁, h₁⟩ := hx.1 hp s
    obtain ⟨s₂, h₂⟩ := (hf hp).1 hq s₁
    exact ⟨s₂, by rw [ExceptT.run_bind, StateT.run_bind, h₁]; exact h₂⟩
  · intro h
    -- The first run is to blame, or else the second one.
    by_cases hp : P
    · obtain ⟨e, he⟩ := (hf hp).2 fun hq => h ⟨hp, hq⟩
      refine ⟨e, fun s => ?_⟩
      obtain ⟨s₁, h₁⟩ := hx.1 hp s
      obtain ⟨s₂, h₂⟩ := he s₁
      exact ⟨s₂, by rw [ExceptT.run_bind, StateT.run_bind, h₁]; exact h₂⟩
    · obtain ⟨e, he⟩ := hx.2 hp
      refine ⟨e, fun s => ?_⟩
      obtain ⟨s₁, h₁⟩ := he s
      exact ⟨s₁, by rw [ExceptT.run_bind, StateT.run_bind, h₁]; rfl⟩

theorem Run.Decides.congr {σ α : Type} {x : Run σ α} {P Q : Prop} {a : α} (h : x.Decides P a)
    (hpq : P ↔ Q) : x.Decides Q a :=
  propext hpq ▸ h

theorem note_yields (message : String) : Run.Yields (note message) (.ok ()) :=
  fun s => ⟨message :: s, rfl⟩

/-! ### Imports and what they bring in -/

/-- Is the node a command that imports? -/
def Node.isImport (n : Node) : Bool :=
  n.kind == .command && Importer.isImport n

namespace Importer

variable (i : Importer) (d : Disk)

/-- The functions that an import brings in, or why it fails. -/
def bring (n : Node) : Except Error (List Node) := do
  let argument ← i.argument n
  let path ← i.resolvePath d argument n.row?
  i.functionsOf d path

/-- The functions that an import brings in; none if it fails. -/
def brought (n : Node) : List Node :=
  (i.bring d n).toOption.getD []

/-- The import brings in these functions: its first word without quotes names a
    file, the bytes of the file are text, the text is a script, and they are the
    functions at the top level of that script, renamed. -/
def Brings (n : Node) (functions : List Node) : Prop :=
  ∃ w path bytes code script,
    (n.all .suffix).find? (·.kind == .word) = some w ∧
    (i.candidates d (Word.unquote (w.text?.getD "").toList)).find? d.isFile = some path ∧
    d.find path = .ok (.file bytes) ∧
    Disk.textOf bytes = .ok code ∧
    parse code { file := some (String.ofList path) } = .ok script ∧
    functions = script.topLevelFunctions.map (qualify (moduleOf path) i.settings.separator)

/-- What an import in a field needs: that it brings something in, and exactly one
    function where it is an operand. -/
def Resolvable (f : Field) (n : Node) : Prop :=
  ∃ functions, i.Brings d n functions ∧ (f = .left ∨ f = .right → functions.length = 1)

theorem functionsOf_eq {path : List Char} {bytes : List UInt8}
    (h : d.find path = .ok (.file bytes)) :
    i.functionsOf d path = (do
      let code ← Disk.textOf bytes
      let script ← parse code { file := some (String.ofList path) }
      return script.topLevelFunctions.map (qualify (moduleOf path) i.settings.separator)) := by
  simp only [functionsOf, Disk.readText, Disk.readBytes, h]

theorem bring_ok_iff {n : Node} {functions : List Node} :
    i.bring d n = .ok functions ↔ i.Brings d n functions := by
  constructor
  · -- The steps are taken apart in their order; one that fails contradicts `h`.
    intro h
    unfold bring argument resolvePath at h
    cases hw : (n.all .suffix).find? (·.kind == .word) with
    | none => simp only [hw, bind, Except.bind, reduceCtorEq] at h
    | some w =>
      simp only [hw, bind, Except.bind] at h
      cases hp : (i.candidates d (Word.unquote (w.text?.getD "").toList)).find? d.isFile with
      | none => simp only [hp, reduceCtorEq] at h
      | some path =>
        simp only [hp] at h
        have hfile := List.find?_some hp
        unfold Disk.isFile at hfile
        split at hfile
        · rename_i bytes hfind
          rw [i.functionsOf_eq d hfind] at h
          cases hc : Disk.textOf bytes with
          | error e => simp only [hc, bind, Except.bind, reduceCtorEq] at h
          | ok code =>
            cases hs : parse code { file := some (String.ofList path) } with
            | error e => simp only [hc, hs, bind, Except.bind, reduceCtorEq] at h
            | ok script =>
              simp only [hc, hs, bind, Except.bind, pure, Except.pure, Except.ok.injEq] at h
              exact ⟨w, path, bytes, code, script, hw, hp, hfind, hc, hs, h.symm⟩
        · simp at hfile
  · rintro ⟨w, path, bytes, code, script, hw, hp, hfind, hc, hs, rfl⟩
    unfold bring argument resolvePath
    simp only [hw, hp, bind, Except.bind]
    rw [i.functionsOf_eq d hfind]
    simp only [hc, hs, bind, Except.bind, pure, Except.pure]

/-- Whether an import can be resolved is found out by carrying it out. -/
instance (f : Field) (n : Node) : Decidable (i.Resolvable d f n) :=
  decidable_of_iff ((i.bring d n).toOption.any
      (fun functions => decide (f = .left ∨ f = .right → functions.length = 1)) = true) <| by
    simp only [Resolvable, ← i.bring_ok_iff d]
    cases i.bring d n with
    | ok functions =>
      simp only [Except.toOption, Option.any_some, decide_eq_true_eq, Except.ok.injEq, exists_eq_left']
    | error e => simp [Except.toOption]

theorem importFunctions_yields (n : Node) :
    Run.Yields (i.importFunctions d n) (i.bring d n) := by
  refine .bind (.lift _) fun argument => .bind (.lift _) fun path => ?_
  conv => arg 2; rw [← bind_pure (i.functionsOf d path)]
  exact .bind (.lift _) fun functions => .bind (note_yields _) fun _ => .pure _

end Importer

/-! ### The tree with its imports inlined -/

namespace Node

mutual

/-- The tree in which every import has given way to its functions.  The
    functions themselves are taken as they are. -/
def inline (functions : Node → List Node) : Node → Node
  | mk h l cs => mk h l (inlineIn functions cs)

/-- The children with their imports inlined, each in its field. -/
def inlineIn (functions : Node → List Node) : List (Field × Node) → List (Field × Node)
  | [] => []
  | (f, n) :: cs =>
    if n.isImport then (functions n).map (f, ·) ++ inlineIn functions cs
    else (f, inline functions n) :: inlineIn functions cs

end

variable {functions : Node → List Node}

theorem inlineIn_eq_self {cs : List (Field × Node)}
    (h : ∀ c ∈ cs, c.2.isImport = false ∧ inline functions c.2 = c.2) :
    inlineIn functions cs = cs := by
  induction cs with
  | nil => rfl
  | cons c cs ih =>
    obtain ⟨f, n⟩ := c
    obtain ⟨hn, hi⟩ := h (f, n) (List.mem_cons_self ..)
    simp only [inlineIn, hn, hi, ih fun c hc => h c (List.mem_cons_of_mem _ hc),
      Bool.false_eq_true, if_false]

/-- A tree without imports stays as it is. -/
theorem inline_eq_self {t : Node} (h : ∀ f n, Site t f n → n.isImport = false) :
    inline functions t = t := by
  induction t using Node.induct with
  | step hd l cs ih =>
    have below := forall_site_iff.mp h
    rw [inline, inlineIn_eq_self]
    exact fun c hc => ⟨(below c hc).1, ih c hc (below c hc).2⟩

/-! ### Where commands stand -/

/-- The kinds that stand below a command and hold no commands. -/
def isCommandPart (k : Kind) : Bool :=
  k == .redirect || k.isLeaf

/-- Is this a field in which commands may stand: a sequence or an operand? -/
def isStatementField (f : Field) : Bool :=
  f.isSequence || f == .left || f == .right

theorem isCommandPart_of_admits {k below : Kind} {f : Field} (h : Admits k f below)
    (hk : k = .command ∨ isCommandPart k) : isCommandPart below = true := by
  refine h.holds (p := fun _ => isCommandPart) ?_
  revert hk
  cases k <;> decide

theorem isStatementField_of_admits {k : Kind} {f : Field} (h : Admits k f .command) :
    isStatementField f = true := by
  have : (.command != Kind.command) || isStatementField f :=
    h.holds (p := fun f k => k != .command || isStatementField f) (by cases k <;> decide)
  exact this

/-- Below a command there is no other command. -/
theorem kind_ne_command_of_site {t n : Node} {f : Field} (ht : t.isWellTyped = true)
    (hk : t.kind = .command ∨ isCommandPart t.kind) (s : Site t f n) : n.kind ≠ .command := by
  induction s with
  | child mem =>
    have := isCommandPart_of_admits (admits_of_mem ht mem) hk
    intro h
    rw [h] at this
    cases this
  | deeper mem _ ih =>
    exact ih (isWellTyped_of_mem ht mem) (.inr (isCommandPart_of_admits (admits_of_mem ht mem) hk))

/-- A command and its parts hold no imports. -/
theorem isImport_of_site {t n : Node} {f : Field} (ht : t.isWellTyped = true)
    (hk : t.kind = .command ∨ isCommandPart t.kind) (s : Site t f n) : n.isImport = false := by
  have := kind_ne_command_of_site ht hk s
  simp [Node.isImport, this]

theorem inline_command_part {t : Node} (ht : t.isWellTyped = true)
    (hk : t.kind = .command ∨ isCommandPart t.kind) : inline functions t = t :=
  inline_eq_self fun _ _ s => isImport_of_site ht hk s

theorem isImport_inline {t : Node} (ht : t.isWellTyped = true) :
    (inline functions t).isImport = t.isImport := by
  by_cases hk : t.kind = .command
  · rw [inline_command_part ht (.inl hk)]
  · cases t with
    | mk h l cs =>
      have other : (h.kind == .command) = false := beq_false_of_ne hk
      simp [inline, Node.isImport, Node.kind, Node.head, other]

end Node

/-! ### The traversal -/

namespace Importer

variable (i : Importer) (d : Disk)

theorem entry?_visitor (k : Kind) :
    Table.entry? (i.visitor d) k = if k = .command then some (i.handler d) else none := by
  cases k <;> rfl

theorem unknownNames_visitor : Table.unknownNames (i.visitor d) = [] := by
  rfl

theorem visit_yields_one {parent : Option Node} {root n : Node} (h : n.isImport = false) :
    Run.Yields (Visitor.visit (i.visitor d) parent root (.one n)) (.ok (.one n)) := by
  simp only [Visitor.visit, entry?_visitor]
  by_cases hk : n.kind = .command
  · have hi : Importer.isImport n = false := by simpa [Node.isImport, hk] using h
    simp only [hk, if_true, handler, hi, Bool.false_eq_true, if_false]
    exact .pure _
  · simp only [hk, if_false]
    exact .pure _

theorem visit_yields_several (parent : Option Node) (root : Node) {n : Node} (h : n.isImport = true) :
    Run.Yields (Visitor.visit (i.visitor d) parent root (.one n))
      (i.bring d n >>= fun fs => .ok (.several (fs.map some))) := by
  simp only [Node.isImport, Bool.and_eq_true, beq_iff_eq] at h
  simp only [Visitor.visit, entry?_visitor, h.1, if_true, handler, h.2, bind_assoc, pure_bind]
  exact (i.importFunctions_yields d n).bind fun fs => .pure _

/-- Everything below the node can be resolved, and so can the node itself if it
    is an import. -/
def Ready (n : Node) : Prop :=
  (∀ f m, n.Site f m → m.isImport = true → i.Resolvable d f m) ∧
    (n.isImport = true → i.Brings d n (i.brought d n))

/-- What the traversal leaves of a node. -/
def left (n : Node) : Visited Node :=
  if n.isImport then .several ((i.brought d n).map some) else .one (n.inline (i.brought d))

theorem left_of_not_import {n : Node} (h : n.isImport = false) :
    i.left d n = .one (n.inline (i.brought d)) := by
  simp [left, h]

theorem brought_eq {n : Node} {functions : List Node} (h : i.Brings d n functions) :
    i.brought d n = functions := by
  simp [brought, (i.bring_ok_iff d).mpr h, Except.toOption]

theorem resolvable_iff {f : Field} {n : Node} :
    i.Resolvable d f n ↔
      i.Brings d n (i.brought d n) ∧ (f = .left ∨ f = .right → (i.brought d n).length = 1) := by
  constructor
  · rintro ⟨functions, hb, hl⟩
    rw [i.brought_eq d hb]
    exact ⟨hb, hl⟩
  · exact fun ⟨hb, hl⟩ => ⟨_, hb, hl⟩

/-- In a field where commands may stand, what is left of a node finds its place
    exactly when an operand is left one node. -/
theorem settle_left (k : Kind) {f : Field} {n : Node}
    (hf : n.isImport = true → Node.isStatementField f = true) :
    if n.isImport = true ∧ (f = .left ∨ f = .right) ∧ (i.brought d n).length ≠ 1 then
      ∃ e, Visitor.settle k f (i.left d n) = .error e
    else Visitor.settle k f (i.left d n) = .ok (Node.inlineIn (i.brought d) [(f, n)]) := by
  cases hn : n.isImport with
  | false =>
    simp only [Bool.false_eq_true, false_and, if_false, i.left_of_not_import d hn, Node.inlineIn, hn]
    cases hs : f.isSequence <;> simp [Visitor.settle, hs, Visited.sequence, Visited.single, Except.map]
  | true =>
    simp only [left, hn, true_and, if_true, Node.inlineIn, List.append_nil]
    cases hs : f.isSequence with
    | true =>
      -- A row takes any number of functions, and no operand is a row.
      have : ¬ (f = .left ∨ f = .right) := by rintro (rfl | rfl) <;> cases hs
      simp [this, Visitor.settle, hs, Visited.sequence]
    | false =>
      -- Of the single fields only an operand may hold a statement.
      have operand : f = .left ∨ f = .right := by
        simpa [Node.isStatementField, hs] using hf hn
      simp only [operand, true_and, Visitor.settle, hs, Bool.false_eq_true, if_false]
      match h : i.brought d n with
      | [] => simp [Visited.single, Except.map]
      | [m] => simp [Visited.single, Except.map]
      | m₁ :: m₂ :: ms => simp [Visited.single, Except.map]

/-- The visit of a node whose children have been traversed. -/
theorem visit_decides (parent : Option Node) (root : Node) {n : Node} (ht : n.isWellTyped = true) :
    Run.Decides (Visitor.visit (i.visitor d) parent root (.one (n.inline (i.brought d))))
      (n.isImport = true → i.Brings d n (i.brought d n)) (i.left d n) := by
  cases hn : n.isImport with
  | false =>
    rw [i.left_of_not_import d hn]
    have stays : (n.inline (i.brought d)).isImport = false := by rw [Node.isImport_inline ht, hn]
    exact ⟨fun _ => i.visit_yields_one d stays, fun h => absurd (fun h => by cases h) h⟩
  | true =>
    -- An import is a command, and within a command nothing is inlined.
    have command : n.kind = .command := by
      simp only [Node.isImport, Bool.and_eq_true, beq_iff_eq] at hn
      exact hn.1
    rw [Node.inline_command_part ht (.inl command)]
    have ends := i.visit_yields_several d parent root hn
    constructor
    · intro h
      rw [(i.bring_ok_iff d).mpr (h rfl)] at ends
      simp only [left, hn, if_true]
      exact ends
    · intro h
      cases hb : i.bring d n with
      | ok functions =>
        have brings := (i.bring_ok_iff d).mp hb
        -- Functions that come are the ones that were to be brought.
        exact absurd (fun _ => (i.brought_eq d brings).symm ▸ brings) h
      | error e =>
        rw [hb] at ends
        exact ⟨e, ends⟩

theorem traverseChildren_decides (root parent : Node) {cs : List (Field × Node)}
    (fields : ∀ c ∈ cs, c.2.isImport = true → Node.isStatementField c.1 = true)
    (nodes : ∀ c ∈ cs, ∀ p, Run.Decides (Visitor.traverseNode (i.visitor d) root p c.2)
      (i.Ready d c.2) (i.left d c.2)) :
    Run.Decides (Visitor.traverseChildren (i.visitor d) root parent cs)
      (∀ c ∈ cs, i.Ready d c.2 ∧ (c.2.isImport = true → i.Resolvable d c.1 c.2))
      (Node.inlineIn (i.brought d) cs) := by
  induction cs with
  | nil => exact ⟨fun _ => .pure _, fun h => absurd (fun c hc => by cases hc) h⟩
  | cons c cs ih =>
    obtain ⟨f, n⟩ := c
    have others := ih (fun c hc => fields c (List.mem_cons_of_mem _ hc))
      (fun c hc => nodes c (List.mem_cons_of_mem _ hc))
    have first := nodes (f, n) (List.mem_cons_self ..) (some parent)
    have settled := i.settle_left d parent.kind (fields (f, n) (List.mem_cons_self ..))
    -- The child is traversed, what is left of it is settled, and the others follow.
    have here : Run.Decides (Run.lift (Visitor.settle parent.kind f (i.left d n)) : Run Log _)
        (n.isImport = true → (f = .left ∨ f = .right) → (i.brought d n).length = 1)
        (Node.inlineIn (i.brought d) [(f, n)]) := by
      split at settled
      · rename_i h
        obtain ⟨e, he⟩ := settled
        exact ⟨fun h' => absurd (h' h.1 h.2.1) h.2.2, fun _ => ⟨e, he ▸ .lift _⟩⟩
      · rename_i h
        refine ⟨fun _ => settled ▸ .lift _, fun h' => absurd ?_ h'⟩
        intro hn hf
        by_cases hl : (i.brought d n).length = 1
        · exact hl
        · exact absurd ⟨hn, hf, hl⟩ h
    have joined : Node.inlineIn (i.brought d) [(f, n)] ++ Node.inlineIn (i.brought d) cs =
        Node.inlineIn (i.brought d) ((f, n) :: cs) := by
      simp only [Node.inlineIn]
      split <;> simp
    have last (ds : List (Field × Node)) : Run.Decides (pure ds : Run Log _) True ds :=
      ⟨fun _ => .pure _, fun h => absurd trivial h⟩
    rw [Visitor.traverseChildren, ← joined]
    refine (first.bind fun _ => here.bind fun _ => others.bind
      (f := fun ds => pure (Node.inlineIn (i.brought d) [(f, n)] ++ ds)) fun _ => last _).congr ?_
    simp only [List.forall_mem_cons, resolvable_iff, Ready]
    constructor
    · rintro ⟨⟨hs, hi⟩, ho, hc, -⟩
      exact ⟨⟨⟨hs, hi⟩, fun hn => ⟨hi hn, ho hn⟩⟩, hc⟩
    · rintro ⟨⟨⟨hs, hi⟩, hr⟩, hc⟩
      exact ⟨⟨hs, hi⟩, fun hn => (hr hn).2, hc, trivial⟩

theorem traverseNode_decides (root : Node) {n : Node} (hn : n.isWellTyped = true) :
    ∀ parent, Run.Decides (Visitor.traverseNode (i.visitor d) root parent n)
      (i.Ready d n) (i.left d n) := by
  induction n using Node.induct with
  | step h l cs ih =>
    intro parent
    rw [Visitor.traverseNode]
    have visited (p : Option Node) := i.visit_decides d p root hn
    split
    · -- Nothing below a leaf is an import.
      rename_i leaf
      have part : Node.isCommandPart (Node.mk h l cs).kind = true := by
        simp [Node.isCommandPart, Node.kind, Node.head, leaf]
      have same : (Node.mk h l cs).inline (i.brought d) = .mk h l cs :=
        Node.inline_command_part hn (.inr part)
      rw [same] at visited
      refine (visited parent).congr ?_
      constructor
      · intro hi
        refine ⟨fun f m s hm => ?_, hi⟩
        rw [Node.isImport_of_site hn (.inr part) s] at hm
        cases hm
      · exact fun ready => ready.2
    · have children := i.traverseChildren_decides d root (.mk h l cs)
        (fun c hc hm => by
          have command : c.2.kind = .command := by
            simp only [Node.isImport, Bool.and_eq_true, beq_iff_eq] at hm
            exact hm.1
          exact Node.isStatementField_of_admits (command ▸ Node.admits_of_mem hn hc))
        (fun c hc p => ih c hc (Node.isWellTyped_of_mem hn hc) p)
      refine (children.bind fun _ => visited parent).congr ?_
      unfold Ready
      rw [Node.forall_site_iff]
      constructor
      · rintro ⟨hc, hi⟩
        exact ⟨fun c m => ⟨(hc c m).2, (hc c m).1.1⟩, hi⟩
      · rintro ⟨hc, hi⟩
        have brings (c) (m : c ∈ cs) (hm : c.2.isImport = true) :=
          ((i.resolvable_iff d).mp ((hc c m).1 hm)).1
        exact ⟨fun c m => ⟨⟨(hc c m).2, brings c m⟩, (hc c m).1⟩, hi⟩

theorem traverse_decides {t : Node} (hs : t.kind = .script) (ht : t.isWellTyped = true) :
    Run.Decides (Visitor.traverse (i.visitor d) t)
      (∀ f n, t.Site f n → n.isImport = true → i.Resolvable d f n)
      (.one (t.inline (i.brought d))) := by
  have plain : t.isImport = false := by simp [Node.isImport, hs]
  have decides := i.traverseNode_decides d t ht none
  rw [i.left_of_not_import d plain] at decides
  rw [Visitor.traverse, unknownNames_visitor]
  refine decides.congr ⟨fun ready => ready.1, fun h => ⟨h, fun hi => ?_⟩⟩
  rw [plain] at hi
  cases hi

end Importer

/-! ### Resolving a script -/

/-- Resolving the imports of a well-typed script succeeds exactly when each of
    them, however deep, can be resolved.  What it leaves is the script in which
    each import has given way, in its place, to the functions it brings in, and
    a script without imports is left as it is. -/
theorem traverse_imports (i : Importer) (d : Disk) (t : Node) (log : Log)
    (hs : t.kind = .script) (ht : t.isWellTyped = true) :
    ((∃ x log', (Visitor.traverse (i.visitor d) t).run.run log = (.ok x, log')) ↔
      ∀ f n, t.Site f n → n.isImport = true → i.Resolvable d f n) ∧
    (∀ x log', (Visitor.traverse (i.visitor d) t).run.run log = (.ok x, log') →
      ∃ functions : Node → List Node,
        (∀ f n, t.Site f n → n.isImport = true → i.Brings d n (functions n)) ∧
        x = .one (t.inline functions)) ∧
    ((∀ f n, t.Site f n → n.isImport = false) →
      ∃ log', (Visitor.traverse (i.visitor d) t).run.run log = (.ok (.one t), log')) := by
  obtain ⟨succeeds, fails⟩ := i.traverse_decides d hs ht
  have sound : ∀ x log', (Visitor.traverse (i.visitor d) t).run.run log = (.ok x, log') →
      (∀ f n, t.Site f n → n.isImport = true → i.Resolvable d f n) ∧
        x = .one (t.inline (i.brought d)) := by
    intro x log' h
    by_cases hr : ∀ f n, t.Site f n → n.isImport = true → i.Resolvable d f n
    · obtain ⟨log'', h'⟩ := succeeds hr log
      rw [h'] at h
      injection h with result
      injection result with same
      exact ⟨hr, same.symm⟩
    · obtain ⟨e, he⟩ := fails hr
      obtain ⟨log'', h'⟩ := he log
      rw [h'] at h
      injection h with result
      cases result
  refine ⟨⟨fun ⟨x, log', h⟩ => (sound x log' h).1, fun hr => ?_⟩, ?_, ?_⟩
  · obtain ⟨log', h⟩ := succeeds hr log
    exact ⟨_, log', h⟩
  · intro x log' h
    obtain ⟨hr, rfl⟩ := sound x log' h
    exact ⟨i.brought d, fun f n s hn => ((i.resolvable_iff d).mp (hr f n s hn)).1, rfl⟩
  · intro none
    have vacuous : ∀ f n, t.Site f n → n.isImport = true → i.Resolvable d f n := by
      intro f n s hn
      rw [none f n s] at hn
      cases hn
    obtain ⟨log', h⟩ := succeeds vacuous log
    rw [Node.inline_eq_self none] at h
    exact ⟨log', h⟩

/-- An import in a subshell gives way to both functions of its file, and one that is an
    operand of `&&` to the only function of its file.  An operand can give way neither to
    two functions nor to those of a file that is not there. -/
theorem traverse_imports_operand :
    let disk := ((Disk.blank "/work".toList "/home".toList).makeFile
      ["work".toList, "one.sh".toList] (Text.encode "f() { a; }\n")).makeFile
      ["work".toList, "two.sh".toList] (Text.encode "f() { a; }\ng() { b; }\n")
    let importer : Importer := ⟨none, {}⟩
    let command (name argument : String) : Node := .mk (.command false) none
      [(.name, .mk (.word name) none []), (.suffix, .mk (.word argument) none [])]
    let script (inside : List Node) (operand : Node) : Node := .mk .script none
      [(.commands, .mk (.subshell false) none
        [(.list, .mk (.compoundList false) none (inside.map (.commands, ·)))]),
       (.commands, .mk (.logicalExpression false .and) none
        [(.left, operand), (.right, command "echo" "x")])]
    let resolve (t : Node) := (Visitor.traverse (importer.visitor disk) t).run.run []
    (∃ f g h log, resolve (script [command "import" "two"] (command "import" "one")) =
        (.ok (.one (script [f, g] h)), log) ∧
      [f, g, h].map Node.label? = [some "two::f", some "two::g", some "one::f"]) ∧
    (∀ argument ∈ ["two", "none"], ¬ ∃ x log,
      resolve (script [command "import" "two"] (command "import" argument)) = (.ok x, log)) ∧
    ∃ log, resolve (script [command "echo" "two"] (command "echo" "one")) =
      (.ok (.one (script [command "echo" "two"] (command "echo" "one"))), log) := by
  intro disk importer command script resolve
  refine ⟨?_, ?_, ?_⟩
  · obtain ⟨succeeds, inlines, -⟩ := traverse_imports importer disk
      (script [command "import" "two"] (command "import" "one")) [] rfl (by decide)
    -- What each import brings in is found by carrying it out.
    obtain ⟨resolvable, both, single⟩ :
        (∀ f n, (script [command "import" "two"] (command "import" "one")).Site f n →
          n.isImport = true → importer.Resolvable disk f n) ∧
        (importer.brought disk (command "import" "two")).map Node.label? =
          [some "two::f", some "two::g"] ∧
        (importer.brought disk (command "import" "one")).map Node.label? = [some "one::f"] := by
      decide +kernel
    obtain ⟨x, log, resolved⟩ := succeeds.mpr resolvable
    obtain ⟨functions, brings, rfl⟩ := inlines x log resolved
    have brought {f : Field} {n : Node} (site : Node.Site _ f n) (isImport : n.isImport = true) :
        importer.brought disk n = functions n :=
      importer.brought_eq disk (brings f n site isImport)
    have two := brought (.deeper (List.mem_cons_self ..)
      (.deeper (List.mem_cons_self ..) (.child (List.mem_cons_self ..)))) rfl
    have one := brought (.deeper (List.mem_cons_of_mem _ (List.mem_cons_self ..))
      (.child (List.mem_cons_self ..))) rfl
    rw [two] at both
    rw [one] at single
    obtain ⟨f, rest, two, hf, others⟩ := List.map_eq_cons_iff.mp both
    obtain ⟨g, rfl, hg⟩ := List.map_eq_singleton_iff.mp others
    obtain ⟨h, one, hh⟩ := List.map_eq_singleton_iff.mp single
    have inlined : (script [command "import" "two"] (command "import" "one")).inline functions =
        .mk .script none
          [(.commands, .mk (.subshell false) none [(.list, .mk (.compoundList false) none
            ((functions (command "import" "two")).map (.commands, ·) ++ []))]),
           (.commands, .mk (.logicalExpression false .and) none
            ((functions (command "import" "one")).map (.left, ·) ++ [(.right, command "echo" "x")]))] :=
      rfl
    rw [inlined, two, one] at resolved
    refine ⟨f, g, h, log, resolved, ?_⟩
    simp only [List.map_cons, List.map_nil, hf, hg, hh]
  · intro argument listed
    have refused : ¬ ∀ f n, (script [command "import" "two"] (command "import" argument)).Site f n →
        n.isImport = true → importer.Resolvable disk f n := by
      revert argument
      decide +kernel
    exact mt (traverse_imports importer disk
      (script [command "import" "two"] (command "import" argument)) [] rfl rfl).1.mp refused
  · exact (traverse_imports importer disk (script [command "echo" "two"] (command "echo" "one")) []
      rfl (by decide)).2.2 (by decide +kernel)

end ShellInliner
