import ShellInliner.Functions
import ShellInliner.Proofs.Node.Fields
import ShellInliner.Proofs.Visit.Calls
import ShellInliner.Proofs.Workspace.Edits
import ShellInliner.Proofs.Workspace.Installing

/-! # Traversals that change nothing

    A traversal whose handlers leave every node as it is gives back the tree that it
    was started on: no field is passed over, no empty field counts as a removed
    child, and no element of a sequence is lost.  The visitor that lists functions is
    of this kind, and so is the one that installs layouts: it works on a copy, which
    shows the same tree. -/

namespace ShellInliner.Visitor

variable {σ : Type}

/-! ### Visits that leave one node -/

/-- A node of a kind without a handler is left as it is. -/
theorem run_visit_of_none {v : Visitor σ} {root n : Node} {parent : Option Node}
    (none : Table.entry? v n.kind = none) (s : σ) :
    (v.visit parent root (.one n)).run.run s = (.ok (.one n), s) := by
  unfold visit
  simp only [none]
  exact Run.run_pure _ s

/-- The visit of a node leaves what its handler decides. -/
theorem run_visit_of_some {v : Visitor σ} {root n : Node} {parent : Option Node} {h : Handler σ}
    {o : Outcome Node} {s s' : σ} (found : Table.entry? v n.kind = some h)
    (called : (h n parent root).run.run s = (.ok o, s')) :
    (v.visit parent root (.one n)).run.run s = (.ok (o.apply n), s') := by
  unfold visit
  simp only [found]
  rw [Run.run_bind_ok called]
  exact Run.run_pure _ s'

/-- A child of which one node is left is replaced by it, in any field. -/
theorem settle_one (k : Kind) (f : Field) (n : Node) : settle k f (.one n) = .ok [(f, n)] := by
  unfold settle
  cases f.isSequence with
  | true => rfl
  | false => rfl

theorem run_traverseChildren_cons {v : Visitor σ} {root parent n m : Node} {f : Field}
    {cs ds : List (Field × Node)} {s s₁ s' : σ}
    (first : (traverseNode v root (some parent) n).run.run s = (.ok (.one m), s₁))
    (others : (traverseChildren v root parent cs).run.run s₁ = (.ok ds, s')) :
    (traverseChildren v root parent ((f, n) :: cs)).run.run s = (.ok ((f, m) :: ds), s') := by
  have settled : (Run.lift (settle parent.kind f (.one m)) : Run σ _).run.run s₁ =
      (.ok [(f, m)], s₁) := by
    rw [Run.run_lift, settle_one]
  unfold traverseChildren
  rw [Run.run_bind_ok first, Run.run_bind_ok settled, Run.run_bind_ok others]
  rfl

/-- A node with children is visited with what is left of them. -/
theorem run_traverseNode_inner {v : Visitor σ} {root : Node} {parent : Option Node} {h : Head}
    {l : Option Extent} {cs ds : List (Field × Node)} {s s₁ : σ} (inner : h.kind.isLeaf = false)
    (below : (traverseChildren v root (.mk h l cs) cs).run.run s = (.ok ds, s₁)) :
    (traverseNode v root parent (.mk h l cs)).run.run s =
      (v.visit parent root (.one (.mk h l ds))).run.run s₁ := by
  unfold traverseNode
  rw [inner, if_neg Bool.false_ne_true]
  exact Run.run_bind_ok below

theorem traverseNode_leaf {v : Visitor σ} {root : Node} {parent : Option Node} {n : Node}
    (leaf : n.kind.isLeaf = true) :
    traverseNode v root parent n = v.visit parent root (.one n) := by
  cases n with
  | mk h l cs =>
    have leaf' : h.kind.isLeaf = true := leaf
    unfold traverseNode
    rw [if_pos leaf']

theorem traverse_of_known {v : Visitor σ} (known : Table.unknownNames v = []) (t : Node) :
    traverse v t = traverseNode v t none t := by
  unfold traverse
  rw [known]

/-! ### Nodes that are left alone -/

/-- The handler for a node, if there is one, returns nothing or the node that it was
    given. -/
def LeavesAlone (v : Visitor σ) (root : Node) (e : Node × Option Node) : Prop :=
  ∀ h, Table.entry? v e.1.kind = some h → ∀ s, ∃ o s',
    (h e.1 e.2 root).run.run s = (.ok o, s') ∧ (o = .keep ∨ o = .replace e.1)

theorem LeavesAlone.run_visit {v : Visitor σ} {root n : Node} {parent : Option Node}
    (alone : v.LeavesAlone root (n, parent)) (s : σ) :
    ∃ s', (v.visit parent root (.one n)).run.run s = (.ok (.one n), s') := by
  cases found : Table.entry? v n.kind with
  | none => exact ⟨s, run_visit_of_none found s⟩
  | some h =>
    obtain ⟨o, s', called, same⟩ := alone h found s
    refine ⟨s', (run_visit_of_some found called).trans ?_⟩
    rcases same with rfl | rfl
    · rfl
    · rfl

/-- The visits of children that are left alone leave these children. -/
theorem run_traverseChildren_same {v : Visitor σ} {root parent : Node} {cs : List (Field × Node)}
    (each : ∀ c ∈ cs, ∀ s, ∃ s',
      (traverseNode v root (some parent) c.2).run.run s = (.ok (.one c.2), s')) (s : σ) :
    ∃ s', (traverseChildren v root parent cs).run.run s = (.ok cs, s') := by
  induction cs generalizing s with
  | nil => exact ⟨s, rfl⟩
  | cons c cs ih =>
    obtain ⟨s₁, first⟩ := each c (List.mem_cons_self ..) s
    obtain ⟨s', others⟩ := ih (fun d mem => each d (List.mem_cons_of_mem _ mem)) s₁
    exact ⟨s', run_traverseChildren_cons first others⟩

/-- A node is left as it is if nothing at or below it is changed. -/
theorem run_traverseNode_same {v : Visitor σ} {root n : Node} (typed : n.isWellTyped = true)
    {parent : Option Node} (each : ∀ e ∈ postOrder parent n, v.LeavesAlone root e) (s : σ) :
    ∃ s', (traverseNode v root parent n).run.run s = (.ok (.one n), s') := by
  induction n using Node.induct generalizing parent s with
  | step h l cs ih =>
    have order := postOrder_eq typed parent
    have here : v.LeavesAlone root (.mk h l cs, parent) := each _ <| by
      rw [order]
      exact List.mem_append_right _ (List.mem_singleton_self _)
    cases leaf : h.kind.isLeaf with
    | true =>
      have leaf' : (Node.mk h l cs).kind.isLeaf = true := leaf
      rw [traverseNode_leaf leaf']
      exact here.run_visit s
    | false =>
      -- Nothing below the children is changed, for all of it is visited with the node.
      have below : ∀ c ∈ cs, ∀ e ∈ postOrder (some (.mk h l cs)) c.2, v.LeavesAlone root e := by
        intro c mem e within
        have inner : (Node.mk h l cs).kind.isLeaf = false := leaf
        refine each e ?_
        rw [order, inner, if_neg Bool.false_ne_true]
        exact List.mem_append_left _ (List.mem_flatMap.mpr ⟨c, mem, within⟩)
      obtain ⟨s₁, children⟩ := run_traverseChildren_same
        (fun c mem => ih c mem (Node.isWellTyped_of_mem typed mem) (below c mem)) s
      obtain ⟨s', visited⟩ := here.run_visit s₁
      exact ⟨s', (run_traverseNode_inner leaf children).trans visited⟩

/-! ### The visitor that lists functions -/

/-- What is visited in a well-typed tree is well-typed. -/
theorem isWellTyped_of_mem_postOrder {n : Node} (typed : n.isWellTyped = true)
    {parent : Option Node} {e : Node × Option Node} (mem : e ∈ postOrder parent n) :
    e.1.isWellTyped = true := by
  induction n using Node.induct generalizing parent with
  | step h l cs ih =>
    rw [postOrder_eq typed] at mem
    rcases List.mem_append.mp mem with below | here
    · split at below
      · cases below
      · obtain ⟨c, child, within⟩ := List.mem_flatMap.mp below
        exact ih c child (Node.isWellTyped_of_mem typed child) within
    · cases List.mem_singleton.mp here
      exact typed

/-- A well-typed function has a name with a text. -/
theorem exists_name_of_function {n : Node} (typed : n.isWellTyped = true)
    (function : n.kind = .function) : ∃ name, (n.one? .name).bind Node.text? = some name := by
  obtain ⟨m, only, kind⟩ := Node.exists_name typed (.inl function)
  obtain ⟨text, head⟩ := Node.isHeadOf_kind kind
  have named : n.one? .name = some m := by
    unfold Node.one?
    rw [only]
    rfl
  rw [named]
  exact ⟨text, congrArg Head.text? head⟩

/-- Listing functions changes no node of a well-typed tree. -/
theorem leavesAlone_functions {t : Node} (typed : t.isWellTyped = true) {e : Node × Option Node}
    (mem : e ∈ postOrder none t) : LeavesAlone FunctionInfo.visitor t e := by
  obtain ⟨n, parent⟩ := e
  intro h found s
  -- Only functions have a handler.
  have entry : n.kind = .function ∧ h = FunctionInfo.collect := by
    revert found
    simp only
    cases n.kind <;> intro found <;> cases found
    exact ⟨rfl, rfl⟩
  obtain ⟨function, rfl⟩ := entry
  obtain ⟨name, text⟩ := exists_name_of_function (isWellTyped_of_mem_postOrder typed mem) function
  refine ⟨.keep, s ++ [⟨name, n.row?, parent.any (·.kind != .script)⟩], ?_, .inl rfl⟩
  unfold FunctionInfo.collect
  simp only [text]
  rfl

end ShellInliner.Visitor

namespace ShellInliner.Workspace

/-! ### The visitor that installs layouts -/

/-- Installing layouts leaves a copy that shows the same tree, whatever styles and
    texts the nodes have had. -/
theorem tree?_generate {w : Workspace} {h : Handle} {t : Node}
    (typed : ∀ x, w.Below h x → ∃ c, w.cells[x]? = some c ∧ w.Fits c)
    (tree : w.tree? w.fuel h = some t) :
    ∃ g w', (generate h).run.run w = (.ok (.one g), w') ∧ w'.tree? w'.fuel g = some t := by
  have whole : w.WholeBelow h := fun x below => by
    obtain ⟨c, found, fits⟩ := typed x below
    exact ⟨c, found, fits.hasRows⟩
  have within := isWithin_of_tree? whole tree
  -- Nothing is asked of styles and texts, since installing writes the styles anew.
  obtain ⟨t', shows⟩ := exists_shows (P := IsAny) within (fun x below => by
    obtain ⟨c, found, fits⟩ := typed x below
    exact ⟨c, found, fits, fun _ => trivial⟩) none
  obtain rfl : t' = t := Option.some.inj ((shows.tree?_eq within).symm.trans tree)
  obtain ⟨g, w', ended, -, installed⟩ := run_generate shows
  exact ⟨g, w', ended, installed.tree?_eq installed.isWithin⟩

end ShellInliner.Workspace

namespace ShellInliner.Visitor

/-! ### The identity law -/

/-- The identity law.  A traversal of a well-typed tree by a visitor with known names
    whose handlers return, in each of their calls, nothing or the node they were
    given succeeds and gives back the tree.  The visitor without handlers and the one
    that lists functions are such visitors.  So is the one that installs layouts: it
    ends with a node that has the same tree below it. -/
theorem traverse_identity (t : Node) (typed : t.isWellTyped = true) :
    (∀ (σ : Type) (v : Visitor σ), Table.unknownNames v = [] →
      (∀ e ∈ postOrder none t, v.LeavesAlone t e) →
      ∀ s, ∃ s', (traverse v t).run.run s = (.ok (.one t), s')) ∧
    (∀ (σ : Type), Table.unknownNames ([] : Visitor σ) = [] ∧
      ∀ e ∈ postOrder none t, LeavesAlone ([] : Visitor σ) t e) ∧
    (Table.unknownNames FunctionInfo.visitor = [] ∧
      ∀ e ∈ postOrder none t, LeavesAlone FunctionInfo.visitor t e) ∧
    ∀ (w : Workspace) (h : Handle),
      (∀ x, w.Below h x → ∃ c, w.cells[x]? = some c ∧ w.Fits c) → w.tree? w.fuel h = some t →
      ∃ g w', (Workspace.generate h).run.run w = (.ok (.one g), w') ∧
        w'.tree? w'.fuel g = some t := by
  refine ⟨fun σ v known each s => ?_, fun σ => ⟨rfl, ?_⟩, ⟨rfl, ?_⟩, ?_⟩
  · rw [traverse_of_known known]
    exact run_traverseNode_same typed each s
  · intro e _ h found
    cases found
  · exact fun e mem => leavesAlone_functions typed mem
  · exact fun w h cells tree => Workspace.tree?_generate cells tree

/-- A visitor counts the words of a function, and puts each of them in its own
    place.  The command that the function runs has a word, the one after it has not
    even a name. -/
theorem traverse_identity_function :
    let name : Node := .mk (.name "f") (some (.between ⟨1, 1, 0⟩ ⟨1, 2, 1⟩)) []
    let command : Node := .mk (.command true) none [(.name, .mk (.word "a") none [])]
    let body : Node := .mk (.compoundList false) none [(.commands, command)]
    let f : Node := .mk (.function false) none [(.name, name), (.body, body)]
    let t : Node := .mk .script none [(.commands, f), (.commands, .mk (.command false) none [])]
    let count : Handler Nat := fun n _ _ => do
      if n.kind = .word then
        modify (· + 1)
        return .replace n
      else return .keep
    let v : Visitor Nat := [(Table.defaultName, some count)]
    let w : Workspace :=
      { cells := #[⟨.name "f", some (.between ⟨1, 1, 0⟩ ⟨1, 2, 1⟩), [], [], none, none⟩,
          ⟨.word "a", none, [], [(.expansion, 0)], some .braced, some "b"⟩,
          ⟨.command true, none, [(.name, some 1)], [(.leading, 0), (.suffix, 0)], none, none⟩,
          ⟨.compoundList false, none, [], [(.commands, 1), (.redirections, 0)], none, some "c"⟩,
          ⟨.function false, none, [(.name, some 0), (.body, some 3)], [(.redirections, 0)], none,
            none⟩,
          ⟨.command false, none, [(.name, none)], [(.leading, 0), (.suffix, 0)], none, none⟩,
          ⟨.script, none, [], [(.commands, 2)], none, none⟩]
        rows := #[[], [some 2], [some 4, some 5]] }
    (∃ s', (traverse v t).run.run 0 = (.ok (.one t), s')) ∧
      (∃ s', (traverse FunctionInfo.visitor t).run.run [] = (.ok (.one t), s')) ∧
      ∃ g w', (Workspace.generate 6).run.run w = (.ok (.one g), w') ∧
        w'.tree? w'.fuel g = some t := by
  intro name command body f t count v w
  have typed : t.isWellTyped = true := by decide
  obtain ⟨law, -, ⟨known, alone⟩, layouts⟩ := traverse_identity t typed
  have cells : w.IsWellTyped := by decide
  have shown : w.tree? w.fuel 6 = some t := by rfl
  -- The handler decides by the kind of the node: a word is put back, all else is kept.
  have counting : ∀ e ∈ postOrder none t, v.LeavesAlone t e := by
    intro e _ h found s
    have entry : Table.entry? v e.1.kind = some count := by
      cases e.1.kind <;> rfl
    rw [entry] at found
    cases found
    by_cases leaf : e.1.kind = .word
    · have counts : count e.1 e.2 t = (do modify (· + 1); return .replace e.1) := if_pos leaf
      exact ⟨.replace e.1, s + 1, by rw [counts]; rfl, .inr rfl⟩
    · have keeps : count e.1 e.2 t = pure .keep := if_neg leaf
      exact ⟨.keep, s, by rw [keeps]; rfl, .inl rfl⟩
  refine ⟨law Nat v rfl counting 0, law _ _ known alone [], layouts w 6 (fun x below => ?_) shown⟩
  exact Workspace.exists_fits_of_below cells (by decide) below

end ShellInliner.Visitor
