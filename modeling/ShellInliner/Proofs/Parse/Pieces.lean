import ShellInliner.Proofs.Node.Leaves
import ShellInliner.Proofs.Parse.Made
import ShellInliner.Proofs.Parse.Unplaced

/-! # What symbols do to the nodes of their parts

    A symbol puts nodes together, wraps them up and sends them to the background.
    What is kept by these steps is kept by every symbol, and no symbol drops a word
    or a name of its parts or puts them into another order. -/

namespace ShellInliner.Parse

open Grammar Node

/-! ### The nodes of pieces -/

/-- The nodes that a piece holds. -/
def Piece.nodes : Piece → List Node
  | node n => [n]
  | words ns => ns
  | mark _ _ => []

/-- The nodes that pieces hold, those of words that are kept together included. -/
def allNodes (ps : List Piece) : List Node :=
  ps.flatMap Piece.nodes

@[simp] theorem allNodes_nil : allNodes [] = [] := rfl

@[simp] theorem allNodes_node (n : Node) (ps : List Piece) :
    allNodes (.node n :: ps) = n :: allNodes ps := rfl

@[simp] theorem allNodes_words (ns : List Node) (ps : List Piece) :
    allNodes (.words ns :: ps) = ns ++ allNodes ps := rfl

@[simp] theorem allNodes_mark (t : Terminal) (text : List Char) (ps : List Piece) :
    allNodes (.mark t text :: ps) = allNodes ps := rfl

theorem allNodes_append (ps qs : List Piece) : allNodes (ps ++ qs) = allNodes ps ++ allNodes qs :=
  List.flatMap_append

theorem mem_allNodes {n : Node} {ps : List Piece} (mem : n ∈ nodesOf ps) : n ∈ allNodes ps := by
  induction ps with
  | nil => cases mem
  | cons p ps ih =>
    cases p with
    | node m =>
      rcases List.mem_cons.mp mem with rfl | mem
      · exact List.mem_cons_self ..
      · exact List.mem_cons_of_mem _ (ih mem)
    | words ns => exact List.mem_append_right _ (ih mem)
    | mark t text => exact ih mem

section

variable {P : Node → Prop} {loc : Option Extent} {s : Symbol} {ps qs : List Piece}

theorem forall_mem_nodesOf (all : ∀ n ∈ allNodes ps, P n) (sub : qs ⊆ ps) :
    ∀ n ∈ nodesOf qs, P n := by
  intro n hn
  obtain ⟨p, hp, here⟩ := List.mem_filterMap.mp hn
  exact all n (mem_allNodes (List.mem_filterMap.mpr ⟨p, sub hp, here⟩))

/-! ### What symbols keep -/

/-- The kinds of the nodes that a symbol puts together. -/
def assembled : Symbol → List Kind
  | .script => [.script]
  | .compoundList => [.compoundList]
  | .andOr => [.logicalExpression]
  | .pipeline | .pipeSequence => [.pipeline]
  | .simpleCommand => [.command]
  | .redirect => [.redirect]
  | .subshell => [.subshell]
  | .forClause => [.forLoop]
  | .caseClause => [.caseOf]
  | .caseItem => [.caseItem]
  | .ifClause => [.ifElse]
  | .elifPart => [.compoundList, .ifElse]
  | .whileClause => [.whileLoop]
  | .untilClause => [.untilLoop]
  | .functionDefinition => [.function]
  | _ => []

/-- The steps in which symbols make nodes at a place keep the property, but for those
    that put nodes of some kinds together. -/
structure Hereditary (apart : List Kind) (loc : Option Extent) (P : Node → Prop) : Prop where
  /-- It passes from children to the node that they are put into. -/
  join : ∀ h cs, h.kind ∉ apart → (∀ c ∈ cs, P c.2) → P (.mk h loc cs)
  /-- It passes from a node to its children. -/
  part : ∀ n, P n → ∀ c ∈ n.children, P c.2
  /-- It does not depend on whether a node runs in the background. -/
  recast : ∀ n, P n → P (n.withHead n.head.inBackground)
  /-- It is kept when a node gets the place. -/
  place : ∀ n, P n → P (n.withLoc loc)
  /-- It is kept when a node gets redirections and the place. -/
  extend : ∀ n rs, P n → (∀ r ∈ rs, P r) → P ((n.withLast .redirections rs).withLoc loc)
  /-- It passes from a node to the list that holds nothing else. -/
  single : ∀ n, P n → P (assemble (.compoundList false) n.loc [(.commands, [n])])
  /-- It holds of an empty list without a place. -/
  empty : P (assemble (.compoundList false) none [])

namespace Hereditary

variable {apart : List Kind} (step : Hereditary apart loc P)

include step

theorem assemble {h : Head} {fields : List (Field × List Node)} (free : h.kind ∉ apart)
    (parts : ∀ p ∈ fields, ∀ n ∈ p.2, P n) : P (assemble h loc fields) := by
  refine step.join h _ free fun c hc => ?_
  obtain ⟨p, hp, mem⟩ := mem_children_assemble (h := h) (l := loc) hc
  exact parts p hp c.2 mem

theorem statements (all : ∀ n ∈ allNodes ps, P n) : ∀ n ∈ statements ps, P n := by
  -- The property is kept by the list so far, whatever is pushed.
  have fold (done : List Node) (before : ∀ n ∈ done, P n) :
      ∀ n ∈ ps.foldl pushStatement done, P n := by
    induction ps generalizing done with
    | nil => exact before
    | cons p ps ih =>
      cases p with
      | node n =>
        rw [allNodes_node, List.forall_mem_cons] at all
        exact ih all.2 _ (List.forall_mem_cons.mpr ⟨all.1, before⟩)
      | words ns =>
        rw [allNodes_words, List.forall_mem_append] at all
        exact ih all.2 _ before
      | mark t text =>
        refine ih all _ ?_
        cases done with
        | nil => exact before
        | cons n done =>
          rw [List.forall_mem_cons] at before
          exact List.forall_mem_cons.mpr ⟨step.recast n before.1, before.2⟩
  exact fun n hn => fold [] (by simp) n (List.mem_reverse.mp hn)

theorem negate {n : Node} (free : .pipeline ∉ apart) (h : P n) : P (negate loc n) := by
  unfold Parse.negate
  split
  · exact step.join _ _ free (step.part n h)
  · exact step.assemble free (by simpa using h)

theorem simpleCommand (free : .command ∉ apart) (all : ∀ n ∈ allNodes ps, P n) :
    P (simpleCommand loc ps) := by
  have leading := forall_mem_nodesOf all (List.takeWhile_sublist (!·.isWord)).subset
  have rest := forall_mem_nodesOf all (List.dropWhile_sublist (!·.isWord)).subset
  refine step.assemble free ?_
  simp only [List.forall_mem_cons, List.not_mem_nil, false_implies, implies_true, and_true]
  exact ⟨fun n hn => rest n (List.mem_of_mem_take hn), leading,
    fun n hn => rest n (List.mem_of_mem_drop hn)⟩

theorem conditional (free : .ifElse ∉ apart) (all : ∀ n ∈ allNodes ps, P n) :
    P (conditional loc ps) := by
  have nodes := forall_mem_nodesOf all (List.Subset.refl ps)
  refine step.assemble free ?_
  simp only [List.forall_mem_cons, List.not_mem_nil, false_implies, implies_true, and_true]
  exact ⟨fun n hn => nodes n (List.mem_of_mem_take hn),
    fun n hn => nodes n (List.mem_of_mem_drop (List.mem_of_mem_take hn)),
    fun n hn => nodes n (List.mem_of_mem_drop hn)⟩

theorem redirect (free : .redirect ∉ apart) (all : ∀ n ∈ allNodes ps, P n)
    (made : redirect loc ps = .ok qs) : ∀ n ∈ allNodes qs, P n := by
  revert made
  fun_cases Parse.redirect loc ps with
  | case1 => rintro ⟨⟩
  | case2 t digits u op file =>
    rintro ⟨⟩
    simpa using step.assemble (h := .redirect _ _) free (by simpa using all)
  | case3 t op file =>
    rintro ⟨⟩
    simpa using step.assemble (h := .redirect _ _) free (by simpa using all)
  | case4 =>
    rintro ⟨⟩
    exact all

/-- What is kept by the steps of symbols is kept by symbols that put no nodes of other
    kinds together. -/
theorem symbolPieces (free : ∀ k ∈ assembled s, k ∉ apart) (all : ∀ n ∈ allNodes ps, P n)
    (made : symbolPieces s loc ps = .ok qs) : ∀ n ∈ allNodes qs, P n := by
  have node {n : Node} (h : P n) : ∀ m ∈ allNodes [.node n], P m := by simpa using h
  have nodes : ∀ n ∈ nodesOf ps, P n := forall_mem_nodesOf all (List.Subset.refl ps)
  have loop {h : Head} (free : h.kind ∉ apart) : P (Parse.assemble h loc
      [(.clause, (nodesOf ps).take 1), (.loopBody, (nodesOf ps).drop 1)]) := by
    refine step.assemble free ?_
    simp only [List.forall_mem_cons, List.not_mem_nil, false_implies, implies_true, and_true]
    exact ⟨fun n hn => nodes n (List.mem_of_mem_take hn), fun n hn => nodes n (List.mem_of_mem_drop hn)⟩
  revert made
  -- The cases stand in the order of the definition.  Most symbols put their parts together,
  -- so that only what is done to a part beforehand has to be argued.
  fun_cases Parse.symbolPieces s loc ps with
  | case8 => exact step.redirect (free _ (by decide)) all
  | case1 =>
    rintro ⟨⟩
    exact node (step.assemble (free _ (by decide)) (by simpa using step.statements all))
  | case2 =>
    rintro ⟨⟩
    exact node (step.assemble (free _ (by decide)) (by simpa using step.statements all))
  | case3 l t text r =>
    rintro ⟨⟩
    exact node (step.assemble (free .logicalExpression (by decide)) (by simpa using all))
  | case4 t text n =>
    rintro ⟨⟩
    exact node (step.negate (free _ (by decide)) (by simpa using all))
  | case5 p =>
    rintro ⟨⟩
    exact all
  | case6 =>
    rintro ⟨⟩
    exact node (step.assemble (free _ (by decide)) (by simpa using nodes))
  | case7 =>
    rintro ⟨⟩
    exact node (step.simpleCommand (free _ (by decide)) all)
  | case9 n r rs =>
    rintro ⟨⟩
    rw [allNodes_node, List.forall_mem_cons] at all
    exact node (step.extend n _ all.1 fun m hm => all.2 m (mem_allNodes hm))
  | case10 n =>
    rintro ⟨⟩
    exact node (step.place n (by simpa using all))
  | case11 n =>
    rintro ⟨⟩
    exact node (step.assemble (free _ (by decide)) (by simpa using all))
  | case12 name ws body =>
    rintro ⟨⟩
    have parts : P name ∧ (∀ w ∈ ws, P w) ∧ P body := by
      simpa [or_imp, forall_and] using all
    exact node (step.assemble (free _ (by decide)) (by simpa using ⟨parts.1, parts.2.2, parts.2.1⟩))
  | case13 name body =>
    rintro ⟨⟩
    exact node (step.assemble (free _ (by decide)) (by simpa using all))
  | case14 =>
    rintro ⟨⟩
    simpa using nodes
  | case15 =>
    rintro ⟨⟩
    simpa using nodes
  | case16 w rest =>
    rintro ⟨⟩
    rw [allNodes_node, List.forall_mem_cons] at all
    exact node (step.assemble (free _ (by decide))
      (by simpa using ⟨all.1, fun n hn => all.2 n (mem_allNodes hn)⟩))
  | case17 ws body =>
    rintro ⟨⟩
    have parts : (∀ w ∈ ws, P w) ∧ P body := by
      simpa [or_imp, forall_and] using all
    exact node (step.assemble (free _ (by decide)) (by simpa using ⟨parts.2, parts.1⟩))
  | case18 ws =>
    rintro ⟨⟩
    exact node (step.assemble (free _ (by decide)) (by simpa using ⟨step.empty, by simpa using all⟩))
  | case19 =>
    rintro ⟨⟩
    exact node (step.conditional (free _ (by decide)) all)
  | case20 =>
    rintro ⟨⟩
    exact node (step.assemble (free _ (by decide))
      (by simpa using step.conditional (free _ (by decide)) all))
  | case21 =>
    rintro ⟨⟩
    exact node (loop (free _ (by decide)))
  | case22 =>
    rintro ⟨⟩
    exact node (loop (free _ (by decide)))
  | case23 name body rs =>
    rintro ⟨⟩
    simp only [allNodes_node, List.forall_mem_cons] at all
    have list : P (listBody body) := by
      unfold listBody
      split
      · exact all.2.1
      · exact step.single body all.2.1
    exact node (step.assemble (free _ (by decide))
      (by simpa using ⟨all.1, list, fun n hn => all.2.2 n (mem_allNodes hn)⟩))
  | case24 =>
    rintro ⟨⟩
    exact all

end Hereditary

/-! ### The words and names of what symbols make -/

/-- The words and names that pieces hold, in the order of the script. -/
def leavesOf (ps : List Piece) : List Node :=
  (allNodes ps).flatMap leaves

theorem leavesOf_append (ps qs : List Piece) : leavesOf (ps ++ qs) = leavesOf ps ++ leavesOf qs := by
  unfold leavesOf
  rw [allNodes_append, List.flatMap_append]

theorem leavesOf_node (n : Node) : leavesOf [.node n] = n.leaves := by
  simp [leavesOf]

/-- No words are kept together among the pieces. -/
def IsPlain (ps : List Piece) : Prop :=
  ∀ ns, .words ns ∉ ps

theorem IsPlain.nodesOf_eq (plain : IsPlain ps) : nodesOf ps = allNodes ps := by
  induction ps with
  | nil => rfl
  | cons p ps ih =>
    have others := ih fun ns mem => plain ns (List.mem_cons_of_mem _ mem)
    cases p with
    | node n => exact congrArg (n :: ·) others
    | words ns => exact absurd (List.mem_cons_self ..) (plain ns)
    | mark t text => exact others

theorem leaves_inBackground (n : Node) : (n.withHead n.head.inBackground).leaves = n.leaves := by
  cases n with
  | mk h l cs =>
    cases named : h.text? with
    -- A leaf does not run in the background at all.
    | some text =>
      have same : h.inBackground = h := by cases h <;> first | rfl | cases named
      rw [head, same]
      rfl
    | none =>
      have unnamed : h.inBackground.text? = none := by cases h <;> first | rfl | exact named
      -- The mark changes neither the kind nor the children.
      have kind : h.inBackground.kind = h.kind := by cases h <;> rfl
      have other : (mk h.inBackground l cs).leaves = (mk h l cs).leaves := by
        rw [leaves_eq (n := mk h l cs) named, leaves_eq (n := mk h.inBackground l cs) unnamed]
        show h.inBackground.kind.sourceOrder.flatMap _ = h.kind.sourceOrder.flatMap _
        rw [kind]
        rfl
      exact other

theorem leaves_statements (ps : List Piece) :
    (statements ps).flatMap leaves = (nodesOf ps).flatMap leaves := by
  -- A mark changes the last statement so far, but not its leaves.
  have fold (done : List Node) : (ps.foldl pushStatement done).reverse.flatMap leaves =
      done.reverse.flatMap leaves ++ (nodesOf ps).flatMap leaves := by
    induction ps generalizing done with
    | nil => exact (List.append_nil _).symm
    | cons p ps ih =>
      cases p with
      | node n =>
        refine (ih (n :: done)).trans ?_
        simp [nodesOf]
      | words ns => exact ih done
      | mark t text =>
        cases done with
        | nil => exact ih []
        | cons n done =>
          refine (ih (n.withHead n.head.inBackground :: done)).trans ?_
          simp [nodesOf, leaves_inBackground]
  exact fold []

theorem leaves_negate (n : Node) : (negate loc n).leaves = n.leaves := by
  unfold negate
  split
  · rename_i async bang head
    have unnamed : n.text? = none := by
      show n.head.text? = none
      rw [head]
      rfl
    have kind : n.kind = .pipeline := by
      show n.head.kind = _
      rw [head]
      rfl
    rw [leaves_eq unnamed, leaves_eq (n := mk _ _ _) rfl, kind]
    rfl
  · rw [leaves_assemble [.commands] rfl rfl]
    simp

theorem leaves_listBody (n : Node) : (listBody n).leaves = n.leaves := by
  unfold listBody
  split
  · rfl
  · rw [leaves_assemble [.commands, .redirections] rfl rfl]
    simp

theorem leaves_simpleCommand (ps : List Piece) :
    (simpleCommand loc ps).leaves = (nodesOf ps).flatMap leaves := by
  have split : nodesOf ps = nodesOf (ps.takeWhile (!·.isWord)) ++ nodesOf (ps.dropWhile (!·.isWord)) := by
    conv => lhs; rw [← List.takeWhile_append_dropWhile (p := fun p => !p.isWord) (l := ps)]
    exact List.filterMap_append
  unfold simpleCommand
  rw [leaves_assemble [.leading, .name, .suffix] rfl rfl, split]
  generalize nodesOf (ps.dropWhile (!·.isWord)) = rest
  cases rest <;> simp

theorem leaves_conditional (ps : List Piece) :
    (conditional loc ps).leaves = (nodesOf ps).flatMap leaves := by
  unfold conditional
  rw [leaves_assemble [.clause, .thenBranch, .elseBranch, .redirections] rfl rfl]
  generalize nodesOf ps = ns
  rcases ns with _ | ⟨clause, _ | ⟨positive, rest⟩⟩ <;> simp

theorem leaves_conditionLoop {h : Head}
    (order : h.kind.sourceOrder = [.clause, .loopBody, .redirections]) (unnamed : h.text? = none)
    (ns : List Node) :
    (assemble h loc [(.clause, ns.take 1), (.loopBody, ns.drop 1)]).leaves = ns.flatMap leaves := by
  rw [leaves_assemble _ order unnamed]
  cases ns <;> simp

theorem leaves_redirect (made : redirect loc ps = .ok qs) : leavesOf qs = leavesOf ps := by
  revert made
  fun_cases redirect loc ps with
  | case1 => rintro ⟨⟩
  | case2 t digits u op file =>
    rintro ⟨⟩
    rw [leavesOf_node, leaves_assemble [.file] rfl rfl]
    simp [leavesOf]
  | case3 t op file =>
    rintro ⟨⟩
    rw [leavesOf_node, leaves_assemble [.file] rfl rfl]
    simp [leavesOf]
  | case4 =>
    rintro ⟨⟩
    rfl

/-- Redirections stand behind everything else in a compound command. -/
theorem leaves_withRedirections {n : Node} (compound : n.kind ∈ compounds)
    (plain : n.all .redirections = []) (rs : List Node) (l : Option Extent) :
    ((n.withLast .redirections rs).withLoc l).leaves = n.leaves ++ rs.flatMap leaves := by
  have unnamed : n.text? = none := by
    refine text?_eq_none ?_
    revert compound
    cases n.kind <;> decide
  -- In every compound command redirections are the last field.
  obtain ⟨front, order, apart⟩ : ∃ front, n.kind.sourceOrder = front ++ [.redirections] ∧
      .redirections ∉ front := by
    refine ⟨n.kind.sourceOrder.dropLast, ?_⟩
    revert compound
    cases n.kind <;> decide
  have kept : front.flatMap (fun f => ((n.withLast .redirections rs).all f).flatMap leaves) =
      front.flatMap fun f => (n.all f).flatMap leaves := by
    refine List.flatMap_congr fun f hf => ?_
    have other : f ≠ .redirections := fun same => apart (same ▸ hf)
    rw [all_withLast, if_neg other]
  rw [leaves_withLoc (n := n.withLast .redirections rs) unnamed,
    leaves_eq (n := n.withLast .redirections rs) unnamed, leaves_eq unnamed]
  have kind : (n.withLast .redirections rs).kind = n.kind := rfl
  rw [kind, order, List.flatMap_append, List.flatMap_append, kept, List.flatMap_singleton,
    List.flatMap_singleton, all_withLast, if_pos rfl, plain, List.flatMap_nil, List.append_nil]

/-- What symbols rely on when they put their parts together. -/
structure Suits (s : Symbol) (ps : List Piece) : Prop where
  /-- Words that are kept together come to loops and branches only. -/
  plain : s ∉ [.forWords, .forClause, .caseItem] → IsPlain ps
  /-- There is a list between braces. -/
  group : s = .braceGroup → ∃ n, ps = [.node n] ∧ n.kind = .compoundList
  /-- What gets redirections is a compound command that has none. -/
  compound : s = .compoundCommand → ∃ n rs, ps = .node n :: rs ∧ n.kind ∈ compounds ∧
    n.all .redirections = []

/-- No symbol drops a word or a name of its parts, adds one or puts them into another
    order. -/
theorem leavesOf_symbolPieces (suits : Suits s ps) (made : symbolPieces s loc ps = .ok qs) :
    leavesOf qs = leavesOf ps := by
  have nodes (other : s ∉ [.forWords, .forClause, .caseItem]) :
      (nodesOf ps).flatMap leaves = leavesOf ps := by
    rw [(suits.plain other).nodesOf_eq]
    rfl
  revert made
  -- The cases stand in the order of the definition.  Each one names the fields of the node it
  -- makes in the order of the script; the parts came in the same order.
  fun_cases symbolPieces s loc ps with
  | case8 => exact leaves_redirect
  | case1 =>
    rintro ⟨⟩
    rw [leavesOf_node, leaves_assemble [.commands] rfl rfl, ← nodes (by decide), ← leaves_statements]
    simp
  | case2 =>
    rintro ⟨⟩
    rw [leavesOf_node, leaves_assemble [.commands, .redirections] rfl rfl, ← nodes (by decide),
      ← leaves_statements]
    simp
  | case3 l t text r =>
    rintro ⟨⟩
    rw [leavesOf_node, leaves_assemble [.left, .right] rfl rfl]
    simp [leavesOf]
  | case4 t text n =>
    rintro ⟨⟩
    rw [leavesOf_node, leaves_negate]
    simp [leavesOf]
  | case5 p =>
    rintro ⟨⟩
    rfl
  | case6 =>
    rintro ⟨⟩
    rw [leavesOf_node, leaves_assemble [.commands] rfl rfl, ← nodes (by decide)]
    simp
  | case7 =>
    rintro ⟨⟩
    rw [leavesOf_node, leaves_simpleCommand, nodes (by decide)]
  | case9 n r rs =>
    -- Redirections come last, and there have been none before.
    rintro ⟨⟩
    obtain ⟨m, others, same, kind, bare⟩ := suits.compound rfl
    obtain ⟨⟨⟩, rfl⟩ := List.cons.inj same
    have rest : IsPlain (r :: rs) := fun ns mem => suits.plain (by decide) ns (List.mem_cons_of_mem _ mem)
    rw [leavesOf_node, leaves_withRedirections kind bare, rest.nodesOf_eq]
    simp [leavesOf]
  | case10 n =>
    -- A list gets the place of its braces, which would matter to a word only.
    rintro ⟨⟩
    obtain ⟨m, same, kind⟩ := suits.group rfl
    obtain ⟨⟨⟩, -⟩ := List.cons.inj same
    rw [leavesOf_node, leavesOf_node, leaves_withLoc (text?_eq_none (by rw [kind]; rfl))]
  | case11 n =>
    rintro ⟨⟩
    rw [leavesOf_node, leaves_assemble [.list, .redirections] rfl rfl]
    simp [leavesOf]
  | case12 name ws body =>
    rintro ⟨⟩
    rw [leavesOf_node, leaves_assemble [.name, .wordlist, .loopBody, .redirections] rfl rfl]
    simp [leavesOf]
  | case13 name body =>
    rintro ⟨⟩
    rw [leavesOf_node, leaves_assemble [.name, .wordlist, .loopBody, .redirections] rfl rfl]
    simp [leavesOf]
  | case14 =>
    rintro ⟨⟩
    rw [← nodes (by decide)]
    simp [leavesOf]
  | case15 =>
    rintro ⟨⟩
    rw [← nodes (by decide)]
    simp [leavesOf]
  | case16 w rest =>
    rintro ⟨⟩
    have others : IsPlain rest := fun ns mem => suits.plain (by decide) ns (List.mem_cons_of_mem _ mem)
    rw [leavesOf_node, leaves_assemble [.clause, .cases, .redirections] rfl rfl, others.nodesOf_eq]
    simp [leavesOf]
  | case17 ws body =>
    rintro ⟨⟩
    rw [leavesOf_node, leaves_assemble [.pattern, .body] rfl rfl]
    simp [leavesOf]
  | case18 ws =>
    -- The list that is put in for the missing statements adds nothing.
    rintro ⟨⟩
    have empty : (assemble (.compoundList false) none []).leaves = [] := by
      rw [leaves_assemble [.commands, .redirections] rfl rfl]
      rfl
    rw [leavesOf_node, leaves_assemble [.pattern, .body] rfl rfl]
    simp [leavesOf, empty]
  | case19 =>
    rintro ⟨⟩
    rw [leavesOf_node, leaves_conditional, nodes (by decide)]
  | case20 =>
    rintro ⟨⟩
    rw [leavesOf_node, leaves_assemble [.commands, .redirections] rfl rfl, ← nodes (by decide)]
    simpa using leaves_conditional ps
  | case21 =>
    rintro ⟨⟩
    rw [leavesOf_node, leaves_conditionLoop rfl rfl, nodes (by decide)]
  | case22 =>
    rintro ⟨⟩
    rw [leavesOf_node, leaves_conditionLoop rfl rfl, nodes (by decide)]
  | case23 name body rs =>
    rintro ⟨⟩
    have others : IsPlain rs := fun ns mem =>
      suits.plain (by decide) ns (List.mem_cons_of_mem _ (List.mem_cons_of_mem _ mem))
    rw [leavesOf_node, leaves_assemble [.name, .body, .redirections] rfl rfl, others.nodesOf_eq]
    simp [leavesOf, leaves_listBody]
  | case24 =>
    rintro ⟨⟩
    rfl

end

/-! ### Parts as they are read -/

section

variable {s : Symbol} {ps qs : List Piece} {w : List Lexeme}

theorem IsPlain.append (h : IsPlain ps) (h' : IsPlain qs) : IsPlain (ps ++ qs) :=
  fun ns mem => (List.mem_append.mp mem).elim (h ns) (h' ns)

theorem isPlain_lexeme (l : Lexeme) : IsPlain l.pieces := by
  intro ns mem
  unfold Lexeme.pieces tokenPieces at mem
  split at mem <;> simp at mem

theorem isPlain_nodes (ns : List Node) : IsPlain (ns.map .node) := by
  intro ms mem
  simp at mem

/-- Only loops and branches keep words together. -/
theorem isPlain_of_made (made : Made s ps) (other : s ∉ [.forIn, .forWords, .pattern]) : IsPlain ps := by
  have one {n : Node} (same : ps = [.node n]) : IsPlain ps := same ▸ isPlain_nodes [n]
  have statements (made : IsStatements ps) : IsPlain ps := by
    intro ns mem
    rcases made _ mem with ⟨n, same, -⟩ | ⟨t, text, same⟩ <;> cases same
  cases s with
  | newlines | sequentialSeparator =>
    obtain rfl : ps = [] := made
    exact isPlain_nodes []
  | separator =>
    rcases made with rfl | ⟨text, rfl⟩
    · exact isPlain_nodes []
    · intro ns mem
      simp at mem
  | forIn | forWords | pattern => exact absurd other (by decide)
  | redirects | leadingItems | suffixItems | wordRun | patternTail | caseTail | pipeTail =>
    obtain ⟨ns, -, rfl, -⟩ := made
    exact isPlain_nodes ns
  | termTail => exact statements made
  | term => exact statements made.1
  -- All other symbols make one node.
  | _ =>
    obtain ⟨n, same, -⟩ := made
    exact one same

/-- What makes up a production is what its items make. -/
theorem RowReads.made {xs : List Item} (h : RowReads xs w ps) : itemsRead Makings xs w ps := by
  induction xs generalizing w ps with
  | nil => exact h.eq_nil
  | cons x xs ih =>
    cases x with
    | token t =>
      obtain ⟨l, w', ps', rfl, rfl, rfl, others⟩ := h.exists_token
      exact ⟨l.text, w', ps', rfl, rfl, ih others⟩
    | symbol s =>
      cases h with
      | symbol first others => exact ⟨_, _, _, _, rfl, rfl, first.made, ih others⟩

theorem isPlain_of_itemsRead {xs : List Item} (h : itemsRead Makings xs w ps)
    (other : ∀ s ∈ [Symbol.forIn, .forWords, .pattern], .symbol s ∉ xs) : IsPlain ps := by
  induction xs generalizing w ps with
  | nil =>
    obtain ⟨-, rfl⟩ := h
    exact isPlain_nodes []
  | cons x xs ih =>
    have others : ∀ s ∈ [Symbol.forIn, .forWords, .pattern], .symbol s ∉ xs :=
      fun s hs mem => other s hs (List.mem_cons_of_mem _ mem)
    cases x with
    | token t =>
      obtain ⟨text, w', ps', rfl, rfl, h⟩ := h
      exact (isPlain_lexeme _).append (ih h others)
    | symbol s =>
      obtain ⟨_, _, _, _, rfl, rfl, first, h⟩ := h
      exact (isPlain_of_made first fun hs => other s hs (List.mem_cons_self ..)).append (ih h others)

theorem not_mem_productions (other : s ∉ [.forWords, .forClause, .caseItem]) :
    ∀ xs ∈ s.productions, ∀ r ∈ [Symbol.forIn, .forWords, .pattern], Item.symbol r ∉ xs := by
  revert other
  cases s <;> decide

/-- The parts that a production gives are such as its symbol relies on. -/
theorem suits_of_rowReads {xs : List Item} (mem : xs ∈ s.productions) (h : RowReads xs w ps) :
    Suits s ps := by
  have reads : anyReads Makings s.alternatives w ps := (anyReads_iff _).mpr ⟨xs, mem, h.made⟩
  refine ⟨fun other => isPlain_of_itemsRead h.made (not_mem_productions other xs mem), ?_, ?_⟩
  · rintro rfl
    obtain ⟨_, _, _, _, rfl, _, _, _, _, _, rfl, ⟨n, rfl, fresh, -⟩, _, -, rfl⟩ := reads
    exact ⟨n, rfl, List.mem_singleton.mp fresh.kind⟩
  · rintro rfl
    obtain ⟨_, _, _, _, -, rfl, ⟨n, rfl, fresh, plain⟩, -⟩ := reads
    exact ⟨n, _, rfl, fresh.kind, plain⟩

theorem Suits.of_unplaced (h : Suits s (ps.map Piece.unplaced)) : Suits s ps where
  plain other ns mem := h.plain other _ (List.mem_map_of_mem mem)
  group is := by
    obtain ⟨n, same, kind⟩ := h.group is
    obtain ⟨p, _, rfl, here, none⟩ := List.map_eq_cons_iff.mp same
    obtain rfl := List.map_eq_nil_iff.mp none
    obtain ⟨m, rfl, rfl⟩ := unplaced_eq_node_iff.mp here
    exact ⟨m, rfl, kind_unplaced m ▸ kind⟩
  compound is := by
    obtain ⟨n, rs, same, kind, plain⟩ := h.compound is
    obtain ⟨p, others, rfl, here, -⟩ := List.map_eq_cons_iff.mp same
    obtain ⟨m, rfl, rfl⟩ := unplaced_eq_node_iff.mp here
    rw [all_unplaced, List.map_eq_nil_iff] at plain
    exact ⟨m, others, rfl, kind_unplaced m ▸ kind, plain⟩

/-- The parts of a derivation are such as its symbol relies on. -/
theorem suits_of_buildRow {wanted : Bool} {p : Position} {number : Nat} {ts : List Tree}
    {text rest : List Char} {b : Built} (production : s.productions[number]? = some (ts.map Tree.item))
    (row : RowDerives ts text rest) (built : buildRow wanted p ts = .ok b) : Suits s b.pieces := by
  have without := buildRow_unplaced wanted p ts
  rw [built] at without
  exact (suits_of_rowReads (List.mem_of_getElem? production) (rowReads_of_buildRow row without)).of_unplaced

end

end ShellInliner.Parse
