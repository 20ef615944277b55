import ShellInliner.Proofs.Visit.Identity
import ShellInliner.Proofs.Visit.Splicing

/-! # Where a traversal fails

    A single field needs one node.  A handler that returns a row of another length
    for a node in such a field is refused, and so is one that takes the node away
    where the kind of the parent requires it.  Let handlers themselves always return.
    Then these are the only reasons for a traversal to fail: it fails just if a call
    is refused, with the error of that call, and the call is the last one. -/

namespace ShellInliner.Visitor

variable {σ : Type}

/-! ### Places -/

/-- The field of the parent in which a node stands; the root stands in none. -/
abbrev Place := Option (Node × Field)

/-- The parent that a place belongs to. -/
def Place.parent (place : Place) : Option Node :=
  place.map (·.1)

mutual

/-- The nodes of a tree with their places, children before their parents and nothing
    below a leaf. -/
def placed (place : Place) : Node → List (Node × Place)
  | .mk h l cs => (if h.kind.isLeaf then [] else placedIn (.mk h l cs) cs) ++ [(.mk h l cs, place)]

/-- The nodes at and below the children of a node. -/
def placedIn (parent : Node) : List (Field × Node) → List (Node × Place)
  | [] => []
  | (f, n) :: cs => placed (some (parent, f)) n ++ placedIn parent cs

end

theorem placedIn_eq (parent : Node) (cs : List (Field × Node)) :
    placedIn parent cs = cs.flatMap fun c => placed (some (parent, c.1)) c.2 := by
  induction cs with
  | nil => rfl
  | cons c cs ih =>
    obtain ⟨f, n⟩ := c
    unfold placedIn
    rw [ih, List.flatMap_cons]

/-- In a well-typed tree this is the order in which nodes are visited. -/
theorem map_placed {n : Node} (typed : n.isWellTyped = true) (place : Place) :
    (placed place n).map (fun e => (e.1, Place.parent e.2)) = postOrder place.parent n := by
  induction n using Node.induct generalizing place with
  | step h l cs ih =>
    rw [postOrder_eq typed]
    unfold placed
    rw [List.map_append]
    congr 1
    -- Nothing below a leaf is visited.
    cases leaf : h.kind.isLeaf with
    | true => simp [Node.kind, Node.head, leaf]
    | false =>
      have below : (cs.flatMap fun c => (placed (some (.mk h l cs, c.1)) c.2).map
          fun e => (e.1, Place.parent e.2)) =
          cs.flatMap fun c => postOrder (some (.mk h l cs)) c.2 :=
        List.flatMap_congr fun c mem => ih c mem (Node.isWellTyped_of_mem typed mem) _
      simp only [Node.kind, Node.head, Node.children, leaf, Bool.false_eq_true, if_false]
      rw [placedIn_eq, List.map_flatMap, below]

/-- The nodes that a visitor has handlers for, with their places, in visiting order. -/
def due (v : Visitor σ) (nodes : List (Node × Place)) : List (Node × Place) :=
  nodes.filter fun e => (Table.entry? v e.1.kind).isSome

theorem due_append (v : Visitor σ) (xs ys : List (Node × Place)) :
    v.due (xs ++ ys) = v.due xs ++ v.due ys :=
  List.filter_append ..

/-! ### Refusals -/

/-- What a handler returns for the node in a place is refused with an error. -/
inductive Refuses : Place → Outcome Node → Error → Prop
  /-- A single field does not take a row of no nodes or of several. -/
  | count {p : Node} {f : Field} {ns : List (Option Node)} (single : f.isSequence = false)
      (count : ns.length ≠ 1) : Refuses (some (p, f)) (.splice ns) (.wrongCount ns.length p.kind f)
  /-- A required node cannot be removed. -/
  | removed {p : Node} {f : Field} (single : f.isSequence = false)
      (required : p.kind.requires f = true) :
      Refuses (some (p, f)) .remove (.removedRequired p.kind f)
  /-- Nor can it make room for nothing. -/
  | emptied {p : Node} {f : Field} (single : f.isSequence = false)
      (required : p.kind.requires f = true) :
      Refuses (some (p, f)) (.splice [none]) (.removedRequired p.kind f)

/-- Nothing that the handler returns is refused there. -/
def Accepts (place : Place) (o : Outcome Node) : Prop :=
  ∀ e, ¬ Refuses place o e

/-- What is done with the result of a visit fails just if the place refuses what the
    handler has returned. -/
def Judges {β : Type} (place : Place) (k : Visited Node → Except Error β) : Prop :=
  ∀ o n, (∃ b, k (o.apply n) = .ok b ∧ Accepts place o) ∨
    ∃ e, k (o.apply n) = .error e ∧ Refuses place o e

/-- The root may become anything. -/
theorem judges_root : Judges none (fun x : Visited Node => (.ok x : Except Error _)) := by
  intro o n
  refine .inl ⟨_, rfl, fun e refuses => ?_⟩
  cases refuses

/-- What takes a child away is refused just where the child is required. -/
theorem settle_of_removed {p : Node} {f : Field} (single : f.isSequence = false)
    {x : Visited Node} (empty : x.single p.kind f =
      if p.kind.requires f then .error (.removedRequired p.kind f) else .ok none) :
    settle p.kind f x =
      if p.kind.requires f then .error (.removedRequired p.kind f) else .ok [] := by
  unfold settle
  rw [single, if_neg Bool.false_ne_true, empty]
  split <;> rfl

/-- A field of the parent judges what is left of a child. -/
theorem judges_settle (p : Node) (f : Field) : Judges (some (p, f)) (settle p.kind f) := by
  intro o n
  cases single : f.isSequence with
  | true =>
    refine .inl ⟨_, by rw [settle, if_pos single], ?_⟩
    rintro e (⟨other, -⟩ | ⟨other, -⟩ | ⟨other, -⟩) <;> rw [single] at other <;> cases other
  | false =>
    have settled (x : Visited Node) :
        settle p.kind f x = (x.single p.kind f).map fun n => n.toList.map (f, ·) := by
      rw [settle, single, if_neg Bool.false_ne_true]
    -- A node that is taken away is judged by whether it is required.
    have removal (gone : Outcome Node) (left : settle p.kind f (gone.apply n) =
        if p.kind.requires f then .error (.removedRequired p.kind f) else .ok [])
        (refuses : p.kind.requires f = true →
          Refuses (some (p, f)) gone (.removedRequired p.kind f))
        (accepts : p.kind.requires f = false → Accepts (some (p, f)) gone) :
        (∃ b, settle p.kind f (gone.apply n) = .ok b ∧ Accepts (some (p, f)) gone) ∨
          ∃ e, settle p.kind f (gone.apply n) = .error e ∧ Refuses (some (p, f)) gone e := by
      rw [left]
      cases required : p.kind.requires f with
      | true => exact .inr ⟨_, rfl, refuses required⟩
      | false => exact .inl ⟨_, rfl, accepts required⟩
    cases o with
    | keep =>
      refine .inl ⟨_, settled _, fun e refuses => ?_⟩
      cases refuses
    | replace m =>
      refine .inl ⟨_, settled _, fun e refuses => ?_⟩
      cases refuses
    | remove =>
      refine removal .remove (settle_of_removed single rfl) (.removed single) fun optional e => ?_
      rintro (_ | ⟨-, required⟩ | _)
      rw [optional] at required
      cases required
    | splice ns =>
      rcases ns with _ | ⟨_ | m, _ | ⟨other, rest⟩⟩
      · exact .inr ⟨_, settled _, .count single (by simp)⟩
      · refine removal (.splice [none]) (settle_of_removed single rfl) (.emptied single)
          fun optional e => ?_
        rintro (⟨-, count⟩ | _ | ⟨-, required⟩)
        · exact count rfl
        · rw [optional] at required
          cases required
      · exact .inr ⟨_, settled _, .count single (by simp)⟩
      · refine .inl ⟨_, settled _, ?_⟩
        rintro e (⟨-, count⟩ | _ | _)
        exact count rfl
      · exact .inr ⟨_, settled _, .count single (by simp)⟩

/-- The errors are reported, with the kind of the parent and the field. -/
theorem Refuses.names {place : Place} {o : Outcome Node} {e : Error} (refuses : Refuses place o e) :
    ∃ p f report, place = some (p, f) ∧ f.isSequence = false ∧ e.report? = some report ∧
      report.topic = .traversal ∧
      ∃ before after, report.message = before ++ (p.kind.label ++ "." ++ f.longKey) ++ after := by
  -- All three messages name the kind and the field in the same way.
  cases refuses with
  | @count p f ns single count =>
    refine ⟨p, f, _, rfl, single, rfl, rfl, s!"Visitor returned {ns.length} nodes for ",
      ", which holds a single node", ?_⟩
    simp only [String.append_assoc]
    rfl
  | @removed p f single required =>
    refine ⟨p, f, _, rfl, single, rfl, rfl, "Visitor removed the required ", "", ?_⟩
    simp only [String.append_assoc, String.append_empty]
    rfl
  | @emptied p f single required =>
    refine ⟨p, f, _, rfl, single, rfl, rfl, "Visitor removed the required ", "", ?_⟩
    simp only [String.append_assoc, String.append_empty]
    rfl

/-- The single fields that need not be filled. -/
theorem requires_eq_false_iff {k : Kind} {f : Field} (single : f ∈ k.singleFields) :
    k.requires f = false ↔
      (k, f) ∈ [(Kind.command, Field.name), (.ifElse, .thenBranch), (.ifElse, .elseBranch)] := by
  revert single
  cases k <;> cases f <;> decide

/-! ### Runs and their verdicts -/

/-- A call of a handler: the node as it was with its place, and the decision. -/
abbrev Called := (Node × Place) × Decision

/-- The call is for the node. -/
def IsFor (root : Node) (c : Called) : Prop :=
  Serves root (c.1.1, c.1.2.parent) ⟨c.2.node, c.2.parent, c.2.root⟩

/-- What the calls have to do with the end of the run: if it is a result, all that was
    due has been called for and accepted; if it is an error, the last call has been
    refused with it, and no other. -/
def Verdict {α : Type} (due : List (Node × Place)) (calls : List Called) : Except Error α → Prop
  | .ok _ => calls.map (·.1) = due ∧ ∀ c ∈ calls, Accepts c.1.2 c.2.outcome
  | .error e => calls.map (·.1) <+: due ∧ ∃ before last, calls = before ++ [last] ∧
      (∀ c ∈ before, Accepts c.1.2 c.2.outcome) ∧ Refuses last.1.2 last.2.outcome e

/-- The second run does the same as the first and records the decisions, by which it
    can be told how the run ends. -/
def Judged {α : Type} (root : Node) (due : List (Node × Place)) (x : Run σ α)
    (y : Run (σ × List Decision) α) : Prop :=
  ∀ s log, ∃ calls : List Called,
    y.run.run (s, log) = ((x.run.run s).1, ((x.run.run s).2, log ++ calls.map (·.2))) ∧
      (∀ c ∈ calls, IsFor root c) ∧ Verdict due calls (x.run.run s).1

section

variable {α β : Type} {root : Node}

theorem judged_pure (a : α) : Judged root [] (pure a : Run σ α) (pure a) :=
  fun s log => ⟨[], by rw [List.map_nil, List.append_nil]; rfl, nofun, rfl, nofun⟩

theorem Judged.bind {first next : List (Node × Place)} {x : Run σ α}
    {y : Run (σ × List Decision) α} {f : α → Run σ β} {g : α → Run (σ × List Decision) β}
    (judged : Judged root first x y) (judged' : ∀ a, Judged root next (f a) (g a)) :
    Judged root (first ++ next) (x >>= f) (y >>= g) := by
  intro s log
  obtain ⟨calls, ended, each, verdict⟩ := judged s log
  rw [Run.run_bind, Run.run_bind, ended]
  generalize x.run.run s = left at verdict ⊢
  obtain ⟨outcome, s₁⟩ := left
  cases outcome with
  | ok a =>
    obtain ⟨calls', ended', each', verdict'⟩ := judged' a s₁ (log ++ calls.map (·.2))
    obtain ⟨complete, accepted⟩ := verdict
    refine ⟨calls ++ calls', by simp only [ended', List.map_append, List.append_assoc], ?_, ?_⟩
    · intro c mem
      rcases List.mem_append.mp mem with here | there
      · exact each c here
      · exact each' c there
    · simp only
      generalize ((f a).run.run s₁).1 = outcome' at verdict' ⊢
      cases outcome' with
      | ok b =>
        obtain ⟨complete', accepted'⟩ := verdict'
        refine ⟨by rw [List.map_append, complete, complete'], fun c mem => ?_⟩
        rcases List.mem_append.mp mem with here | there
        · exact accepted c here
        · exact accepted' c there
      | error e =>
        -- All calls of the first run were accepted, so the one that is refused stays the last.
        obtain ⟨initial, before, last, rfl, accepted', refused⟩ := verdict'
        refine ⟨?_, calls ++ before, last, by rw [List.append_assoc], fun c mem => ?_, refused⟩
        · rw [List.map_append, complete]
          exact List.prefix_append_right_inj first |>.mpr initial
        · rcases List.mem_append.mp mem with here | there
          · exact accepted c here
          · exact accepted' c there
  | error e =>
    -- The second run does not start, so its calls stay due.
    obtain ⟨initial, last⟩ := verdict
    exact ⟨calls, rfl, each, initial.trans (List.prefix_append first next), last⟩

/-- A run that calls nothing may come after another one. -/
theorem Judged.map {due : List (Node × Place)} {x : Run σ α} {y : Run (σ × List Decision) α}
    (judged : Judged root due x y) (f : α → β) :
    Judged root due (do return f (← x)) (do return f (← y)) := by
  have returned (a : α) : Judged root [] (pure (f a) : Run σ β) (pure (f a)) := judged_pure (f a)
  have both := judged.bind returned
  rw [List.append_nil] at both
  exact both

end

/-! ### Visits -/

/-- Whatever they are given, the handlers return. -/
def AlwaysReturns (v : Visitor σ) : Prop :=
  ∀ k h, Table.entry? v k = some h → ∀ n parent root s, ∃ o s',
    (h n parent root).run.run s = (.ok o, s')

section

variable {v : Visitor σ} {β : Type} {root : Node} {place : Place}
  {k : Visited Node → Except Error β}

/-- A visit is judged by the place of the node, as soon as the handler has returned. -/
theorem judged_visit (returns : v.AlwaysReturns) (judges : Judges place k) {n m : Node}
    (serves : Serves root (m, place.parent) ⟨n, place.parent, root⟩) :
    Judged root (v.due [(m, place)])
      (v.visit place.parent root (.one n) >>= fun x => Run.lift (k x))
      (v.decided.visit place.parent root (.one n) >>= fun x => Run.lift (k x)) := by
  have kind : n.kind = m.kind := congrArg Head.kind serves.head
  intro s log
  cases found : Table.entry? v n.kind with
  | none =>
    have nothing : v.due [(m, place)] = [] := by simp [due, ← kind, found]
    have found' : Table.entry? v.decided n.kind = none := by
      rw [entry?_decided, found, Option.map_none]
    -- A node that stays is accepted everywhere.
    obtain ⟨b, taken, -⟩ | ⟨e, -, refused⟩ := judges .keep n
    · have taken' : k (.one n) = .ok b := taken
      have plain : (v.visit place.parent root (.one n) >>= fun x => Run.lift (k x)).run.run s =
          (.ok b, s) := by
        rw [Run.run_bind_ok (run_visit_of_none found s), Run.run_lift, taken']
      have recorded : (v.decided.visit place.parent root (.one n) >>=
          fun x => Run.lift (k x)).run.run (s, log) = (.ok b, (s, log)) := by
        rw [Run.run_bind_ok (run_visit_of_none found' (s, log)), Run.run_lift, taken']
      rw [plain, recorded, nothing]
      exact ⟨[], by rw [List.map_nil, List.append_nil], nofun, rfl, nofun⟩
    · cases refused
  | some h =>
    have own : v.due [(m, place)] = [(m, place)] := by simp [due, ← kind, found]
    have found' : Table.entry? v.decided n.kind = some (deciding h) := by
      rw [entry?_decided, found, Option.map_some]
    -- Both visits make the same call; the second one notes what was decided.
    obtain ⟨o, s', called⟩ := returns n.kind h found n place.parent root s
    let decision : Decision := ⟨n, place.parent, root, o⟩
    have plain : (v.visit place.parent root (.one n) >>= fun x => Run.lift (k x)).run.run s =
        (k (o.apply n), s') := by
      rw [Run.run_bind_ok (run_visit_of_some found called), Run.run_lift]
    have recorded : (v.decided.visit place.parent root (.one n) >>=
        fun x => Run.lift (k x)).run.run (s, log) = (k (o.apply n), (s', log ++ [decision])) := by
      rw [Run.run_bind_ok (run_visit_of_some found' (run_deciding called log)), Run.run_lift]
    rw [plain, recorded, own]
    have isFor : ∀ c ∈ [((m, place), decision)], IsFor root c := fun c mem =>
      List.mem_singleton.mp mem ▸ serves
    refine ⟨[((m, place), decision)], rfl, isFor, ?_⟩
    show Verdict [(m, place)] _ (k (o.apply n))
    rcases judges o n with ⟨b, taken, accepts⟩ | ⟨e, failed, refuses⟩
    · rw [taken]
      exact ⟨rfl, fun c mem => List.mem_singleton.mp mem ▸ accepts⟩
    · rw [failed]
      exact ⟨List.prefix_rfl, [], _, rfl, nofun, refuses⟩

/-- Children are judged one after the other, each by its field. -/
theorem judged_traverseChildren {parent : Node} {cs : List (Field × Node)}
    (each : ∀ c ∈ cs, Judged root (v.due (placed (some (parent, c.1)) c.2))
      (traverseNode v root (some parent) c.2 >>= fun x => Run.lift (settle parent.kind c.1 x))
      (traverseNode v.decided root (some parent) c.2 >>=
        fun x => Run.lift (settle parent.kind c.1 x))) :
    Judged root (v.due (placedIn parent cs)) (traverseChildren v root parent cs)
      (traverseChildren v.decided root parent cs) := by
  induction cs with
  | nil => exact judged_pure []
  | cons c cs ih =>
    obtain ⟨f, n⟩ := c
    have others := ih fun c mem => each c (List.mem_cons_of_mem _ mem)
    unfold placedIn traverseChildren
    rw [due_append, ← bind_assoc, ← bind_assoc]
    -- The first child is settled before the others are visited.
    exact (each (f, n) (List.mem_cons_self ..)).bind fun here => others.map (here ++ ·)

/-- The traversal of a node is judged by its calls, the last of which is the one for
    the node itself, which its place judges. -/
theorem judged_traverseNode (returns : v.AlwaysReturns) (n : Node) (judges : Judges place k) :
    Judged root (v.due (placed place n))
      (traverseNode v root place.parent n >>= fun x => Run.lift (k x))
      (traverseNode v.decided root place.parent n >>= fun x => Run.lift (k x)) := by
  induction n using Node.induct generalizing place β with
  | step h l cs ih =>
    unfold placed traverseNode
    cases leaf : h.kind.isLeaf with
    | true =>
      simp only [if_true, List.nil_append]
      exact judged_visit returns judges ⟨rfl, rfl, fun _ => rfl, rfl, rfl⟩
    | false =>
      simp only [Bool.false_eq_true, if_false]
      rw [due_append, bind_assoc, bind_assoc]
      -- Each child is judged by its field, and the node by its own place.
      refine (judged_traverseChildren fun c mem => ?_).bind fun ds => ?_
      · exact ih c mem (judges_settle (.mk h l cs) c.1)
      · refine judged_visit returns judges ⟨rfl, rfl, fun inner => ?_, rfl, rfl⟩
        have inner' : h.kind.isLeaf = true := inner
        rw [leaf] at inner'
        cases inner'

end

/-- The traversal of a tree is judged by all its calls. -/
theorem judged_traverse {v : Visitor σ} (known : Table.unknownNames v = [])
    (returns : v.AlwaysReturns) (t : Node) :
    Judged t (v.due (placed none t)) (traverse v t) (traverse v.decided t) := by
  have known' : Table.unknownNames v.decided = [] := by rw [unknownNames_decided, known]
  rw [traverse_of_known known, traverse_of_known known',
    ← bind_pure (traverseNode v t none t), ← bind_pure (traverseNode v.decided t none t)]
  exact judged_traverseNode returns t judges_root

/-- When a traversal fails.  Let the handlers of a visitor with known names return
    whenever they are called, and let the tree be well-typed.  The decisions are made
    for the first nodes in visiting order that have handlers, each under the parent
    that it had at first.  The traversal fails just if one of them is refused: if it
    is a row of another length than one for a node in a single field, or takes away a
    node in a single field which the kind of the parent requires.  Every single field
    is required but the name of a command and the branches of a conditional.  The error
    is that of the first decision that is refused, it names the kind of the parent and
    the field, and no decision is made after that. -/
theorem traverse_refuses (v : Visitor σ) (t : Node) (typed : t.isWellTyped = true)
    (known : Table.unknownNames v = []) (returns : v.AlwaysReturns) (s : σ) :
    (placed none t).map (fun e => (e.1, Place.parent e.2)) = postOrder none t ∧
    (∀ (k : Kind) (f : Field), f ∈ k.singleFields → (k.requires f = false ↔
      (k, f) ∈ [(Kind.command, Field.name), (.ifElse, .thenBranch), (.ifElse, .elseBranch)])) ∧
    ∃ calls : List Called, calls.map (·.2) = v.decisions t s ∧
      calls.map (·.1) <+: v.due (placed none t) ∧ (∀ c ∈ calls, IsFor t c) ∧
      (∀ x s', (traverse v t).run.run s = (.ok x, s') →
        calls.map (·.1) = v.due (placed none t)) ∧
      ((∃ e s', (traverse v t).run.run s = (.error e, s')) ↔
        ∃ c ∈ calls, ∃ e, Refuses c.1.2 c.2.outcome e) ∧
      ∀ e s', (traverse v t).run.run s = (.error e, s') →
        ∃ before last, calls = before ++ [last] ∧
          (∀ c ∈ before, Accepts c.1.2 c.2.outcome) ∧ Refuses last.1.2 last.2.outcome e ∧
          ∃ p f report, last.1.2 = some (p, f) ∧ f.isSequence = false ∧
            e.report? = some report ∧ report.topic = .traversal ∧
            ∃ start rest, report.message = start ++ (p.kind.label ++ "." ++ f.longKey) ++ rest := by
  obtain ⟨calls, ended, each, verdict⟩ := judged_traverse known returns t s []
  have made : calls.map (·.2) = v.decisions t s := by
    unfold decisions
    rw [ended, List.nil_append]
  refine ⟨map_placed typed none, fun k f single => requires_eq_false_iff single, calls, made, ?_⟩
  generalize (traverse v t).run.run s = outcome at verdict ⊢
  obtain ⟨result, s'⟩ := outcome
  cases result with
  | ok x =>
    obtain ⟨complete, accepted⟩ := verdict
    refine ⟨complete ▸ List.prefix_rfl, each, fun _ _ _ => complete, ⟨?_, ?_⟩, ?_⟩
    · rintro ⟨e, s', failed⟩
      cases failed
    · rintro ⟨c, mem, e, refuses⟩
      exact (accepted c mem e refuses).elim
    · intro e s' failed
      cases failed
  | error e =>
    obtain ⟨initial, before, last, rfl, accepted, refuses⟩ := verdict
    refine ⟨initial, each, ?_, ⟨fun _ => ?_, fun _ => ⟨e, s', rfl⟩⟩, ?_⟩
    · intro x s' succeeded
      cases succeeded
    · exact ⟨last, List.mem_append_right _ (List.mem_singleton_self _), e, refuses⟩
    · intro e' s' failed
      cases failed
      exact ⟨before, last, rfl, accepted, refuses, refuses.names⟩

/-- A visitor takes empty lists away.  That of a conditional may go, that of the subshell
    after it may not, and the command after that is not visited any more. -/
theorem traverse_refuses_subshell :
    let command (text : String) : Node :=
      .mk (.command false) none [(.name, .mk (.word text) none [])]
    let list (ns : List Node) : Node := .mk (.compoundList false) none (ns.map (.commands, ·))
    let choice : Node := .mk (.ifElse false) none
      [(.clause, list [command "a"]), (.thenBranch, list [])]
    let subshell : Node := .mk (.subshell false) none [(.list, list [])]
    let t : Node := .mk .script none
      [(.commands, choice), (.commands, subshell), (.commands, command "b")]
    let v : Visitor Unit := [("CompoundList", some fun n _ _ =>
      return if n.children.isEmpty then .splice [none] else .keep),
      ("Word", some fun _ _ _ => return .keep)]
    let e : Error := .removedRequired .subshell .list
    (traverse v t).run.run () = (.error e, ()) ∧ (v.due (placed none t)).length = 5 ∧
      ∃ (before : List Called) (last : Called),
        v.decisions t () = before.map (·.2) ++ [last.2] ∧ before.length = 3 ∧
        (∀ c ∈ before, Accepts c.1.2 c.2.outcome) ∧ Refuses last.1.2 last.2.outcome e := by
  intro command list choice subshell t v e
  have failed : (traverse v t).run.run () = (.error e, ()) := by rfl
  have returns : v.AlwaysReturns := by
    intro k h found n parent root s
    cases k <;> cases found <;> exact ⟨_, s, rfl⟩
  obtain ⟨-, -, calls, made, -, -, -, -, first⟩ :=
    traverse_refuses v t (by decide) rfl returns ()
  obtain ⟨before, last, rfl, accepted, refuses, -⟩ := first e () failed
  rw [List.map_append] at made
  refine ⟨failed, by rfl, before, last, made.symm, ?_, accepted, refuses⟩
  have four : (v.decisions t ()).length = 4 := by rfl
  rw [← made, List.length_append, List.length_map] at four
  simpa using four

end ShellInliner.Visitor
