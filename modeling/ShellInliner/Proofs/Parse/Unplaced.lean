import ShellInliner.Parse.Script
import ShellInliner.Proofs.Node.Assemble
import ShellInliner.Proofs.Parse.Reading
import ShellInliner.Proofs.Word.Expansions

/-! # Reading without places

    Whether nodes get their places makes no other difference to what is read: the
    tree that is read without places is the other tree with the places taken away,
    and what goes wrong is the same.  So what is known of trees that were read
    without places carries over. -/

namespace ShellInliner

/-- What is kept of a place: that of an expansion, which counts from the start of
    its word. -/
def Extent.relative? : Option Extent → Option Extent
  | some (.offsets s e) => some (.offsets s e)
  | _ => none

namespace Node

mutual

/-- The tree without the places of its nodes in the source. -/
def unplaced : Node → Node
  | mk h l cs => mk h (Extent.relative? l) (unplacedIn cs)

/-- The children of a node without their places. -/
def unplacedIn : List (Field × Node) → List (Field × Node)
  | [] => []
  | (f, n) :: cs => (f, unplaced n) :: unplacedIn cs

end

/-! ### Parts of a tree without places -/

section

variable {n m : Node} {f : Field}

theorem unplacedIn_eq (cs : List (Field × Node)) :
    unplacedIn cs = cs.map fun c => (c.1, c.2.unplaced) := by
  induction cs with
  | nil => rfl
  | cons c cs ih => exact congrArg ((c.1, c.2.unplaced) :: ·) ih

@[simp] theorem head_unplaced (n : Node) : n.unplaced.head = n.head := by
  cases n
  rfl

@[simp] theorem kind_unplaced (n : Node) : n.unplaced.kind = n.kind := by
  cases n
  rfl

@[simp] theorem loc_unplaced (n : Node) : n.unplaced.loc = Extent.relative? n.loc := by
  cases n
  rfl

theorem children_unplaced (n : Node) :
    n.unplaced.children = n.children.map fun c => (c.1, c.2.unplaced) := by
  cases n
  exact unplacedIn_eq _

@[simp] theorem all_unplaced (n : Node) (f : Field) :
    n.unplaced.all f = (n.all f).map unplaced := by
  show within f n.unplaced.children = (within f n.children).map unplaced
  rw [children_unplaced]
  induction n.children with
  | nil => rfl
  | cons c cs ih =>
    obtain ⟨g, m⟩ := c
    by_cases same : g = f
    · simpa [within, same] using ih
    · simpa [within, same] using ih

@[simp] theorem text?_unplaced (n : Node) : n.unplaced.text? = n.text? := by
  cases n
  rfl

@[simp] theorem unplaced_withHead (n : Node) (h : Head) :
    (n.withHead h).unplaced = n.unplaced.withHead h := by
  cases n
  rfl

theorem unplaced_withLoc (n : Node) (l : Option Extent) :
    (n.withLoc l).unplaced = n.unplaced.withLoc (Extent.relative? l) := by
  cases n
  rfl

theorem unplaced_withLast (n : Node) (f : Field) (ns : List Node) :
    (n.withLast f ns).unplaced = n.unplaced.withLast f (ns.map unplaced) := by
  obtain ⟨h, l, cs⟩ := n
  simp only [withLast, withChildren, unplaced, unplacedIn_eq, head, loc, children, List.map_append,
    List.map_map, List.filter_map]
  rfl

theorem unplaced_assemble (h : Head) (l : Option Extent) (fields : List (Field × List Node)) :
    (Parse.assemble h l fields).unplaced =
      Parse.assemble h (Extent.relative? l) (fields.map fun p => (p.1, p.2.map unplaced)) := by
  simp only [Parse.assemble, unplaced, unplacedIn_eq, List.map_flatMap, List.flatMap_map,
    List.map_map]
  rfl

end

/-- There is nothing left to take away from a tree without places. -/
theorem unplaced_unplaced (t : Node) : t.unplaced.unplaced = t.unplaced := by
  induction t using induct with
  | step h l cs ih =>
    have place : Extent.relative? (Extent.relative? l) = Extent.relative? l := by
      rcases l with _ | (_ | _) <;> rfl
    have below : ((cs.map fun c => (c.1, c.2.unplaced)).map fun c => (c.1, c.2.unplaced)) =
        cs.map fun c => (c.1, c.2.unplaced) := by
      rw [List.map_map]
      exact List.map_congr_left fun c hc => congrArg (Prod.mk c.1) (ih c hc)
    simp only [unplaced, unplacedIn_eq, place, below]

/-- A well-typed node keeps its place exactly if it is an expansion. -/
theorem loc_unplaced_eq {n : Node} (fits : fitsLoc n.kind n.loc = true) :
    n.unplaced.loc = if n.kind.isExpansion then n.loc else none := by
  rw [loc_unplaced]
  cases place : n.loc with
  | none => simp [Extent.relative?]
  | some e =>
    rw [place] at fits
    -- The form of a place goes with the kind of the node.
    cases e with
    | between start stop =>
      have other : n.kind.isExpansion = false := by simpa [fitsLoc] using fits
      rw [other]
      rfl
    | offsets start stop =>
      have expansion : n.kind.isExpansion = true := fits
      rw [expansion]
      rfl

/-- What holds below a tree without places holds of places below the tree. -/
theorem site_unplaced {t n : Node} {f : Field} (site : Site t f n) :
    Site t.unplaced f n.unplaced := by
  induction site with
  | child mem => exact .child (by rw [children_unplaced]; exact List.mem_map_of_mem mem)
  | deeper mem _ ih => exact .deeper (by rw [children_unplaced]; exact List.mem_map_of_mem mem) ih

/-- What is known of every node without its places is known throughout the tree. -/
theorem throughout_of_unplaced {P P' : Node → Prop} {t : Node} (h : Throughout P t.unplaced)
    (carry : ∀ n, P n.unplaced → P' n) : Throughout P' t :=
  ⟨carry t h.1, fun f n site => carry n (h.2 f n.unplaced (site_unplaced site))⟩

theorem isWellTyped_of_unplaced {t : Node} (h : t.unplaced.isWellTyped = true)
    (fits : Throughout (fun n => fitsLoc n.kind n.loc = true) t) : t.isWellTyped = true := by
  induction t using induct with
  | step hd l cs ih =>
    -- Order and number of the children do not depend on places; only the place itself does.
    obtain ⟨-, order, fills, below⟩ := isWellTyped_iff.mp h
    rw [children_unplaced] at order below
    refine isWellTyped_iff.mpr ⟨fits.1, ?_, ?_, fun c hc => ?_⟩
    · rw [List.map_map] at order
      exact order
    · intro m hm
      have here := fills m hm
      cases m with
      | «attribute» a type => exact trivial
      | child f arity admission =>
        simp only [Fills, all_unplaced, List.length_map, List.forall_mem_map, kind_unplaced] at here
        exact here
    · exact ih c hc (below _ (List.mem_map_of_mem hc)) ((throughout_iff.mp fits).2 c hc)

end Node

namespace Parse

open Node (unplaced)
open Grammar (Token Symbol Tree)

/-! ### Pieces -/

/-- A piece without places. -/
def Piece.unplaced : Piece → Piece
  | node n => node n.unplaced
  | words ns => words (ns.map Node.unplaced)
  | mark t text => mark t text

/-- A part of a derivation, built, without places in its pieces. -/
def Built.unplaced (b : Built) : Built :=
  { b with pieces := b.pieces.map Piece.unplaced }

@[simp] theorem unplaced_eq_node_iff {p : Piece} {n : Node} :
    p.unplaced = .node n ↔ ∃ m, p = .node m ∧ m.unplaced = n := by
  cases p <;> simp [Piece.unplaced]

@[simp] theorem unplaced_eq_words_iff {p : Piece} {ns : List Node} :
    p.unplaced = .words ns ↔ ∃ ms, p = .words ms ∧ ms.map Node.unplaced = ns := by
  cases p <;> simp [Piece.unplaced]

@[simp] theorem unplaced_eq_mark_iff {p : Piece} {t : Grammar.Terminal} {text : List Char} :
    p.unplaced = .mark t text ↔ p = .mark t text := by
  cases p <;> simp [Piece.unplaced]

theorem nodesOf_unplaced (ps : List Piece) :
    nodesOf (ps.map Piece.unplaced) = (nodesOf ps).map Node.unplaced := by
  induction ps with
  | nil => rfl
  | cons p ps ih =>
    cases p with
    | node n => exact congrArg (n.unplaced :: ·) ih
    | words ns => exact ih
    | mark t text => exact ih

@[simp] theorem isWord_unplaced (p : Piece) : p.unplaced.isWord = p.isWord := by
  cases p with
  | node n =>
    show (n.unplaced.kind == _) = _
    rw [Node.kind_unplaced]
    rfl
  | words ns => rfl
  | mark t text => rfl

theorem statements_unplaced (ps : List Piece) :
    statements (ps.map Piece.unplaced) = (statements ps).map Node.unplaced := by
  have push (done : List Node) (p : Piece) :
      pushStatement (done.map Node.unplaced) p.unplaced =
        (pushStatement done p).map Node.unplaced := by
    cases p with
    | node n => rfl
    | words ns => rfl
    | mark t text =>
      cases done with
      | nil => rfl
      | cons n ns => simp [pushStatement, Piece.unplaced]
  -- A mark is pushed into the last statement, so the induction is about a stack of them.
  have fold (done : List Node) :
      (ps.map Piece.unplaced).foldl pushStatement (done.map Node.unplaced) =
        (ps.foldl pushStatement done).map Node.unplaced := by
    induction ps generalizing done with
    | nil => rfl
    | cons p ps ih => rw [List.map_cons, List.foldl_cons, List.foldl_cons, push, ih]
  unfold statements
  rw [List.map_reverse, ← fold []]
  rfl

theorem listBody_unplaced (n : Node) : listBody n.unplaced = (listBody n).unplaced := by
  unfold listBody
  rw [Node.kind_unplaced]
  split
  · rfl
  · rw [Node.unplaced_assemble, Node.loc_unplaced]
    rfl

/-! ### Symbols -/

section

variable {loc : Option Extent} (none : Extent.relative? loc = none)

include none

theorem unplaced_assemble (h : Head) (fields : List (Field × List Node)) :
    (assemble h loc fields).unplaced =
      assemble h Option.none (fields.map fun p => (p.1, p.2.map unplaced)) := by
  rw [Node.unplaced_assemble, none]

theorem unplaced_wordNode (h : String → Head) (text : List Char) :
    (wordNode h loc text).unplaced = wordNode h Option.none text := by
  -- Expansions keep their places, which count from the start of the word.
  have expansions : Node.unplacedIn (Word.expansionChildren text) = Word.expansionChildren text := by
    rw [Node.unplacedIn_eq]
    apply (List.map_congr_left fun c hc => ?_).trans (List.map_id _)
    obtain ⟨-, inside⟩ := Word.mem_expansionChildren hc
    obtain ⟨f, hd, l, cs⟩ := c
    obtain ⟨start, stop, rfl, -⟩ := inside.place
    obtain rfl : cs = [] := inside.leaf
    rfl
  show Node.mk _ _ _ = Node.mk _ _ _
  rw [none, expansions]

theorem tokenPieces_unplaced (t : Token) :
    (tokenPieces loc t).map Piece.unplaced = tokenPieces Option.none t := by
  have word (h : String → Head) :
      [Piece.node (wordNode h loc t.text)].map Piece.unplaced =
        [.node (wordNode h Option.none t.text)] :=
    congrArg (fun n => [Piece.node n]) (unplaced_wordNode none h t.text)
  have name : [Piece.node (.mk (.name (String.ofList t.text)) loc [])].map Piece.unplaced =
      [.node (.mk (.name (String.ofList t.text)) Option.none [])] := by
    simp [Piece.unplaced, Node.unplaced, Node.unplacedIn, none]
  unfold tokenPieces
  split <;> first | exact word _ | exact name | rfl

theorem negate_unplaced (n : Node) : negate Option.none n.unplaced = (negate loc n).unplaced := by
  unfold negate
  rw [Node.head_unplaced]
  split
  · simp only [Node.unplaced, Node.children_unplaced, Node.unplacedIn_eq, none]
  · rw [unplaced_assemble none]
    rfl

theorem simpleCommand_unplaced (ps : List Piece) :
    simpleCommand Option.none (ps.map Piece.unplaced) = (simpleCommand loc ps).unplaced := by
  have same : (fun p : Piece => !p.isWord) ∘ Piece.unplaced = fun p => !p.isWord := by
    funext p
    simp
  unfold simpleCommand
  simp only [unplaced_assemble none, List.takeWhile_map, List.dropWhile_map, same,
    nodesOf_unplaced, List.map_take, List.map_drop, List.map_cons, List.map_nil]

theorem conditional_unplaced (ps : List Piece) :
    conditional Option.none (ps.map Piece.unplaced) = (conditional loc ps).unplaced := by
  unfold conditional
  simp only [unplaced_assemble none, nodesOf_unplaced, List.map_take, List.map_drop, List.map_cons,
    List.map_nil]

theorem redirect_unplaced (ps : List Piece) :
    redirect Option.none (ps.map Piece.unplaced) =
      (redirect loc ps).map (·.map Piece.unplaced) := by
  fun_cases redirect loc ps with
  | case1 t digits u op file long => exact if_pos long
  | case2 t digits u op file short =>
    show (if digitLimit < digits.length then _ else _) = _
    rw [if_neg short]
    simp only [Except.map, List.map_cons, List.map_nil, Piece.unplaced, unplaced_assemble none]
  | case3 t op file =>
    show Except.ok _ = _
    simp only [Except.map, List.map_cons, List.map_nil, Piece.unplaced, unplaced_assemble none]
  | case4 ps numbered bare =>
    -- A row that is no redirection is none without its places either.
    rw [redirect.eq_3]
    · rfl
    · intro t digits u op file same
      simp only [List.map_eq_cons_iff, List.map_eq_nil_iff, unplaced_eq_mark_iff,
        unplaced_eq_node_iff] at same
      obtain ⟨_, _, rfl, rfl, _, _, rfl, rfl, _, _, rfl, ⟨_, rfl, -⟩, rfl⟩ := same
      exact numbered _ _ _ _ _ rfl
    · intro t op file same
      simp only [List.map_eq_cons_iff, List.map_eq_nil_iff, unplaced_eq_mark_iff,
        unplaced_eq_node_iff] at same
      obtain ⟨_, _, rfl, rfl, _, _, rfl, ⟨_, rfl, -⟩, rfl⟩ := same
      exact bare _ _ _ rfl

/-- What a symbol makes does not depend on its place, nor on those of the parts. -/
theorem symbolPieces_unplaced (s : Symbol) (ps : List Piece) :
    symbolPieces s Option.none (ps.map Piece.unplaced) =
      (symbolPieces s loc ps).map (·.map Piece.unplaced) := by
  have one {n m : Node} (same : n = m.unplaced) :
      Except.ok (ε := Error) [Piece.node n] = .ok ([.node m].map Piece.unplaced) := by
    rw [same]
    rfl
  have words (ps : List Piece) :
      [Piece.words (nodesOf (ps.map Piece.unplaced))] = [.words (nodesOf ps)].map Piece.unplaced := by
    rw [nodesOf_unplaced]
    rfl
  -- A symbol tells its parts by their number and their sorts, which stay; a row that it
  -- cannot use goes wrong with or without places.
  cases s with
  | script =>
    apply one
    rw [unplaced_assemble none, statements_unplaced]
    rfl
  | compoundList =>
    apply one
    rw [unplaced_assemble none, statements_unplaced]
    rfl
  | simpleCommand => exact one (simpleCommand_unplaced none ps)
  | redirect => exact redirect_unplaced none ps
  | forIn => exact congrArg Except.ok (words ps)
  | pattern => exact congrArg Except.ok (words ps)
  | ifClause => exact one (conditional_unplaced none ps)
  | elifPart =>
    apply one
    rw [unplaced_assemble none]
    simp only [List.map_cons, List.map_nil, conditional_unplaced none]
  | whileClause =>
    apply one
    rw [unplaced_assemble none, nodesOf_unplaced]
    simp only [List.map_cons, List.map_nil, List.map_take, List.map_drop]
  | untilClause =>
    apply one
    rw [unplaced_assemble none, nodesOf_unplaced]
    simp only [List.map_cons, List.map_nil, List.map_take, List.map_drop]
  | pipeSequence =>
    rcases ps with _ | ⟨p, _ | ⟨q, ps⟩⟩
    · exact one (unplaced_assemble none _ [(_, [])]).symm
    · rfl
    · apply one
      rw [unplaced_assemble none]
      exact congrArg (fun ns => assemble _ _ [(_, ns)]) (nodesOf_unplaced (p :: q :: ps))
  | pipeline =>
    rcases ps with _ | ⟨p, _ | ⟨q, _ | ⟨r, ps⟩⟩⟩ <;> try rfl
    · cases p <;> rfl
    · cases p <;> cases q <;> first | rfl | exact one (negate_unplaced none _)
    · cases p <;> cases q <;> rfl
  | andOr =>
    rcases ps with _ | ⟨p, _ | ⟨q, _ | ⟨r, _ | ⟨u, ps⟩⟩⟩⟩ <;> try rfl
    · cases p <;> rfl
    · cases p <;> cases q <;> rfl
    · cases p <;> cases q <;> cases r <;>
        first | rfl | exact one (unplaced_assemble none _ [(_, [_]), (_, [_])]).symm
    · cases p <;> cases q <;> cases r <;> rfl
  | compoundCommand =>
    rcases ps with _ | ⟨p, _ | ⟨r, rs⟩⟩ <;> try rfl
    · cases p <;> rfl
    cases p <;> try rfl
    apply one
    rw [Node.unplaced_withLoc, Node.unplaced_withLast, none, ← nodesOf_unplaced]
    rfl
  | braceGroup =>
    rcases ps with _ | ⟨p, _ | ⟨q, ps⟩⟩ <;> try rfl
    · cases p <;> try rfl
      exact one (by rw [Node.unplaced_withLoc, none])
    · cases p <;> rfl
  | subshell =>
    rcases ps with _ | ⟨p, _ | ⟨q, ps⟩⟩ <;> try rfl
    · cases p <;> first | rfl | exact one (unplaced_assemble none _ [(_, [_])]).symm
    · cases p <;> rfl
  | forClause =>
    rcases ps with _ | ⟨p, _ | ⟨q, _ | ⟨r, _ | ⟨u, ps⟩⟩⟩⟩ <;> try rfl
    · cases p <;> rfl
    · cases p <;> cases q <;>
        first | rfl | exact one (unplaced_assemble none _ [(_, [_]), (_, [_])]).symm
    · cases p <;> cases q <;> cases r <;>
        first | rfl | exact one (unplaced_assemble none _ [(_, [_]), (_, [_]), (_, _)]).symm
    · cases p <;> cases q <;> cases r <;> rfl
  | caseClause =>
    rcases ps with _ | ⟨p, ps⟩ <;> try rfl
    cases p <;> try rfl
    apply one
    rw [unplaced_assemble none]
    exact congrArg (fun ns => assemble _ _ [_, (_, ns)]) (nodesOf_unplaced ps)
  | caseItem =>
    rcases ps with _ | ⟨p, _ | ⟨q, _ | ⟨r, ps⟩⟩⟩ <;> try rfl
    · cases p <;> try rfl
      apply one
      rw [unplaced_assemble none]
      rfl
    · cases p <;> cases q <;> first | rfl | exact one (unplaced_assemble none _ [(_, [_]), (_, _)]).symm
    · cases p <;> cases q <;> rfl
  | functionDefinition =>
    rcases ps with _ | ⟨p, _ | ⟨q, ps⟩⟩ <;> try rfl
    · cases p <;> rfl
    · cases p <;> cases q <;> try rfl
      apply one
      rw [unplaced_assemble none]
      simp only [List.map_cons, List.map_nil, listBody_unplaced, nodesOf_unplaced]
  | _ => rfl

end

/-! ### Derivations -/

theorem relative?_located (wanted : Bool) (place : Option (Position × Position)) :
    Extent.relative? (located wanted place) = none := by
  cases wanted <;> cases place <;> rfl

mutual

/-- A derivation is built the same way whether places are wanted or not. -/
theorem build_unplaced (wanted : Bool) (p : Position) :
    ∀ t : Tree, build false p t = (build wanted p t).map Built.unplaced
  | .leaf t => by
    simp only [build, Except.map, Built.unplaced, tokenPieces_unplaced (relative?_located _ _)]
    rfl
  | .node s n ts => by
    rw [build_node, build_node, buildRow_unplaced wanted p ts]
    cases buildRow wanted p ts with
    | error e => rfl
    | ok inner =>
      have same := symbolPieces_unplaced (relative?_located wanted inner.place) s inner.pieces
      show Except.map _ (symbolPieces s none (inner.pieces.map Piece.unplaced)) =
        Except.map _ (Except.map _ (symbolPieces s (located wanted inner.place) inner.pieces))
      -- Both builds fail alike or make pieces that differ in their places only.
      rw [same]
      cases symbolPieces s (located wanted inner.place) inner.pieces <;> rfl

/-- A row of derivations is built the same way whether places are wanted or not. -/
theorem buildRow_unplaced (wanted : Bool) (p : Position) :
    ∀ ts : List Tree, buildRow false p ts = (buildRow wanted p ts).map Built.unplaced
  | [] => rfl
  | t :: ts => by
    rw [buildRow_cons, buildRow_cons, build_unplaced wanted p t]
    cases build wanted p t with
    | error e => rfl
    | ok first =>
      show Except.map _ (buildRow false first.after ts) =
        Except.map _ (Except.map _ (buildRow wanted first.after ts))
      rw [buildRow_unplaced wanted first.after ts]
      cases buildRow wanted first.after ts with
      | error e => rfl
      | ok others => simp only [Except.map, Built.unplaced, List.map_append]

end

theorem scriptOf_unplaced (ps : List Piece) :
    scriptOf (ps.map Piece.unplaced) = (scriptOf ps).unplaced := by
  unfold scriptOf
  rw [nodesOf_unplaced, List.head?_map]
  cases (nodesOf ps).head? <;> rfl

/-- A script that is read without places is the script that is read, without its
    places, and what goes wrong is the same. -/
theorem parse_unplaced (source : List Char) (options : ParseOptions) :
    parse source { options with locate := false } =
      (parse source options).map Node.unplaced := by
  unfold parse
  cases Grammar.derivation? source with
  | none => rfl
  | some tree =>
    show (build false origin tree).map _ = ((build options.locate origin tree).map _).map _
    rw [build_unplaced options.locate]
    cases build options.locate origin tree with
    | error e => rfl
    | ok b => exact congrArg Except.ok (scriptOf_unplaced b.pieces)

end Parse

end ShellInliner
