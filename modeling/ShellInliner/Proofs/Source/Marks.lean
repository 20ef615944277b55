import ShellInliner.Proofs.Grammar.Chart
import ShellInliner.Proofs.Parse.Made
import ShellInliner.Proofs.Parse.Unplaced
import ShellInliner.Proofs.Source.Layout
import ShellInliner.Proofs.Source.Phrases

/-! # Nothing that is read is lost in print

    A well-typed tree can be printed, and the text of every statement that is not
    the body of another ends with its redirections and its mark.  A script that is
    read is regular throughout, whether its nodes have their places or not; so
    wherever a node of it carries redirections or a mark, they are printed. -/

namespace ShellInliner

namespace Parse

open Grammar Node
open Source (Parts FailsOnly Follows Gives Related follows_failsOnly isBraced isGroupParent layout tail)

/-! ### Every well-typed tree can be printed -/

section

variable {n : Node}

/-- No outcome is an error. -/
abbrev Answers {α : Type} (x r : Except Error α) : Prop :=
  x = r ∧ FailsOnly (fun _ => False) r

theorem answers_ok {α : Type} {x : Except Error α} {a : α} (h : x = .ok a) : Answers x x :=
  ⟨rfl, fun e same => by rw [h] at same; cases same⟩

theorem exists_ok {α : Type} {x r : Except Error α} (h : Answers x r) : ∃ a, x = .ok a := by
  obtain ⟨rfl, never⟩ := h
  cases x with
  | ok a => exact ⟨a, rfl⟩
  | error e => exact (never e rfl).elim

/-- A required field holds one child. -/
theorem exists_all_eq_of_requires (typed : n.isWellTyped = true) {f : Field}
    (required : n.kind.requires f = true) :
    ∃ c admission, Member.child f .required admission ∈ n.kind.members ∧ n.all f = [c] ∧
      c.kind ∈ admission.kinds := by
  obtain ⟨m, mem, holds⟩ := List.any_eq_true.mp required
  split at holds
  · rename_i g admission
    obtain rfl := eq_of_beq holds
    obtain ⟨c, one, kind⟩ := exists_all_eq_of_required typed mem
    exact ⟨c, admission, mem, one, kind⟩
  · cases holds

/-- The statements of a branch can be had if what stands below can be printed. -/
theorem exists_statements (typed : n.isWellTyped = true) (conditional : n.kind = .ifElse)
    {f : Field} (single : f.isSequence = false)
    (below : ∀ f c, Site n f c → ∀ parent, ∃ s, c.source parent = .ok s) :
    ∃ texts, (partsOf n).statements f = .ok texts ∧ (texts = none → n.all f = []) := by
  have eq : (partsOf n).statements f = statementsIn f n.children := rfl
  rw [eq, statementsIn_eq]
  cases found : (within f n.children).head? with
  | none => exact ⟨none, rfl, fun _ => List.head?_eq_none_iff.mp found⟩
  | some c =>
    have mem : c ∈ n.all f := List.mem_of_head? found
    -- The single fields of a conditional hold lists only.
    have list : c.kind = .compoundList := by
      have check : Kind.ifElse.members.all
          (memberHolds fun f k => f.isSequence || k == .compoundList) = true := by decide
      have admits := admits_of_mem typed (mem_all_iff.mp mem)
      rw [conditional] at admits
      simpa [single] using admits.holds check
    have each : ∀ d ∈ c.all .commands, ∃ s, d.source (some c.kind) = .ok s := fun d hd =>
      below _ d (.deeper (mem_all_iff.mp mem) (.child (mem_all_iff.mp hd))) _
    choose! text printed using each
    have commands : c.kind.sequenceFields.contains .commands = true := by
      rw [list]
      decide
    simp only [if_pos commands]
    exact ⟨_, congrArg (Except.map some) (partsOf_all printed), fun none => by cases none⟩

/-- The parts of a node can be had if what stands below it can be printed. -/
theorem related_partsOf (typed : n.isWellTyped = true)
    (below : ∀ f c, Site n f c → ∀ parent, ∃ s, c.source parent = .ok s) :
    Related Gives Answers n.kind (partsOf n) (partsOf n) where
  all f := by
    have each : ∀ c ∈ n.all f, ∃ s, c.source (some n.kind) = .ok s :=
      fun c hc => below f c (.child (mem_all_iff.mp hc)) _
    choose! text printed using each
    exact answers_ok (partsOf_all printed)
  statements f conditional single := by
    obtain ⟨texts, had, -⟩ := exists_statements typed conditional single below
    exact answers_ok had
  bare required := by
    obtain ⟨m, admission, mem, one, kind⟩ := exists_all_eq_of_requires typed required
    -- Where a field for a name has to be filled, it admits nothing but names.
    have name : admission = .only .name := by
      revert mem
      cases n.kind <;> simp [Kind.members]
    subst name
    exact answers_ok (partsOf_bare one (List.mem_singleton.mp kind))
  missing f required gives := by
    obtain ⟨c, -, -, one, -⟩ := exists_all_eq_of_requires typed required
    obtain ⟨s, printed⟩ := below f c (.child (mem_all_iff.mp (by rw [one]; exact List.mem_singleton_self c)))
      (some n.kind)
    have all : (partsOf n).all f = .ok ((n.all f).map fun _ => s) := by
      apply partsOf_all
      rw [one]
      simpa using printed
    rw [one] at all
    exact absurd (all.symm.trans gives) (by simp)
  missingClause conditional gives := by
    obtain ⟨texts, had, empty⟩ := exists_statements typed conditional (f := .clause) rfl below
    obtain ⟨c, -, -, one, -⟩ := exists_all_eq_of_requires typed (f := .clause)
      (by rw [conditional]; decide)
    have none : texts = none := Except.ok.inj (had.symm.trans gives)
    exact absurd (empty none) (by simp [one])

theorem exists_source (typed : n.isWellTyped = true) (parent : Option Kind) :
    ∃ s, n.source parent = .ok s := by
  induction n using induct_below generalizing parent with
  | step n ih =>
    have below : ∀ f c, Site n f c → ∀ parent, ∃ s, c.source parent = .ok s :=
      fun f c site => ih f c site (isWellTyped_of_site typed site)
    rw [source_eq_layout]
    exact exists_ok ((related_partsOf typed below).layout (follows_failsOnly _) _)

end

/-! ### What follows a statement -/

/-- The result, if there is one, ends with the redirections and the mark of the head. -/
def EndsWithTail (h : Head) (parts : Parts (Except Error)) (x : Except Error String) : Prop :=
  ∀ s, x = .ok s → ∃ body rest, tail h parts = .ok rest ∧ s = body ++ rest

section

variable {h : Head} {parts : Parts (Except Error)}

theorem EndsWithTail.bind {α : Type} {x : Except Error α} {f : α → Except Error String}
    (each : ∀ a, EndsWithTail h parts (f a)) : EndsWithTail h parts (x >>= f) := by
  intro s printed
  cases x with
  | ok a => exact each a s printed
  | error e => cases printed

theorem EndsWithTail.last (body : String) :
    EndsWithTail h parts (tail h parts >>= fun rest => pure (body ++ rest)) := by
  intro s printed
  cases had : tail h parts with
  | error e =>
    rw [had] at printed
    cases printed
  | ok rest =>
    rw [had] at printed
    cases printed
    exact ⟨body, rest, rfl, rfl⟩

/-- What has no redirections and runs in the foreground has nothing after it. -/
theorem EndsWithTail.none {x : Except Error String} (empty : tail h parts = .ok "") :
    EndsWithTail h parts x :=
  fun s _ => ⟨s, "", empty, String.append_empty.symm⟩

theorem endsWithTail_layout {braced : Bool} (group : h.kind = .compoundList → braced = true) :
    EndsWithTail h parts (layout braced h parts) := by
  -- A layout that asks for redirections and the mark does so last, after all other parts.
  unfold layout
  cases h with
  | compoundList async =>
    rw [group rfl]
    exact .bind fun _ => .last _
  | function async => exact .bind fun _ => .bind fun _ => .last _
  | command async => exact .bind fun _ => .bind fun _ => .bind fun _ => .last _
  | pipeline async bang => exact .bind fun _ => .last _
  | logicalExpression async op => exact .bind fun _ => .bind fun _ => .last _
  | subshell async => exact .bind fun _ => .last _
  | ifElse async =>
    refine .bind fun clause => ?_
    cases clause with
    | none =>
      intro s printed
      cases printed
    | some clause => exact .bind fun _ => .bind fun _ => .last _
  | forLoop async => exact .bind fun _ => .bind fun _ => .bind fun _ => .last _
  | whileLoop async => exact .bind fun _ => .bind fun _ => .last _
  | untilLoop async => exact .bind fun _ => .bind fun _ => .last _
  | caseOf async => exact .bind fun _ => .bind fun _ => .last _
  | _ => exact .none rfl

end

/-- The node is printed under a parent of a kind as some text that ends with its
    redirections and its mark. -/
def PrintsTail (k : Kind) (n : Node) : Prop :=
  ∃ body rest, tail n.head (partsOf n) = .ok rest ∧ n.source (some k) = .ok (body ++ rest)

theorem printsTail {n : Node} {k : Kind} (typed : n.isWellTyped = true)
    (group : n.kind = .compoundList → isGroupParent k = true) : PrintsTail k n := by
  obtain ⟨s, printed⟩ := exists_source typed (some k)
  have braced : n.head.kind = .compoundList → isBraced (some k) n.kind = true := fun list => by
    have list : n.kind = .compoundList := list
    simp [isBraced, list, group list]
  rw [source_eq_layout] at printed
  obtain ⟨body, rest, last, rfl⟩ := endsWithTail_layout braced s printed
  exact ⟨body, rest, last, by rw [source_eq_layout, printed]⟩

/-! ### Trees with places -/

section

variable {n t : Node}

theorem IsBare.of_unplaced (h : IsBare n.unplaced) : IsBare n where
  kind := (kind_unplaced n).symm.trans h.kind
  plain := List.map_eq_nil_iff.mp ((all_unplaced n _).symm.trans h.plain)
  foreground := (congrArg Head.async (head_unplaced n)).symm.trans h.foreground

theorem HasBody.of_unplaced {f : Field} (h : HasBody n.unplaced f) : HasBody n f := by
  intro c hc
  obtain ⟨bare, some⟩ := h c.unplaced (by rw [all_unplaced]; exact List.mem_map_of_mem hc)
  rw [all_unplaced, Ne, List.map_eq_nil_iff] at some
  exact ⟨bare.of_unplaced, some⟩

/-- An expansion has no place in the source that could be taken away. -/
theorem eq_of_unplaced_expansions {text : List Char} {cs : List (Field × Node)}
    (h : unplacedIn cs = Word.expansionChildren text) : cs = Word.expansionChildren text := by
  have each : ∀ c ∈ cs, (c.1, c.2.unplaced) = c := by
    intro c hc
    have mem : (c.1, c.2.unplaced) ∈ Word.expansionChildren text := by
      rw [← h, unplacedIn_eq]
      exact List.mem_map_of_mem hc
    -- The place of an expansion is an offset into its word, which stays.
    obtain ⟨-, -, leaf, start, stop, place, -⟩ := Word.mem_expansionChildren mem
    obtain ⟨f, hd, l, ds⟩ := c
    have leaf : unplacedIn ds = [] := leaf
    have none : ds = [] := by
      rw [unplacedIn_eq] at leaf
      exact List.map_eq_nil_iff.mp leaf
    have place : Extent.relative? l = some (.offsets start stop) := place
    have same : Extent.relative? l = l := by
      unfold Extent.relative? at place ⊢
      split at place
      · rfl
      · cases place
    subst none
    show (f, Node.mk hd (Extent.relative? l) []) = _
    rw [same]
  rw [← h, unplacedIn_eq]
  exact ((List.map_congr_left each).trans (List.map_id cs)).symm

theorem IsShapely.of_unplaced (h : IsShapely n.unplaced) : IsShapely n := by
  have mem {f : Field} {c : Node} (hc : c ∈ n.all f) : c.unplaced ∈ n.unplaced.all f := by
    rw [all_unplaced]
    exact List.mem_map_of_mem hc
  unfold IsShapely at h ⊢
  rw [head_unplaced] at h
  -- Shapes speak of kinds, heads and numbers of children, none of which has a place.
  cases hd : n.head with
  | function | subshell | forLoop =>
    rw [hd] at h
    exact HasBody.of_unplaced h
  | whileLoop | untilLoop =>
    rw [hd] at h
    exact ⟨h.1.of_unplaced, h.2.of_unplaced⟩
  | ifElse =>
    rw [hd] at h
    obtain ⟨clause, positive, some, negative⟩ := h
    exact ⟨clause.of_unplaced, positive.of_unplaced, by simpa using some, negative.of_unplaced⟩
  | caseItem =>
    rw [hd] at h
    exact ⟨fun c hc => (h.1 _ (mem hc)).of_unplaced, by simpa using h.2⟩
  | word | assignmentWord =>
    rw [hd] at h
    exact eq_of_unplaced_expansions ((unplacedIn_eq _).trans ((children_unplaced n).symm.trans h))
  | pipeline | logicalExpression | command | redirect =>
    rw [hd] at h
    simpa using h
  | _ => exact trivial

theorem Regular.of_unplaced (h : Regular n.unplaced) : Regular n where
  filled other f c hc list := by
    have some := h.filled (by rwa [kind_unplaced]) f c.unplaced
      (by rw [all_unplaced]; exact List.mem_map_of_mem hc) (by rwa [kind_unplaced])
    rwa [all_unplaced, Ne, List.map_eq_nil_iff] at some
  shapely := h.shapely.of_unplaced

theorem fitsLoc_of_relative {k : Kind} {l : Option Extent} (other : k.isExpansion = false)
    (fits : fitsLoc k (Extent.relative? l) = true) : fitsLoc k l = true := by
  cases l with
  | none => rfl
  | some e =>
    cases e with
    | between => simp [fitsLoc, other]
    | offsets => exact fits

/-- Only words have expansions below them. -/
theorem exists_word_of_admits {k below : Kind} {f : Field} (admits : Admits k f below)
    (expansion : below.isExpansion = true) : k = .word ∨ k = .assignmentWord := by
  have check : k.members.all (memberHolds fun _ below =>
      !below.isExpansion || k == .word || k == .assignmentWord) = true := by
    cases k <;> decide
  have holds := admits.holds check
  simpa [expansion, or_assoc] using holds

/-- The places of a sound tree are of the form that its kinds ask for: those that
    were taken away are places in the source, and the others are those of
    expansions. -/
theorem throughout_fitsLoc (typed : t.unplaced.isWellTyped = true) (regular : Throughout Regular t)
    (other : t.kind.isExpansion = false) : Throughout (fun n => fitsLoc n.kind n.loc = true) t := by
  induction t using induct with
  | step hd l cs ih =>
    have here : fitsLoc hd.kind (Extent.relative? l) = true := (isWellTyped_iff.mp typed).1
    refine throughout_iff.mpr ⟨fitsLoc_of_relative other here, fun c hc => ?_⟩
    have mem : (c.1, c.2.unplaced) ∈ (Node.mk hd l cs).unplaced.children := by
      rw [children_unplaced]
      exact List.mem_map_of_mem hc
    cases expansion : c.2.kind.isExpansion with
    | false =>
      exact ih c hc (isWellTyped_of_mem typed mem) ((throughout_iff.mp regular).2 c hc) expansion
    | true =>
      have admits := admits_of_mem typed mem
      rw [kind_unplaced, kind_unplaced] at admits
      -- Only words have expansions below them, and those have their places in the word.
      have shapely := regular.1.shapely
      have children : ∃ text, cs = Word.expansionChildren text := by
        rcases exists_word_of_admits admits expansion with word | word <;>
          cases hd <;> first | exact ⟨_, shapely⟩ | cases word
      obtain ⟨text, rfl⟩ := children
      obtain ⟨-, -, leaf, start, stop, place, -⟩ := Word.mem_expansionChildren hc
      refine throughout_iff.mpr ⟨?_, fun d hd => ?_⟩
      · rw [place]
        exact expansion
      · rw [leaf] at hd
        cases hd

/-- A tree is sound if it is without its places. -/
theorem Sound.of_unplaced (h : Sound t.unplaced) (other : t.kind.isExpansion = false) : Sound t := by
  have regular : Throughout Regular t := throughout_of_unplaced h.regular fun _ => Regular.of_unplaced
  exact ⟨isWellTyped_of_unplaced h.typed (throughout_fitsLoc h.typed regular other), regular⟩

/-- The fields of a kind that hold the statements of a body. -/
def bodyFields : Kind → List Field
  | .function | .caseItem => [.body]
  | .subshell => [.list]
  | .forLoop => [.loopBody]
  | .whileLoop | .untilLoop => [.clause, .loopBody]
  | .ifElse => [.clause, .thenBranch, .elseBranch]
  | _ => []

theorem isBare_of_bodyFields {f : Field} {c : Node} (shapely : IsShapely n)
    (body : f ∈ bodyFields n.kind) (hc : c ∈ n.all f) : IsBare c := by
  unfold IsShapely at shapely
  have kind : n.kind = n.head.kind := rfl
  rw [kind] at body
  -- The fields that are bodies, and the shape, are given kind by kind.
  cases hd : n.head with
  | function | subshell | forLoop =>
    rw [hd] at shapely body
    obtain rfl := List.mem_singleton.mp body
    exact (shapely c hc).1
  | caseItem =>
    rw [hd] at shapely body
    obtain rfl := List.mem_singleton.mp body
    exact shapely.1 c hc
  | whileLoop | untilLoop =>
    rw [hd] at shapely body
    rcases List.mem_cons.mp body with rfl | body
    · exact (shapely.1 c hc).1
    · obtain rfl := List.mem_singleton.mp body
      exact (shapely.2 c hc).1
  | ifElse =>
    rw [hd] at shapely body
    obtain ⟨clause, positive, -, negative⟩ := shapely
    rcases List.mem_cons.mp body with rfl | body
    · exact (clause c hc).1
    rcases List.mem_cons.mp body with rfl | body
    · exact (positive c hc).1
    · obtain rfl := List.mem_singleton.mp body
      exact (negative c hc).1
  | _ =>
    rw [hd] at body
    cases body

/-- A list of statements that does not stand between braces is the body of another node. -/
theorem mem_bodyFields {k : Kind} {f : Field} (admits : Admits k f .compoundList)
    (group : isGroupParent k = false) : f ∈ bodyFields k := by
  have check : k.members.all (memberHolds fun f below =>
      below != .compoundList || (bodyFields k).contains f) = true := by
    revert group
    cases k <;> decide
  simpa using admits.holds check

/-- In a sound tree the marks of every node are printed. -/
theorem Sound.printsTail {p c : Node} {f : Field} (h : Sound t) (holds : t.Holds p)
    (hc : c ∈ p.all f) (marked : c.head.async = true ∨ c.all .redirections ≠ []) :
    PrintsTail p.kind c := by
  have typed := throughout_iff_forall.mp (throughout_isWellTyped h.typed) p holds
  have shapely := (throughout_iff_forall.mp h.regular p holds).shapely
  apply Parse.printsTail (isWellTyped_of_mem_all typed hc)
  intro list
  -- A list in a body has no marks of its own.
  by_contra body
  have admits := admits_of_mem typed (mem_all_iff.mp hc)
  rw [list] at admits
  have bare := isBare_of_bodyFields shapely (mem_bodyFields admits (by simpa using body)) hc
  rcases marked with async | redirections
  · rw [bare.foreground] at async
    cases async
  · exact redirections bare.plain

end

/-! ### Scripts -/

theorem sound_of_build {d : Tree} {text rest : List Char} {p : Position} {b : Built}
    (derives : d.Derives text rest) (item : d.item = .symbol .script)
    (built : build false p d = .ok b) : (scriptOf b.pieces).kind = .script ∧ Sound (scriptOf b.pieces) := by
  obtain ⟨n, pieces, script, sound⟩ := (reads_of_build derives _ item _ _ built).made
  rw [pieces]
  exact ⟨script, sound⟩

/-- A script that is read is sound. -/
theorem sound_parse {source : List Char} {options : ParseOptions} {t : Node}
    (parsed : parse source options = .ok t) : t.kind = .script ∧ Sound t := by
  -- Soundness is proved of the tree without places, since places do not bear on it.
  have without := parse_unplaced source options
  rw [parsed] at without
  unfold parse at without
  cases found : derivation? source with
  | none =>
    rw [found] at without
    cases without
  | some d =>
    obtain ⟨item, rest, derives, -⟩ := derivation?_sound found
    rw [found] at without
    change (build false origin d).map (fun b => scriptOf b.pieces) = .ok t.unplaced at without
    cases built : build false origin d with
    | error e =>
      rw [built] at without
      cases without
    | ok b =>
      rw [built] at without
      have same : scriptOf b.pieces = t.unplaced := Except.ok.inj without
      have sound := sound_of_build derives item built
      rw [same, kind_unplaced] at sound
      exact ⟨sound.1, sound.2.of_unplaced (by rw [sound.1]; decide)⟩

/-- Every node of a script that is read is what the printer relies on: bodies are bare
    and not empty, pipelines have commands that are none themselves, words have the
    expansions that are found in them.  So wherever redirections or a mark stand below
    another node, they are printed. -/
theorem parse_regular {source : List Char} {options : ParseOptions} {t : Node}
    (parsed : parse source options = .ok t) :
    t.kind = .script ∧ t.isWellTyped = true ∧ Throughout Regular t ∧
      ∀ p f c, t.Holds p → c ∈ p.all f → (c.head.async = true ∨ c.all .redirections ≠ []) →
        PrintsTail p.kind c := by
  obtain ⟨script, sound⟩ := sound_parse parsed
  exact ⟨script, sound.typed, sound.regular, fun p f c holds hc marked => sound.printsTail holds hc marked⟩

/-- A group with a mark inside, redirected and sent to the background as a whole. -/
theorem parse_regular_group :
    ∃ t g, parse "{ a & } >b &".toList { locate := true } = .ok t ∧ g ∈ t.all .commands ∧
      g.kind = .compoundList ∧ g.head.async = true ∧ PrintsTail .script g := by
  let isMarked (g : Node) : Bool := g.kind == .compoundList && g.head.async
  have run : (parse "{ a & } >b &".toList { locate := true }).toOption.any
      (fun t => (t.all .commands).any isMarked) = true := by decide +kernel
  cases parsed : parse "{ a & } >b &".toList { locate := true } with
  | error e =>
    rw [parsed] at run
    cases run
  | ok t =>
    rw [parsed] at run
    obtain ⟨g, mem, marked⟩ := List.any_eq_true.mp run
    obtain ⟨kind, async⟩ : g.kind = .compoundList ∧ g.head.async = true := by
      simpa [isMarked] using marked
    obtain ⟨script, -, -, printed⟩ := parse_regular parsed
    exact ⟨t, g, rfl, mem, kind, async, script ▸ printed t _ g (.inl rfl) mem (.inl async)⟩

end Parse

end ShellInliner
