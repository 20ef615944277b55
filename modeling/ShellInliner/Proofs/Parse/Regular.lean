import ShellInliner.Proofs.Node.Assemble
import ShellInliner.Proofs.Word.Expansions

/-! # Regular trees

    Printing leaves out what it does not expect: the redirections of a body, the
    mark of a background command on an operand.  `Regular` says of one node, kind by
    kind, what the printer relies on.  A tree that is well-typed and regular
    throughout is sound, and what is put together from sound parts is sound as long
    as the new node is. -/

namespace ShellInliner.Parse

open Node

/-! ### Regular nodes -/

/-- A list of statements that is nothing but its statements. -/
structure IsBare (n : Node) : Prop where
  /-- It is a list of statements. -/
  kind : n.kind = .compoundList
  /-- It has no redirections. -/
  plain : n.all .redirections = []
  /-- It does not run in the background. -/
  foreground : n.head.async = false

/-- The child in a field is a bare list with statements. -/
def HasBody (n : Node) (f : Field) : Prop :=
  ∀ c ∈ n.all f, IsBare c ∧ c.all .commands ≠ []

/-- What is particular to a kind. -/
def IsShapely (n : Node) : Prop :=
  match n.head with
  | .function _ => HasBody n .body
  | .subshell _ => HasBody n .list
  | .forLoop _ => HasBody n .loopBody
  | .whileLoop _ | .untilLoop _ => HasBody n .clause ∧ HasBody n .loopBody
  | .ifElse _ =>
    HasBody n .clause ∧ HasBody n .thenBranch ∧ n.all .thenBranch ≠ [] ∧ HasBody n .elseBranch
  | .caseItem => (∀ c ∈ n.all .body, IsBare c) ∧ n.all .pattern ≠ []
  | .pipeline _ bang =>
    (2 ≤ (n.all .commands).length ∨ bang = true ∧ 1 ≤ (n.all .commands).length) ∧
      ∀ c ∈ n.all .commands, c.head.async = false ∧ c.kind ≠ .pipeline ∧ c.kind ≠ .logicalExpression
  | .logicalExpression _ _ =>
    (∀ c ∈ n.all .left, c.head.async = false) ∧
      ∀ c ∈ n.all .right, c.head.async = false ∧ c.kind ≠ .logicalExpression
  | .command _ => n.all .name = [] → n.all .suffix = [] ∧ n.all .leading ≠ []
  | .redirect _ number => ∀ i ∈ number, 0 ≤ i
  | .word t | .assignmentWord t => n.children = Word.expansionChildren t.toList
  | _ => True

/-- What the printer relies on. -/
structure Regular (n : Node) : Prop where
  /-- A list has statements, but for the body of a branch. -/
  filled : n.kind ≠ .caseItem → ∀ f, ∀ c ∈ n.all f, c.kind = .compoundList → c.all .commands ≠ []
  /-- What is particular to the kind holds. -/
  shapely : IsShapely n

/-- The tree is well-typed and regular throughout. -/
structure Sound (n : Node) : Prop where
  /-- It keeps to the table of members. -/
  typed : n.isWellTyped = true
  /-- It is what the printer relies on. -/
  regular : Throughout Regular n

/-- A node as it stands in the tree of another. -/
structure IsItem (ks : List Kind) (n : Node) : Prop where
  /-- It is of one of the kinds. -/
  kind : n.kind ∈ ks
  /-- A list has statements. -/
  filled : n.kind = .compoundList → n.all .commands ≠ []
  /-- The tree below it is sound. -/
  sound : Sound n

/-- A node that nothing has been done to yet: no mark has sent it to the background. -/
structure IsFresh (ks : List Kind) (n : Node) : Prop extends IsItem ks n where
  /-- It does not run in the background. -/
  foreground : n.head.async = false

section

variable {n : Node} {ks ks' : List Kind} {h : Head} {fields : List (Field × List Node)}

theorem IsItem.mono (item : IsItem ks n) (sub : ks ⊆ ks') : IsItem ks' n :=
  ⟨sub item.kind, item.filled, item.sound⟩

theorem IsFresh.mono (fresh : IsFresh ks n) (sub : ks ⊆ ks') : IsFresh ks' n :=
  ⟨fresh.toIsItem.mono sub, fresh.foreground⟩

/-- A node that is put together from sound parts is sound if it is shapely. -/
theorem sound_assemble (order : (fields.map (·.1)).Sublist h.kind.fieldOrder)
    (fills : ∀ m ∈ h.kind.members, (assemble h none fields).Fills m)
    (shapely : IsShapely (assemble h none fields)) (below : ∀ p ∈ fields, ∀ c ∈ p.2, Sound c)
    (filled : h.kind ≠ .caseItem → ∀ p ∈ fields, ∀ c ∈ p.2, c.kind = .compoundList →
      c.all .commands ≠ []) : Sound (assemble h none fields) where
  typed := isWellTyped_assemble order fills fun p hp c hc => (below p hp c hc).typed
  regular := by
    refine throughout_assemble ⟨fun other f c hc => ?_, shapely⟩ fun p hp c hc =>
      (below p hp c hc).regular
    -- A child of the new node is in one of its fields.
    rw [all_assemble] at hc
    obtain ⟨p, hp, here⟩ := List.mem_flatMap.mp hc
    split at here
    · exact filled other p hp c here
    · cases here

/-- A node of another kind than a list is put together from items. -/
theorem fresh_assemble (k : Kind) (fs : List Field) (same : h.kind = k)
    (names : fields.map (·.1) = fs) (order : fs.Sublist k.fieldOrder) (mem : k ∈ ks)
    (foreground : h.async = false) (other : k ≠ .compoundList)
    (fills : ∀ m ∈ k.members, (assemble h none fields).Fills m)
    (shapely : IsShapely (assemble h none fields))
    (parts : ∀ p ∈ fields, ∀ c ∈ p.2, ∃ ks, IsItem ks c) : IsFresh ks (assemble h none fields) := by
  subst same names
  refine ⟨⟨mem, fun list => absurd list other, ?_⟩, foreground⟩
  refine sound_assemble order fills shapely (fun p hp c hc => ?_) fun _ p hp c hc => ?_
  · obtain ⟨_, item⟩ := parts p hp c hc
    exact item.sound
  · obtain ⟨_, item⟩ := parts p hp c hc
    exact item.filled

end

/-! ### Leaves -/

section

variable {n : Node}

theorem sound_expansion {first last : Nat} (inside : Word.IsExpansionNode first last n) : Sound n := by
  obtain ⟨hd, l, cs⟩ := n
  obtain ⟨expansion, leaf, start, stop, rfl, -⟩ := inside
  obtain rfl : cs = [] := leaf
  constructor
  · cases hd <;> first | rfl | cases expansion
  · refine ⟨⟨fun _ f c hc => (by cases hc), ?_⟩, fun f n site => ?_⟩
    · cases hd <;> first | exact trivial | cases expansion
    · cases site with
      | child mem => cases mem
      | deeper mem _ => cases mem

theorem sound_wordNode {h : String → Head} {text : List Char}
    (word : h = .word ∨ h = .assignmentWord) : Sound (wordNode h none text) := by
  have below : ∀ c ∈ (wordNode h none text).children, c.1 = .expansion ∧ Sound c.2 ∧
      c.2.kind.isExpansion = true := fun c hc => by
    obtain ⟨field, inside⟩ := Word.mem_expansionChildren hc
    exact ⟨field, sound_expansion inside, inside.kind⟩
  have all (f : Field) : ∀ c ∈ (wordNode h none text).all f, c.kind.isExpansion = true := fun c hc =>
    (below _ (mem_all_iff.mp hc)).2.2
  -- Expansions are the only children.
  have fields : (wordNode h none text).children.map (·.1) =
      ((wordNode h none text).children.map (·.1)).filter (· = .expansion) := by
    rw [List.filter_eq_self.mpr]
    intro f hf
    obtain ⟨c, hc, rfl⟩ := List.mem_map.mp hf
    exact decide_eq_true (below c hc).1
  constructor
  · refine isWellTyped_iff.mpr ⟨rfl, ?_, ?_, fun c hc => (below c hc).2.1.typed⟩
    · rcases word with rfl | rfl <;>
        exact decide_eq_true (fields.trans (List.append_nil _).symm)
    · intro m hm
      rcases word with rfl | rfl <;> rcases List.mem_cons.mp hm with rfl | hm <;>
        first
          | exact trivial
          | rw [List.mem_singleton.mp hm]
            exact ⟨fun c hc => List.contains_iff_mem.mp (all _ c hc), trivial⟩
  · refine throughout_iff.mpr ⟨⟨fun _ f c hc list => ?_, ?_⟩, fun c hc => (below c hc).2.1.regular⟩
    · have expansion := all f c hc
      rw [list] at expansion
      cases expansion
    · have same : text = (String.ofList text).toList := String.toList_ofList.symm
      rcases word with rfl | rfl <;> exact congrArg Word.expansionChildren same

theorem sound_name (t : String) : Sound (.mk (.name t) none []) where
  typed := rfl
  regular := by
    refine ⟨⟨fun _ f c hc => (by cases hc), trivial⟩, fun f n site => ?_⟩
    cases site with
    | child mem => cases mem
    | deeper mem _ => cases mem

theorem fresh_word (text : List Char) : IsFresh [.word] (wordNode .word none text) :=
  ⟨⟨List.mem_singleton_self _, fun list => (by cases list), sound_wordNode (.inl rfl)⟩, rfl⟩

theorem fresh_assignment (text : List Char) :
    IsFresh [.assignmentWord] (wordNode .assignmentWord none text) :=
  ⟨⟨List.mem_singleton_self _, fun list => (by cases list), sound_wordNode (.inr rfl)⟩, rfl⟩

theorem fresh_name (t : String) : IsFresh [.name] (.mk (.name t) none []) :=
  ⟨⟨List.mem_singleton_self _, fun list => (by cases list), sound_name t⟩, rfl⟩

end

/-! ### Changes to a node -/

section

variable {n : Node}

theorem throughout_withHead {P : Node → Prop} {h : Head} (here : P (n.withHead h))
    (below : Throughout P n) : Throughout P (n.withHead h) :=
  throughout_iff.mpr ⟨here, (throughout_iff.mp below).2⟩

theorem kind_inBackground (h : Head) : h.inBackground.kind = h.kind := by
  cases h <;> rfl

/-- A mark that sends a statement to the background changes nothing else. -/
theorem Sound.inBackground (h : Sound n) : Sound (n.withHead n.head.inBackground) where
  typed := by
    have same : (n.withHead n.head.inBackground).kind = n.kind := kind_inBackground n.head
    have typed := isWellTyped_iff.mp h.typed
    rw [isWellTyped_iff, same]
    exact typed
  regular := by
    refine throughout_withHead ⟨fun other => h.regular.1.filled ?_, ?_⟩ h.regular
    · rwa [show (n.withHead n.head.inBackground).kind = n.kind from kind_inBackground n.head] at other
    · have shapely := h.regular.1.shapely
      obtain ⟨hd, l, cs⟩ := n
      cases hd <;> exact shapely

theorem IsItem.inBackground {ks : List Kind} (item : IsItem ks n) :
    IsItem ks (n.withHead n.head.inBackground) where
  kind := by
    rw [show (n.withHead n.head.inBackground).kind = n.kind from kind_inBackground n.head]
    exact item.kind
  filled := by
    rw [show (n.withHead n.head.inBackground).kind = n.kind from kind_inBackground n.head]
    exact item.filled
  sound := item.sound.inBackground

theorem Sound.all {c : Node} {f : Field} (h : Sound n) (hc : c ∈ n.all f) : Sound c :=
  ⟨isWellTyped_of_mem_all h.typed hc, h.regular.all hc⟩

theorem IsFresh.withLoc {ks : List Kind} {l : Option Extent} (fresh : IsFresh ks n)
    (fits : fitsLoc n.kind l = true) : IsFresh ks (n.withLoc l) := by
  refine ⟨⟨fresh.kind, fresh.filled, ?_, ?_⟩, fresh.foreground⟩
  · obtain ⟨-, rest⟩ := isWellTyped_iff.mp fresh.sound.typed
    exact isWellTyped_iff.mpr ⟨fits, rest⟩
  · have regular := throughout_iff.mp fresh.sound.regular
    exact throughout_iff.mpr ⟨⟨regular.1.filled, regular.1.shapely⟩, regular.2⟩

/-- The kinds of compound commands. -/
def compounds : List Kind :=
  [.compoundList, .subshell, .forLoop, .caseOf, .ifElse, .whileLoop, .untilLoop]

theorem eq_of_redirections {k : Kind} {arity : Arity} {admission : Admission} (compound : k ∈ compounds)
    (mem : Member.child .redirections arity admission ∈ k.members) :
    arity = .many ∧ admission = .only .redirect := by
  revert mem compound
  cases k <;> simp [compounds, Kind.members]

/-- Redirections after a compound command change nothing else. -/
theorem IsFresh.withRedirections {rs : List Node} (fresh : IsFresh compounds n)
    (redirects : ∀ r ∈ rs, IsFresh [.redirect] r) :
    IsFresh compounds ((n.withLast .redirections rs).withLoc none) := by
  have order : n.kind.fieldOrder = n.kind.fieldOrder.dropLast ++ [.redirections] := by
    have check : ∀ k ∈ compounds, k.fieldOrder = k.fieldOrder.dropLast ++ [.redirections] := by
      decide
    exact check _ fresh.kind
  have noBranch : n.kind ≠ .caseItem := by
    rintro same
    have kind := fresh.kind
    rw [same] at kind
    exact absurd kind (by decide)
  have made := withLast_eq_assemble fresh.sound.typed order none rs
  have all (f : Field) : ((n.withLast .redirections rs).withLoc none).all f =
      if f = .redirections then rs else n.all f := all_withLast n _ f rs
  refine ⟨⟨fresh.kind, ?filled, ?sound⟩, fresh.foreground⟩
  case filled =>
    intro list
    rw [all, if_neg (by decide)]
    exact fresh.filled list
  case sound =>
    -- Redirections come last, so the node with them is put together field by field as before.
    rw [made]
    apply sound_assemble
    · rw [List.map_append, List.map_map]
      simp only [Function.comp_def, List.map_id', List.map_cons, List.map_nil, ← order]
      exact List.Sublist.refl _
    · intro m hm
      rw [← made]
      match m with
      | .attribute a type => exact trivial
      | .child f arity admission =>
        by_cases last : f = .redirections
        · subst last
          obtain ⟨rfl, rfl⟩ := eq_of_redirections fresh.kind hm
          refine ⟨fun c hc => ?_, trivial⟩
          rw [all, if_pos rfl] at hc
          exact (redirects c hc).kind
        · have fills := (isWellTyped_iff.mp fresh.sound.typed).2.2.1 _ hm
          have same := (all f).trans (if_neg last)
          unfold Fills at fills ⊢
          simpa only [same] using fills
    · rw [← made]
      have shapely := fresh.sound.regular.1.shapely
      have kind := fresh.kind
      unfold IsShapely at shapely ⊢
      have head : ((n.withLast .redirections rs).withLoc none).head = n.head := rfl
      simp only [head]
      cases hd : n.head <;> simp only [hd] at shapely ⊢ <;>
        first
          | simpa only [HasBody, all, reduceCtorEq, if_false] using shapely
          | simp [Node.kind, hd, Head.kind, compounds] at kind
    · intro p hp c hc
      rcases List.mem_append.mp hp with hp | hp
      · obtain ⟨g, -, rfl⟩ := List.mem_map.mp hp
        exact fresh.sound.all hc
      · obtain rfl := List.mem_singleton.mp hp
        exact (redirects c hc).sound
    · intro _ p hp c hc list
      rcases List.mem_append.mp hp with hp | hp
      · obtain ⟨g, -, rfl⟩ := List.mem_map.mp hp
        exact fresh.sound.regular.1.filled noBranch g c hc list
      · obtain rfl := List.mem_singleton.mp hp
        rw [List.mem_singleton.mp (redirects c hc).kind] at list
        cases list

end

end ShellInliner.Parse
