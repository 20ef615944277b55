import ShellInliner.Proofs.Node.Fields
import ShellInliner.Proofs.Workspace.Installing

/-! # Installed layouts print the tree

    A tree with everything installed is read as the plain recursion over trees
    prints it: what a node is asked for while it is laid out are the texts of the
    subtrees that its children show.  So after layouts have been installed, what
    was kept before and which styles there were makes no difference to what is
    read. -/

namespace ShellInliner.Workspace

open Source (Related Gives follows_eq isBraced layout)

/-! ### The children of a cell, field by field -/

/-- The children that fill a field, in order. -/
def handlesIn (f : Field) (es : List (Field × Handle)) : List Handle :=
  es.filterMap fun e => if e.1 = f then some e.2 else none

theorem handlesIn_append (f : Field) (es es' : List (Field × Handle)) :
    handlesIn f (es ++ es') = handlesIn f es ++ handlesIn f es' :=
  List.filterMap_append

theorem handlesIn_eq_nil {f : Field} {es : List (Field × Handle)} (absent : f ∉ es.map (·.1)) :
    handlesIn f es = [] := by
  refine List.filterMap_eq_nil_iff.mpr fun e mem => if_neg fun same => absent ?_
  exact List.mem_map.mpr ⟨e, mem, same⟩

theorem handlesIn_map (f : Field) (hs : List Handle) : handlesIn f (hs.map (f, ·)) = hs := by
  simp [handlesIn, List.filterMap_map]

theorem fields_singleEntries {f : Field} {singles : List (Field × Option Handle)}
    (mem : f ∈ (singleEntries singles).map (·.1)) : f ∈ singles.map (·.1) := by
  obtain ⟨⟨g, h⟩, here, rfl⟩ := List.mem_map.mp mem
  exact List.mem_map.mpr ⟨_, mem_singleEntries.mp here, rfl⟩

theorem fields_rowEntries {w : Workspace} {f : Field} {sequences : List (Field × RowHandle)}
    (mem : f ∈ (sequences.flatMap w.rowEntries).map (·.1)) : f ∈ sequences.map (·.1) := by
  obtain ⟨e, here, rfl⟩ := List.mem_map.mp mem
  obtain ⟨s, sequence, there⟩ := List.mem_flatMap.mp here
  obtain ⟨x, -, rfl⟩ := List.mem_map.mp there
  exact List.mem_map.mpr ⟨s, sequence, rfl⟩

theorem handlesIn_singles {singles : List (Field × Option Handle)}
    (once : (singles.map (·.1)).Nodup) (f : Field) :
    handlesIn f (singleEntries singles) = (singles.lookup f).join.toList := by
  induction singles with
  | nil => rfl
  | cons s singles ih =>
    obtain ⟨g, x⟩ := s
    rw [List.map_cons, List.nodup_cons] at once
    have others := ih once.2
    have split : singleEntries ((g, x) :: singles) =
        (x.toList.map (g, ·)) ++ singleEntries singles := by
      cases x <;> rfl
    rw [split, handlesIn_append]
    by_cases here : g = f
    · subst here
      rw [handlesIn_map, handlesIn_eq_nil fun mem => once.1 (fields_singleEntries mem)]
      simp
    · have absent : handlesIn f (x.toList.map (g, ·)) = [] := handlesIn_eq_nil fun mem => by
        obtain ⟨e, there, rfl⟩ := List.mem_map.mp mem
        obtain ⟨h, -, rfl⟩ := List.mem_map.mp there
        exact here rfl
      -- The entry is of another field, so it is looked past.
      have skip : ((g, x) :: singles).lookup f = singles.lookup f := by
        rw [List.lookup_cons, beq_false_of_ne (Ne.symm here)]
      rw [absent, others, skip, List.nil_append]

theorem handlesIn_sequences {w : Workspace} {sequences : List (Field × RowHandle)}
    (once : (sequences.map (·.1)).Nodup) {f : Field} {r : RowHandle} {hs : List Handle}
    (found : sequences.lookup f = some r) (row : w.rows[r]? = some (hs.map some)) :
    handlesIn f (sequences.flatMap w.rowEntries) = hs := by
  obtain ⟨before, after, rfl, absent⟩ := List.lookup_eq_some_iff.mp found
  rw [List.map_append, List.map_cons, List.nodup_append] at once
  -- A field stands in the cell once, so the other rows have nothing of it.
  have before_nil : handlesIn f (before.flatMap w.rowEntries) = [] :=
    handlesIn_eq_nil fun mem => by
      obtain ⟨s, here, same⟩ := List.mem_map.mp (fields_rowEntries mem)
      exact once.2.2 _ (List.mem_map_of_mem here) f (List.mem_cons_self ..) same
  have after_nil : handlesIn f (after.flatMap w.rowEntries) = [] :=
    handlesIn_eq_nil fun mem => (List.nodup_cons.mp once.2.1).1 (fields_rowEntries mem)
  rw [List.flatMap_append, List.flatMap_cons, rowEntries_eq row, handlesIn_append,
    handlesIn_append, handlesIn_map, before_nil, after_nil, List.nil_append, List.append_nil]

/-- What a layout takes for the children of a cell in a field are its children in
    that field. -/
theorem childrenOf_eq {w : Workspace} {c : Cell} (fits : w.Fits c) (f : Field) :
    w.childrenOf c f = .ok ((handlesIn f (w.entries c)).map some) := by
  have once := Node.fieldOrder_nodup c.head.kind
  unfold Kind.fieldOrder at once
  rw [← fits.singleFields, ← fits.sequenceFields, List.nodup_append] at once
  -- A field is either a single one or a row, never both.
  obtain ⟨singles, sequences, apart⟩ := once
  unfold childrenOf entries
  rw [handlesIn_append, handlesIn_singles singles]
  cases found : c.sequences.lookup f with
  | some r =>
    obtain ⟨hs, row, -⟩ := fits.row f r (mem_of_lookup found)
    have absent : c.singles.lookup f = none := lookup_eq_none fun mem =>
      apart f mem f (List.mem_map.mpr ⟨_, mem_of_lookup found, rfl⟩) rfl
    rw [handlesIn_sequences sequences found row, absent]
    exact rowOf_eq row
  | none =>
    have absent : handlesIn f (c.sequences.flatMap w.rowEntries) = [] :=
      handlesIn_eq_nil fun mem => by
        obtain ⟨r, there⟩ := exists_lookup (fields_rowEntries mem)
        rw [found] at there
        cases there
    rw [absent, List.append_nil]

theorem isSequence_of_mem {k : Kind} {f : Field} (mem : f ∈ k.sequenceFields) :
    f.isSequence = true := by
  have all : k.sequenceFields.all Field.isSequence = true := by cases k <;> decide
  exact List.all_eq_true.mp all f mem

/-- The child in a single field is the first one among the children there. -/
theorem child?_eq {w : Workspace} {c : Cell} (fits : w.Fits c) {f : Field}
    (single : f.isSequence = false) : child? c f = (handlesIn f (w.entries c)).head? := by
  have absent : c.sequences.lookup f = none := lookup_eq_none fun mem => by
    rw [fits.sequenceFields] at mem
    rw [isSequence_of_mem mem] at single
    cases single
  have children := childrenOf_eq fits f
  unfold childrenOf at children
  rw [absent] at children
  injection children with same
  have handles := List.map_injective_iff.mpr (Option.some_injective _) same
  rw [← handles, Option.head?_toList]
  rfl

/-! ### Parts -/

section

variable {w : Workspace} {P : CellCondition} {text : Handle → Except Error String} {k : Kind}

/-- The texts of the children in a field are those of the subtrees in it. -/
theorem ShowsAll.sourcesIn {cs : List (Field × Node)} {es : List (Field × Handle)}
    (all : w.ShowsAll P k cs es)
    (each : ∀ f n h, (f, n) ∈ cs → w.Shows P (some k) n h → text h = n.source (some k))
    (f : Field) : Node.sourcesIn k f cs = textsOf text ((handlesIn f es).map some) := by
  induction cs generalizing es with
  | nil =>
    cases all
    rfl
  | cons c cs ih =>
    obtain ⟨g, n⟩ := c
    obtain ⟨h, es, rfl, shows, all⟩ := all
    have others := ih all fun f n h mem => each f n h (List.mem_cons_of_mem _ mem)
    have here := each g n h (List.mem_cons_self ..) shows
    unfold Node.sourcesIn
    -- The first child is in the field, or is passed over on both sides.
    by_cases same : g = f
    · have handles : handlesIn f ((g, h) :: es) = h :: handlesIn f es := by simp [handlesIn, same]
      rw [if_pos same, handles, others, ← here]
      unfold textsOf
      rw [List.map_cons, List.mapM_cons]
      rfl
    · have handles : handlesIn f ((g, h) :: es) = handlesIn f es := by simp [handlesIn, same]
      rw [if_neg same, handles, others]

/-- The child that a field starts with shows the subtree that it starts with. -/
theorem ShowsAll.head {cs : List (Field × Node)} {es : List (Field × Handle)}
    (all : w.ShowsAll P k cs es) (f : Field) :
    (handlesIn f es = [] ∧ Node.within f cs = []) ∨
      ∃ h n, (handlesIn f es).head? = some h ∧ (Node.within f cs).head? = some n ∧
        (f, n) ∈ cs ∧ w.Shows P (some k) n h := by
  induction cs generalizing es with
  | nil =>
    cases all
    exact .inl ⟨rfl, rfl⟩
  | cons c cs ih =>
    obtain ⟨g, n⟩ := c
    obtain ⟨h, es, rfl, shows, all⟩ := all
    -- The first child is in the field, or is passed over on both sides.
    by_cases same : g = f
    · subst same
      exact .inr ⟨h, n, by simp [handlesIn], by simp [Node.within], List.mem_cons_self .., shows⟩
    · have handles : handlesIn f ((g, h) :: es) = handlesIn f es := by simp [handlesIn, same]
      have nodes : Node.within f ((g, n) :: cs) = Node.within f cs := by
        simp [Node.within, same]
      rw [handles, nodes]
      rcases ih all with vacant | ⟨x, m, first, first', mem, below⟩
      · exact .inl vacant
      · exact .inr ⟨x, m, first, first', List.mem_cons_of_mem _ mem, below⟩

end

/-- A layout is told the same by the workspace and by the tree, if the texts at and
    below the children of its node are those of the subtrees. -/
theorem partsOf_related {w : Workspace} {P : CellCondition} {text : Handle → Except Error String}
    {c : Cell} {cs : List (Field × Node)} (fits : w.Fits c)
    (all : w.ShowsAll P c.head.kind cs (w.entries c))
    (each : ∀ f n h, (f, n) ∈ cs → w.Shows P (some c.head.kind) n h →
      text h = n.source (some c.head.kind))
    (deeper : ∀ f n, (f, n) ∈ cs → ∀ g m h, (g, m) ∈ n.children → w.Shows P (some n.kind) m h →
      text h = m.source (some n.kind)) :
    Related Gives (fun x r => x = r) c.head.kind (w.partsOf text c)
      ⟨fun f => Node.sourcesIn c.head.kind f cs, fun f => Node.statementsIn f cs,
        fun f => Node.bareIn f cs⟩ where
  all f := by
    have texts := all.sourcesIn each f
    simp only [partsOf, childrenOf_eq fits f, texts]
    rfl
  statements f _ single := by
    simp only [partsOf, child?_eq fits single, Node.statementsIn_eq]
    rcases all.head f with ⟨handles, nodes⟩ | ⟨h, n, first, first', mem, below⟩
    · simp [handles, nodes]
    · obtain ⟨d, found, fits', -, same, all'⟩ := shows_iff.mp below
      have kind : d.head.kind = n.kind := by rw [same]; rfl
      simp only [first, first', found]
      cases lists : n.kind.sequenceFields.contains .commands with
      | true =>
        obtain ⟨r, hs, entry, row, -⟩ :=
          fits'.exists_row (f := .commands) (by rw [kind]; exact List.contains_iff_mem.mp lists)
        have children := childrenOf_eq fits' .commands
        unfold childrenOf at children
        simp only [entry] at children
        rw [kind] at all'
        have texts := all'.sourcesIn (fun g m x mem' shows => deeper f n mem g m x mem' shows)
          .commands
        simp only [entry, children, if_true, texts]
        generalize (handlesIn .commands (w.entries d)).map some = xs
        show (textsOf text xs >>= fun ts => pure (some ts)) = (textsOf text xs).map some
        cases textsOf text xs <;> rfl
      | false =>
        -- Neither the cell nor the tree has statements to give.
        have absent : d.sequences.lookup .commands = none := lookup_eq_none fun there => by
          rw [fits'.sequenceFields, kind] at there
          rw [List.contains_iff_mem.mpr there] at lists
          cases lists
        simp [absent]
  bare _ := by
    simp only [partsOf, child?_eq fits (f := .name) rfl, Node.bareIn]
    rcases all.head .name with ⟨handles, nodes⟩ | ⟨h, n, first, first', mem, below⟩
    · simp [handles, nodes]
    · obtain ⟨d, found, -, -, same, -⟩ := shows_iff.mp below
      have text : n.text? = d.head.text? := by rw [same]; rfl
      cases named : d.head.text? with
      | none => simp [first, first', found, text, named]
      | some t => simp [first, first', found, text, named]
  missing _ _ _ := rfl
  missingClause _ _ := rfl

/-! ### Texts -/

/-- The text of a leaf only depends on its own values. -/
theorem source_of_isLeaf {n : Node} (leaf : n.kind.isLeaf = true) (parent : Option Kind) :
    n.source parent = (Node.mk n.head n.loc []).source none := by
  cases n with
  | mk hd l cs => cases hd <;> first | rfl | cases leaf

/-- A node of an installed tree has the text that its subtree is printed as. -/
theorem Shows.text_eq_source {w : Workspace} {parent : Option Kind} {n : Node} {h : Handle}
    (shows : w.Shows IsInstalled parent n h) : w.text h = n.source parent := by
  -- A conditional looks at its grandchildren, so the statement is proved of a
  -- tree together with its children.
  suffices both : ∀ n : Node, (∀ parent h, w.Shows IsInstalled parent n h →
      w.text h = n.source parent) ∧ ∀ f m, (f, m) ∈ n.children → ∀ parent h,
      w.Shows IsInstalled parent m h → w.text h = m.source parent from
    (both n).1 parent h shows
  intro n
  induction n using Node.induct with
  | step hd l cs ih =>
    refine ⟨fun parent h shows => ?_, fun f m mem => (ih (f, m) mem).1⟩
    obtain ⟨c, found, fits, ⟨styled, kept, honest⟩, same, all⟩ := shows_iff.mp shows
    cases same
    rw [text_eq shows.isWithin found]
    unfold cellText
    cases memo : c.memo with
    | some t =>
      have leaf := kept (by rw [memo]; exact Option.some_ne_none t)
      rw [source_of_isLeaf (n := .mk c.head c.loc cs) leaf parent]
      exact (honest leaf t memo).symm
    | none =>
      have braces : decide (styleUnder parent c.head.kind = .braced) =
          isBraced parent c.head.kind := by
        unfold styleUnder
        cases isBraced parent c.head.kind <;> rfl
      have children (f : Field) (n : Node) (x : Handle) (mem : (f, n) ∈ cs)
          (shows' : w.Shows IsInstalled (some c.head.kind) n x) :
          w.text x = n.source (some c.head.kind) := (ih (f, n) mem).1 _ x shows'
      have related := partsOf_related fits all children
        (fun f n mem g m x mem' shows' => (ih (f, n) mem).2 g m mem' _ x shows')
      simp only [styled, braces]
      unfold Node.source
      exact related.layout follows_eq _

/-- An installed tree can be printed. -/
theorem Shows.exists_source {w : Workspace} {parent : Option Kind} {n : Node} {h : Handle}
    (shows : w.Shows IsInstalled parent n h) : ∃ s, n.source parent = .ok s := by
  -- A style can be missing nowhere, and that is all that could make the text fail.
  have never : Source.FailsOnly (fun _ => False) (w.text h) := by
    refine text_failsOnly shows.isWithin le_rfl (fun x below => ?_) fun x d below found bare => ?_
    · obtain ⟨k, m, shows'⟩ := shows.below below
      obtain ⟨d, found, fits, -⟩ := shows'.exists_cell
      exact ⟨d, found, fits⟩
    · obtain ⟨k, m, shows'⟩ := shows.below below
      obtain ⟨d', found', -, installed, -⟩ := shows'.exists_cell
      rw [found] at found'
      cases found'
      rw [installed.1] at bare
      cases bare
  rw [shows.text_eq_source] at never
  cases source : n.source parent with
  | ok s => exact ⟨s, rfl⟩
  | error e => exact (never e source).elim

/-! ### Reading an installed tree -/

/-- A node can be reached from the first one, and its parent on the way is of this
    kind. -/
inductive Reaches (w : Workspace) (g : Handle) : Option Kind → Handle → Prop
  /-- The first node has no parent. -/
  | root : Reaches w g none g
  /-- A child of a node that can be reached. -/
  | child {k : Option Kind} {p h : Handle} {c : Cell} (way : Reaches w g k p)
    (cell : w.cells[p]? = some c) (child : w.IsChild p h) : Reaches w g (some c.head.kind) h

/-- What can be reached in a tree shows a subtree under a parent of that kind. -/
theorem Shows.reaches {w : Workspace} {P : CellCondition} {t : Node} {g x : Handle}
    {k : Option Kind} (shows : w.Shows P none t g) (way : w.Reaches g k x) :
    ∃ n, w.Shows P k n x := by
  induction way with
  | root => exact ⟨t, shows⟩
  | child _ cell child ih =>
    obtain ⟨n, shows'⟩ := ih
    obtain ⟨f, m, -, below⟩ := shows'.child child
    obtain ⟨d, found, -, -, kind⟩ := shows'.exists_cell
    rw [cell] at found
    cases found
    rw [kind]
    exact ⟨m, below⟩

/-- Installing layouts makes a tree readable.  Let no node lie below itself, let
    everything below a node be well-typed, and let no leaf there keep any other text
    than its own; styles, and the texts of nodes with children, may be anything.
    Then installing ends with a node that has the same tree below it, and all reads
    of nodes that can be reached from there, in any order, succeed with the text that
    the plain recursion over trees gives for the subtree of the node, under a parent
    of the kind it has been reached from. -/
theorem readings_generate (w : Workspace) (h : Handle) (acyclic : w.IsAcyclic)
    (typed : ∀ x, w.Below h x → ∃ c, w.cells[x]? = some c ∧ w.Fits c)
    (honest : ∀ x c, w.Below h x → w.cells[x]? = some c → c.head.kind.isLeaf = true →
      ∀ s, c.memo = some s → (Node.mk c.head c.loc []).source none = .ok s) :
    ∃ t g w', w.tree? w.fuel h = some t ∧ (generate h).run.run w = (.ok (.one g), w') ∧
      w'.tree? w'.fuel g = some t ∧
      ∀ visits : List (Option Kind × Handle), (∀ v ∈ visits, w'.Reaches g v.1 v.2) →
        List.Forall₂ (fun v answer => ∃ n s, w'.tree? w'.fuel v.2 = some n ∧
            n.source v.1 = .ok s ∧ answer = .ok s)
          visits (w'.readings (visits.map (·.2))) := by
  have within := acyclic.isWithin h
  obtain ⟨t, shows⟩ := exists_shows (P := IsHonest) within (fun x below => by
    obtain ⟨c, found, fits⟩ := typed x below
    exact ⟨c, found, fits, fun _ leaf s kept => honest x c below found leaf s kept⟩) none
  obtain ⟨g, w', ended, -, installed⟩ := run_generate shows
  refine ⟨t, g, w', shows.tree?_eq within, ended, installed.tree?_eq installed.isWithin, ?_⟩
  intro visits reached
  have reading : w'.readings (visits.map (·.2)) = (visits.map (·.2)).map w'.text :=
    readings_eq (fun x mem => by
      obtain ⟨v, here, rfl⟩ := List.mem_map.mp mem
      obtain ⟨n, shows'⟩ := installed.reaches (reached v here)
      exact shows'.isWithin) (.refl w')
  rw [reading, List.map_map, List.forall₂_map_right_iff, List.forall₂_same]
  intro v mem
  obtain ⟨n, shows'⟩ := installed.reaches (reached v mem)
  obtain ⟨s, source⟩ := shows'.exists_source
  refine ⟨n, s, shows'.tree?_eq shows'.isWithin, source, ?_⟩
  rw [Function.comp_apply, shows'.text_eq_source, source]

theorem eq_ok_of_toOption {r : Except Error String} {s : String} (same : r.toOption = some s) :
    r = .ok s := by
  cases r with
  | ok t =>
    cases same
    rfl
  | error e => cases same

/-- A list of statements stands in a script and in a subshell, with a style and a
    text from earlier reads.  After installing it is braced where it stands in the
    script, and nothing of what was kept shows. -/
theorem readings_generate_shared :
    let w : Workspace :=
      { cells := #[⟨.parameterExpansion "x" none none none false, none, [], [], none, none⟩,
          ⟨.word "$x", none, [], [(.expansion, 0)], some .braced, some "$x"⟩,
          ⟨.command false, none, [(.name, some 1)], [(.leading, 1), (.suffix, 1)], none,
            some "stale"⟩,
          ⟨.compoundList false, none, [], [(.commands, 2), (.redirections, 1)], some .plain,
            some "old"⟩,
          ⟨.subshell false, none, [(.list, some 3)], [(.redirections, 1)], none, none⟩,
          ⟨.script, none, [], [(.commands, 3)], some .braced, some "gone"⟩]
        rows := #[[some 0], [], [some 2], [some 3, some 4]] }
    ∃ g w', (generate 5).run.run w = (.ok (.one g), w') ∧
      w'.readings [g, g] = [.ok "\x7b\n $x \n\x7d\n( $x )", .ok "\x7b\n $x \n\x7d\n( $x )"] := by
  intro w
  have acyclic : w.IsAcyclic := isAcyclic_of_older (by decide)
  have typed : w.IsWellTyped := by decide
  have honest : ∀ c ∈ w.cells, c.head.kind.isLeaf = true → ∀ s ∈ c.memo,
      ((Node.mk c.head c.loc []).source none).toOption = some s := by decide
  obtain ⟨t, g, w', tree, ended, copied, reads⟩ := readings_generate w 5 acyclic
    (fun x below => exists_fits_of_below typed (by decide) below)
    (fun x c _ found leaf s kept =>
      eq_ok_of_toOption (honest c (Array.mem_of_getElem? found) leaf s kept))
  refine ⟨g, w', ended, ?_⟩
  have printed : (w.tree? w.fuel 5).bind (fun n => (n.source none).toOption) =
      some "\x7b\n $x \n\x7d\n( $x )" := by decide +kernel
  rw [tree] at printed
  have text : ∀ answer : Except Error String, (∃ n s, w'.tree? w'.fuel g = some n ∧
      n.source none = .ok s ∧ answer = .ok s) → answer = .ok "\x7b\n $x \n\x7d\n( $x )" := by
    rintro answer ⟨n, s, tree', source, rfl⟩
    rw [copied] at tree'
    cases tree'
    rw [← source]
    exact eq_ok_of_toOption printed
  have both := reads [(none, g), (none, g)] (by simp [Reaches.root])
  have nodes : [(none, g), (none, g)].map (fun v : Option Kind × Handle => v.2) = [g, g] := rfl
  rw [nodes] at both
  generalize w'.readings [g, g] = answers at both ⊢
  cases both with
  | cons first rest =>
    cases rest with
    | cons second none =>
      cases none
      rw [text _ first, text _ second]

end ShellInliner.Workspace
