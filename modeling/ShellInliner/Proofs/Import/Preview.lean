import ShellInliner.Proofs.Import.Inlining
import ShellInliner.Proofs.Source.Marks

/-! # A preview tells what an import brings in

    The names of a preview are put together from the names in a tree with
    places; an import renames the functions of a tree without places.  The two
    readings differ in nothing but the places, and each function of a tree that
    was read has a name, so both come to the same names, and a file that cannot
    be read is refused with the same error. -/

namespace ShellInliner

open Parse

/-! ### Functions without their places -/

namespace Node

theorem topLevelFunctions_unplaced (t : Node) :
    t.unplaced.topLevelFunctions = t.topLevelFunctions.map unplaced := by
  simp [topLevelFunctions, List.filter_map, Function.comp_def]

@[simp] theorem one?_unplaced (n : Node) (f : Field) :
    n.unplaced.one? f = (n.one? f).map unplaced := by
  simp [one?, List.head?_map]

@[simp] theorem label?_unplaced (n : Node) : n.unplaced.label? = n.label? := by
  simp only [label?, kind_unplaced, text?_unplaced, one?_unplaced, Option.bind_map,
    Function.comp_def]

end Node

/-! ### The name of a function -/

theorem text?_withText {h : Head} {text : String} (named : h.text? = some text) (other : String) :
    (h.withText other).text? = some other := by
  cases h <;> cases named <;> rfl

theorem kind_withText (h : Head) (text : String) : (h.withText text).kind = h.kind := by
  cases h <;> rfl

theorem all_qualify_name (moduleName separator : String) (n : Node) :
    (qualify moduleName separator n).all .name = (n.all .name).map fun c =>
      c.withHead (c.head.withText (moduleName ++ separator ++ (c.text?.getD ""))) := by
  simp only [Node.all, Node.within, qualify, Node.withChildren, Node.children,
    List.filterMap_map, List.map_filterMap]
  refine List.filterMap_congr fun c _ => ?_
  by_cases name : c.1 = .name
  · simp [name]
  · simp [name]

/-- A function that has a name goes by the module, the separator and that name
    once it is renamed. -/
theorem label?_qualify {n : Node} {text : String} (function : n.kind = .function)
    (named : n.label? = some text) (moduleName separator : String) :
    (qualify moduleName separator n).label? = some (moduleName ++ separator ++ text) := by
  have kind : (qualify moduleName separator n).kind = .function := function
  simp only [Node.label?, function, Node.one?] at named
  simp only [Node.label?, kind, Node.one?, all_qualify_name, List.head?_map]
  -- The name asked for is the first child in its field.
  cases found : (n.all .name).head? with
  | none =>
    rw [found] at named
    cases named
  | some c =>
    rw [found] at named
    have own : c.text? = some text := named
    rw [Option.map_some, Option.bind_some, own, Option.getD_some]
    exact text?_withText own _

/-- Every function of a tree that was read has a name. -/
theorem exists_label?_of_sound {t f : Node} (sound : Sound t) (mem : f ∈ t.topLevelFunctions) :
    f.kind = .function ∧ ∃ text, f.label? = some text := by
  obtain ⟨command, kind⟩ := List.mem_filter.mp mem
  have function : f.kind = .function := eq_of_beq kind
  obtain ⟨c, one, name⟩ := Node.exists_name (sound.all command).typed (.inl function)
  obtain ⟨text, head⟩ := Node.isHeadOf_kind name
  refine ⟨function, text, ?_⟩
  simp only [Node.label?, function, Node.one?, one, List.head?_cons, Option.bind_some]
  exact congrArg Head.text? head

/-! ### Both readings of a file -/

/-- The names of the functions that a file defines, renamed, are those that its
    preview lists; the file is refused for one exactly when it is for the other,
    with the same error. -/
theorem functionsOf_labels (i : Importer) (d : Disk) (path : List Char) :
    (i.functionsOf d path).map (·.map Node.label?) =
      (exportsOf d i.settings path).map (·.map fun e => some e.qualified) := by
  unfold Importer.functionsOf exportsOf
  cases d.readText path with
  | error e => rfl
  | ok code =>
    -- With places or without, a text is read the same.
    have without := parse_unplaced code { locate := true, file := some (String.ofList path) }
    change (parse code { file := some (String.ofList path) } >>= _).map _ = (parse code _ >>= _).map _
    change parse code { file := some (String.ofList path) } = _ at without
    rw [without]
    cases parsed : parse code { locate := true, file := some (String.ofList path) } with
    | error e => rfl
    | ok t =>
      refine congrArg Except.ok ?_
      simp only [Node.topLevelFunctions_unplaced, List.map_map]
      refine List.map_congr_left fun f mem => ?_
      obtain ⟨function, text, named⟩ := exists_label?_of_sound (sound_parse parsed).2 mem
      -- A function that was parsed has a name, so the name that is missing never shows.
      have own : (f.one? .name).bind Node.text? = some text := by
        simpa [Node.label?, function] using named
      have renamed := label?_qualify (n := f.unplaced) (by simpa using function)
        (by simpa using named) (moduleOf path) i.settings.separator
      simpa [own] using renamed

/-- An import of a file ends the same way for every log: with functions that go by
    the names that the preview of the file lists, in order and as often, or with
    the error that the preview ends in. -/
theorem importFunctions_exports (i : Importer) (d : Disk) {n : Node} {argument path : List Char}
    (named : i.argument n = .ok argument) (found : i.resolvePath d argument n.row? = .ok path) :
    ∃ r : Except Error (List Node), (i.importFunctions d n).Yields r ∧
      r.map (·.map Node.label?) =
        (exportsOf d i.settings path).map (·.map fun e => some e.qualified) := by
  refine ⟨i.bring d n, i.importFunctions_yields d n, ?_⟩
  have brings : i.bring d n = i.functionsOf d path := by
    unfold Importer.bring
    rw [named]
    change (i.resolvePath d argument n.row? >>= _) = _
    rw [found]
    rfl
  rw [brings]
  exact functionsOf_labels i d path

/-- A file that defines a function twice, with another function inside the second
    definition. -/
theorem importFunctions_exports_twice :
    let importer : Importer := ⟨none, {}⟩
    let disk := (Disk.blank "/work".toList "/home".toList).makeFile ["work".toList, "lib.sh".toList]
      (Text.encode "f() { a; }\r\nf() { g() { b; }; }\n")
    let command : Node := .mk (.command false) none
      [(.name, .mk (.word "import") none []), (.suffix, .mk (.word "'lib'") none [])]
    command.isImport = true ∧
    ∃ r : Except Error (List Node), (importer.importFunctions disk command).Yields r ∧
      r.map (·.map Node.label?) = .ok [some "lib::f", some "lib::f"] := by
  intro importer disk command
  refine ⟨rfl, ?_⟩
  have named : importer.argument command = .ok "lib".toList := by decide
  have found : importer.resolvePath disk "lib".toList command.row? = .ok "/work/lib.sh".toList := by
    decide
  obtain ⟨r, yields, same⟩ := importFunctions_exports importer disk named found
  refine ⟨r, yields, same.trans ?_⟩
  have listed : (exportsOf disk importer.settings "/work/lib.sh".toList).toOption.map
      (·.map fun e => some e.qualified) = some [some "lib::f", some "lib::f"] := by
    decide +kernel
  cases preview : exportsOf disk importer.settings "/work/lib.sh".toList with
  | error e =>
    rw [preview] at listed
    cases listed
  | ok es =>
    rw [preview] at listed
    exact congrArg Except.ok (Option.some.inj listed)

end ShellInliner
