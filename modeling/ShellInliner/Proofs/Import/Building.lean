import ShellInliner.Build
import ShellInliner.Proofs.Import.Inlined
import ShellInliner.Proofs.Run

/-! # What is built can be read

    The script that is built has the functions of its imports in their places.  Its
    text is accepted if each of them gets a name that a function can have, and no list
    was emptied or broken over a line in which a conditional cannot go on. -/

namespace ShellInliner

open Parse Grammar Node

/-! ### Functions that were renamed -/

section

variable {n c : Node} {f : Field} {moduleName separator : String}

theorem all_qualify (other : f ≠ .name) : (qualify moduleName separator n).all f = n.all f := by
  simp only [Node.all, Node.within, qualify, Node.withChildren, Node.children, List.filterMap_map]
  refine List.filterMap_congr fun c _ => ?_
  by_cases name : c.1 = .name
  · have differ : ¬ .name = f := fun same => other same.symm
    simp [name, differ]
  · simp [name]

/-- A child of a renamed function is one of the function, but for a new text of its name. -/
theorem mem_all_qualify (hc : c ∈ (qualify moduleName separator n).all f) :
    f ≠ .name ∧ c ∈ n.all f ∨
      f = .name ∧ ∃ d ∈ n.all .name, ∃ text, c = d.withHead (d.head.withText text) := by
  by_cases name : f = .name
  · subst name
    rw [all_qualify_name] at hc
    obtain ⟨d, hd, rfl⟩ := List.mem_map.mp hc
    exact .inr ⟨rfl, d, hd, _, rfl⟩
  · rw [all_qualify name] at hc
    exact .inl ⟨name, hc⟩

theorem isWellTyped_withText (typed : n.isWellTyped = true) (text : String) :
    (n.withHead (n.head.withText text)).isWellTyped = true := by
  have same : (n.withHead (n.head.withText text)).kind = n.kind := kind_withText n.head text
  have typed := isWellTyped_iff.mp typed
  rw [isWellTyped_iff, same]
  exact typed

theorem isWellTyped_qualify (typed : n.isWellTyped = true) :
    (qualify moduleName separator n).isWellTyped = true := by
  obtain ⟨loc, order, members, below⟩ := isWellTyped_iff.mp typed
  -- A name is put in the place of a name: fields and kinds stay.
  have fields : (qualify moduleName separator n).children.map (·.1) = n.children.map (·.1) := by
    show (n.children.map _).map _ = _
    rw [List.map_map]
    refine List.map_congr_left fun c _ => ?_
    by_cases name : c.1 = .name <;> simp [name]
  refine isWellTyped_iff.mpr ⟨loc, by rw [fields]; exact order, fun m hm => ?_, fun c hc => ?_⟩
  · match m with
    | .attribute a type => exact trivial
    | .child f arity admission =>
      obtain ⟨kinds, count⟩ := members _ hm
      have length : ((qualify moduleName separator n).all f).length = (n.all f).length := by
        by_cases name : f = .name
        · rw [name, all_qualify_name, List.length_map]
        · rw [all_qualify name]
      refine ⟨fun c hc => ?_, by rw [length]; exact count⟩
      rcases mem_all_qualify hc with ⟨-, hc⟩ | ⟨rfl, d, hd, text, rfl⟩
      · exact kinds c hc
      · have kind : (d.withHead (d.head.withText text)).kind = d.kind := kind_withText d.head text
        rw [kind]
        exact kinds d hd
  · -- A child is an old one, or an old name with another text.
    rcases mem_all_qualify (mem_all_iff.mpr hc) with ⟨-, hc⟩ | ⟨-, d, hd, text, same⟩
    · exact isWellTyped_of_mem_all typed hc
    · rw [same]
      exact isWellTyped_withText (isWellTyped_of_mem_all typed hd) text

/-- What holds throughout a function holds throughout the renamed one if it holds of the
    function itself and of every name. -/
theorem throughout_qualify {P : Node → Prop} (typed : n.isWellTyped = true) (function : n.kind = .function)
    (here : P (qualify moduleName separator n))
    (names : ∀ m : Node, m.isWellTyped = true → m.kind = .name → P m) (below : Throughout P n) :
    Throughout P (qualify moduleName separator n) := by
  refine throughout_iff.mpr ⟨here, fun c hc => ?_⟩
  rcases mem_all_qualify (mem_all_iff.mpr hc) with ⟨-, hc⟩ | ⟨-, d, hd, text, same⟩
  · exact below.all hc
  · have kind : d.kind = .name := kind_eq_name typed (.inl function) hd
    have typed' := isWellTyped_withText (isWellTyped_of_mem_all typed hd) text
    have kind' : (d.withHead (d.head.withText text)).kind = .name :=
      (kind_withText d.head text).trans kind
    rw [same]
    refine throughout_iff.mpr ⟨names _ typed' kind', fun e he => ?_⟩
    -- Nothing stands below a name.
    have admits := admits_of_mem typed' he
    rw [kind'] at admits
    have none : Kind.name.members.all (memberHolds fun _ _ => false) = true := rfl
    cases admits.holds (p := fun _ _ => false) none

theorem regular_name (typed : n.isWellTyped = true) (name : n.kind = .name) : Regular n where
  filled _ f c hc _ := by
    have admits := admits_of_mem typed (mem_all_iff.mp hc)
    rw [name] at admits
    have none : Kind.name.members.all (memberHolds fun _ _ => false) = true := rfl
    cases admits.holds (p := fun _ _ => false) none
  shapely := by
    obtain ⟨text, head⟩ := isHeadOf_kind name
    rw [IsShapely, head]
    exact trivial

theorem regular_qualify (typed : n.isWellTyped = true) (function : n.kind = .function)
    (regular : Regular n) : Regular (qualify moduleName separator n) where
  filled other f c hc list := by
    rcases mem_all_qualify hc with ⟨-, hc⟩ | ⟨-, d, hd, text, rfl⟩
    · exact regular.filled other f c hc list
    · have kind := kind_eq_name typed (.inl function) hd
      have same : (d.withHead (d.head.withText text)).kind = d.kind := kind_withText d.head text
      rw [same, kind] at list
      -- The renamed child is a name and not a list.
      cases list
  shapely := by
    have shapely := regular.shapely
    -- What a function is made of is asked of its body, which is not renamed.
    obtain ⟨hd, l, cs⟩ := n
    cases hd with
    | function async =>
      intro c hc
      rw [all_qualify (by decide)] at hc
      exact shapely c hc
    | _ => cases function

theorem spelled_qualify (function : n.kind = .function)
    (names : ∀ m ∈ (qualify moduleName separator n).all .name,
      isFunctionNameText (charactersOf m) = true) :
    Spelled (qualify moduleName separator n) := by
  have kind : (qualify moduleName separator n).kind = .function := function
  refine ⟨?_, ?_, ?_, ?_, fun _ m hm => ?_, ?_⟩
  -- Of a function only the name has to be spelled right.
  case refine_5 => exact ⟨['('], functionNameLength?_paren (names m hm) []⟩
  case refine_3 =>
    intro op number head
    have other : (qualify moduleName separator n).kind = .redirect := congrArg Head.kind head
    rw [kind] at other
    cases other
  all_goals
    rw [kind]
    exact nofun

end

/-! ### What imports supply -/

/-- Does the node have the form that its text needs, wherever it stands? -/
def isPrintable (n : Node) : Bool :=
  isSingle n && isComplete n && isOccupied n && isForward n

namespace Importer

variable (i : Importer) (d : Disk)

/-- What an import brings in are functions of a script that was read, renamed. -/
theorem exists_of_mem_brought {n g : Node} (brings : i.Brings d n (i.brought d n))
    (mem : g ∈ i.brought d n) :
    ∃ (f : Node) (moduleName : String), g = qualify moduleName i.settings.separator f ∧
      f.kind = .function ∧ Sound f ∧ Throughout Spelled f := by
  obtain ⟨-, path, -, code, script, -, -, -, -, parsed, same⟩ := brings
  rw [same] at mem
  obtain ⟨f, hf, rfl⟩ := List.mem_map.mp mem
  obtain ⟨command, function⟩ := List.mem_filter.mp hf
  exact ⟨f, _, rfl, eq_of_beq function, (sound_parse parsed).2.all command,
    (spelled_parse parsed).all command⟩

/-- Every function that an import of the script brings in gets a name that a function can
    have. -/
def NamesFit (script : Node) : Prop :=
  ∀ f n, script.Site f n → n.isImport = true → ∀ g ∈ i.brought d n, ∀ m ∈ g.all .name,
    isFunctionNameText (charactersOf m) = true

variable {i d} {script : Node}

instance : Decidable (i.NamesFit d script) :=
  inferInstanceAs (Decidable (∀ f n, script.Site f n → n.isImport = true →
    ∀ g ∈ i.brought d n, ∀ m ∈ g.all .name, isFunctionNameText (charactersOf m) = true))

theorem supplies_of_resolvable
    (resolvable : ∀ f n, script.Site f n → n.isImport = true → i.Resolvable d f n)
    (typed : script.isWellTyped = true) : Supplies (i.brought d) script where
  kind f n site isImport g hg := by
    obtain ⟨brings, -⟩ := (i.resolvable_iff d).mp (resolvable f n site isImport)
    obtain ⟨m, _, rfl, function, -⟩ := i.exists_of_mem_brought d brings hg
    exact function
  typed f n site isImport g hg := by
    obtain ⟨brings, -⟩ := (i.resolvable_iff d).mp (resolvable f n site isImport)
    obtain ⟨m, _, rfl, -, sound, -⟩ := i.exists_of_mem_brought d brings hg
    exact isWellTyped_qualify sound.typed
  operand f n site isImport single := by
    obtain ⟨-, one⟩ := (i.resolvable_iff d).mp (resolvable f n site isImport)
    -- In a field of single statements exactly one function has to come.
    apply one
    obtain ⟨k, admits⟩ := exists_admits_of_site typed site
    rw [kind_of_isImport isImport] at admits
    simpa [isStatementField, single] using isStatementField_of_admits admits

/-- With its imports inlined a script is well-typed and can be read from its text. -/
theorem sayable_inline (sound : Sound script) (spelled : Throughout Spelled script)
    (resolvable : ∀ f n, script.Site f n → n.isImport = true → i.Resolvable d f n)
    (named : i.NamesFit d script)
    (printable : (script.inline (i.brought d)).everywhere isPrintable = true) :
    (script.inline (i.brought d)).isWellTyped = true ∧
      Throughout Sayable (script.inline (i.brought d)) := by
  have supplies := supplies_of_resolvable resolvable sound.typed
  have typed := isWellTyped_inline sound.typed supplies
  have own := throughout_iff_forall.mp (throughout_isWellTyped sound.typed)
  have regular := throughout_iff_forall.mp sound.regular
  have brought {f : Field} {n g : Node} (site : script.Site f n) (isImport : n.isImport = true)
      (hg : g ∈ i.brought d n) :=
    i.exists_of_mem_brought d ((i.resolvable_iff d).mp (resolvable f n site isImport)).1 hg
  have printable : Throughout (fun n => isSingle n = true ∧ isComplete n = true ∧ isOccupied n = true ∧
      isForward n = true) (script.inline (i.brought d)) :=
    (throughout_of_everywhere printable).mono fun n h => by
      simpa [isPrintable, and_assoc] using h
  -- Each node is left of the script or came with a function; the two are taken apart.
  have shaped : Throughout Shaped (script.inline (i.brought d)) := by
    refine throughout_inline (fun n holds left => ?_) fun f n site isImport g hg => ?_
    · obtain ⟨-, -, occupied, forward⟩ := throughout_iff_forall.mp printable _ left
      refine shaped_inline (own n holds) (regular n holds) (fun f c hc isImport g hg => ?_) occupied forward
      obtain ⟨f', site⟩ : ∃ f', script.Site f' c := by
        rcases holds with rfl | ⟨f', site⟩
        · exact ⟨f, .child (mem_all_iff.mp hc)⟩
        · exact ⟨f, site.trans (.child (mem_all_iff.mp hc))⟩
      exact supplies.kind f' c site isImport g hg
    · obtain ⟨m, moduleName, rfl, function, sound, -⟩ := brought site isImport hg
      -- A function keeps its shape when it gets its new name.
      have whole : Throughout Regular (qualify moduleName i.settings.separator m) :=
        throughout_qualify sound.typed function (regular_qualify sound.typed function sound.regular.here)
          (fun _ => regular_name) sound.regular
      exact ((throughout_isWellTyped (isWellTyped_qualify sound.typed)).and whole).mono
        fun n h => h.2.shaped h.1
  have spelled : Throughout Spelled (script.inline (i.brought d)) := by
    refine throughout_inline (fun n holds _ => ?_) fun f n site isImport g hg => ?_
    · exact spelled_inline (own n holds) (throughout_iff_forall.mp spelled n holds)
    · have names := named f n site isImport g hg
      obtain ⟨m, _, rfl, function, sound, spelled⟩ := brought site isImport hg
      refine throughout_qualify sound.typed function (spelled_qualify function names) ?_ spelled
      intro c _ name
      exact spelled_of_kind (by rw [name]; decide)
  refine ⟨typed, ?_⟩
  have complete : Throughout (fun n => isComplete n = true) (script.inline (i.brought d)) :=
    printable.mono fun n h => h.2.1
  have facts := (throughout_isWellTyped typed).and (shaped.and (spelled.throughout.and
    (printable.and complete.throughout)))
  exact facts.mono fun n ⟨typed, shaped, spelled, printable, complete⟩ =>
    sayable_of_spelled typed shaped printable.1 spelled complete

end Importer

/-! ### Building -/

/-- A run that is decided and succeeds meets its condition and has the result. -/
theorem Run.Decides.of_run {σ α : Type} {x : Run σ α} {P : Prop} {a b : α} {s s' : σ}
    (decides : x.Decides P a) (run : x.run.run s = (.ok b, s')) : P ∧ b = a := by
  by_cases holds : P
  · obtain ⟨s₁, yields⟩ := decides.1 holds s
    rw [run] at yields
    cases yields
    exact ⟨holds, rfl⟩
  · obtain ⟨e, fails⟩ := decides.2 holds
    obtain ⟨s₁, yields⟩ := fails s
    rw [run] at yields
    cases yields

namespace Target

/-- The importer of the build. -/
def importer (t : Target) : Importer :=
  ⟨t.file, t.settings⟩

variable {t : Target} {d : Disk} {log log' : Log} {text : String}

/-- A build that succeeds prints the script with its imports inlined, each of which could be
    resolved. -/
theorem exists_of_compile (compiled : (t.compile d).run.run log = (.ok text, log')) :
    ∃ source script, t.text d = .ok source ∧ parse source { file := t.file } = .ok script ∧
      (∀ f n, script.Site f n → n.isImport = true → t.importer.Resolvable d f n) ∧
      (script.inline (t.importer.brought d)).source none = .ok text := by
  obtain ⟨script, log₁, read, compiled⟩ := Run.exists_of_run_bind compiled
  -- The notes in between say nothing about the result.
  obtain ⟨source, log₂, given, read⟩ := Run.exists_of_run_bind read
  obtain ⟨-, log₃, -, read⟩ := Run.exists_of_run_bind read
  obtain ⟨script', log₄, parsed, read⟩ := Run.exists_of_run_bind read
  obtain ⟨-, log₅, -, read⟩ := Run.exists_of_run_bind read
  rw [Run.run_lift] at given parsed
  obtain rfl : script' = script := by cases read; rfl
  have parsed : parse source { file := t.file } = .ok script' := congrArg Prod.fst parsed
  obtain ⟨resolved, log₆, resolve, compiled⟩ := Run.exists_of_run_bind compiled
  obtain ⟨result, log₇, traversed, resolve⟩ := Run.exists_of_run_bind resolve
  obtain ⟨kind, sound⟩ := sound_parse parsed
  -- A traversal that succeeds gives the inlined script and no other.
  obtain ⟨resolvable, rfl⟩ := (t.importer.traverse_decides d kind sound.typed).of_run traversed
  obtain ⟨-, log₈, -, resolve⟩ := Run.exists_of_run_bind resolve
  obtain rfl : script'.inline (t.importer.brought d) = resolved := by cases resolve; rfl
  obtain ⟨-, log₉, -, printed⟩ := Run.exists_of_run_bind compiled
  rw [Run.run_lift] at printed
  exact ⟨source, script', congrArg Prod.fst given, parsed, resolvable, congrArg Prod.fst printed⟩

/-- What a build that succeeds prints is accepted, if the functions that imports bring in
    get names that functions can have and every node of the script with its imports inlined
    has the form that its text needs. -/
theorem parse_compile (compiled : (t.compile d).run.run log = (.ok text, log')) :
    ∃ source script, t.text d = .ok source ∧ parse source { file := t.file } = .ok script ∧
      (t.importer.NamesFit d script →
        (script.inline (t.importer.brought d)).everywhere isPrintable = true →
        FewDigitsCut text.toList → ∃ n, parse text.toList {} = .ok n ∧ n.kind = .script) := by
  obtain ⟨source, script, given, parsed, resolvable, printed⟩ := exists_of_compile compiled
  refine ⟨source, script, given, parsed, fun named printable few => ?_⟩
  obtain ⟨kind, sound⟩ := sound_parse parsed
  obtain ⟨typed, sayable⟩ :=
    Importer.sayable_inline sound (spelled_parse parsed) resolvable named printable
  obtain ⟨text', printed', accepted⟩ := exists_parse_source (kind_inline.trans kind) typed sayable
  obtain rfl : text = text' := by
    rw [printed] at printed'
    cases printed'
    rfl
  obtain ⟨n, reread⟩ := accepted few
  exact ⟨n, reread, (sound_parse reread).1⟩

/-- A conditional and a pipeline that import a function with another one inside. -/
theorem parse_compile_import :
    let disk := (Disk.blank "/work".toList "/home".toList).makeFile ["work".toList, "lib.sh".toList]
      (Text.encode "f() { g() { b; }; }\n")
    let target : Target := ⟨none, some "if a; then import 'lib'; fi; import 'lib' | c".toList, {}⟩
    ∃ text log n, (target.compile disk).run.run [] = (.ok text, log) ∧
      parse text.toList {} = .ok n ∧ n.kind = .script := by
  intro disk target
  have checked : ((parse "if a; then import 'lib'; fi; import 'lib' | c".toList {}).toOption.any
        (fun script => decide (target.importer.NamesFit disk script) &&
          (script.inline (target.importer.brought disk)).everywhere isPrintable) &&
      ((target.compile disk).run.run []).1.toOption.any
        (fun text => decide (text.toList.length ≤ digitLimit))) = true := by
    decide +kernel
  obtain ⟨suited, built⟩ := Bool.and_eq_true_iff.mp checked
  obtain ⟨text, log, compiled, short⟩ := Run.exists_run_of_toOption_any built
  obtain ⟨tree, read, suited⟩ := Run.exists_of_toOption_any suited
  obtain ⟨named, printable⟩ := Bool.and_eq_true_iff.mp suited
  obtain ⟨source, script, given, parsed, accepted⟩ := parse_compile compiled
  have same : "if a; then import 'lib'; fi; import 'lib' | c".toList = source := Except.ok.inj given
  rw [← same] at parsed
  have whole : tree = script := Except.ok.inj (read.symm.trans parsed)
  rw [whole] at named printable
  obtain ⟨n, reread, kind⟩ := accepted (of_decide_eq_true named) printable
    (fewDigitsCut_of_length_le (of_decide_eq_true short))
  exact ⟨text, log, n, compiled, reread, kind⟩

/-- Two statements come to stand on one line, a list is left without statements, and a function
    that runs in the background comes to stand in a pipeline. -/
theorem not_parse_compile :
    let disk := ((Disk.blank "/work".toList "/home".toList).makeFile
      ["work".toList, "none.sh".toList] (Text.encode "a\n")).makeFile
      ["work".toList, "back.sh".toList] (Text.encode "f() { a; } &\n")
    ∀ source ∈ ["if (a); b; then c; fi", "while import 'none'; do c; done", "import 'back' | c"],
      let target : Target := ⟨none, some source.toList, {}⟩
      ∃ script text log, parse source.toList {} = .ok script ∧
        target.importer.NamesFit disk script ∧
        (target.compile disk).run.run [] = (.ok text, log) ∧ ∀ n, parse text.toList {} ≠ .ok n := by
  intro disk source mem target
  have checked : ((parse source.toList {}).toOption.any
        (fun script => decide (target.importer.NamesFit disk script)) &&
      ((target.compile disk).run.run []).1.toOption.any
        (fun text => (parse text.toList {}).toOption.isNone)) = true := by
    revert source
    decide +kernel
  obtain ⟨suited, built⟩ := Bool.and_eq_true_iff.mp checked
  obtain ⟨script, parsed, named⟩ := Run.exists_of_toOption_any suited
  obtain ⟨text, log, compiled, rejected⟩ := Run.exists_run_of_toOption_any built
  refine ⟨script, text, log, parsed, of_decide_eq_true named, compiled, fun n accepted => ?_⟩
  rw [accepted] at rejected
  cases rejected

end Target

end ShellInliner
