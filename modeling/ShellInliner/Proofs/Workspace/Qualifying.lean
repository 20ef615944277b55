import ShellInliner.Proofs.Import.Preview
import ShellInliner.Proofs.Workspace.Edits
import ShellInliner.Proofs.Workspace.Installing

/-! # Renamed functions

    A function that is renamed to the module, the separator and its own name is a
    copy that has everything but the name in common with the function, which stays
    as it was.  The new name tells where the function comes from: a module holds no
    separator and no name of a function begins with a colon, so there is only one way
    to take the new name apart. -/

namespace ShellInliner

open Run (run_bind_ok)

/-! ### Taking names apart -/

/-- Where no module holds two colons and no name begins with one, the two colons that
    are put between them are found again. -/
theorem eq_of_append_colons {m₁ m₂ n₁ n₂ : List Char} (free₁ : ¬ [':', ':'] <:+: m₁)
    (free₂ : ¬ [':', ':'] <:+: m₂) (head₁ : n₁.head? ≠ some ':') (head₂ : n₂.head? ≠ some ':')
    (same : m₁ ++ ':' :: ':' :: n₁ = m₂ ++ ':' :: ':' :: n₂) : m₁ = m₂ ∧ n₁ = n₂ := by
  -- It is enough to look at a first module that is not longer than the second.
  have shorter {m n n' : List Char} (as : List Char) (free : ¬ [':', ':'] <:+: m ++ as)
      (head : n.head? ≠ some ':') (tail : ':' :: ':' :: n = as ++ ':' :: ':' :: n') :
      as = [] ∧ n = n' := by
    match as with
    | [] =>
      cases tail
      exact ⟨rfl, rfl⟩
    | [c] =>
      -- The longer module ends with a colon, and the other name begins with one.
      obtain ⟨-, rest⟩ := List.cons.inj tail
      obtain ⟨-, name⟩ := List.cons.inj rest
      exact absurd (by rw [name]; rfl) head
    | c :: d :: as =>
      -- The longer module holds both colons.
      obtain ⟨rfl, rest⟩ := List.cons.inj tail
      obtain ⟨rfl, -⟩ := List.cons.inj rest
      exact absurd ⟨m, as, by simp⟩ free
  rcases List.append_eq_append_iff.mp same with ⟨as, rfl, tail⟩ | ⟨as, rfl, tail⟩
  · obtain ⟨rfl, rfl⟩ := shorter as free₂ head₁ tail
    exact ⟨(List.append_nil _).symm, rfl⟩
  · obtain ⟨rfl, rfl⟩ := shorter as free₁ head₂ tail
    exact ⟨List.append_nil _, rfl⟩

/-- The name of a function does not begin with a colon. -/
theorem head?_ne_colon {name : List Char}
    (whole : Grammar.Terminal.functionName.length? name = some name.length) :
    name.head? ≠ some ':' := by
  cases name with
  | nil => exact Option.some_ne_none _ ∘ Eq.symm
  | cons c cs =>
    have start := Grammar.isIdentifierStart_of_functionName whole
    intro colon
    obtain rfl : c = ':' := by simpa using colon
    revert start
    decide

namespace Workspace

variable {w v : Workspace} {h g : Handle}

/-! ### What a renamed copy shares -/

/-- The second workspace is the first one with a copy of a function in it, and the copy
    has everything in common with the function but a name, which is new as well. -/
structure Renames (w : Workspace) (h : Handle) (name : String) (g : Handle) (v : Workspace) :
    Prop where
  /-- All nodes are as they were, -/
  kept : ∀ x < w.cells.size, v.cells[x]? = w.cells[x]?
  /-- all rows, -/
  rows : v.rows = w.rows
  /-- and all slots. -/
  slots : v.slots = w.slots
  /-- The copy is a new node. -/
  fresh : w.cells.size ≤ g
  /-- It differs from the function in the handle of its name and in that no source has
      been read yet, and the new name from the old one in its text. -/
  copy : ∃ c k d k', w.cells[h]? = some c ∧ child? c .name = some k ∧ w.cells[k]? = some d ∧
    w.cells.size ≤ k' ∧ v.cells[k']? = some { d with head := d.head.withText name } ∧
    v.cells[g]? = some
      { c with singles := c.singles.map fun s => if s.1 = .name then (s.1, some k') else s
               memo := none }

/-- Renaming makes two new nodes, the name and the function. -/
theorem run_qualifyCell {c d : Cell} {k : Handle} {text : String} (found : w.cells[h]? = some c)
    (child : child? c .name = some k) (name : w.cells[k]? = some d)
    (named : d.head.text? = some text) (moduleName separator : String) :
    ∃ v, (qualifyCell h moduleName separator).run.run w =
        (.ok (w.cells.size + 1, moduleName ++ separator ++ text), v) ∧
      w.Renames h (moduleName ++ separator ++ text) (w.cells.size + 1) v := by
  have first : (cell h).run.run w = (.ok c, w) := by rw [run_cell, found]
  have second : (cell k).run.run w = (.ok d, w) := by rw [run_cell, name]
  unfold qualifyCell
  rw [run_bind_ok first, child]
  simp only
  rw [run_bind_ok second, named]
  -- The name is made first, and the copy refers to it.
  let renamed : Cell := { d with head := d.head.withText (moduleName ++ separator ++ text) }
  let copy : Cell :=
    { c with
      singles := c.singles.map fun s => if s.1 = .name then (s.1, some w.cells.size) else s
      memo := none }
  have size : (w.cells.push renamed).size = w.cells.size + 1 := Array.size_push renamed
  refine ⟨{ w with cells := (w.cells.push renamed).push copy }, ?_, ?_⟩
  · rw [← size]
    rfl
  · refine ⟨fun x old => ?_, rfl, rfl, Nat.le_succ _, c, k, d, w.cells.size, found, child, name,
      Nat.le_refl _, ?_, ?_⟩
    · rw [Array.getElem?_push_lt (by omega), Array.getElem_push_lt old, Array.getElem?_eq_getElem old]
    · rw [Array.getElem?_push_lt (by omega), Array.getElem_push_eq]
    · rw [← size, Array.getElem?_push_size]

/-! ### The tree of a renamed copy -/

/-- The cell of a function that shows a tree: the first child is its name, and no other
    child is. -/
theorem exists_function_of_shows {f : Node} (shows : w.Shows IsAny none f h)
    (function : f.kind = .function) :
    ∃ c k b n cs, w.cells[h]? = some c ∧ w.Fits c ∧ c.head.kind = .function ∧
      c.singles = [(.name, some k), (.body, b)] ∧ f = .mk c.head c.loc ((.name, n) :: cs) ∧
      f.label? = n.text? ∧ (∀ e ∈ cs, e.1 ≠ .name) ∧ w.Shows IsAny (some .function) n k ∧
      w.ShowsAll IsAny .function cs
        (singleEntries [(.body, b)] ++ c.sequences.flatMap w.rowEntries) := by
  obtain ⟨c, found, fits, -, same, all⟩ := shows_iff.mp shows
  have kind : c.head.kind = .function := by
    rw [← function, same]
    rfl
  rw [kind] at all
  -- The single fields are those of the kind, and the name is required.
  obtain ⟨k, child, -⟩ := fits.exists_child (f := .name) (by rw [kind]; rfl)
  obtain ⟨b, singles⟩ : ∃ b, c.singles = [(.name, some k), (.body, b)] := by
    have fields : c.singles.map (·.1) = [.name, .body] := by
      rw [fits.singleFields, kind]
      rfl
    match hs : c.singles, fields with
    | [(_, x), (_, b)], rfl =>
      have name : x = some k := by simpa [child?, hs] using child
      exact ⟨b, by rw [name]⟩
  have split : w.entries c = (.name, k) ::
      (singleEntries [(.body, b)] ++ c.sequences.flatMap w.rowEntries) := by
    simp [entries, singles, singleEntries]
  rw [split] at all
  cases children : f.children with
  | nil =>
    rw [children] at all
    cases all
  | cons e cs =>
    rw [children] at all same
    obtain ⟨x, es, here, first, others⟩ := all
    obtain ⟨field, rfl⟩ := List.cons.inj here
    obtain ⟨n, rfl⟩ : ∃ n, e = (.name, n) := ⟨e.2, Prod.ext (congrArg Prod.fst field).symm rfl⟩
    cases field
    have label : f.label? = n.text? := by
      simp [Node.label?, function, Node.one?, Node.all, Node.within, children]
    refine ⟨c, k, b, n, cs, found, fits, kind, singles, same, label, ?_, first, others⟩
    rintro ⟨field, m⟩ mem rfl
    obtain ⟨x, mem, -⟩ := others.exists_handle mem
    rcases List.mem_append.mp mem with single | sequence
    · simpa using mem_singleEntries.mp single
    · obtain ⟨s, among, mem⟩ := List.mem_flatMap.mp sequence
      obtain ⟨_, -, pair⟩ := List.mem_map.mp mem
      have field : s.1 ∈ Kind.function.sequenceFields := by
        rw [← kind, ← fits.sequenceFields]
        exact List.mem_map_of_mem among
      have name : s.1 = .name := congrArg Prod.fst pair
      rw [name] at field
      exact absurd field (by decide)

/-- A function whose first child is its name, renamed. -/
theorem qualify_of_name {hd : Head} {l : Option Extent} {n : Node} {cs : List (Field × Node)}
    {text : String} (others : ∀ e ∈ cs, e.1 ≠ .name) (named : n.text? = some text)
    (moduleName separator : String) :
    qualify moduleName separator (.mk hd l ((.name, n) :: cs)) = .mk hd l ((.name,
      n.withHead (n.head.withText (moduleName ++ separator ++ text))) :: cs) := by
  have same : cs.map (fun c => if c.1 = .name then (c.1, c.2.withHead (c.2.head.withText
      (moduleName ++ separator ++ (c.2.text?.getD "")))) else c) = cs := by
    conv_rhs => rw [← List.map_id cs]
    exact List.map_congr_left fun c mem => if_neg (others c mem)
  show Node.mk hd l (List.map _ ((.name, n) :: cs)) = _
  rw [List.map_cons, same, if_pos rfl, named, Option.getD_some]

/-- The copy of a name with another text. -/
theorem shows_withText {parent : Option Kind} {n : Node} {k k' : Handle} {d : Cell} {text : String}
    (shows : v.Shows IsAny parent n k) (old : v.cells[k]? = some d)
    (new : v.cells[k']? = some { d with head := d.head.withText text }) :
    v.Shows IsAny parent (n.withHead (n.head.withText text)) k' := by
  obtain ⟨c, found, fits, -, same, all⟩ := shows_iff.mp shows
  obtain rfl : c = d := Option.some.inj (found.symm.trans old)
  have kind := kind_withText c.head text
  -- Its kind is what a cell is checked against, and that stays.
  have fits' : v.Fits { c with head := c.head.withText text } := by
    obtain ⟨place, singleFields, sequenceFields, vacant, single, row⟩ := fits
    constructor <;> simp only [kind] <;> assumption
  refine shows_iff.mpr ⟨_, new, fits', trivial, ?_, ?_⟩
  · rw [same]
    rfl
  · simp only [kind]
    exact all

theorem Renames.extends {name : String} (renames : w.Renames h name g v) : w.Extends v where
  cell x c found := by
    have old := (Array.getElem?_eq_some_iff.mp found).1
    exact .inl ((renames.kept x old).trans found)
  row r xs found := by rwa [renames.rows]

/-- The tree of the copy is the tree of the function under its new name. -/
theorem shows_of_renames {f : Node} {text moduleName separator : String}
    (shows : w.Shows IsAny none f h) (function : f.kind = .function) (named : f.label? = some text)
    (renames : w.Renames h (moduleName ++ separator ++ text) g v) :
    v.Shows IsAny none (qualify moduleName separator f) g := by
  obtain ⟨c, k, b, n, cs, found, fits, kind, singles, rfl, label, others, name, rest⟩ :=
    exists_function_of_shows shows function
  obtain ⟨c', k₀, d, k', found', child, oldName, -, newName, copy⟩ := renames.copy
  obtain rfl : c' = c := Option.some.inj (found'.symm.trans found)
  obtain rfl : k = k₀ := by simpa [child?, singles] using child
  have grown := renames.extends
  have own : n.text? = some text := label.symm.trans named
  -- The name is shown by the new cell, all other children by the cells that showed them.
  have oldName' := (renames.kept k (Array.getElem?_eq_some_iff.mp oldName).1).trans oldName
  have newShown := shows_withText (grown.shows_leaves name) oldName' newName
  have restShown := rest.mono fun _ _ shown => grown.shows_leaves shown
  rw [qualify_of_name others own]
  refine shows_iff.mpr ⟨_, copy, ?_, trivial, rfl, ?_⟩
  · have fits' := grown.fits fits c'.style
    have mapped : (c'.singles.map fun s => if s.1 = .name then (s.1, some k') else s) =
        [(.name, some k'), (.body, b)] := by
      simp [singles]
    refine ⟨fits'.place, ?_, fits'.sequenceFields, fun f mem => ?_, fun f x mem => ?_, fits'.row⟩
    · rw [mapped, ← fits.singleFields, singles]
      rfl
    · -- Only the body can be missing, and it is that of the function.
      obtain ⟨rfl, rfl⟩ : f = .body ∧ none = b := by simpa [mapped] using mem
      exact fits.vacant .body (by simp [singles])
    · have either : f = .name ∧ x = k' ∨ f = .body ∧ some x = b := by simpa [mapped] using mem
      rcases either with ⟨rfl, rfl⟩ | ⟨rfl, rfl⟩
      · obtain ⟨d₀, found₀, admits⟩ := fits.single .name k (by simp [singles])
        obtain rfl : d₀ = d := Option.some.inj (found₀.symm.trans oldName)
        exact ⟨_, newName, by rwa [kind_withText]⟩
      · exact fits'.single .body x (by simp [singles])
  · have split : v.entries { c' with
        singles := c'.singles.map fun s => if s.1 = .name then (s.1, some k') else s
        memo := none } = (.name, k') ::
          (singleEntries [(.body, b)] ++ c'.sequences.flatMap w.rowEntries) := by
      have rows : v.rowEntries = w.rowEntries := by
        funext s
        unfold rowEntries
        rw [renames.rows]
      simp [entries, singles, singleEntries, rows]
    rw [split]
    show v.ShowsAll IsAny c'.head.kind _ _
    rw [kind]
    exact ⟨k', _, rfl, newShown, restShown⟩

/-! ### Where a function comes from -/

/-- Every function can be renamed: the new name is the module, the separator and the
    name, the copy has everything else in common with the function, and the function is
    as it was.  With the separator that is used unless the settings say otherwise, two
    functions get the same name only if they have the same name and come from modules of
    the same name. -/
theorem qualifyCell_origin {f f' : Node} {name name' : String} (shows : w.Shows IsAny none f h)
    (function : f.kind = .function) (named : f.label? = some name)
    (function' : f'.kind = .function) (named' : f'.label? = some name') (module₁ module₂ : String) :
    (∀ separator, ∃ g v, (qualifyCell h module₁ separator).run.run w =
        (.ok (g, module₁ ++ separator ++ name), v) ∧
      w.Renames h (module₁ ++ separator ++ name) g v ∧
      v.tree? v.fuel g = some (qualify module₁ separator f) ∧ v.tree? v.fuel h = some f) ∧
    (Grammar.Terminal.functionName.length? name.toList = some name.toList.length →
      Grammar.Terminal.functionName.length? name'.toList = some name'.toList.length →
      ¬ [':', ':'] <:+: module₁.toList → ¬ [':', ':'] <:+: module₂.toList →
      (qualify module₁ ({} : Settings).separator f).label? =
        (qualify module₂ ({} : Settings).separator f').label? →
      module₁ = module₂ ∧ name = name') := by
  constructor
  · intro separator
    obtain ⟨c, k, b, n, cs, found, -, -, singles, -, label, -, first, -⟩ :=
      exists_function_of_shows shows function
    obtain ⟨d, found', -, -, same, -⟩ := shows_iff.mp first
    have own : d.head.text? = some name := by
      rw [same] at label
      exact label.symm.trans named
    obtain ⟨v, run, renames⟩ := run_qualifyCell found (by simp [child?, singles]) found' own
      module₁ separator
    have copied := shows_of_renames shows function named renames
    have kept := renames.extends.shows_leaves shows
    exact ⟨_, v, run, renames, copied.tree?_eq copied.isWithin, kept.tree?_eq kept.isWithin⟩
  · intro whole whole' free free' same
    rw [label?_qualify function named, label?_qualify function' named'] at same
    have texts : module₁.toList ++ ':' :: ':' :: name.toList =
        module₂.toList ++ ':' :: ':' :: name'.toList := by
      have lists := congrArg String.toList (Option.some.inj same)
      simp only [String.toList_append] at lists
      simpa using lists
    obtain ⟨modules, names⟩ := eq_of_append_colons free free' (head?_ne_colon whole)
      (head?_ne_colon whole') texts
    exact ⟨String.toList_inj.mp modules, String.toList_inj.mp names⟩

/-- The module ends with a colon and the name of the function holds two; had the function
    begun with a colon, it could have come from another module. -/
theorem qualifyCell_origin_colons :
    let w : Workspace :=
      { cells := #[⟨.name "go::home", none, [], [], none, some "go::home"⟩,
          ⟨.compoundList false, none, [], [(.commands, 0), (.redirections, 0)], none, none⟩,
          ⟨.function true, none, [(.name, some 0), (.body, some 1)], [(.redirections, 0)], none,
            none⟩]
        rows := #[[]] }
    let body : Node := .mk (.compoundList false) none []
    let function (name : String) : Node :=
      .mk (.function true) none [(.name, .mk (.name name) none []), (.body, body)]
    (∃ g v, (qualifyCell 2 "lib:" "::").run.run w = (.ok (g, "lib:::go::home"), v) ∧
      v.tree? v.fuel g = some (function "lib:::go::home") ∧
      v.tree? v.fuel 2 = some (function "go::home")) ∧
    ("lib:" = "lib:" ∧ "go::home" = "go::home") ∧ "lib:" ++ "::" ++ "go" = "lib" ++ "::" ++ ":go" := by
  intro w body function
  have acyclic : w.IsAcyclic := isAcyclic_of_older (by decide)
  have typed : w.IsWellTyped := by decide
  have tree : w.tree? w.fuel 2 = some (function "go::home") := rfl
  obtain ⟨f, shows⟩ := exists_shows (P := IsAny) (acyclic.isWithin 2)
    (fun x below => by
      obtain ⟨c, found, fits⟩ := exists_fits_of_below typed (by decide) below
      exact ⟨c, found, fits, fun _ => trivial⟩) none
  obtain rfl : function "go::home" = f :=
    Option.some.inj (tree.symm.trans (shows.tree?_eq shows.isWithin))
  have named : (function "go::home").label? = some "go::home" := rfl
  obtain ⟨renamed, origin⟩ := qualifyCell_origin shows rfl named rfl named "lib:" "lib:"
  obtain ⟨g, v, run, -, copy, kept⟩ := renamed "::"
  refine ⟨⟨g, v, run, copy, kept⟩, origin ?_ ?_ ?_ ?_ rfl, ?_⟩
  all_goals decide

end Workspace

end ShellInliner
