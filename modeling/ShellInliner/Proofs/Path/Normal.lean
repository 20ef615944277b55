import ShellInliner.Path

/-! # Normal paths

    A normal absolute path is one slash or two, and then names with a slash between
    each two.  Normalising brings every absolute path into this form and leaves
    normal paths as they are.  A text without slashes behind a path goes to the last
    component, and where that is a name it is still there, with the text behind it,
    after the path has been normalised. -/

namespace ShellInliner.Path

/-! ### Components -/

theorem components_ne_nil (p : List Char) : components p ≠ [] := by
  cases p with
  | nil => exact List.cons_ne_nil _ _
  | cons c cs =>
    rw [components]
    split
    · exact List.cons_ne_nil _ _
    · split <;> exact List.cons_ne_nil _ _

theorem components_slash (p : List Char) : components ('/' :: p) = [] :: components p := rfl

theorem components_of_ne {c : Char} (other : c ≠ '/') {p l : List Char} {ls : List (List Char)}
    (rest : components p = l :: ls) : components (c :: p) = (c :: l) :: ls := by
  rw [components, if_neg (by simpa using other), rest]

/-- No component holds a slash. -/
theorem slash_notMem_of_mem_components {p c : List Char} (mem : c ∈ components p) : '/' ∉ c := by
  induction p generalizing c with
  | nil =>
    obtain rfl := List.mem_singleton.mp mem
    exact List.not_mem_nil
  | cons d p ih =>
    by_cases slash : d = '/'
    · subst slash
      rcases List.mem_cons.mp mem with rfl | later
      · exact List.not_mem_nil
      · exact ih later
    · -- A character that is no slash joins the component that comes first.
      obtain ⟨l, ls, rest⟩ := List.exists_cons_of_ne_nil (components_ne_nil p)
      rw [components_of_ne slash rest] at mem
      rw [rest] at ih
      rcases List.mem_cons.mp mem with rfl | later
      · have first := ih (List.mem_cons_self ..)
        exact List.not_mem_cons_of_ne_of_not_mem (Ne.symm slash) first
      · exact ih (List.mem_cons_of_mem _ later)

/-- A slash ends a component and begins the next. -/
theorem components_append_slash (p q : List Char) :
    components (p ++ '/' :: q) = components p ++ components q := by
  induction p with
  | nil => rfl
  | cons c p ih =>
    by_cases slash : c = '/'
    · subst slash
      rw [List.cons_append, components_slash, components_slash, ih, List.cons_append]
    · obtain ⟨l, ls, rest⟩ := List.exists_cons_of_ne_nil (components_ne_nil p)
      rw [rest, List.cons_append] at ih
      rw [List.cons_append, components_of_ne slash ih, components_of_ne slash rest,
        List.cons_append]

theorem components_of_notMem {p : List Char} (flat : '/' ∉ p) : components p = [p] := by
  induction p with
  | nil => rfl
  | cons c p ih =>
    obtain ⟨other, later⟩ := List.ne_and_not_mem_of_not_mem_cons flat
    exact components_of_ne other.symm (ih later)

/-- Components that are put together are taken apart again. -/
theorem components_joinComponents {cs : List (List Char)} (some : cs ≠ [])
    (flat : ∀ c ∈ cs, '/' ∉ c) : components (joinComponents cs) = cs := by
  induction cs with
  | nil => exact absurd rfl some
  | cons c cs ih =>
    have here := components_of_notMem (flat c (List.mem_cons_self ..))
    cases cs with
    | nil => exact here
    | cons d cs =>
      have later := ih (List.cons_ne_nil _ _) fun e mem => flat e (List.mem_cons_of_mem _ mem)
      show components (c ++ '/' :: joinComponents (d :: cs)) = _
      rw [components_append_slash, here, later, List.singleton_append]

/-- A text without slashes behind a path goes to its last component. -/
theorem components_append {text : List Char} (flat : '/' ∉ text) (p : List Char) :
    ∃ before last, components p = before ++ [last] ∧
      components (p ++ text) = before ++ [last ++ text] := by
  induction p with
  | nil => exact ⟨[], [], rfl, components_of_notMem flat⟩
  | cons c p ih =>
    obtain ⟨before, last, split, longer⟩ := ih
    by_cases slash : c = '/'
    · subst slash
      refine ⟨[] :: before, last, ?_, ?_⟩
      · rw [components_slash, split, List.cons_append]
      · rw [List.cons_append, components_slash, longer, List.cons_append]
    · -- The character goes to the first component, which may be the last one as well.
      cases before with
      | nil => exact ⟨[], c :: last, components_of_ne slash split, components_of_ne slash longer⟩
      | cons b before =>
        exact ⟨(c :: b) :: before, last, components_of_ne slash split,
          components_of_ne slash longer⟩

/-! ### Names -/

/-- A component that names something in a directory: it leads neither nowhere nor up. -/
structure IsName (c : List Char) : Prop where
  /-- It is not empty, -/
  ne_nil : c ≠ []
  /-- not the directory itself, -/
  ne_dot : c ≠ ['.']
  /-- and not the directory above. -/
  ne_dots : c ≠ ['.', '.']

/-- A component says to stay, to go up, or it is a name. -/
theorem stays_or_up_or_isName (c : List Char) :
    (c = [] ∨ c = ['.']) ∨ c = ['.', '.'] ∨ IsName c := by
  by_cases stays : c = [] ∨ c = ['.']
  · exact .inl stays
  · by_cases up : c = ['.', '.']
    · exact .inr (.inl up)
    · exact .inr (.inr ⟨fun empty => stays (.inl empty), fun dot => stays (.inr dot), up⟩)

/-- A name is put on top of the stack. -/
theorem pushComponent_of_isName {c : List Char} (name : IsName c) (rooted : Bool)
    (stack : List (List Char)) : pushComponent rooted stack c = c :: stack := by
  have moves : ¬ (c = [] ∨ c = ['.']) := not_or.mpr ⟨name.ne_nil, name.ne_dot⟩
  rw [pushComponent.eq_def, if_neg moves, if_neg name.ne_dots]

theorem foldl_pushComponent_of_isName {cs : List (List Char)} (names : ∀ c ∈ cs, IsName c)
    (rooted : Bool) (stack : List (List Char)) :
    cs.foldl (pushComponent rooted) stack = cs.reverse ++ stack := by
  induction cs generalizing stack with
  | nil => rfl
  | cons c cs ih =>
    have here := pushComponent_of_isName (names c (List.mem_cons_self ..)) rooted stack
    rw [List.foldl_cons, here, ih fun d mem => names d (List.mem_cons_of_mem _ mem)]
    simp

/-- Below the root the stack holds names only, and the step adds at most its component. -/
theorem isName_of_mem_pushComponent {stack : List (List Char)} (names : ∀ c ∈ stack, IsName c)
    (c : List Char) : ∀ d ∈ pushComponent true stack c, IsName d ∧ (d = c ∨ d ∈ stack) := by
  intro d mem
  rcases stays_or_up_or_isName c with stays | rfl | name
  · rw [pushComponent.eq_def, if_pos stays] at mem
    exact ⟨names d mem, .inr mem⟩
  · cases stack with
    | nil => cases mem
    | cons top below =>
      -- The top is a name, so it is taken away.
      have top_ne := (names top (List.mem_cons_self ..)).ne_dots
      have left : d ∈ below := by simpa [pushComponent, top_ne] using mem
      have before := List.mem_cons_of_mem top left
      exact ⟨names d before, .inr before⟩
  · rw [pushComponent_of_isName name] at mem
    rcases List.mem_cons.mp mem with rfl | before
    · exact ⟨name, .inl rfl⟩
    · exact ⟨names d before, .inr before⟩

/-- What is left of the components of an absolute path are names among them. -/
theorem isName_of_mem_foldl {cs stack : List (List Char)} (names : ∀ c ∈ stack, IsName c) :
    ∀ d ∈ cs.foldl (pushComponent true) stack, IsName d ∧ (d ∈ cs ∨ d ∈ stack) := by
  induction cs generalizing stack with
  | nil => exact fun d mem => ⟨names d mem, .inr mem⟩
  | cons c cs ih =>
    intro d mem
    have step := isName_of_mem_pushComponent names c
    obtain ⟨name, among⟩ := ih (fun e he => (step e he).1) d mem
    refine ⟨name, ?_⟩
    -- What is on the stack after a step was pushed by it or was there before.
    rcases among with later | pushed
    · exact .inl (List.mem_cons_of_mem _ later)
    · rcases (step d pushed).2 with rfl | before
      · exact .inl (List.mem_cons_self ..)
      · exact .inr before

/-! ### Slashes at the start -/

theorem rootSlashes_of_relative {p : List Char} (relative : p.head? ≠ some '/') :
    rootSlashes p = [] := by
  refine rootSlashes.eq_4 p (fun _ eq => ?_) (fun _ eq => ?_) (fun _ eq => ?_) <;>
    exact relative (by rw [eq]; rfl)

theorem rootSlashes_single {p : List Char} (other : p.head? ≠ some '/') :
    rootSlashes ('/' :: p) = ['/'] := by
  refine rootSlashes.eq_3 p (fun _ eq => ?_) (fun _ eq => ?_) <;> exact other (by rw [eq]; rfl)

theorem rootSlashes_double {p : List Char} (other : p.head? ≠ some '/') :
    rootSlashes ('/' :: '/' :: p) = ['/', '/'] := by
  refine rootSlashes.eq_2 p (fun _ eq => ?_)
  exact other (by rw [eq]; rfl)

/-- An absolute path starts with one slash or two when it is normal. -/
theorem rootSlashes_of_absolute {p : List Char} (absolute : isAbsolute p = true) :
    rootSlashes p = ['/'] ∨ rootSlashes p = ['/', '/'] := by
  fun_cases rootSlashes p with
  | case1 => exact .inl rfl
  | case2 => exact .inr rfl
  | case3 => exact .inl rfl
  | case4 _ _ _ relative =>
    cases p with
    | nil => cases absolute
    | cons c p =>
      have slash : c = '/' := by simpa [isAbsolute] using absolute
      exact absurd (by rw [slash]) (relative p)

theorem ne_head_of_notMem {text : List Char} (flat : '/' ∉ text) : text.head? ≠ some '/' :=
  fun slash => flat (List.mem_of_mem_head? slash)

/-- What stands behind a path leaves the slashes at its start alone, unless it begins
    with a slash itself. -/
theorem rootSlashes_append {text : List Char} (other : text.head? ≠ some '/') (p : List Char) :
    rootSlashes (p ++ text) = rootSlashes p := by
  -- The first character that is no slash stays what it is, also where the path ends.
  have longer {q : List Char} (hq : q.head? ≠ some '/') : (q ++ text).head? ≠ some '/' := by
    cases q with
    | nil => exact other
    | cons c q => exact hq
  by_cases absolute : p.head? = some '/'
  · obtain ⟨p, rfl⟩ := List.head?_eq_some_iff.mp absolute
    by_cases second : p.head? = some '/'
    · obtain ⟨p, rfl⟩ := List.head?_eq_some_iff.mp second
      by_cases third : p.head? = some '/'
      · obtain ⟨p, rfl⟩ := List.head?_eq_some_iff.mp third
        rfl
      · exact (rootSlashes_double (longer third)).trans (rootSlashes_double third).symm
    · exact (rootSlashes_single (longer second)).trans (rootSlashes_single second).symm
  · exact (rootSlashes_of_relative (longer absolute)).trans (rootSlashes_of_relative absolute).symm

/-! ### Normal paths -/

/-- A normal absolute path. -/
structure Normal (p : List Char) : Prop where
  /-- After the slashes at its start there are names, with a slash between each two. -/
  form : ∃ names, (∀ c ∈ names, IsName c ∧ '/' ∉ c) ∧ p = rootSlashes p ++ joinComponents names
  /-- It starts at the root. -/
  absolute : isAbsolute p = true

/-- Names that are put together do not begin with a slash. -/
theorem head?_joinComponents {names : List (List Char)} (flat : ∀ c ∈ names, IsName c ∧ '/' ∉ c) :
    (joinComponents names).head? ≠ some '/' := by
  cases names with
  | nil => exact Option.some_ne_none _ ∘ Eq.symm
  | cons c cs =>
    obtain ⟨name, noSlash⟩ := flat c (List.mem_cons_self ..)
    obtain ⟨d, c, rfl⟩ := List.exists_cons_of_ne_nil name.ne_nil
    have head := ne_head_of_notMem noSlash
    cases cs with
    | nil => exact head
    | cons e cs => exact head

/-- The slashes at the start of a path give empty components only. -/
theorem components_rootSlashes (p q : List Char) :
    ∃ k, components (rootSlashes p ++ q) = List.replicate k [] ++ components q := by
  fun_cases rootSlashes p with
  | case1 => exact ⟨1, rfl⟩
  | case2 => exact ⟨2, rfl⟩
  | case3 => exact ⟨1, rfl⟩
  | case4 => exact ⟨0, rfl⟩

theorem foldl_pushComponent_nils (rooted : Bool) (stack : List (List Char)) (k : Nat) :
    (List.replicate k []).foldl (pushComponent rooted) stack = stack := by
  induction k with
  | zero => rfl
  | succ k ih => exact ih

theorem foldl_components_joinComponents {names : List (List Char)}
    (flat : ∀ c ∈ names, IsName c ∧ '/' ∉ c) (rooted : Bool) :
    (components (joinComponents names)).foldl (pushComponent rooted) [] = names.reverse := by
  cases names with
  | nil => rfl
  | cons c cs =>
    rw [components_joinComponents (List.cons_ne_nil _ _) fun d mem => (flat d mem).2,
      foldl_pushComponent_of_isName fun d mem => (flat d mem).1, List.append_nil]

/-- A normal path is its own normal form. -/
theorem Normal.normalize_eq {p : List Char} (normal : Normal p) : normalize p = p := by
  obtain ⟨names, flat, eq⟩ := normal.form
  obtain ⟨k, split⟩ := components_rootSlashes p (joinComponents names)
  have stack : (components p).foldl (pushComponent !(rootSlashes p).isEmpty) [] =
      names.reverse := by
    rw [eq, split, List.foldl_append, foldl_pushComponent_nils,
      foldl_components_joinComponents flat]
  have some : p ≠ [] := by
    rintro rfl
    cases normal.absolute
  simp only [normalize, stack, List.reverse_reverse, ← eq]
  rw [if_neg (by simpa using some)]

theorem rootSlashes_idem (p : List Char) : rootSlashes (rootSlashes p) = rootSlashes p := by
  fun_cases rootSlashes p <;> rfl

/-- The slashes at the start of an absolute path and names behind them are a normal
    path. -/
theorem normal_of_names {p : List Char} (absolute : isAbsolute p = true)
    {names : List (List Char)} (flat : ∀ c ∈ names, IsName c ∧ '/' ∉ c) :
    Normal (rootSlashes p ++ joinComponents names) := by
  have slashes : rootSlashes (rootSlashes p ++ joinComponents names) = rootSlashes p := by
    rw [rootSlashes_append (head?_joinComponents flat), rootSlashes_idem]
  refine ⟨⟨names, flat, by rw [slashes]⟩, ?_⟩
  rcases rootSlashes_of_absolute absolute with one | two
  · rw [one]
    rfl
  · rw [two]
    rfl

/-- The names that are left of an absolute path. -/
def namesOf (p : List Char) : List (List Char) :=
  ((components p).foldl (pushComponent true) []).reverse

theorem flat_of_mem_namesOf (p : List Char) : ∀ c ∈ namesOf p, IsName c ∧ '/' ∉ c := by
  intro c mem
  obtain ⟨name, among⟩ := isName_of_mem_foldl (by simp) c (List.mem_reverse.mp mem)
  have mem := among.resolve_right List.not_mem_nil
  exact ⟨name, slash_notMem_of_mem_components mem⟩

theorem normalize_of_absolute {p : List Char} (absolute : isAbsolute p = true) :
    normalize p = rootSlashes p ++ joinComponents (namesOf p) := by
  rcases rootSlashes_of_absolute absolute with one | two
  · simp [normalize, namesOf, one]
  · simp [normalize, namesOf, two]

/-- Normalising an absolute path makes it normal. -/
theorem normal_normalize {p : List Char} (absolute : isAbsolute p = true) :
    Normal (normalize p) := by
  rw [normalize_of_absolute absolute]
  exact normal_of_names absolute (flat_of_mem_namesOf p)

theorem isAbsolute_join {base p : List Char} (rooted : isAbsolute base = true) :
    isAbsolute (join base p) = true := by
  rw [join]
  split
  · assumption
  · cases base with
    | nil => cases rooted
    | cons c base =>
      split
      · exact rooted
      · exact rooted

/-- The absolute form of a path is normal. -/
theorem normal_absolute {cwd : List Char} (rooted : isAbsolute cwd = true) (p : List Char) :
    Normal (absolute cwd p) :=
  normal_normalize (isAbsolute_join rooted)

/-- A normal path is the same seen from everywhere. -/
theorem Normal.absolute_eq {p : List Char} (normal : Normal p) (cwd base : List Char) :
    Path.absolute cwd (join base p) = p := by
  have here (b : List Char) : join b p = p := by
    rw [join, if_pos normal.absolute]
  rw [Path.absolute, here, here, normal.normalize_eq]

/-! ### A text behind a path -/

/-- A name with a text behind it is a name. -/
theorem IsName.append {c : List Char} (name : IsName c) (text : List Char) : IsName (c ++ text) := by
  obtain ⟨d, c, rfl⟩ := List.exists_cons_of_ne_nil name.ne_nil
  refine ⟨List.cons_ne_nil _ _, ?_, ?_⟩
  · intro dot
    obtain ⟨rfl, empty⟩ := List.cons.inj dot
    obtain ⟨rfl, -⟩ := List.append_eq_nil_iff.mp empty
    exact name.ne_dot rfl
  · intro dots
    obtain ⟨rfl, single⟩ := List.cons.inj dots
    rcases List.append_eq_singleton_iff.mp single with ⟨rfl, -⟩ | ⟨rfl, -⟩
    · exact name.ne_dot rfl
    · exact name.ne_dots rfl

theorem joinComponents_append (cs : List (List Char)) (last text : List Char) :
    joinComponents (cs ++ [last ++ text]) = joinComponents (cs ++ [last]) ++ text := by
  induction cs with
  | nil => rfl
  | cons c cs ih =>
    cases cs with
    | nil => simp [joinComponents]
    | cons d cs =>
      show c ++ '/' :: joinComponents (d :: cs ++ [last ++ text]) =
        c ++ '/' :: joinComponents (d :: cs ++ [last]) ++ text
      rw [ih]
      simp

theorem joinComponents_ne_nil (cs : List (List Char)) {last : List Char} (some : last ≠ []) :
    joinComponents (cs ++ [last]) ≠ [] := by
  cases cs with
  | nil => exact some
  | cons c cs =>
    cases cs with
    | nil => simp [joinComponents]
    | cons d cs => simp [joinComponents]

/-- A text without slashes behind a path is still behind it when the path is normalised,
    if the last component is a name. -/
theorem normalize_append {p last text : List Char} (final : (components p).getLast? = some last)
    (name : IsName last) (flat : '/' ∉ text) : normalize (p ++ text) = normalize p ++ text := by
  obtain ⟨before, last', split, longer⟩ := components_append flat p
  obtain rfl : last' = last := by simpa [split] using final
  -- Both names are pushed on the stack that the components before them leave.
  have stack (rooted : Bool) (c : List Char) (hc : IsName c) :
      ((before ++ [c]).foldl (pushComponent rooted) []).reverse =
        (before.foldl (pushComponent rooted) []).reverse ++ [c] := by
    rw [List.foldl_append, List.foldl_cons, List.foldl_nil, pushComponent_of_isName hc,
      List.reverse_cons]
  have some := joinComponents_ne_nil
    (before.foldl (pushComponent !(rootSlashes p).isEmpty) []).reverse name.ne_nil
  simp only [normalize, rootSlashes_append (ne_head_of_notMem flat), split, longer,
    stack _ _ name, stack _ _ (name.append text), joinComponents_append]
  simp [some]

/-- A normal path with a text without slashes behind it is normal, unless the text turns
    the root into a path that stays there. -/
theorem Normal.append {p text : List Char} (normal : Normal p) (flat : '/' ∉ text) :
    Normal (p ++ text) ∨ p = rootSlashes p ∧ (text = ['.'] ∨ text = ['.', '.']) := by
  obtain ⟨names, named, eq⟩ := normal.form
  have absolute := normal.absolute
  rcases List.eq_nil_or_concat names with rfl | ⟨before, last, rfl⟩
  · -- There is nothing but slashes, so the text is a component of its own.
    have slashes : p = rootSlashes p := by simpa [joinComponents] using eq
    rcases stays_or_up_or_isName text with (rfl | rfl) | rfl | name
    · rw [List.append_nil]
      exact .inl normal
    · exact .inr ⟨slashes, .inl rfl⟩
    · exact .inr ⟨slashes, .inr rfl⟩
    · have single : ∀ c ∈ [text], IsName c ∧ '/' ∉ c := by
        intro c mem
        rw [List.mem_singleton.mp mem]
        exact ⟨name, flat⟩
      have longer := normal_of_names absolute single
      rw [← slashes] at longer
      exact .inl longer
  · obtain ⟨name, noSlash⟩ := named last (by simp)
    have longer : ∀ c ∈ before ++ [last ++ text], IsName c ∧ '/' ∉ c := by
      intro c mem
      rcases List.mem_append.mp mem with earlier | final
      · exact named c (by simp [earlier])
      · obtain rfl := List.mem_singleton.mp final
        exact ⟨name.append text, by simp [noSlash, flat]⟩
    have same : p ++ text = rootSlashes p ++ joinComponents (before ++ [last ++ text]) := by
      rw [joinComponents_append, ← List.append_assoc, ← List.concat_eq_append, ← eq]
    rw [same]
    exact .inl (normal_of_names absolute longer)

theorem join_append {text : List Char} (flat : '/' ∉ text) (base p : List Char) :
    join base (p ++ text) = join base p ++ text := by
  have same : isAbsolute (p ++ text) = isAbsolute p := by
    cases p with
    | nil => simpa [isAbsolute] using ne_head_of_notMem flat
    | cons c p => rfl
  simp only [join, same]
  split
  · rfl
  · split
    · rw [List.append_assoc]
    · rw [List.append_assoc, List.cons_append]

/-- A path seen from a directory is the path itself or stands after a slash. -/
theorem join_eq_or (base p : List Char) : join base p = p ∨ ∃ dir, join base p = dir ++ '/' :: p := by
  by_cases absolute : isAbsolute p = true
  · exact .inl (by rw [join, if_pos absolute])
  · rw [join, if_neg absolute]
    by_cases slash : base.getLast? = some '/'
    · obtain ⟨dir, rfl⟩ := List.getLast?_eq_some_iff.mp slash
      exact .inr ⟨dir, by simp⟩
    · cases base with
      | nil => exact .inl rfl
      | cons c base => exact .inr ⟨c :: base, by simp [slash]⟩

/-- The last component of a path is that of the path seen from a directory. -/
theorem getLast?_components_join (base p : List Char) :
    (components (join base p)).getLast? = (components p).getLast? := by
  rcases join_eq_or base p with same | ⟨dir, after⟩
  · rw [same]
  · rw [after, components_append_slash, List.getLast?_append,
      List.getLast?_eq_some_getLast (components_ne_nil p)]
    rfl

/-- The absolute form of a path with a text behind it. -/
theorem absolute_append {p last text : List Char} (final : (components p).getLast? = some last)
    (name : IsName last) (flat : '/' ∉ text) (cwd base : List Char) :
    absolute cwd (join base (p ++ text)) = absolute cwd (join base p) ++ text := by
  rw [absolute, absolute, join_append flat, join_append flat]
  refine normalize_append ?_ name flat
  rw [getLast?_components_join, getLast?_components_join, final]

end ShellInliner.Path
