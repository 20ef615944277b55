import ShellInliner.Source.Layout

/-! # Laying out in two ways

    A layout only asks for the texts of the parts and puts them together.  So
    two layouts of the same head whose parts are related, answer by answer, are
    related themselves, as long as the relation goes through results and steps
    one after the other.  The parts may come from a workspace on one side and
    from a plain recursion on the other.

    The only error of a layout itself is that a part is missing which the kind
    requires; a layout that gets all its parts fails only where one of them
    does. -/

namespace ShellInliner.Source

/-- The results that are considered after an outcome. -/
abbrev Considered := {α : Type} → Except Error α → α → Prop

/-- A relation between computations and outcomes that goes through results and
    steps one after the other.  After a step the results that count are those that
    are considered. -/
structure Follows {m : Type → Type} [Monad m] (C : Considered)
    (R : {α : Type} → m α → Except Error α → Prop) : Prop where
  /-- A result. -/
  pure : ∀ {α : Type} (a : α), R (Pure.pure a) (.ok a)
  /-- One step after the other. -/
  bind : ∀ {α β : Type} {x : m α} {r : Except Error α} {f : α → m β} {g : α → Except Error β},
    R x r → (∀ a, C r a → R (f a) (g a)) → R (x >>= f) (r >>= g)

/-- The relation goes through a walk over a row. -/
theorem Follows.mapM {m : Type → Type} [Monad m] [LawfulMonad m] {C : Considered}
    {R : {α : Type} → m α → Except Error α → Prop} (follows : Follows C R) {α β : Type}
    {f : α → m β} {g : α → Except Error β} {xs : List α} (each : ∀ x ∈ xs, R (f x) (g x)) :
    R (xs.mapM f) (xs.mapM g) := by
  induction xs with
  | nil =>
    rw [List.mapM_nil, List.mapM_nil]
    exact follows.pure _
  | cons x xs ih =>
    have others := ih fun y mem => each y (List.mem_cons_of_mem _ mem)
    rw [List.mapM_cons, List.mapM_cons]
    refine follows.bind (each x (List.mem_cons_self ..)) fun y _ => ?_
    exact follows.bind others fun ys _ => follows.pure _

/-- The parts that a layout of a kind asks for are related, answer by answer, and
    so are the errors that tell of missing parts, should any be missing. -/
structure Related {m : Type → Type} [MonadExcept Error m] (C : Considered)
    (R : {α : Type} → m α → Except Error α → Prop) (k : Kind) (P : Parts m)
    (Q : Parts (Except Error)) : Prop where
  /-- All texts of a field. -/
  all : ∀ f, R (P.all f) (Q.all f)
  /-- The texts of the statements of a child. -/
  statements : ∀ f, k = .ifElse → f.isSequence = false → R (P.statements f) (Q.statements f)
  /-- The bare text of a name. -/
  bare : k.requires .name = true → R (P.bare .name) (Q.bare .name)
  /-- A required child is missing. -/
  missing : ∀ f, k.requires f = true → C (Q.all f) [] →
    R (throw .missingPart : m String) (.error .missingPart)
  /-- The condition is missing. -/
  missingClause : k = .ifElse → C (Q.statements .clause) none →
    R (throw .missingPart : m String) (.error .missingPart)

namespace Related

variable {m : Type → Type} [Monad m] [MonadExcept Error m] {C : Considered}
  {R : {α : Type} → m α → Except Error α → Prop}
  {P : Parts m} {Q : Parts (Except Error)}

theorem one {k : Kind} (related : Related C R k P Q) (follows : Follows C R) {f : Field}
    (required : k.requires f = true) : R (P.one f) (Q.one f) := by
  unfold Parts.one
  refine follows.bind (related.all f) fun texts answer => ?_
  cases texts with
  | nil => exact related.missing f required answer
  | cons text others => exact follows.pure _

theorem tail {k : Kind} (related : Related C R k P Q) (follows : Follows C R) (h : Head) :
    R (tail h P) (tail h Q) := by
  unfold Source.tail
  by_cases fields : h.kind.sequenceFields.contains .redirections = true
  · simp only [if_pos fields]
    exact follows.bind (related.all _) fun _ _ => follows.pure _
  · simp only [if_neg fields]
    exact follows.bind (follows.pure _) fun _ _ => follows.pure _

theorem command {k : Kind} (related : Related C R k P Q) (follows : Follows C R) (h : Head) :
    R (command h P) (command h Q) := by
  unfold Source.command
  refine follows.bind (related.all _) fun name _ => ?_
  refine follows.bind (related.all _) fun leading _ => ?_
  refine follows.bind (related.all _) fun suffix _ => ?_
  exact follows.bind (related.tail follows h) fun rest _ => follows.pure _

theorem conditional (related : Related C R .ifElse P Q) (follows : Follows C R) (h : Head) :
    R (conditional h P) (conditional h Q) := by
  unfold Source.conditional
  refine follows.bind (related.statements _ rfl rfl) fun clause answer => ?_
  cases clause with
  | none => exact related.missingClause rfl answer
  | some clause =>
    refine follows.bind (related.statements _ rfl rfl) fun positive _ => ?_
    refine follows.bind (related.statements _ rfl rfl) fun negative _ => ?_
    exact follows.bind (related.tail follows h) fun rest _ => follows.pure _

theorem forLoop (related : Related C R .forLoop P Q) (follows : Follows C R) (h : Head) :
    R (forLoop h P) (forLoop h Q) := by
  unfold Source.forLoop
  refine follows.bind (related.bare rfl) fun name _ => ?_
  refine follows.bind (related.all _) fun words _ => ?_
  refine follows.bind (related.one follows rfl) fun body _ => ?_
  exact follows.bind (related.tail follows h) fun rest _ => follows.pure _

theorem conditionLoop {k : Kind} (related : Related C R k P Q) (follows : Follows C R)
    (loop : k = .whileLoop ∨ k = .untilLoop) (keyword : String) (h : Head) :
    R (conditionLoop keyword h P) (conditionLoop keyword h Q) := by
  have clause : k.requires .clause = true := by rcases loop with rfl | rfl <;> rfl
  have body : k.requires .loopBody = true := by rcases loop with rfl | rfl <;> rfl
  unfold Source.conditionLoop
  refine follows.bind (related.one follows clause) fun _ _ => ?_
  refine follows.bind (related.one follows body) fun _ _ => ?_
  exact follows.bind (related.tail follows h) fun rest _ => follows.pure _

theorem function (related : Related C R .function P Q) (follows : Follows C R) (h : Head) :
    R (function h P) (function h Q) := by
  unfold Source.function
  refine follows.bind (related.bare rfl) fun name _ => ?_
  refine follows.bind (related.one follows rfl) fun body _ => ?_
  exact follows.bind (related.tail follows h) fun rest _ => follows.pure _

/-- Layouts with related parts are related. -/
theorem layout {h : Head} (related : Related C R h.kind P Q) (follows : Follows C R)
    (braced : Bool) : R (layout braced h P) (layout braced h Q) := by
  have rest := related.tail follows h
  unfold Source.layout
  -- The layouts of all kinds are binds over parts, so each is related bind by bind.
  cases h with
  | script => exact follows.bind (related.all _) fun _ _ => follows.pure _
  | compoundList async =>
    refine follows.bind (related.all _) fun commands _ => ?_
    cases braced with
    | true => exact follows.bind rest fun _ _ => follows.pure _
    | false => exact follows.pure _
  | function async => exact related.function follows _
  | command async => exact related.command follows _
  | pipeline async bang =>
    exact follows.bind (related.all _) fun _ _ => follows.bind rest fun _ _ => follows.pure _
  | logicalExpression async op =>
    refine follows.bind (related.one follows rfl) fun left _ => ?_
    refine follows.bind (related.one follows rfl) fun right _ => ?_
    exact follows.bind rest fun _ _ => follows.pure _
  | subshell async =>
    refine follows.bind (related.one follows rfl) fun body _ => ?_
    exact follows.bind rest fun _ _ => follows.pure _
  | ifElse async => exact related.conditional follows _
  | forLoop async => exact related.forLoop follows _
  | whileLoop async => exact related.conditionLoop follows (.inl rfl) _ _
  | untilLoop async => exact related.conditionLoop follows (.inr rfl) _ _
  | caseOf async =>
    refine follows.bind (related.all _) fun items _ => ?_
    refine follows.bind (related.one follows rfl) fun word _ => ?_
    exact follows.bind rest fun _ _ => follows.pure _
  | caseItem =>
    refine follows.bind (related.all _) fun patterns _ => ?_
    exact follows.bind (related.one follows rfl) fun body _ => follows.pure _
  | redirect op number => exact follows.bind (related.one follows rfl) fun _ _ => follows.pure _
  | word text => exact follows.pure _
  | assignmentWord text => exact follows.pure _
  | name text => exact follows.pure _
  | arithmeticExpansion expression resolved => exact follows.pure _
  | commandExpansion command backquoted resolved => exact follows.pure _
  | parameterExpansion name kind word op braced => exact follows.pure _

end Related

/-! ### Two relations between outcomes -/

/-- The result of an outcome that has one. -/
def Gives {α : Type} (r : Except Error α) (a : α) : Prop :=
  r = .ok a

/-- To be the same outcome goes through results and steps. -/
theorem follows_eq : Follows (m := Except Error) Gives fun x r => x = r where
  pure _ := rfl
  bind {_ _ x _ _ _} same next := by
    subst same
    cases x with
    | ok a => exact next a rfl
    | error e => rfl

/-- The outcome is a result, or an error of this sort. -/
def FailsOnly (E : Error → Prop) {α : Type} (r : Except Error α) : Prop :=
  ∀ e, r = .error e → E e

/-- So does to be the same outcome and, if it is an error, one of a sort. -/
theorem follows_failsOnly (E : Error → Prop) :
    Follows (m := Except Error) Gives fun x r => x = r ∧ FailsOnly E r where
  pure _ := ⟨rfl, fun _ h => nomatch h⟩
  bind {_ _ x _ _ _} first next := by
    obtain ⟨rfl, sort⟩ := first
    cases x with
    | ok a => exact next a rfl
    | error e =>
      refine ⟨rfl, fun d h => ?_⟩
      cases h
      exact sort e rfl

end ShellInliner.Source
