import Mathlib.Data.List.Forall2
import ShellInliner.Visit.Visitor

/-! # Runs, step by step

    A run takes a state and ends with a result or an error, and with a state in
    both cases.  A run of two steps goes on with the state that the first one
    has left, unless it has failed.

    `Keeps R` says of a run that the states before and after it stand in the
    relation `R`, however it ends.  For a relation that can be chained this is
    proved step by step.  `Ensures R` says this of a run from one state, and besides
    what holds of the result that the run ends with. -/

namespace ShellInliner.Run

variable {ε σ α β : Type}

/-! ### One step after the other -/

theorem run_bind (x : ExceptT ε (StateM σ) α) (f : α → ExceptT ε (StateM σ) β) (s : σ) :
    (x >>= f).run.run s =
      match x.run.run s with
      | (.ok a, s') => (f a).run.run s'
      | (.error e, s') => (.error e, s') := by
  rw [ExceptT.run_bind, StateT.run_bind]
  generalize x.run.run s = ended
  obtain ⟨r, s'⟩ := ended
  cases r with
  | ok a => rfl
  | error e => rfl

theorem run_bind_ok {x : ExceptT ε (StateM σ) α} {f : α → ExceptT ε (StateM σ) β} {s s' : σ}
    {a : α} (first : x.run.run s = (.ok a, s')) : (x >>= f).run.run s = (f a).run.run s' := by
  rw [run_bind, first]

/-- If one run after another succeeds, so does the first. -/
theorem exists_of_run_bind {x : ExceptT ε (StateM σ) α} {f : α → ExceptT ε (StateM σ) β}
    {s s' : σ} {b : β} (run : (x >>= f).run.run s = (.ok b, s')) :
    ∃ a s₁, x.run.run s = (.ok a, s₁) ∧ (f a).run.run s₁ = (.ok b, s') := by
  rw [run_bind] at run
  split at run
  · rename_i a s₁ first
    exact ⟨a, s₁, first, run⟩
  · cases run

theorem run_bind_error {x : ExceptT ε (StateM σ) α} {f : α → ExceptT ε (StateM σ) β} {s s' : σ}
    {e : ε} (first : x.run.run s = (.error e, s')) : (x >>= f).run.run s = (.error e, s') := by
  rw [run_bind, first]

@[simp] theorem run_pure (a : α) (s : σ) :
    (pure a : ExceptT ε (StateM σ) α).run.run s = (.ok a, s) :=
  rfl

@[simp] theorem run_throw (e : ε) (s : σ) :
    (throw e : ExceptT ε (StateM σ) α).run.run s = (.error e, s) :=
  rfl

@[simp] theorem run_get (s : σ) :
    (get : ExceptT ε (StateM σ) σ).run.run s = (.ok s, s) :=
  rfl

@[simp] theorem run_set (s s' : σ) :
    (set s' : ExceptT ε (StateM σ) PUnit).run.run s = (.ok ⟨⟩, s') :=
  rfl

@[simp] theorem run_modify (f : σ → σ) (s : σ) :
    (modify f : ExceptT ε (StateM σ) PUnit).run.run s = (.ok ⟨⟩, f s) :=
  rfl

@[simp] theorem run_lift (r : Except Error α) (s : σ) :
    (lift r : Run σ α).run.run s = (r, s) := by
  cases r with
  | ok a => rfl
  | error e => rfl

/-- A result that passes a test is there. -/
theorem exists_of_toOption_any {ε : Type} {x : Except ε α} {p : α → Bool}
    (passes : x.toOption.any p = true) : ∃ a, x = .ok a ∧ p a = true := by
  cases x with
  | ok a => exact ⟨a, rfl, passes⟩
  | error e => cases passes

/-- A run whose result passes a test ends with a result. -/
theorem exists_run_of_toOption_any {x : Run σ α} {s : σ} {p : α → Bool}
    (passes : (x.run.run s).1.toOption.any p = true) :
    ∃ a s', x.run.run s = (.ok a, s') ∧ p a = true := by
  obtain ⟨a, result, holds⟩ := exists_of_toOption_any passes
  exact ⟨a, (x.run.run s).2, Prod.ext result rfl, holds⟩

/-! ### What a run keeps -/

/-- A relation that holds after nothing has been done and can be chained. -/
class Chains (R : σ → σ → Prop) : Prop where
  /-- Nothing has been done. -/
  refl : ∀ s, R s s
  /-- One step after the other. -/
  trans : ∀ s₁ s₂ s₃, R s₁ s₂ → R s₂ s₃ → R s₁ s₃

instance : Chains (@Eq σ) where
  refl := Eq.refl
  trans _ _ _ := Eq.trans

/-- Before and after the run the states stand in a relation, however it ends. -/
def Keeps (R : σ → σ → Prop) (x : ExceptT ε (StateM σ) α) : Prop :=
  ∀ s, R s (x.run.run s).2

namespace Keeps

variable {R : σ → σ → Prop} [chains : Chains R]

theorem pure (a : α) : Keeps R (Pure.pure a : ExceptT ε (StateM σ) α) :=
  fun s => chains.refl s

theorem throw (e : ε) : Keeps R (MonadExcept.throw e : ExceptT ε (StateM σ) α) :=
  fun s => chains.refl s

/-- A run that keeps the state to itself. -/
theorem run_eq {x : ExceptT ε (StateM σ) α} (same : Keeps Eq x) (s : σ) :
    x.run.run s = ((x.run.run s).1, s) :=
  Prod.ext rfl (same s).symm

theorem get : Keeps R (MonadState.get : ExceptT ε (StateM σ) σ) :=
  fun s => chains.refl s

omit chains in
theorem modify {f : σ → σ} (each : ∀ s, R s (f s)) :
    Keeps R (modify f : ExceptT ε (StateM σ) PUnit) :=
  each

theorem lift (r : Except Error α) : Keeps R (Run.lift r : Run σ α) := by
  intro s
  rw [run_lift]
  exact chains.refl s

theorem bind {x : ExceptT ε (StateM σ) α} {f : α → ExceptT ε (StateM σ) β}
    (first : Keeps R x) (next : ∀ a, Keeps R (f a)) : Keeps R (x >>= f) := by
  intro s
  have here := first s
  rw [run_bind]
  generalize x.run.run s = ended at here ⊢
  obtain ⟨r, s'⟩ := ended
  cases r with
  | ok a => exact chains.trans _ _ _ here (next a s')
  | error e => exact here

theorem mapM {f : α → ExceptT ε (StateM σ) β} {xs : List α}
    (each : ∀ x ∈ xs, Keeps R (f x)) : Keeps R (xs.mapM f) := by
  induction xs with
  | nil =>
    rw [List.mapM_nil]
    exact pure _
  | cons x xs ih =>
    rw [List.mapM_cons]
    have others := ih fun y mem => each y (List.mem_cons_of_mem _ mem)
    exact bind (each x (List.mem_cons_self ..)) fun _ =>
      bind others fun _ => pure _

theorem optionMapM {f : α → ExceptT ε (StateM σ) β} {x : Option α}
    (each : ∀ a, Keeps R (f a)) : Keeps R (x.mapM f) := by
  cases x with
  | none => exact pure none
  | some a =>
    show Keeps R (some <$> f a)
    rw [map_eq_pure_bind]
    exact bind (each a) fun _ => pure _

theorem forIn {f : α → PUnit → ExceptT ε (StateM σ) (ForInStep PUnit)} {xs : List α}
    (each : ∀ x ∈ xs, ∀ u, Keeps R (f x u)) : Keeps R (forIn xs PUnit.unit f) := by
  induction xs with
  | nil => exact pure _
  | cons x xs ih =>
    rw [List.forIn_cons]
    refine bind (each x (List.mem_cons_self ..) _) fun next => ?_
    cases next with
    | done u => exact pure _
    | yield u => exact ih fun y mem => each y (List.mem_cons_of_mem _ mem)

end Keeps

/-! ### What a run ensures -/

/-- From the state the run goes to one that stands in the relation to it, however
    it ends, and a result that it ends with meets the condition there. -/
structure Ensures (R : σ → σ → Prop) (x : Run σ α) (s : σ) (Q : α → σ → Prop) : Prop where
  /-- The state is kept as the relation says. -/
  kept : R s (x.run.run s).2
  /-- The result meets the condition. -/
  result : ∀ a s', x.run.run s = (.ok a, s') → Q a s'

namespace Ensures

variable {R : σ → σ → Prop} [chains : Chains R] {s : σ} {Q : α → σ → Prop}

theorem pure {a : α} (holds : Q a s) : Ensures R (Pure.pure a) s Q where
  kept := chains.refl s
  result := by
    rintro b s' ⟨⟩
    exact holds

theorem throw (e : Error) : Ensures R (MonadExcept.throw e) s Q where
  kept := chains.refl s
  result := by
    rintro b s' ⟨⟩

theorem lift {r : Except Error α} (holds : ∀ a, r = .ok a → Q a s) :
    Ensures R (Run.lift r) s Q := by
  constructor
  · rw [run_lift]
    exact chains.refl s
  · intro a s' ended
    rw [run_lift] at ended
    cases ended
    exact holds a rfl

/-- A run that looks at the state and does not change it. -/
theorem look {x : Run σ α} (same : Keeps Eq x) (holds : ∀ a, x.run.run s = (.ok a, s) → Q a s) :
    Ensures R x s Q := by
  constructor
  · rw [← same s]
    exact chains.refl s
  · intro a s' ended
    have stays := same s
    rw [ended] at stays
    subst stays
    exact holds a ended

omit chains in
theorem mono {P : α → σ → Prop} {x : Run σ α} (ensures : Ensures R x s P)
    (weaken : ∀ a s', R s s' → P a s' → Q a s') : Ensures R x s Q where
  kept := ensures.kept
  result a s' ended := by
    have kept := ensures.kept
    rw [ended] at kept
    exact weaken a s' kept (ensures.result a s' ended)

theorem bind {P : β → σ → Prop} {x : Run σ β} {f : β → Run σ α} (first : Ensures R x s P)
    (next : ∀ b s', R s s' → P b s' → Ensures R (f b) s' Q) : Ensures R (x >>= f) s Q := by
  have kept := first.kept
  have result := first.result
  constructor
  · -- The second run starts where the first one ended, if it is reached.
    rw [run_bind]
    generalize x.run.run s = ended at kept result ⊢
    obtain ⟨r, s'⟩ := ended
    cases r with
    | ok b => exact chains.trans _ _ _ kept (next b s' kept (result b s' rfl)).kept
    | error e => exact kept
  · intro a s'' ended
    rw [run_bind] at ended
    generalize x.run.run s = between at kept result ended
    obtain ⟨r, s'⟩ := between
    cases r with
    | ok b => exact (next b s' kept (result b s' rfl)).result a s'' ended
    | error e => cases ended

/-- What is ensured of each element, and stays, is ensured of all. -/
theorem mapM {f : β → Run σ α} {P : β → α → σ → Prop} {xs : List β}
    (stays : ∀ x a s₁ s₂, R s₁ s₂ → P x a s₁ → P x a s₂)
    (each : ∀ x ∈ xs, ∀ s', R s s' → Ensures R (f x) s' (P x)) :
    Ensures R (xs.mapM f) s fun as s' => List.Forall₂ (fun x a => P x a s') xs as := by
  induction xs generalizing s with
  | nil =>
    rw [List.mapM_nil]
    exact pure .nil
  | cons x xs ih =>
    rw [List.mapM_cons]
    refine bind (each x (List.mem_cons_self ..) s (chains.refl s)) fun a s₁ kept here => ?_
    -- What holds of the first element has to stay while the others run.
    have others := ih (s := s₁) fun y mem s₂ kept₂ =>
      each y (List.mem_cons_of_mem _ mem) s₂ (chains.trans _ _ _ kept kept₂)
    refine bind others fun as s₂ kept₂ there => ?_
    exact pure (.cons (stays x a s₁ s₂ kept₂ here) there)

end Ensures

/-- What a run keeps from every state it keeps from this one. -/
theorem Keeps.ensures {R : σ → σ → Prop} {x : Run σ α} (keeps : Keeps R x) (s : σ) :
    Ensures R x s fun _ _ => True :=
  ⟨keeps s, fun _ _ _ => trivial⟩

end ShellInliner.Run
