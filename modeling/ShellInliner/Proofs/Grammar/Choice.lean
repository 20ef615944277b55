import Mathlib.Data.List.Forall2
import ShellInliner.Proofs.Grammar.Chart

/-! # Which derivation is chosen

    Of the candidates for a symbol the shortest is taken first, and among the
    candidates of one length the one with the lowest number.  So settling keeps what
    is chosen, and two rows of candidates that are ordered alike lead to entries that
    correspond to each other.  The derivation of a script is the best candidate of
    those that leave only what can be skipped. -/

namespace ShellInliner.Grammar

/-! ### The best candidate -/

theorem precedes_iff {a b : Candidate} : a.precedes b = true ↔
    a.entry.length < b.entry.length ∨ a.entry.length = b.entry.length ∧ a.number < b.number := by
  simp [Candidate.precedes]

theorem not_precedes_iff {a b : Candidate} : a.precedes b = false ↔
    b.entry.length < a.entry.length ∨ b.entry.length = a.entry.length ∧ b.number ≤ a.number := by
  rw [← Bool.not_eq_true, precedes_iff]
  omega

/-- No candidate is to be taken before the best one. -/
theorem best?_minimal {cs : List Candidate} {c d : Candidate} (best : best? cs = some c)
    (mem : d ∈ cs) : d.precedes c = false := by
  induction cs generalizing c with
  | nil => cases mem
  | cons a cs ih =>
    rw [best?] at best
    -- The best of the others meets the first, and one of them loses.
    cases others : best? cs with
    | none =>
      rw [others] at best
      cases best
      rw [best?_eq_none others] at mem
      cases List.mem_singleton.mp mem
      simp [Candidate.precedes]
    | some b =>
      rw [others] at best
      simp only at best
      split at best
      · rename_i before
        cases best
        rcases List.mem_cons.mp mem with rfl | there
        · rw [precedes_iff] at before
          rw [not_precedes_iff]
          omega
        · exact ih others there
      · rename_i after
        cases best
        rcases List.mem_cons.mp mem with rfl | there
        · simp [Candidate.precedes]
        · have last := ih others there
          rw [Bool.not_eq_true, not_precedes_iff] at after
          rw [not_precedes_iff] at last ⊢
          omega

/-- The best candidate stays the best one when others are dropped. -/
theorem best?_filter {cs : List Candidate} {c : Candidate} {q : Candidate → Bool}
    (best : best? cs = some c) (passes : q c = true) : best? (cs.filter q) = some c := by
  induction cs generalizing c with
  | nil => cases best
  | cons a cs ih =>
    rw [best?] at best
    cases others : best? cs with
    | none =>
      rw [others] at best
      cases best
      rw [best?_eq_none others, List.filter_cons_of_pos passes, List.filter_nil]
      rfl
    | some b =>
      rw [others] at best
      simp only at best
      split at best
      · rename_i before
        cases best
        have rest := ih others passes
        cases first : q a with
        | false => rw [List.filter_cons_of_neg (by rw [first]; exact Bool.false_ne_true), rest]
        | true =>
          rw [List.filter_cons_of_pos first, best?, rest]
          exact if_pos before
      · rename_i after
        cases best
        rw [List.filter_cons_of_pos passes, best?]
        cases rest : best? (cs.filter q) with
        | none => rfl
        | some d =>
          -- What remains is no better than the best of the others.
          have mem := (List.mem_filter.mp (best?_eq_some rest).1).1
          have last := best?_minimal others mem
          rw [Bool.not_eq_true, not_precedes_iff] at after
          have later : d.precedes a = false := by
            rw [not_precedes_iff] at last ⊢
            omega
          simp only [later]
          rfl

/-- Candidates of one length are all dropped or all kept by a test on the length. -/
theorem filter_filter_of_length {cs : List Candidate} {p : Nat → Bool} {n : Nat}
    (fails : p n = false) :
    (cs.filter fun d => d.entry.length != n).filter (fun d => p d.entry.length) =
      cs.filter fun d => p d.entry.length := by
  rw [List.filter_filter]
  refine List.filter_congr fun d _ => ?_
  by_cases same : d.entry.length = n
  · rw [same, fails, Bool.false_and]
  · simp [same]

/-- Where nothing grows, the first entry that passes a test on its length is the best
    candidate of those that pass it. -/
theorem find?_settle {p : Nat → Bool} {N : Nat} (rounds least : Nat) (pending : List Candidate)
    (bounds : ∀ c ∈ pending, least ≤ c.entry.length ∧ c.entry.length ≤ N)
    (enough : N + 1 ≤ least + rounds) :
    (settle (fun _ => []) rounds pending).find? (fun e => p e.length) =
      (best? (pending.filter fun c => p c.entry.length)).map Candidate.entry := by
  -- Each round drops the least length, so the bound on the rounds is kept.
  induction rounds generalizing least pending with
  | zero =>
    have none : pending = [] := List.eq_nil_iff_forall_not_mem.mpr fun c mem => by
      have := bounds c mem
      omega
    rw [none]
    rfl
  | succ rounds ih =>
    rw [settle]
    cases best : best? pending with
    | none =>
      rw [best?_eq_none best]
      rfl
    | some c =>
      obtain ⟨mem, shortest⟩ := best?_eq_some best
      simp only [List.append_nil]
      cases passes : p c.entry.length with
      | true =>
        rw [best?_filter (q := fun c => p c.entry.length) best passes]
        simp only [List.find?_cons, passes, Option.map_some]
      | false =>
        simp only [List.find?_cons, passes]
        rw [ih (c.entry.length + 1) _ (fun d there => ?_) (by have := bounds c mem; omega),
          filter_filter_of_length passes]
        obtain ⟨there, differs⟩ := List.mem_filter.mp there
        have := shortest d there
        have := bounds d there
        simp only [bne_iff_ne, ne_eq] at differs
        omega

/-! ### Rows that are ordered alike -/

/-- Two candidates correspond in a way that keeps their order. -/
def KeepsOrder (R : Candidate → Candidate → Prop) : Prop :=
  ∀ a a' b b', R a a' → R b b' → a.precedes b = a'.precedes b'

/-- The best candidates of rows that are ordered alike correspond to each other. -/
theorem best?_rel {R : Candidate → Candidate → Prop} (keeps : KeepsOrder R)
    {cs ds : List Candidate} (each : List.Forall₂ R cs ds) :
    Option.Rel R (best? cs) (best? ds) := by
  induction each with
  | nil => exact .none
  | @cons a a' cs ds first _ ih =>
    rw [best?, best?]
    generalize best? cs = best at ih ⊢
    generalize best? ds = best' at ih ⊢
    cases ih with
    | none => exact .some first
    | @some b b' others =>
      -- Both rows decide alike between the first and the best of the others.
      have same := keeps b b' a a' others first
      simp only [same]
      split
      · exact .some others
      · exact .some first

/-- What is settled from rows that are ordered alike corresponds, as long as what
    grows from entries that correspond does. -/
theorem settle_rel {R : Candidate → Candidate → Prop} {E : Entry → Entry → Prop}
    {grow grow' : Entry → List Candidate} (keeps : KeepsOrder R)
    (lengths : ∀ a a' b b', R a a' → R b b' →
      (a.entry.length = b.entry.length ↔ a'.entry.length = b'.entry.length))
    (entries : ∀ a a', R a a' → E a.entry a'.entry)
    (grows : ∀ a a', R a a' → List.Forall₂ R (grow a.entry) (grow' a'.entry))
    (rounds : Nat) {pending pending' : List Candidate} (each : List.Forall₂ R pending pending') :
    List.Forall₂ E (settle grow rounds pending) (settle grow' rounds pending') := by
  induction rounds generalizing pending pending' with
  | zero => exact .nil
  | succ rounds ih =>
    rw [settle, settle]
    have best := best?_rel keeps each
    generalize best? pending = c at best ⊢
    generalize best? pending' = c' at best ⊢
    cases best with
    | none => exact .nil
    | @some c c' here =>
      refine .cons (entries c c' here) (ih (List.rel_append ?_ (grows c c' here)))
      -- What is as long as the entry just settled drops out of both rows.
      refine List.rel_filter (fun d d' there => ?_) each
      simp only [bne_iff_ne, ne_eq]
      exact not_congr (lengths d d' c c' there here)

/-- Where at most one candidate is pending at a time, no order needs to be kept. -/
theorem settle_rel_of_single {E : Entry → Entry → Prop} {grow grow' : Entry → List Candidate}
    (grows : ∀ e e', E e e' →
      List.Forall₂ (fun a a' => E a.entry a'.entry) (grow e) (grow' e'))
    (single : ∀ e, (grow e).length ≤ 1) (rounds : Nat) {pending pending' : List Candidate}
    (each : List.Forall₂ (fun a a' => E a.entry a'.entry) pending pending')
    (one : pending.length ≤ 1) :
    List.Forall₂ E (settle grow rounds pending) (settle grow' rounds pending') := by
  induction rounds generalizing pending pending' with
  | zero => exact .nil
  | succ rounds ih =>
    cases each with
    | nil => exact .nil
    | @cons a a' cs ds here others =>
      -- The only candidate is the best one, and what grows from it is all that is left.
      have last : cs = [] := List.eq_nil_of_length_eq_zero (by simpa using one)
      subst last
      cases others
      simp only [settle, best?, bne_self_eq_false, Bool.false_eq_true, not_false_eq_true,
        List.filter_cons_of_neg, List.filter_nil, List.nil_append]
      exact .cons here (ih (grows _ _ here) (single _))

/-- More rounds than enough change nothing. -/
theorem settle_add {grow : Entry → List Candidate} {P : Entry → Prop} {N : Nat}
    (inside : ∀ e, P e → e.length ≤ N)
    (grows : ∀ e, P e → ∀ c ∈ grow e, P c.entry ∧ e.length < c.entry.length)
    (more rounds least : Nat) (pending : List Candidate)
    (bounds : ∀ c ∈ pending, P c.entry ∧ least ≤ c.entry.length) (enough : N + 1 ≤ least + rounds) :
    settle grow (rounds + more) pending = settle grow rounds pending := by
  induction rounds generalizing least pending with
  | zero =>
    -- A pending candidate would be longer than the text.
    have none : pending = [] := List.eq_nil_iff_forall_not_mem.mpr fun c mem => by
      have := bounds c mem
      have := inside c.entry this.1
      omega
    rw [none]
    cases more with
    | zero => rfl
    | succ more => rw [Nat.zero_add, settle]; rfl
  | succ rounds ih =>
    rw [Nat.add_right_comm, settle, settle]
    cases best : best? pending with
    | none => rfl
    | some c =>
      obtain ⟨mem, shortest⟩ := best?_eq_some best
      have here := bounds c mem
      simp only
      rw [ih (c.entry.length + 1) _ (fun d there => ?_) (by omega)]
      rcases List.mem_append.mp there with kept | grown
      · obtain ⟨there, differs⟩ := List.mem_filter.mp kept
        have := shortest d there
        simp only [bne_iff_ne, ne_eq] at differs
        exact ⟨(bounds d there).1, by omega⟩
      · have := grows c.entry here.1 d grown
        exact ⟨this.1, by omega⟩

/-! ### Scripts -/

/-- The candidates for a whole script at the start of a text. -/
def scriptCandidates (text : List Char) : List Candidate :=
  seedCandidates Symbol.script.rule (rowAt text) (laterRows text)

theorem scriptCandidates_sound {text : List Char} {c : Candidate}
    (mem : c ∈ scriptCandidates text) : c.entry.Sound text (.symbol .script) :=
  seedCandidates_sound (fun k _ _ x => rowAt_sound (text.drop k) x)
    (fun u _ => rowAt_sound text (.symbol u)) mem

/-- Does a candidate leave only what can be skipped? -/
def Candidate.completes (text : List Char) (c : Candidate) : Bool :=
  isSkippable (text.drop c.entry.length)

/-- The derivation of a script is the best candidate of those that leave only what can
    be skipped. -/
theorem derivation?_eq (text : List Char) : derivation? text =
    (best? ((scriptCandidates text).filter (Candidate.completes text))).map (·.entry.tree) := by
  have row : (rowAt text).get .script =
      settle (fun _ => []) (text.length + 1) (scriptCandidates text) := get_rowAt text .script
  have found := find?_settle (p := fun n => isSkippable (text.drop n)) (N := text.length)
    (text.length + 1) 0 (scriptCandidates text)
    (fun c mem => ⟨Nat.zero_le _, (scriptCandidates_sound mem).length_le⟩) (by omega)
  unfold derivation? scriptEntries
  rw [chart_eq]
  simp only
  rw [row, found, Option.map_map]
  rfl

end ShellInliner.Grammar
