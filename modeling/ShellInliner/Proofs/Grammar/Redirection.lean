import ShellInliner.Parse.Piece
import ShellInliner.Proofs.Grammar.Context

/-! # Redirections in a new place

    A file descriptor is written in the digits from zero to nine, which spell the
    number they are made from, and is one before every operator.  An operator is
    taken as a whole before every word, but for `<<` before a word that starts
    with a dash. -/

namespace ShellInliner.Grammar

open Word

/-! ### Digits -/

theorem digitValue?_of_isDigit {c : Char} (h : c.isDigit = true) :
    Text.digitValue? c = some (c.toNat - '0'.toNat) := by
  simp only [Char.isDigit, Bool.and_eq_true, decide_eq_true_eq] at h
  have low : 48 ≤ c.toNat := h.1
  have high : c.toNat ≤ 57 := h.2
  have first : (⟨0x30, 0x39⟩ : Text.Interval).contains c.toNat = true := by
    simp only [Text.Interval.contains, Bool.and_eq_true, decide_eq_true_eq]
    exact ⟨low, high⟩
  have found : Text.Interval.find? Text.decimalDigits c.toNat = some ⟨0x30, 0x39⟩ := by
    simp only [Text.Interval.find?, Text.decimalDigits, List.find?_cons, first]
  rw [Text.digitValue?, found]
  show some ((c.toNat - 48) % 10) = some (c.toNat - 48)
  rw [Nat.mod_eq_of_lt (by omega)]

theorem isDigit_of_isDigit {c : Char} (h : c.isDigit = true) : Text.isDigit c = true := by
  rw [Text.isDigit, digitValue?_of_isDigit h]
  rfl

theorem digitsValue_eq_ofDigitChars {cs : List Char} (h : ∀ c ∈ cs, c.isDigit = true) :
    Text.digitsValue cs = Nat.ofDigitChars 10 cs 0 := by
  rw [Nat.ofDigitChars_eq_foldl, Text.digitsValue]
  have same (n : Nat) : cs.foldl (fun n c => n * 10 + (Text.digitValue? c).getD 0) n =
      cs.foldl (fun n c => 10 * n + (c.toNat - '0'.toNat)) n := by
    induction cs generalizing n with
    | nil => rfl
    | cons c cs ih =>
      rw [List.foldl_cons, List.foldl_cons, digitValue?_of_isDigit (h c (List.mem_cons_self ..)),
        Nat.mul_comm n 10]
      exact ih (fun d hd => h d (List.mem_cons_of_mem _ hd)) _
  exact same 0

/-- The digits of a number spell it. -/
theorem digitsValue_toDigits (k : Nat) : Text.digitsValue (Nat.toDigits 10 k) = k := by
  have digits : ∀ c ∈ Nat.toDigits 10 k, c.isDigit = true := fun c hc =>
    Nat.isDigit_of_mem_toDigits (by decide) (by decide) hc
  rw [digitsValue_eq_ofDigitChars digits]
  exact Nat.ofDigitChars_toDigits (by decide) (by decide)

/-- A number is not written with more digits than it was read from. -/
theorem length_toDigits_digitsValue {cs : List Char} (ne : cs ≠ []) :
    (Nat.toDigits 10 (Text.digitsValue cs)).length ≤ cs.length := by
  -- Each digit multiplies the bound by ten; the start is arbitrary for the induction.
  have below (cs : List Char) (n : Nat) :
      cs.foldl (fun n c => n * 10 + (Text.digitValue? c).getD 0) n < (n + 1) * 10 ^ cs.length := by
    induction cs generalizing n with
    | nil => simp
    | cons c cs ih =>
      have digit : (Text.digitValue? c).getD 0 < 10 := by
        rw [Text.digitValue?]
        cases Text.Interval.find? Text.decimalDigits c.toNat with
        | none => exact Nat.zero_lt_succ 9
        | some i => exact Nat.mod_lt _ (by decide)
      calc cs.foldl _ (n * 10 + (Text.digitValue? c).getD 0)
          < (n * 10 + (Text.digitValue? c).getD 0 + 1) * 10 ^ cs.length := ih _
        _ ≤ (n + 1) * 10 * 10 ^ cs.length := Nat.mul_le_mul_right _ (by omega)
        _ = (n + 1) * 10 ^ (cs.length + 1) := by rw [Nat.mul_assoc, Nat.pow_succ']
  have bound := below cs 0
  rw [Nat.zero_add, Nat.one_mul] at bound
  exact (Nat.length_toDigits_le_iff (by decide) (List.length_pos_iff.mpr ne)).mpr bound

/-! ### Operators -/

theorem head_mem_of_mem_redirectOperators {op : List Char} (h : op ∈ redirectOperators) :
    ∃ c cs, op = c :: cs ∧ isAngle c = true := by
  have heads : redirectOperators.all (fun op => op.head?.any isAngle) = true := by decide
  have head := List.all_eq_true.mp heads op h
  cases op with
  | nil => cases head
  | cons c cs => exact ⟨c, cs, rfl, head⟩

/-- Digits are a file descriptor before every operator. -/
theorem ioNumberLength?_operator {ds op : List Char} (digits : ∀ c ∈ ds, c.isDigit = true)
    (ne : ds ≠ []) (h : op ∈ redirectOperators) (rest : List Char) :
    ioNumberLength? (ds ++ (op ++ rest)) = some ds.length := by
  obtain ⟨c, cs, rfl, angle⟩ := head_mem_of_mem_redirectOperators h
  have stops : Text.isDigit c = false := by
    rw [isAngle, Bool.or_eq_true, beq_iff_eq, beq_iff_eq] at angle
    rcases angle with rfl | rfl <;> decide
  have taken : (ds ++ (c :: cs ++ rest)).takeWhile Text.isDigit = ds := by
    rw [List.takeWhile_append_of_pos fun d hd => isDigit_of_isDigit (digits d hd),
      List.cons_append, List.takeWhile_cons, stops]
    exact List.append_nil ds
  have length : ds.length ≠ 0 := by simpa using ne
  simp only [ioNumberLength?, taken, List.drop_left]
  exact if_pos ⟨length, by simpa using angle⟩

/-- Is the operator taken as a whole before the character? -/
def isApart (op : List Char) (c : Char) : Bool :=
  !isMeta c && !(op == ['<', '<'] && c == '-')

/-- An operator is taken as a whole. -/
theorem redirectOperatorLength?_append {op rest : List Char} {c : Char} (h : op ∈ redirectOperators)
    (apart : isApart op c = true) :
    redirectOperatorLength? (op ++ c :: rest) = some op.length := by
  simp only [isApart, Bool.and_eq_true, Bool.not_eq_true'] at apart
  obtain ⟨plain, dash⟩ := apart
  -- No longer operator fits, since the character after this one could not be in it.
  have differs {d : Char} (other : isMeta d = true) : (d == c) = false := by
    apply beq_eq_false_iff_ne.mpr
    rintro rfl
    rw [plain] at other
    cases other
  have greater := differs (d := '>') (by decide)
  have less := differs (d := '<') (by decide)
  have ampersand := differs (d := '&') (by decide)
  have bar := differs (d := '|') (by decide)
  -- Only the here document has a longer operator that ends in a dash.
  have dash' : op = ['<', '<'] → ('-' == c) = false := by
    rintro rfl
    apply beq_eq_false_iff_ne.mpr
    rintro rfl
    cases dash
  simp only [redirectOperators, List.mem_cons, List.not_mem_nil, or_false] at h
  rcases h with rfl | rfl | rfl | rfl | rfl | rfl | rfl | rfl | rfl <;>
    simp [redirectOperatorLength?, redirectOperators, List.find?, List.isPrefixOf, greater, less,
      ampersand, bar, dash']

end ShellInliner.Grammar
