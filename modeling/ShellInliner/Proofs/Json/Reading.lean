import ShellInliner.Proofs.Json.Language

/-! # Reading what was written

    A plain value whose whole numbers have no more digits than can be read is read
    from the text it is written as, in every layout.  The reader leaves what follows
    the value, so that each lemma is about a text with something after it. -/

namespace ShellInliner.Json

-- The equations of the reader are made here, once for all lemmas.
attribute [local simp] readString readValue readMembers readElements

/-! ### Strings -/

section

variable {opening held rest : List Char} {x a b c d : Char} {n : Nat}

theorem readString_unit (spelled : unit? a b c d = some n) (single : isHighSurrogate n = false) :
    readString opening held ('\\' :: 'u' :: a :: b :: c :: d :: x :: rest) =
      readString opening (charOfUnit n :: held) (x :: rest) := by
  rw [readString.eq_def]
  split
  case h_2 same =>
    -- The escape of another code unit follows.
    cases same
    simp only [spelled, single, Bool.false_eq_true, if_false]
  case h_3 same =>
    cases same
    simp only [spelled]
  case h_4 other same =>
    cases same
    exact absurd rfl (other a b c d x rest rfl)
  case h_6 other _ same =>
    cases same
    exact absurd rfl (other 'u' (a :: b :: c :: d :: x :: rest) rfl)
  all_goals rename_i same; cases same

/-- Two code units that are a pair stand for one character. -/
theorem readString_pair {e f g h : Char} {m k : Nat} (first : unit? a b c d = some n)
    (second : unit? e f g h = some m) (high : n = 0xD800 + k / 0x400) (low : m = 0xDC00 + k % 0x400)
    (bound : k < 0x100000) :
    readString opening held
        ('\\' :: 'u' :: a :: b :: c :: d :: '\\' :: 'u' :: e :: f :: g :: h :: x :: rest) =
      readString opening (Char.ofNat (0x10000 + k) :: held) (x :: rest) := by
  have isHigh : isHighSurrogate n = true := by
    simp only [isHighSurrogate, Bool.and_eq_true, decide_eq_true_eq]
    omega
  have isLow : isLowSurrogate m = true := by
    simp only [isLowSurrogate, Bool.and_eq_true, decide_eq_true_eq]
    omega
  -- Each unit carries ten bits of what lies beyond 0xFFFF.
  have joined : 0x10000 + (n - 0xD800) * 0x400 + (m - 0xDC00) = 0x10000 + k := by omega
  rw [readString]
  simp only [first, second, isHigh, isLow, if_true, joined]

theorem readString_letter (known : simpleEscape? a = some b) :
    readString opening held ('\\' :: a :: rest) = readString opening (b :: held) rest := by
  have other : a ≠ 'u' := by
    rintro rfl
    cases known
  rw [readString.eq_def]
  split
  -- Of the arms for a backslash the others are those of a unit, which has another letter.
  case h_4 same =>
    cases same
    simp only [known, beq_iff_eq, other, if_false]
  case h_6 never _ same =>
    cases same
    exact absurd rfl (never a rest rfl)
  all_goals rename_i same; cases same
  all_goals exact absurd rfl other

theorem readString_plain (visible : 0x20 ≤ a.toNat) (quote : a ≠ '"') (backslash : a ≠ '\\') :
    readString opening held (a :: rest) = readString opening (a :: held) rest := by
  rw [readString.eq_def]
  split
  case h_6 same =>
    cases same
    rw [if_neg (by omega)]
  all_goals rename_i same; cases same
  all_goals first | exact absurd rfl quote | exact absurd rfl backslash

theorem charOfUnit_toNat (c : Char) : charOfUnit c.toNat = c := by
  have valid := toNat_valid c
  have single : (isHighSurrogate c.toNat || isLowSurrogate c.toNat) = false := by
    simp only [isHighSurrogate, isLowSurrogate, Bool.or_eq_false_iff, Bool.and_eq_false_iff,
      decide_eq_false_iff_not]
    omega
  rw [charOfUnit, if_neg (by rw [single]; decide), Char.ofNat_toNat]

/-- What is written for a character is read as the character. -/
theorem readString_escapeChar (opening held : List Char) (c x : Char) (rest : List Char) :
    readString opening held (escapeChar c ++ x :: rest) = readString opening (c :: held) (x :: rest) := by
  have escaped := escaped_escapeChar c
  generalize escapeChar c = written at escaped
  cases escaped with
  | letter known => exact readString_letter known
  | plain visible _ quote backslash => exact readString_plain visible quote backslash
  | unit basic =>
    obtain ⟨a, b, c', d, digits, spelled, -⟩ := exists_hexDigits (show c.toNat < 0x10000 by omega)
    -- A character is never half of a pair, so it does not wait for a second unit.
    have valid := toNat_valid c
    have single : isHighSurrogate c.toNat = false := by
      simp only [isHighSurrogate, Bool.and_eq_false_iff, decide_eq_false_iff_not]
      omega
    rw [unitEscape, digits]
    refine (readString_unit spelled single).trans ?_
    rw [charOfUnit_toNat]
  | @pair n beyond bound =>
    obtain ⟨a, b, c', d, digits, first, -⟩ := exists_hexDigits (show 0xD800 + n / 0x400 < 0x10000 by omega)
    obtain ⟨e, f, g, h, digits', second, -⟩ := exists_hexDigits (show 0xDC00 + n % 0x400 < 0x10000 by omega)
    rw [unitEscape, unitEscape, digits, digits']
    refine (readString_pair first second rfl rfl bound).trans ?_
    rw [← beyond, Char.ofNat_toNat]

/-- What is written for a text is read up to the closing quote. -/
theorem readString_escaped (opening held cs rest : List Char) :
    readString opening held (cs.flatMap escapeChar ++ '"' :: rest) =
      .ok (String.ofList (held.reverse ++ cs), rest) := by
  induction cs generalizing held with
  | nil =>
    rw [List.append_nil]
    show readString opening held ('"' :: rest) = _
    rw [readString]
  | cons c cs ih =>
    -- Something follows every character, the closing quote at the latest.
    obtain ⟨x, others, following⟩ : ∃ x others, cs.flatMap escapeChar ++ '"' :: rest = x :: others :=
      List.exists_cons_of_ne_nil (by simp)
    rw [List.flatMap_cons, List.append_assoc, following, readString_escapeChar, ← following, ih]
    simp

end

/-! ### Numbers -/

/-- The number has no more digits than can be read. -/
def IsShort (n : Int) : Prop :=
  digitCount n.natAbs ≤ digitLimit

/-- No number goes on with this text. -/
def EndsNumber (rest : List Char) : Prop :=
  ∀ c ∈ rest.head?, c.isDigit = false ∧ c ≠ '.' ∧ c ≠ 'e' ∧ c ≠ 'E'

section

variable {cs rest : List Char} {k : Nat}

/-- The digits of a whole number start with one of them or with the sign before it. -/
theorem intDigits_cases (n : Int) : ∃ c cs, c.isDigit = true ∧
    (intDigits n = c :: cs ∨ intDigits n = '-' :: c :: cs) := by
  obtain ⟨c, cs, digits⟩ := List.exists_cons_of_ne_nil (Nat.toDigits_ne_nil (n := n.natAbs) (b := 10))
  have digit := isDigit_toDigits n.natAbs c (by rw [digits]; exact List.mem_cons_self ..)
  rw [intDigits_eq, digits]
  by_cases negative : n < 0
  · rw [if_pos negative]
    exact ⟨c, cs, digit, .inr rfl⟩
  · rw [if_neg negative]
    exact ⟨c, cs, digit, .inl rfl⟩

theorem ne_of_isDigit {c d : Char} (digit : c.isDigit = true) (other : d.isDigit = false) : c ≠ d := by
  rintro rfl
  rw [digit] at other
  cases other

theorem natOfDigits_toDigits (k : Nat) : natOfDigits (Nat.toDigits 10 k) = k := by
  have same (cs : List Char) (n : Nat) : cs.foldl (fun n c => n * 10 + (c.toNat - '0'.toNat)) n =
      Nat.ofDigitChars 10 cs n := by
    simp only [Nat.ofDigitChars_eq_foldl, Nat.mul_comm]
  rw [natOfDigits, same, Nat.ofDigitChars_toDigits (by decide) (by decide)]

theorem spanDigits_append (digits : ∀ c ∈ cs, c.isDigit = true) (ends : EndsNumber rest) :
    spanDigits (cs ++ rest) = (cs, rest) := by
  have stops : rest.takeWhile Char.isDigit = [] ∧ rest.dropWhile Char.isDigit = rest := by
    cases rest with
    | nil => exact ⟨rfl, rfl⟩
    | cons c rest =>
      have other := (ends c rfl).1
      exact ⟨List.takeWhile_cons_of_neg (by simp [other]), List.dropWhile_cons_of_neg (by simp [other])⟩
  rw [spanDigits, List.takeWhile_append_of_pos digits, List.dropWhile_append_of_pos digits, stops.1,
    stops.2, List.append_nil]

theorem readWhole?_toDigits (ends : EndsNumber rest) :
    readWhole? (Nat.toDigits 10 k ++ rest) = some (Nat.toDigits 10 k, rest) := by
  by_cases zero : k = 0
  · rw [zero]
    rfl
  · obtain ⟨c, cs, digits, other⟩ := head_toDigits_ne (Nat.pos_of_ne_zero zero)
    have all := isDigit_toDigits k
    have span := spanDigits_append all ends
    rw [digits] at all span ⊢
    -- A number above zero has no zero in front, so all its digits are read.
    have between : '1' ≤ c ∧ c ≤ '9' := by
      have digit := all c (List.mem_cons_self ..)
      simp only [Char.isDigit, Bool.and_eq_true, decide_eq_true_eq] at digit
      have low : 48 ≤ c.toNat := digit.1
      have differs : c.toNat ≠ 48 := fun same => other (Char.ext (UInt32.toNat_inj.mp same))
      exact ⟨show 49 ≤ c.toNat by omega, digit.2⟩
    rw [List.cons_append, readWhole?, if_pos between]
    · exact congrArg some span
    · exact other

theorem readFraction_eq (ends : EndsNumber rest) : readFraction rest = ([], rest) := by
  unfold readFraction
  split
  · exact absurd rfl (ends '.' rfl).2.1
  · rfl

theorem readExponent_eq (ends : EndsNumber rest) : readExponent rest = (none, rest) := by
  cases rest with
  | nil => rfl
  | cons c rest =>
    obtain ⟨-, -, small, capital⟩ := ends c rfl
    show (if c == 'e' || c == 'E' then _ else _) = _
    rw [if_neg (by simp [small, capital])]

/-- A number that is not too long is read from the digits it is written with. -/
theorem readNumber_intDigits {n : Int} (short : IsShort n) (ends : EndsNumber rest) :
    readNumber (intDigits n ++ rest) = .ok (.int n, rest) := by
  have whole := readWhole?_toDigits (k := n.natAbs) ends
  have value : natOfDigits (Nat.toDigits 10 n.natAbs ++ []) = n.natAbs := by
    rw [List.append_nil, natOfDigits_toDigits]
  have enough : ¬digitLimit < (Nat.toDigits 10 n.natAbs).length := Nat.not_lt.mpr short
  rw [intDigits_eq]
  by_cases negative : n < 0
  · rw [if_pos negative]
    show readNumber ('-' :: (Nat.toDigits 10 n.natAbs ++ rest)) = _
    rw [readNumber]
    simp only [whole, readFraction_eq ends, readExponent_eq ends, value, List.isEmpty_nil,
      Option.isNone_none, Bool.and_self, if_true, if_neg enough]
    congr 3
    omega
  · rw [if_neg negative, List.nil_append]
    -- Digits hold no minus sign, so none is taken for one.
    have unsigned (r : List Char) (same : Nat.toDigits 10 n.natAbs ++ rest = '-' :: r) : False := by
      obtain ⟨ds, digits, -⟩ := (List.append_eq_cons_iff.mp same).resolve_left fun empty =>
        Nat.toDigits_ne_nil empty.1
      have minus := isDigit_toDigits n.natAbs '-' (by rw [digits]; exact List.mem_cons_self ..)
      exact absurd minus (by decide)
    rw [readNumber]
    · simp only [whole, readFraction_eq ends, readExponent_eq ends, value, List.isEmpty_nil,
        Option.isNone_none, Bool.and_self, if_true, if_neg enough, Bool.false_eq_true, if_false]
      congr 3
      omega
    · exact unsigned

end

/-! ### Values -/

/-- The text starts as the text of a value does: with no blank and with no bracket
    that closes. -/
def StartsValue (cs : List Char) : Prop :=
  ∃ c ds, cs = c :: ds ∧ isSpace c = false ∧ c ≠ ']' ∧ c ≠ '\x7d'

section

variable {before after cs ds rest : List Char} {fuel : Nat} {v : Value}

theorem StartsValue.append (h : StartsValue cs) (ds : List Char) : StartsValue (cs ++ ds) := by
  obtain ⟨c, cs, rfl, starts⟩ := h
  exact ⟨c, cs ++ ds, rfl, starts⟩

theorem startsValue_writeAt (layout : Layout) (level : Nat) (v : Value) :
    StartsValue (writeAt layout level v) := by
  -- A number starts with a digit or a minus sign, a row and a table with a bracket.
  have number (n : Int) (ds : List Char) : StartsValue (intDigits n ++ ds) := by
    obtain ⟨c, cs, digit, digits | digits⟩ := intDigits_cases n
    · have space : isSpace c = false := by
        simp [isSpace, ne_of_isDigit digit (d := ' ') rfl, ne_of_isDigit digit (d := '\t') rfl,
          ne_of_isDigit digit (d := '\n') rfl, ne_of_isDigit digit (d := '\r') rfl]
      rw [digits]
      exact ⟨c, cs ++ ds, rfl, space, ne_of_isDigit digit rfl, ne_of_isDigit digit rfl⟩
    · rw [digits]
      exact ⟨'-', c :: cs ++ ds, rfl, rfl, by decide, by decide⟩
  have enclosed {left right : Char} (items : List (List Char)) (starts : isSpace left = false ∧
      left ≠ ']' ∧ left ≠ '\x7d') : StartsValue (layout.enclose level left right items) := by
    unfold Layout.enclose
    split
    · exact ⟨left, _, rfl, starts⟩
    · exact ⟨left, _, rfl, starts⟩
  cases v with
  | null => exact ⟨'n', _, rfl, rfl, by decide, by decide⟩
  | bool b => cases b <;> exact ⟨_, _, rfl, rfl, by decide, by decide⟩
  | int n =>
    have start := number n []
    rwa [List.append_nil] at start
  | real d => exact number _ _
  | notFinite => exact ⟨'N', _, rfl, rfl, by decide, by decide⟩
  | string s => exact ⟨'"', _, rfl, rfl, by decide, by decide⟩
  | array vs => exact enclosed _ (by decide)
  | object ms => exact enclosed _ (by decide)

theorem skipSpace_blank (blank : IsBlank before) (cs : List Char) :
    skipSpace (before ++ cs) = skipSpace cs :=
  List.dropWhile_append_of_pos blank

theorem skipSpace_cons {c : Char} (other : isSpace c = false) (cs : List Char) :
    skipSpace (c :: cs) = c :: cs :=
  List.dropWhile_cons_of_neg (by simp [other])

theorem skipSpace_value (blank : IsBlank before) (starts : StartsValue cs) :
    skipSpace (before ++ cs) = cs := by
  obtain ⟨c, ds, rfl, other, -⟩ := starts
  rw [skipSpace_blank blank, skipSpace_cons other]

theorem endsNumber_cons {c : Char} (other : c.isDigit = false ∧ c ≠ '.' ∧ c ≠ 'e' ∧ c ≠ 'E')
    (rest : List Char) : EndsNumber (c :: rest) := by
  intro d hd
  cases hd
  exact other

theorem endsNumber_blank {c : Char} (blank : IsBlank before)
    (other : c.isDigit = false ∧ c ≠ '.' ∧ c ≠ 'e' ∧ c ≠ 'E') (rest : List Char) :
    EndsNumber (before ++ c :: rest) := by
  cases before with
  | nil => exact endsNumber_cons other rest
  | cons b before =>
    have space := blank b (List.mem_cons_self ..)
    simp only [isSpace, Bool.or_eq_true, beq_iff_eq] at space
    refine endsNumber_cons ?_ (before ++ c :: rest)
    rcases space with ((rfl | rfl) | rfl) | rfl <;> decide

/-! #### Steps of the reader -/

theorem readValue_array (blank : IsBlank before) (starts : StartsValue cs) :
    readValue (fuel + 1) ('[' :: (before ++ cs)) = readElements fuel [] cs := by
  have skipped := skipSpace_value blank starts
  obtain ⟨c, ds, rfl, -, other, -⟩ := starts
  rw [readValue, skipped]
  split
  · rename_i same
    exact absurd (List.cons.inj same).1 other
  · rfl

theorem readValue_object (blank : IsBlank before) (starts : StartsValue cs) :
    readValue (fuel + 1) ('\x7b' :: (before ++ cs)) = readMembers fuel [] cs := by
  have skipped := skipSpace_value blank starts
  obtain ⟨c, ds, rfl, -, -, other⟩ := starts
  rw [readValue, skipped]
  split
  · rename_i same
    exact absurd (List.cons.inj same).1 other
  · rfl

/-- A closing bracket after blanks ends the array. -/
theorem readElements_last {held : List Value} (blank : IsBlank after)
    (read : readValue fuel cs = .ok (v, after ++ ']' :: rest)) :
    readElements (fuel + 1) held cs = .ok (.array (held.reverse ++ [v]), rest) := by
  have skipped : skipSpace (after ++ ']' :: rest) = ']' :: rest := by
    rw [skipSpace_blank blank, skipSpace_cons rfl]
  rw [readElements, read, ← List.reverse_cons]
  simp only [bind, Except.bind, skipped]

/-- After a comma the next element is read. -/
theorem readElements_more {held : List Value} (blank : IsBlank before) (starts : StartsValue rest)
    (read : readValue fuel cs = .ok (v, ',' :: (before ++ rest))) :
    readElements (fuel + 1) held cs = readElements fuel (v :: held) rest := by
  have skipped : skipSpace (',' :: (before ++ rest)) = ',' :: (before ++ rest) := skipSpace_cons rfl _
  rw [readElements, read]
  simp only [bind, Except.bind, skipped, skipSpace_value blank starts]

theorem setMember_eq {members : List (String × Value)} {k : String}
    (fresh : k ∉ members.map (·.1)) (v : Value) : setMember members k v = members ++ [(k, v)] := by
  refine if_neg fun some => fresh ?_
  obtain ⟨m, mem, same⟩ := List.any_eq_true.mp some
  exact List.mem_map.mpr ⟨m, mem, eq_of_beq same⟩

/-- A member is its name, a colon and blanks before its value. -/
theorem exists_member_eq (layout : Layout) (k : String) (cs : List Char) :
    ∃ pad, IsBlank pad ∧ quoteString k ++ layout.colon ++ cs =
      '"' :: (k.toList.flatMap escapeChar ++ '"' :: ':' :: (pad ++ cs)) := by
  have written (pad : List Char) : quoteString k ++ ':' :: pad ++ cs =
      '"' :: (k.toList.flatMap escapeChar ++ '"' :: ':' :: (pad ++ cs)) := by
    rw [quoteString]
    simp only [List.append_assoc, List.cons_append, List.nil_append]
  cases layout with
  | compact => exact ⟨[], isBlank_nil, written []⟩
  | indented => exact ⟨[' '], List.forall_mem_singleton.mpr rfl, written [' ']⟩

/-- A closing brace after blanks ends the object. -/
theorem readMembers_last {held : List (String × Value)} (layout : Layout) {k : String}
    (fresh : k ∉ held.map (·.1)) (starts : StartsValue cs) (blank : IsBlank after)
    (read : readValue fuel cs = .ok (v, after ++ '\x7d' :: rest)) :
    readMembers (fuel + 1) held (quoteString k ++ layout.colon ++ cs) =
      .ok (.object (held ++ [(k, v)]), rest) := by
  obtain ⟨pad, padded, text⟩ := exists_member_eq layout k cs
  have colon : skipSpace (':' :: (pad ++ cs)) = ':' :: (pad ++ cs) := skipSpace_cons rfl _
  have skipped : skipSpace (after ++ '\x7d' :: rest) = '\x7d' :: rest := by
    rw [skipSpace_blank blank, skipSpace_cons rfl]
  rw [text, readMembers, readString_escaped]
  simp only [bind, Except.bind, colon, skipSpace_value padded starts, read, skipped,
    List.reverse_nil, List.nil_append, String.ofList_toList, setMember_eq fresh]

/-- After a comma the next member is read. -/
theorem readMembers_more {held : List (String × Value)} (layout : Layout) {k : String}
    (fresh : k ∉ held.map (·.1)) (starts : StartsValue cs) (blank : IsBlank before)
    (starts' : StartsValue rest) (read : readValue fuel cs = .ok (v, ',' :: (before ++ rest))) :
    readMembers (fuel + 1) held (quoteString k ++ layout.colon ++ cs) =
      readMembers fuel (held ++ [(k, v)]) rest := by
  obtain ⟨pad, padded, text⟩ := exists_member_eq layout k cs
  have colon : skipSpace (':' :: (pad ++ cs)) = ':' :: (pad ++ cs) := skipSpace_cons rfl _
  have skipped : skipSpace (',' :: (before ++ rest)) = ',' :: (before ++ rest) := skipSpace_cons rfl _
  rw [text, readMembers, readString_escaped]
  simp only [bind, Except.bind, colon, skipSpace_value padded starts, read, skipped,
    skipSpace_value blank starts', List.reverse_nil, List.nil_append, String.ofList_toList,
    setMember_eq fresh]

/-- What starts neither a string nor an object nor an array and has no name is read as
    a number. -/
theorem readValue_number {c : Char} (others : c ≠ '"' ∧ c ≠ '\x7b' ∧ c ≠ '[')
    (named : readNamed? (c :: cs) = none) : readValue (fuel + 1) (c :: cs) = readNumber (c :: cs) := by
  rw [readValue, named]
  · exact fun _ same => others.1 (List.cons.inj same).1
  · exact fun _ same => others.2.1 (List.cons.inj same).1
  · exact fun _ same => others.2.2 (List.cons.inj same).1

/-- A number is read where a value is expected. -/
theorem readValue_intDigits {n : Int} (short : IsShort n) (ends : EndsNumber rest) :
    readValue (fuel + 1) (intDigits n ++ rest) = .ok (.int n, rest) := by
  rw [← readNumber_intDigits short ends]
  obtain ⟨c, cs, digit, digits | digits⟩ := intDigits_cases n
  · have differs {d : Char} (other : d.isDigit = false) : d ≠ c := (ne_of_isDigit digit other).symm
    have named : readNamed? (c :: (cs ++ rest)) = none := by
      simp [readNamed?, namedValues, differs (d := 'n') rfl, differs (d := 't') rfl,
        differs (d := 'f') rfl, differs (d := 'N') rfl, differs (d := 'I') rfl, differs (d := '-') rfl]
    have others : c ≠ '"' ∧ c ≠ '\x7b' ∧ c ≠ '[' :=
      ⟨ne_of_isDigit digit rfl, ne_of_isDigit digit rfl, ne_of_isDigit digit rfl⟩
    rw [digits]
    exact readValue_number others named
  · -- The sign of a number is followed by a digit, that of an infinity is not.
    have named : readNamed? ('-' :: c :: (cs ++ rest)) = none := by
      simp [readNamed?, namedValues, (ne_of_isDigit digit (d := 'I') rfl).symm]
    rw [digits]
    exact readValue_number (by decide) named

theorem startsValue_joinWith {separator : List Char} {items : List (List Char)} (starts : StartsValue cs) :
    StartsValue (joinWith separator (cs :: items)) := by
  cases items with
  | nil => exact starts
  | cons ds items =>
    show StartsValue (cs ++ separator ++ joinWith separator (ds :: items))
    rw [List.append_assoc]
    exact starts.append _

theorem startsValue_member (layout : Layout) (k : String) (cs : List Char) :
    StartsValue (quoteString k ++ layout.colon ++ cs) :=
  ⟨'"', _, rfl, rfl, by decide, by decide⟩

theorem fresh_of_nodup {held ms : List (String × Value)} {k : String}
    (apart : ((held ++ (k, v) :: ms).map (·.1)).Nodup) : k ∉ held.map (·.1) := by
  rw [List.map_append, List.nodup_append] at apart
  intro mem
  exact apart.2.2 k mem k (List.mem_cons_self ..) rfl

mutual

/-- A plain value is read from what is written for it.  The length of the text is fuel
    enough. -/
theorem readValue_writeAt (layout : Layout) (level : Nat) : (v : Value) → v.Plain IsShort →
    ∀ fuel rest, (writeAt layout level v).length ≤ fuel → EndsNumber rest →
      readValue fuel (writeAt layout level v ++ rest) = .ok (v, rest)
  | .null, _, fuel + 1, rest, _, _ => rfl
  | .bool true, _, fuel + 1, rest, _, _ => rfl
  | .bool false, _, fuel + 1, rest, _, _ => rfl
  | .int n, short, fuel + 1, rest, _, ends => readValue_intDigits short ends
  | .string s, _, fuel + 1, rest, _, _ => by
    show readValue (fuel + 1) ('"' :: (s.toList.flatMap escapeChar ++ ['"']) ++ rest) = _
    rw [List.cons_append, List.append_assoc, List.cons_append, List.nil_append, readValue,
      readString_escaped]
    simp [Except.map]
  | .array [], _, fuel + 1, rest, _, _ => rfl
  | .array (v :: vs), plain, fuel + 1, rest, enough, _ => by
    have some : writeElements layout (level + 1) (v :: vs) ≠ [] := List.cons_ne_nil _ _
    have starts : StartsValue (joinWith (',' :: layout.break (level + 1))
        (writeElements layout (level + 1) (v :: vs))) :=
      startsValue_joinWith (startsValue_writeAt layout (level + 1) v)
    have blank := isBlank_break layout
    have text : writeAt layout level (.array (v :: vs)) = _ := enclose_eq layout level some '[' ']'
    rw [text] at enough ⊢
    simp only [List.length_cons, List.length_append, List.length_nil] at enough
    simp only [List.append_assoc, List.cons_append, List.nil_append]
    -- After the bracket and the line break the elements are read one by one.
    rw [readValue_array (blank _) (starts.append _)]
    exact readElements_writeElements layout (level + 1) _ _ (blank _) (blank _) v vs plain fuel [] rest
      (by omega)
  | .object [], _, fuel + 1, rest, _, _ => rfl
  | .object ((k, v) :: ms), plain, fuel + 1, rest, enough, _ => by
    have some : writeMembers layout (level + 1) ((k, v) :: ms) ≠ [] := List.cons_ne_nil _ _
    have starts : StartsValue (joinWith (',' :: layout.break (level + 1))
        (writeMembers layout (level + 1) ((k, v) :: ms))) :=
      startsValue_joinWith (startsValue_member layout k _)
    have blank := isBlank_break layout
    have text : writeAt layout level (.object ((k, v) :: ms)) = _ :=
      enclose_eq layout level some '\x7b' '\x7d'
    rw [text] at enough ⊢
    simp only [List.length_cons, List.length_append, List.length_nil] at enough
    simp only [List.append_assoc, List.cons_append, List.nil_append]
    rw [readValue_object (blank _) (starts.append _)]
    exact readMembers_writeMembers layout (level + 1) _ _ (blank _) (blank _) k v ms plain.2 fuel [] rest
      plain.1 (by omega)
  | v, _, 0, rest, enough, _ => by
    -- No value is written as an empty text.
    obtain ⟨c, cs, text, -⟩ := startsValue_writeAt layout level v
    rw [text] at enough
    cases enough

/-- The elements of an array are read from what is written for them. -/
theorem readElements_writeElements (layout : Layout) (level : Nat) (before after : List Char)
    (blank : IsBlank before) (blank' : IsBlank after) : (v : Value) → (vs : List Value) →
    PlainElements IsShort (v :: vs) → ∀ fuel held rest,
      (joinWith (',' :: before) (writeElements layout level (v :: vs))).length < fuel →
      readElements fuel held
        (joinWith (',' :: before) (writeElements layout level (v :: vs)) ++ (after ++ ']' :: rest)) =
        .ok (.array (held.reverse ++ v :: vs), rest)
  | v, [], plain, fuel + 1, held, rest, enough => by
    have read := readValue_writeAt layout level v plain.1 fuel (after ++ ']' :: rest)
      (Nat.le_of_lt_succ enough) (endsNumber_blank blank' (by decide) rest)
    exact readElements_last blank' read
  | v, w :: vs, plain, fuel + 1, held, rest, enough => by
    have starts : StartsValue (joinWith (',' :: before) (writeElements layout level (w :: vs))) :=
      startsValue_joinWith (startsValue_writeAt layout level w)
    have text : joinWith (',' :: before) (writeElements layout level (v :: w :: vs)) =
        writeAt layout level v ++ ',' :: (before ++
          joinWith (',' :: before) (writeElements layout level (w :: vs))) := by
      show writeAt layout level v ++ ',' :: before ++ _ = _
      rw [List.append_assoc, List.cons_append]
    rw [text] at enough ⊢
    simp only [List.length_append, List.length_cons] at enough
    have read := readValue_writeAt layout level v plain.1 fuel
      (',' :: (before ++ (joinWith (',' :: before) (writeElements layout level (w :: vs)) ++
        (after ++ ']' :: rest)))) (by omega) (endsNumber_cons (by decide) _)
    simp only [List.append_assoc, List.cons_append]
    rw [readElements_more blank (starts.append _) read]
    -- The element joins those that are held, which stand in reverse.
    have others := readElements_writeElements layout level before after blank blank' w vs plain.2 fuel
      (v :: held) rest (by omega)
    rwa [List.reverse_cons, List.append_assoc] at others
  | v, vs, plain, 0, held, rest, enough => by
    cases enough

/-- The members of an object are read from what is written for them, after others that
    have other names. -/
theorem readMembers_writeMembers (layout : Layout) (level : Nat) (before after : List Char)
    (blank : IsBlank before) (blank' : IsBlank after) : (k : String) → (v : Value) →
    (ms : List (String × Value)) → PlainMembers IsShort ((k, v) :: ms) →
    ∀ fuel held rest, ((held ++ (k, v) :: ms).map (·.1)).Nodup →
      (joinWith (',' :: before) (writeMembers layout level ((k, v) :: ms))).length < fuel →
      readMembers fuel held (joinWith (',' :: before) (writeMembers layout level ((k, v) :: ms)) ++
        (after ++ '\x7d' :: rest)) = .ok (.object (held ++ (k, v) :: ms), rest)
  | k, v, [], plain, fuel + 1, held, rest, apart, enough => by
    have text : joinWith (',' :: before) (writeMembers layout level [(k, v)]) =
      quoteString k ++ layout.colon ++ writeAt layout level v := rfl
    rw [text] at enough ⊢
    simp only [List.length_append] at enough
    have read := readValue_writeAt layout level v plain.1 fuel (after ++ '\x7d' :: rest)
      (by omega) (endsNumber_blank blank' (by decide) rest)
    have starts := (startsValue_writeAt layout level v).append (after ++ '\x7d' :: rest)
    rw [List.append_assoc]
    exact readMembers_last layout (fresh_of_nodup apart) starts blank' read
  | k, v, (k', w) :: ms, plain, fuel + 1, held, rest, apart, enough => by
    have starts : StartsValue (joinWith (',' :: before) (writeMembers layout level ((k', w) :: ms))) :=
      startsValue_joinWith (startsValue_member layout k' _)
    have text : joinWith (',' :: before) (writeMembers layout level ((k, v) :: (k', w) :: ms)) =
        quoteString k ++ layout.colon ++ (writeAt layout level v ++ ',' :: (before ++
          joinWith (',' :: before) (writeMembers layout level ((k', w) :: ms)))) := by
      show quoteString k ++ layout.colon ++ writeAt layout level v ++ ',' :: before ++ _ = _
      simp only [List.append_assoc, List.cons_append]
    rw [text] at enough ⊢
    simp only [List.length_append, List.length_cons] at enough
    have read := readValue_writeAt layout level v plain.1 fuel
      (',' :: (before ++ (joinWith (',' :: before) (writeMembers layout level ((k', w) :: ms)) ++
        (after ++ '\x7d' :: rest)))) (by omega) (endsNumber_cons (by decide) _)
    have first := (startsValue_writeAt layout level v).append (',' :: (before ++
      (joinWith (',' :: before) (writeMembers layout level ((k', w) :: ms)) ++
        (after ++ '\x7d' :: rest))))
    -- The member joins those that are held, and the others have other names than it.
    have others := readMembers_writeMembers layout level before after blank blank' k' w ms plain.2 fuel
      (held ++ [(k, v)]) rest (by rwa [List.append_assoc]) (by omega)
    rw [List.append_assoc held] at others
    have more := readMembers_more layout (fresh_of_nodup apart) first blank (starts.append _) read
    simp only [List.append_assoc, List.cons_append] at more ⊢
    exact more.trans others
  | k, v, ms, plain, 0, held, rest, apart, enough => by
    cases enough

end

/-- A plain value is read from the document that it is written as. -/
theorem readDocument_write (layout : Layout) {v : Value} (plain : v.Plain IsShort) :
    readDocument (write layout v).toList = .ok v := by
  have starts := startsValue_writeAt layout 0 v
  have skipped := skipSpace_value isBlank_nil starts
  have read := readValue_writeAt layout 0 v plain ((writeAt layout 0 v).length + 1) []
    (Nat.le_succ _) (fun _ hc => by cases hc)
  -- What is written is ASCII, so it does not begin with a byte order mark.
  have mark : ¬((writeAt layout 0 v).head? == some '\ufeff') = true := by
    intro same
    have ascii := isAscii_writeAt layout 0 v '\ufeff' (List.mem_of_mem_head? (eq_of_beq same))
    exact absurd ascii (by decide)
  rw [List.append_nil] at read
  rw [List.nil_append] at skipped
  rw [write, String.toList_ofList, readDocument, if_neg mark, skipped, read]
  rfl

end

end ShellInliner.Json
