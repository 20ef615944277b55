import ShellInliner.Json.Reader
import ShellInliner.Json.Writer

/-! # The language of JSON

    The texts that the standard calls values, without what the reader accepts beyond
    them.  A value is written as such a text of ASCII characters in every layout,
    unless it holds one of the values that are no numbers. -/

namespace ShellInliner.Json

/-! ### The grammar -/

/-- Blanks and line ends only. -/
def IsBlank (cs : List Char) : Prop :=
  ∀ c ∈ cs, isSpace c = true

/-- Decimal digits, and at least one. -/
def IsDigits (cs : List Char) : Prop :=
  cs ≠ [] ∧ ∀ c ∈ cs, c.isDigit = true

/-- The whole part of a number does not start with a zero unless it is one. -/
inductive IsWhole : List Char → Prop
  /-- A zero. -/
  | zero : IsWhole ['0']
  /-- Digits after one that is no zero. -/
  | digits {c : Char} {cs : List Char} (first : c.isDigit = true) (other : c ≠ '0')
      (others : ∀ d ∈ cs, d.isDigit = true) : IsWhole (c :: cs)

/-- The fraction of a number, which may be missing. -/
inductive IsFraction : List Char → Prop
  /-- There is none. -/
  | none : IsFraction []
  /-- Digits after a point. -/
  | some {cs : List Char} (digits : IsDigits cs) : IsFraction ('.' :: cs)

/-- The exponent of a number, which may be missing. -/
inductive IsExponent : List Char → Prop
  /-- There is none. -/
  | none : IsExponent []
  /-- Digits after a letter and perhaps a sign. -/
  | some {e : Char} {sign cs : List Char} (letter : e = 'e' ∨ e = 'E')
      (signed : sign = [] ∨ sign = ['+'] ∨ sign = ['-']) (digits : IsDigits cs) :
      IsExponent (e :: (sign ++ cs))

/-- A number. -/
inductive IsNumber : List Char → Prop
  /-- It may have a minus sign. -/
  | mk {sign whole fraction exponent : List Char} (signed : sign = [] ∨ sign = ['-'])
      (first : IsWhole whole) (second : IsFraction fraction) (third : IsExponent exponent) :
      IsNumber (sign ++ (whole ++ (fraction ++ exponent)))

/-- What stands between the quotes of a string. -/
inductive IsCharacters : List Char → Prop
  /-- Nothing. -/
  | nil : IsCharacters []
  /-- A character that stands for itself. -/
  | plain {c : Char} {cs : List Char} (visible : 0x20 ≤ c.toNat) (quote : c ≠ '"')
      (backslash : c ≠ '\\') (others : IsCharacters cs) : IsCharacters (c :: cs)
  /-- A letter after a backslash. -/
  | escape {c : Char} {cs : List Char} (known : (simpleEscape? c).isSome = true)
      (others : IsCharacters cs) : IsCharacters ('\\' :: c :: cs)
  /-- A code unit of four hexadecimal digits. -/
  | unit {a b c d : Char} {cs : List Char} (digits : (unit? a b c d).isSome = true)
      (others : IsCharacters cs) : IsCharacters ('\\' :: 'u' :: a :: b :: c :: d :: cs)

/-- A string. -/
inductive IsString : List Char → Prop
  /-- Its characters stand between quotes. -/
  | mk {cs : List Char} (inside : IsCharacters cs) : IsString ('"' :: (cs ++ ['"']))

/-- Such a text with blanks around it. -/
inductive Padded (P : List Char → Prop) : List Char → Prop
  /-- There may be blanks before it and after it. -/
  | mk {before cs after : List Char} (first : IsBlank before) (inner : P cs) (last : IsBlank after) :
      Padded P (before ++ (cs ++ after))

/-- Such texts with a comma between each two, and at least one. -/
inductive Separated (P : List Char → Prop) : List Char → Prop
  /-- There is one. -/
  | one {cs : List Char} (only : P cs) : Separated P cs
  /-- One stands before the others. -/
  | cons {cs ds : List Char} (first : P cs) (others : Separated P ds) : Separated P (cs ++ ',' :: ds)

/-- A name, a colon and such a text. -/
inductive Named (P : List Char → Prop) : List Char → Prop
  /-- There may be blanks around both. -/
  | mk {name cs : List Char} (string : Padded IsString name) (inner : Padded P cs) :
      Named P (name ++ ':' :: cs)

/-- A value. -/
inductive IsValue : List Char → Prop
  /-- `null`. -/
  | null : IsValue "null".toList
  /-- `true` or `false`. -/
  | bool (b : Bool) : IsValue (if b then "true" else "false").toList
  /-- A number. -/
  | number {cs : List Char} (number : IsNumber cs) : IsValue cs
  /-- A string. -/
  | string {cs : List Char} (string : IsString cs) : IsValue cs
  /-- A sequence without elements. -/
  | emptyArray {cs : List Char} (inside : IsBlank cs) : IsValue ('[' :: (cs ++ [']']))
  /-- A sequence. -/
  | array {cs : List Char} (inside : Separated (Padded IsValue) cs) : IsValue ('[' :: (cs ++ [']']))
  /-- An object without members. -/
  | emptyObject {cs : List Char} (inside : IsBlank cs) : IsValue ('\x7b' :: (cs ++ ['\x7d']))
  /-- An object. -/
  | object {cs : List Char} (inside : Separated (Named IsValue) cs) :
      IsValue ('\x7b' :: (cs ++ ['\x7d']))

/-- A document is a value with blanks around it. -/
def IsDocument : List Char → Prop :=
  Padded IsValue

/-! ### Plain values -/

mutual

/-- The value holds no numbers but whole ones of a certain sort, and no object in it
    has two members of one name. -/
def Value.Plain (p : Int → Prop) : Value → Prop
  | .null | .bool _ | .string _ => True
  | .int n => p n
  | .real _ | .notFinite => False
  | .array vs => PlainElements p vs
  | .object ms => (ms.map (·.1)).Nodup ∧ PlainMembers p ms

/-- All these values are plain. -/
def PlainElements (p : Int → Prop) : List Value → Prop
  | [] => True
  | v :: vs => v.Plain p ∧ PlainElements p vs

/-- The values of all these members are plain. -/
def PlainMembers (p : Int → Prop) : List (String × Value) → Prop
  | [] => True
  | (_, v) :: ms => v.Plain p ∧ PlainMembers p ms

end

theorem plainElements_iff {p : Int → Prop} {vs : List Value} :
    PlainElements p vs ↔ ∀ v ∈ vs, v.Plain p := by
  induction vs with
  | nil => simp [PlainElements]
  | cons v vs ih => rw [PlainElements, ih, List.forall_mem_cons]

theorem plainMembers_iff {p : Int → Prop} {ms : List (String × Value)} :
    PlainMembers p ms ↔ ∀ m ∈ ms, m.2.Plain p := by
  induction ms with
  | nil => simp [PlainMembers]
  | cons m ms ih => rw [PlainMembers, ih, List.forall_mem_cons]

/-! ### Numbers -/

theorem intDigits_eq (n : Int) :
    intDigits n = (if n < 0 then ['-'] else []) ++ Nat.toDigits 10 n.natAbs := by
  have digits (k : Nat) : (Nat.repr k).toList = Nat.toDigits 10 k := by
    rw [Nat.repr_eq_ofList_toDigits, String.toList_ofList]
  cases n with
  | ofNat k =>
    rw [if_neg (show ¬Int.ofNat k < 0 from Int.not_lt.mpr (Int.natCast_nonneg k))]
    exact digits k
  | negSucc k =>
    show ("-" ++ Nat.repr (k + 1)).toList = _
    rw [String.toList_append, digits, if_pos (Int.negSucc_lt_zero k)]
    rfl

theorem isDigit_toDigits (k : Nat) : ∀ c ∈ Nat.toDigits 10 k, c.isDigit = true :=
  fun _ hc => Nat.isDigit_of_mem_toDigits (by decide) (by decide) hc

theorem isDigits_toDigits (k : Nat) : IsDigits (Nat.toDigits 10 k) :=
  ⟨Nat.toDigits_ne_nil, isDigit_toDigits k⟩

/-- The digits of a number start with a zero only if it is zero. -/
theorem head_toDigits_ne {k : Nat} (positive : 0 < k) :
    ∃ c cs, Nat.toDigits 10 k = c :: cs ∧ c ≠ '0' := by
  induction k using Nat.strongRecOn with
  | _ k ih =>
    by_cases small : k < 10
    · refine ⟨k.digitChar, [], Nat.toDigits_of_lt_base small, fun zero => ?_⟩
      have check : ∀ d < 10, d.digitChar = '0' → d = 0 := by decide
      have := check k small zero
      omega
    · obtain ⟨c, cs, digits, other⟩ := ih (k / 10) (by omega) (by omega)
      refine ⟨c, cs ++ [(k % 10).digitChar], ?_, other⟩
      rw [Nat.toDigits_of_base_le (by decide) (by omega), digits]
      rfl

theorem isWhole_toDigits (k : Nat) : IsWhole (Nat.toDigits 10 k) := by
  by_cases zero : k = 0
  · rw [zero]
    exact .zero
  · obtain ⟨c, cs, digits, other⟩ := head_toDigits_ne (Nat.pos_of_ne_zero zero)
    have all := isDigit_toDigits k
    rw [digits] at all ⊢
    exact .digits (all c (List.mem_cons_self ..)) other fun d hd => all d (List.mem_cons_of_mem _ hd)

theorem isNumber_intDigits (n : Int) : IsNumber (intDigits n) := by
  have number : IsNumber ((if n < 0 then ['-'] else []) ++
      (Nat.toDigits 10 n.natAbs ++ ([] ++ []))) := by
    refine .mk ?_ (isWhole_toDigits _) .none .none
    by_cases negative : n < 0
    · exact .inr (if_pos negative)
    · exact .inl (if_neg negative)
  rwa [List.append_nil, List.append_nil, ← intDigits_eq] at number

/-! ### Strings -/

theorem hexDigits_succ (width n : Nat) :
    Text.hexDigits (width + 2) n = Text.hexDigits (width + 1) (n / 16) ++ [(n % 16).digitChar] := by
  by_cases small : n < 16
  · -- A single digit has zeros before it in any case.
    rw [Nat.div_eq_of_lt small, Nat.mod_eq_of_lt small]
    unfold Text.hexDigits
    rw [Nat.toDigits_of_lt_base small, Nat.toDigits_zero]
    show List.replicate (width + 1) '0' ++ _ = List.replicate width '0' ++ ['0'] ++ _
    rw [← List.replicate_succ']
  · unfold Text.hexDigits
    rw [Nat.toDigits_of_base_le (by decide) (by omega)]
    simp

/-- Four hexadecimal digits spell every code unit. -/
theorem exists_hexDigits {n : Nat} (small : n < 0x10000) :
    ∃ a b c d, Text.hexDigits 4 n = [a, b, c, d] ∧ unit? a b c d = some n ∧
      ∀ x ∈ [a, b, c, d], x.toNat < 128 := by
  have value : ∀ d < 16, hexValue? d.digitChar = some d ∧ d.digitChar.toNat < 128 := by decide
  have first : n / 16 / 16 / 16 < 16 := by omega
  have one : Text.hexDigits 1 (n / 16 / 16 / 16) = [(n / 16 / 16 / 16).digitChar] := by
    rw [Text.hexDigits, Nat.toDigits_of_lt_base first]
    rfl
  obtain ⟨valueA, asciiA⟩ := value _ first
  obtain ⟨valueB, asciiB⟩ := value (n / 16 / 16 % 16) (Nat.mod_lt _ (by decide))
  obtain ⟨valueC, asciiC⟩ := value (n / 16 % 16) (Nat.mod_lt _ (by decide))
  obtain ⟨valueD, asciiD⟩ := value (n % 16) (Nat.mod_lt _ (by decide))
  -- The digits are taken from the last one on.
  refine ⟨(n / 16 / 16 / 16).digitChar, (n / 16 / 16 % 16).digitChar, (n / 16 % 16).digitChar,
    (n % 16).digitChar, ?_, ?_, ?_⟩
  · rw [hexDigits_succ, hexDigits_succ, hexDigits_succ, one]
    rfl
  · unfold unit?
    rw [valueA, valueB, valueC, valueD]
    show some _ = some n
    congr 1
    omega
  · simp [asciiA, asciiB, asciiC, asciiD]

/-- No character is half a pair. -/
theorem toNat_valid (c : Char) : c.toNat < 0xD800 ∨ 0xDFFF < c.toNat ∧ c.toNat < 0x110000 :=
  c.valid

/-- How a character is written in a string. -/
inductive Escaped (c : Char) : List Char → Prop
  /-- As a letter after a backslash. -/
  | letter {e : Char} (known : simpleEscape? e = some c) : Escaped c ['\\', e]
  /-- As itself. -/
  | plain (visible : 0x20 ≤ c.toNat) (ascii : c.toNat < 128) (quote : c ≠ '"')
      (backslash : c ≠ '\\') : Escaped c [c]
  /-- As one code unit. -/
  | unit (basic : c.toNat ≤ 0xFFFF) : Escaped c (unitEscape c.toNat)
  /-- As two code units. -/
  | pair {n : Nat} (beyond : c.toNat = 0x10000 + n) (bound : n < 0x100000) :
      Escaped c (unitEscape (0xD800 + n / 0x400) ++ unitEscape (0xDC00 + n % 0x400))

theorem Escaped.ite {c d e : Char} {cs : List Char} (known : simpleEscape? e = some d)
    (other : c ≠ d → Escaped c cs) : Escaped c (if c == d then ['\\', e] else cs) := by
  by_cases same : c = d
  · rw [if_pos (beq_iff_eq.mpr same), same]
    exact .letter known
  · rw [if_neg fun h => same (eq_of_beq h)]
    exact other same

theorem escaped_escapeChar (c : Char) : Escaped c (escapeChar c) := by
  refine .ite rfl fun quote => .ite rfl fun backslash => .ite rfl fun _ => .ite rfl fun _ =>
    .ite rfl fun _ => .ite rfl fun _ => .ite rfl fun _ => ?_
  have valid := toNat_valid c
  by_cases visible : 0x20 ≤ c.toNat ∧ c.toNat ≤ 0x7E
  · rw [if_pos visible]
    exact .plain visible.1 (by omega) quote backslash
  rw [if_neg visible]
  by_cases basic : c.toNat ≤ 0xFFFF
  · rw [if_pos basic]
    exact .unit basic
  · rw [if_neg basic]
    exact .pair (by omega) (by omega)

theorem isCharacters_unitEscape {n : Nat} (small : n < 0x10000) {cs : List Char}
    (others : IsCharacters cs) : IsCharacters (unitEscape n ++ cs) := by
  obtain ⟨a, b, c, d, digits, unit, -⟩ := exists_hexDigits small
  rw [unitEscape, digits]
  exact .unit (by rw [unit]; rfl) others

/-- What is written for a character may stand in a string. -/
theorem isCharacters_escapeChar (c : Char) {cs : List Char} (others : IsCharacters cs) :
    IsCharacters (escapeChar c ++ cs) := by
  have escaped := escaped_escapeChar c
  generalize escapeChar c = written at escaped
  cases escaped with
  | letter known => exact .escape (by rw [known]; rfl) others
  | plain visible _ quote backslash => exact .plain visible quote backslash others
  | unit basic => exact isCharacters_unitEscape (by omega) others
  | pair _ bound =>
    rw [List.append_assoc]
    exact isCharacters_unitEscape (by omega) (isCharacters_unitEscape (by omega) others)

theorem isString_quoteString (s : String) : IsString (quoteString s) := by
  have inside (cs : List Char) : IsCharacters (cs.flatMap escapeChar) := by
    induction cs with
    | nil => exact .nil
    | cons c cs ih => exact isCharacters_escapeChar c ih
  exact .mk (inside s.toList)

/-! ### Values -/

section

variable {P : List Char → Prop} {p : Int → Prop} {cs : List Char}

theorem isBlank_nil : IsBlank [] :=
  List.forall_mem_nil _

theorem isBlank_break (layout : Layout) (level : Nat) : IsBlank (layout.break level) := by
  cases layout with
  | compact => exact isBlank_nil
  | indented =>
    intro c hc
    rcases List.mem_cons.mp hc with rfl | hc
    · rfl
    · rw [List.eq_of_mem_replicate hc]
      rfl

theorem Padded.of (inner : P cs) : Padded P cs := by
  have padded := Padded.mk isBlank_nil inner isBlank_nil
  rwa [List.nil_append, List.append_nil] at padded

theorem Padded.padded {before after : List Char} (first : IsBlank before) (h : Padded P cs)
    (last : IsBlank after) : Padded P (before ++ (cs ++ after)) := by
  obtain ⟨first', inner, last'⟩ := h
  have blank {as bs : List Char} (ha : IsBlank as) (hb : IsBlank bs) : IsBlank (as ++ bs) :=
    List.forall_mem_append.mpr ⟨ha, hb⟩
  have padded := Padded.mk (blank first first') inner (blank last' last)
  simpa only [List.append_assoc] using padded

theorem Named.padded {before after : List Char} (first : IsBlank before) (h : Named P cs)
    (last : IsBlank after) : Named P (before ++ (cs ++ after)) := by
  obtain ⟨string, inner⟩ := h
  have named := Named.mk (string.padded first isBlank_nil) (inner.padded isBlank_nil last)
  simpa only [List.append_assoc, List.append_nil, List.nil_append, List.cons_append] using named

/-- Items with a comma and a line break between each two, and a line break before and
    after all of them. -/
theorem separated_joinWith {items : List (List Char)} {before after : List Char} (some : items ≠ [])
    (first : IsBlank before) (last : IsBlank after)
    (each : ∀ cs ∈ items, ∀ x y, IsBlank x → IsBlank y → P (x ++ (cs ++ y))) :
    Separated P (before ++ (joinWith (',' :: before) items ++ after)) := by
  induction items with
  | nil => exact absurd rfl some
  | cons cs items ih =>
    have here := each cs (List.mem_cons_self ..)
    -- The blanks before the next item are those after the comma.
    cases items with
    | nil => exact .one (here before after first last)
    | cons ds items =>
      have others := ih (List.cons_ne_nil _ _) fun ds hd => each ds (List.mem_cons_of_mem _ hd)
      have all := Separated.cons (here before [] first isBlank_nil) others
      rw [joinWith]
      · simpa only [List.append_assoc, List.append_nil, List.cons_append] using all
      · simp

theorem enclose_eq (layout : Layout) (level : Nat) {items : List (List Char)} (some : items ≠ [])
    (left right : Char) : layout.enclose level left right items =
      left :: (layout.break (level + 1) ++ (joinWith (',' :: layout.break (level + 1)) items ++
        layout.break level) ++ [right]) := by
  rw [Layout.enclose, if_neg (by simpa using some)]
  simp only [List.append_assoc, List.cons_append]

theorem named_member (layout : Layout) (k : String) (value : IsValue cs) :
    Named IsValue (quoteString k ++ layout.colon ++ cs) := by
  have name : Padded IsString (quoteString k) := .of (isString_quoteString k)
  cases layout with
  | compact =>
    have named := Named.mk name (.of value)
    simpa only [Layout.colon, List.append_assoc, List.cons_append, List.nil_append] using named
  | indented =>
    have blank : IsBlank [' '] := List.forall_mem_singleton.mpr rfl
    have named := Named.mk name (.mk blank value isBlank_nil)
    simpa only [Layout.colon, List.append_assoc, List.cons_append, List.nil_append,
      List.append_nil] using named

mutual

/-- A plain value is written as a value of the standard. -/
theorem isValue_writeAt (layout : Layout) (level : Nat) :
    (v : Value) → v.Plain p → IsValue (writeAt layout level v)
  | .null, _ => .null
  | .bool b, _ => .bool b
  | .int n, _ => .number (isNumber_intDigits n)
  | .string s, _ => .string (isString_quoteString s)
  | .array [], _ => .emptyArray isBlank_nil
  | .array (v :: vs), plain => by
    have each := isValue_writeElements layout (level + 1) (v :: vs) plain
    have some : writeElements layout (level + 1) (v :: vs) ≠ [] := List.cons_ne_nil _ _
    rw [writeAt, enclose_eq layout level some]
    exact .array (separated_joinWith some (isBlank_break _ _) (isBlank_break _ _)
      fun cs hc _ _ before after => .mk before (each cs hc) after)
  | .object [], _ => .emptyObject isBlank_nil
  | .object (m :: ms), plain => by
    have each := isValue_writeMembers layout (level + 1) (m :: ms) plain.2
    have some : writeMembers layout (level + 1) (m :: ms) ≠ [] := List.cons_ne_nil _ _
    rw [writeAt, enclose_eq layout level some]
    exact .object (separated_joinWith some (isBlank_break _ _) (isBlank_break _ _)
      fun cs hc _ _ before after => (each cs hc).padded before after)

/-- So are the elements of an array. -/
theorem isValue_writeElements (layout : Layout) (level : Nat) :
    (vs : List Value) → PlainElements p vs → ∀ cs ∈ writeElements layout level vs, IsValue cs
  | [], _ => List.forall_mem_nil _
  | v :: vs, plain => List.forall_mem_cons.mpr
    ⟨isValue_writeAt layout level v plain.1, isValue_writeElements layout level vs plain.2⟩

/-- The members of an object are written as members of the standard. -/
theorem isValue_writeMembers (layout : Layout) (level : Nat) :
    (ms : List (String × Value)) → PlainMembers p ms →
      ∀ cs ∈ writeMembers layout level ms, Named IsValue cs
  | [], _ => List.forall_mem_nil _
  | (k, v) :: ms, plain => List.forall_mem_cons.mpr
    ⟨named_member layout k (isValue_writeAt layout level v plain.1),
      isValue_writeMembers layout level ms plain.2⟩

end

/-- A plain value is written as a document of the standard. -/
theorem isDocument_write (layout : Layout) {v : Value} (plain : v.Plain p) :
    IsDocument (write layout v).toList := by
  rw [write, String.toList_ofList]
  exact .of (isValue_writeAt layout 0 v plain)

end

/-! ### Characters -/

/-- The text has ASCII characters only. -/
def IsAscii (cs : List Char) : Prop :=
  ∀ c ∈ cs, c.toNat < 128

section

variable {cs ds : List Char}

theorem isAscii_of_all (h : cs.all (fun c => decide (c.toNat < 128)) = true) : IsAscii cs :=
  fun c hc => of_decide_eq_true (List.all_eq_true.mp h c hc)

theorem isAscii_append : IsAscii (cs ++ ds) ↔ IsAscii cs ∧ IsAscii ds :=
  List.forall_mem_append

theorem isAscii_cons {c : Char} : IsAscii (c :: cs) ↔ c.toNat < 128 ∧ IsAscii cs :=
  List.forall_mem_cons

theorem isAscii_of_isDigits (digits : IsDigits cs) : IsAscii cs := by
  intro c hc
  have digit := digits.2 c hc
  simp only [Char.isDigit, Bool.and_eq_true, decide_eq_true_eq] at digit
  have high : c.toNat ≤ 57 := digit.2
  omega

theorem isAscii_intDigits (n : Int) : IsAscii (intDigits n) := by
  rw [intDigits_eq, isAscii_append]
  refine ⟨?_, isAscii_of_isDigits (isDigits_toDigits _)⟩
  by_cases negative : n < 0
  · rw [if_pos negative]
    exact isAscii_of_all rfl
  · rw [if_neg negative]
    exact List.forall_mem_nil _

theorem isAscii_unitEscape {n : Nat} (small : n < 0x10000) : IsAscii (unitEscape n) := by
  obtain ⟨a, b, c, d, digits, -, ascii⟩ := exists_hexDigits small
  rw [unitEscape, digits, isAscii_cons, isAscii_cons]
  exact ⟨by decide, by decide, ascii⟩

theorem isAscii_escapeChar (c : Char) : IsAscii (escapeChar c) := by
  -- The characters that have an escape of one letter are all in ASCII.
  have letters {e d : Char} (known : simpleEscape? e = some d) : e.toNat < 128 := by
    unfold simpleEscape? at known
    split at known
    any_goals decide
    cases known
  have escaped := escaped_escapeChar c
  generalize escapeChar c = written at escaped
  cases escaped with
  | letter known => simp [IsAscii, letters known]
  | plain _ ascii => simpa [IsAscii] using ascii
  -- A unit is written in hexadecimal digits, whatever it stands for.
  | unit basic => exact isAscii_unitEscape (by omega)
  | pair _ bound =>
    exact isAscii_append.mpr ⟨isAscii_unitEscape (by omega), isAscii_unitEscape (by omega)⟩

theorem isAscii_quoteString (s : String) : IsAscii (quoteString s) := by
  have inside : IsAscii (s.toList.flatMap escapeChar) := by
    intro c hc
    obtain ⟨d, -, hc⟩ := List.mem_flatMap.mp hc
    exact isAscii_escapeChar d c hc
  rw [quoteString, isAscii_append, isAscii_cons]
  exact ⟨⟨by decide, inside⟩, isAscii_of_all rfl⟩

theorem isAscii_break (layout : Layout) (level : Nat) : IsAscii (layout.break level) := by
  intro c hc
  have blank := isBlank_break layout level c hc
  simp only [isSpace, Bool.or_eq_true, beq_iff_eq] at blank
  rcases blank with ((rfl | rfl) | rfl) | rfl <;> decide

theorem isAscii_enclose (layout : Layout) (level : Nat) {items : List (List Char)}
    (each : ∀ cs ∈ items, IsAscii cs) {left right : Char} (first : left.toNat < 128)
    (last : right.toNat < 128) : IsAscii (layout.enclose level left right items) := by
  have join {before : List Char} (blank : IsAscii before) {items : List (List Char)}
      (each : ∀ cs ∈ items, IsAscii cs) : IsAscii (joinWith (',' :: before) items) := by
    have comma : IsAscii (',' :: before) := isAscii_cons.mpr ⟨by decide, blank⟩
    fun_induction joinWith (',' :: before) items with
    | case1 => exact List.forall_mem_nil _
    | case2 x => exact each x (List.mem_cons_self ..)
    | case3 x xs _ ih =>
      rw [List.forall_mem_cons] at each
      exact isAscii_append.mpr ⟨isAscii_append.mpr ⟨each.1, comma⟩, ih each.2⟩
  have right : IsAscii [right] := isAscii_cons.mpr ⟨last, List.forall_mem_nil _⟩
  unfold Layout.enclose
  split
  · exact isAscii_cons.mpr ⟨first, right⟩
  · rw [isAscii_append, isAscii_append, isAscii_append, isAscii_cons]
    exact ⟨⟨⟨⟨first, isAscii_break _ _⟩, join (isAscii_break _ _) each⟩, isAscii_break _ _⟩, right⟩

mutual

/-- Every value is written in ASCII characters. -/
theorem isAscii_writeAt (layout : Layout) (level : Nat) : (v : Value) → IsAscii (writeAt layout level v)
  | .null => isAscii_of_all rfl
  | .bool b => by cases b <;> exact isAscii_of_all rfl
  | .notFinite => isAscii_of_all rfl
  | .int n => isAscii_intDigits n
  | .real d => by
    rw [writeAt, isAscii_append, isAscii_cons]
    exact ⟨isAscii_intDigits _, by decide, isAscii_intDigits _⟩
  | .string s => isAscii_quoteString s
  | .array vs =>
    isAscii_enclose layout level (isAscii_writeElements layout (level + 1) vs) (by decide) (by decide)
  | .object ms =>
    isAscii_enclose layout level (isAscii_writeMembers layout (level + 1) ms) (by decide) (by decide)

/-- So are the elements of an array. -/
theorem isAscii_writeElements (layout : Layout) (level : Nat) :
    (vs : List Value) → ∀ cs ∈ writeElements layout level vs, IsAscii cs
  | [] => List.forall_mem_nil _
  | v :: vs => List.forall_mem_cons.mpr
    ⟨isAscii_writeAt layout level v, isAscii_writeElements layout level vs⟩

/-- So are the members of an object. -/
theorem isAscii_writeMembers (layout : Layout) (level : Nat) :
    (ms : List (String × Value)) → ∀ cs ∈ writeMembers layout level ms, IsAscii cs
  | [] => List.forall_mem_nil _
  | (k, v) :: ms => by
    refine List.forall_mem_cons.mpr ⟨?_, isAscii_writeMembers layout level ms⟩
    have colon : IsAscii layout.colon := by
      cases layout <;> exact isAscii_of_all rfl
    exact isAscii_append.mpr
      ⟨isAscii_append.mpr ⟨isAscii_quoteString k, colon⟩, isAscii_writeAt layout level v⟩

end

theorem isAscii_write (layout : Layout) (v : Value) : IsAscii (write layout v).toList := by
  rw [write, String.toList_ofList]
  exact isAscii_writeAt layout 0 v

end

end ShellInliner.Json
