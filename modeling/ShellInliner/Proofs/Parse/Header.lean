import ShellInliner.Json.Writer
import ShellInliner.Node.Dump
import ShellInliner.Proofs.Grammar.Opening
import ShellInliner.Proofs.Parse.Unplaced

/-! # Lines without statements in front of a script

    Lines that are blank or hold only a comment do not change how the script after them
    is read.  The line end of the last one takes up the blanks and line ends that the
    script starts with, so its tokens are other ones, but its pieces are the same.

    One thing can come between: a continued line in front of the script that breaks at
    a carriage return.  A terminal may take the backslash and the carriage return as an
    escaped character, and if nothing but what can be skipped stands before the next
    line end, the text starts with statements and with line ends as well.  Which of both
    is taken depends on the line ends before it. -/

namespace ShellInliner

namespace Grammar

open Parse (pieces)

/-! ### What stands next -/

/-- Is there a place that skipping can reach from the start and that passes the test? -/
def reaches (test : List Char → Bool) (cs : List Char) : Bool :=
  (gaps cs).any fun g => test (cs.drop g)

section

variable {test : List Char → Bool} {cs : List Char}

theorem reaches_of_skip? {n : Nat} (skips : skip? cs = some n) :
    reaches test cs = (test cs || reaches test (cs.drop n)) := by
  unfold reaches
  rw [gaps_of_skip? skips, List.any_cons, List.drop_zero, List.any_map]
  simp only [Function.comp_def, List.drop_drop, Nat.add_comm n]

theorem reaches_of_none (none : skip? cs = none) : reaches test cs = test cs := by
  unfold reaches
  rw [gaps_of_none none, List.any_cons, List.any_nil, Bool.or_false, List.drop_zero]

end

/-- Can the terminal stand next, after what can be skipped? -/
def standsNext (t : Terminal) (cs : List Char) : Bool :=
  reaches (fun ds => (t.length? ds).isSome) cs

theorem tokenEntries_eq_nil {t : Terminal} {cs : List Char} (none : standsNext t cs = false) :
    tokenEntries t cs = [] := by
  refine List.filterMap_eq_nil_iff.mpr fun g mem => ?_
  have absent := List.any_eq_false.mp none g mem
  rw [Option.map_eq_none_iff]
  simpa using absent

/-- A line end that comes next stands after what is skipped. -/
theorem newline_standsNext_drop {cs : List Char} {n : Nat} (skips : skip? cs = some n)
    (stands : standsNext .newline cs = true) : standsNext .newline (cs.drop n) = true := by
  rw [standsNext, reaches_of_skip? skips, Bool.or_eq_true] at stands
  refine stands.resolve_left fun here => ?_
  obtain ⟨m, taken⟩ := Option.isSome_iff_exists.mp here
  rw [skip?_of_newline taken] at skips
  cases skips

/-- Where a line end comes next, the text cannot all be skipped. -/
theorem isSkippable_of_newline (cs : List Char) (stands : standsNext .newline cs = true) :
    isSkippable cs = false := by
  induction cs using skip_induct with
  | ends cs none =>
    rw [standsNext, reaches_of_none none] at stands
    -- Nothing is skipped here, and a line end takes at least one character.
    obtain ⟨n, taken⟩ := Option.isSome_iff_exists.mp stands
    have bounds := Terminal.length?_bounds taken
    have some : cs ≠ [] := by
      rintro rfl
      simp only [List.length_nil] at bounds
      omega
    simp [isSkippable, gaps_of_none none, some]
  | goes cs n skips ih =>
    rw [isSkippable_of_skip? skips]
    exact ih (newline_standsNext_drop skips stands)

/-! ### Line ends and statements at one place -/

/-- Is there a continued line in front of the text that breaks at a carriage return and
    after which a line end comes next? -/
def breaksTwice (cs : List Char) : Bool :=
  reaches (fun
    | '\\' :: '\r' :: '\n' :: rest => standsNext .newline rest
    | _ => false) cs

/-- Where a token can stand though something can be skipped, a line is continued at a
    carriage return. -/
theorem exists_of_skip?_token {t : Terminal} (other : t ≠ .newline) {cs : List Char} {m n : Nat}
    (taken : t.length? cs = some m) (skips : skip? cs = some n) :
    n = 3 ∧ ∃ rest, cs = '\\' :: '\r' :: '\n' :: rest := by
  have ink := startsInk_of_length? other taken
  cases cs with
  | nil => cases skips
  | cons c cs =>
    simp only [startsInk, List.head?_cons, Option.all_some, Bool.and_eq_true, bne_iff_ne,
      Bool.not_eq_true'] at ink
    obtain ⟨⟨⟨unblank, -⟩, -⟩, hash⟩ := ink
    have backslash : c = '\\' := by
      by_contra differs
      unfold skip? at skips
      simp [unblank, hash, differs] at skips
    subst backslash
    obtain ⟨rest, rfl | rfl⟩ := Parse.exists_of_skip?_backslash skips
    · -- No word starts with an escaped line feed.
      have silent : Word.segmentsLength ('\\' :: '\n' :: rest) = 0 := by
        rw [Parse.segmentsLength_backslash, if_pos rfl]
      have number : t ≠ .ioNumber := by
        rintro rfl
        have digit : Text.isDigit '\\' = true := head_of_ioNumber (t := '\n' :: rest) taken
        exact absurd digit (by decide)
      have wordlike := Parse.isWordlike_of_look (Parse.look_of_length? taken) number
      have pos := (Terminal.length?_bounds taken).1
      rcases Parse.wordlike_length wordlike taken with whole | ⟨-, whole⟩
      all_goals
        rw [silent] at whole
        omega
    · refine ⟨?_, rest, rfl⟩
      cases skips
      rfl

/-- Where a line end and another token can stand, a line breaks twice before them. -/
theorem breaksTwice_of_both (cs : List Char) {t : Terminal} (other : t ≠ .newline)
    (line : standsNext .newline cs = true) (token : standsNext t cs = true) :
    breaksTwice cs = true := by
  induction cs using skip_induct with
  | ends cs none =>
    rw [standsNext, reaches_of_none none] at line token
    obtain ⟨m, taken⟩ := Option.isSome_iff_exists.mp line
    obtain ⟨n, also⟩ := Option.isSome_iff_exists.mp token
    have look := Parse.look_eq also taken
    cases t <;> first | exact absurd rfl other | cases look
  | goes cs n skips ih =>
    have later := newline_standsNext_drop skips line
    rw [standsNext, reaches_of_skip? skips, Bool.or_eq_true] at token
    rw [breaksTwice, reaches_of_skip? skips, Bool.or_eq_true]
    -- Either the line is continued right here, or further on.
    refine token.imp (fun here => ?_) (ih later)
    obtain ⟨m, taken⟩ := Option.isSome_iff_exists.mp here
    obtain ⟨rfl, rest, rfl⟩ := exists_of_skip?_token other taken skips
    exact later

/-- A text that opens with both line ends and statements breaks twice. -/
theorem opens_one_way {text : List Char} (once : breaksTwice text = false) :
    (rowAt text).get .newlines = [] ∨ (rowAt text).get .term = [] ∧ isSkippable text = false := by
  cases line : standsNext .newline text with
  | false =>
    -- No line end can come next, so there is none to start a row of them.
    refine .inl (get_eq_nil fun p mem => ?_)
    rw [newlines_seeds, List.mem_singleton] at mem
    subst mem
    refine spans_eq_nil ?_
    rw [Row.derive, text_rowAt]
    exact tokenEntries_eq_nil line
  | true =>
    -- A statement would start with another token than the line end.
    refine .inr ⟨get_eq_nil_of_tokens (fun t other => tokenEntries_eq_nil ?_) rfl,
      isSkippable_of_newline text line⟩
    by_contra token
    rw [Bool.not_eq_false] at token
    rw [breaksTwice_of_both text other line token] at once
    cases once

/-! ### A line end before a script -/

/-- Blanks do not count. -/
theorem derivation?_blanks {blanks rest : List Char} (blank : ∀ c ∈ blanks, isLineBlank c = true)
    (unblank : startsUnblank rest = true) :
    (derivation? (blanks ++ rest)).map pieces = (derivation? rest).map pieces := by
  by_cases none : blanks = []
  · rw [none, List.nil_append]
  · exact derivation?_idle (idle_blanks none blank unblank)

/-- Blanks before a text do not make it break twice. -/
theorem breaksTwice_blanks {blanks rest : List Char} (blank : ∀ c ∈ blanks, isLineBlank c = true)
    (unblank : startsUnblank rest = true) : breaksTwice (blanks ++ rest) = breaksTwice rest := by
  cases blanks with
  | nil => rfl
  | cons c blanks =>
    have idle := idle_blanks (List.cons_ne_nil c blanks) blank unblank
    have first : c ≠ '\\' := by
      rintro rfl
      exact absurd (blank '\\' (List.mem_cons_self ..)) (by decide)
    rw [breaksTwice, reaches_of_skip? idle.skips, List.drop_left, ← breaksTwice]
    simp [first]

theorem newlinesLength_blanks {blanks rest : List Char}
    (blank : ∀ c ∈ blanks, isLineBlank c = true) :
    newlinesLength true (blanks ++ rest) = blanks.length + newlinesLength true rest := by
  induction blanks with
  | nil => simp
  | cons c blanks ih =>
    have first : isLineBlank c = true := blank c (List.mem_cons_self ..)
    -- A blank is neither character of a line end.
    have feed : c ≠ '\n' := by
      rintro rfl
      cases first
    have carriage : c ≠ '\r' := by
      rintro rfl
      cases first
    have taken : newlinesLength true (c :: (blanks ++ rest)) =
        1 + newlinesLength true (blanks ++ rest) := by
      conv_lhs => unfold newlinesLength
      simp only [feed, carriage, first, if_false, Bool.and_self, if_true]
    rw [List.cons_append, taken, ih fun d mem => blank d (List.mem_cons_of_mem _ mem),
      List.length_cons]
    omega

theorem newlinesLength_unblank {cs : List Char} (unblank : startsUnblank cs = true) :
    newlinesLength true cs = newlinesLength false cs := by
  cases cs with
  | nil => rfl
  | cons c cs =>
    have first : isLineBlank c = false := by simpa [startsUnblank] using unblank
    unfold newlinesLength
    simp only [first, Bool.and_false, Bool.false_eq_true, if_false]

/-- A line end before a script does not count, unless the script breaks twice. -/
theorem derivation?_feed (source : List Char) (once : breaksTwice source = false) :
    (derivation? ('\n' :: source)).map pieces = (derivation? source).map pieces := by
  -- The line end takes up the blanks of the script and the line ends after them.
  obtain ⟨blanks, text, rfl, blank, unblank⟩ : ∃ blanks text, source = blanks ++ text ∧
      (∀ c ∈ blanks, isLineBlank c = true) ∧ startsUnblank text = true := by
    refine ⟨source.takeWhile isLineBlank, source.dropWhile isLineBlank,
      List.takeWhile_append_dropWhile.symm, List.all_eq_true.mp List.all_takeWhile, ?_⟩
    have first := List.head?_dropWhile_not isLineBlank source
    rw [startsUnblank]
    cases head : (source.dropWhile isLineBlank).head? with
    | none => rfl
    | some c =>
      rw [head] at first
      simpa using first
  obtain ⟨run, rest, rfl, length⟩ : ∃ run rest, text = run ++ rest ∧
      newlinesLength false text = run.length := by
    refine ⟨text.take (newlinesLength false text), text.drop (newlinesLength false text),
      (List.take_append_drop ..).symm, ?_⟩
    rw [List.length_take, Nat.min_eq_left (newlinesLength_le ..)]
  have taken : Terminal.newline.length? (('\n' :: (blanks ++ run)) ++ rest) =
      some ('\n' :: (blanks ++ run)).length := by
    refine positive?_eq_some.mpr ⟨?_, by simp⟩
    rw [List.cons_append, List.append_assoc]
    unfold newlinesLength
    rw [if_pos rfl, newlinesLength_blanks blank, newlinesLength_unblank unblank, length]
    simp only [List.length_cons, List.length_append]
    omega
  have opens := derivation?_front taken
  rw [List.cons_append, List.append_assoc] at opens
  rw [opens, derivation?_blanks blank unblank]
  by_cases none : run = []
  · -- The line end has taken up blanks only.
    subst none
    rw [breaksTwice_blanks blank unblank] at once
    exact chosen_opened rest (opens_one_way once)
  · -- The script opens with line ends of its own, and the same text comes after them.
    have pos := List.length_pos_iff.mpr none
    exact (derivation?_front (positive?_eq_some.mpr ⟨length, pos⟩)).symm

end Grammar

namespace Parse

open Grammar

/-! ### Headers -/

/-- Lines without statements: each has blanks, a comment if it likes, and a line end. -/
inductive IsHeader : List Char → Prop
  /-- No line. -/
  | nil : IsHeader []
  /-- A line before others. -/
  | line {blanks comment others : List Char} (blank : ∀ c ∈ blanks, isLineBlank c = true)
      (hash : comment.head?.all (· == '#') = true) (inside : '\n' ∉ comment)
      (more : IsHeader others) : IsHeader (blanks ++ (comment ++ '\n' :: others))

/-- A line without statements does not count, and it does not break twice. -/
theorem derivation?_line {blanks comment : List Char} (rest : List Char)
    (blank : ∀ c ∈ blanks, isLineBlank c = true) (hash : comment.head?.all (· == '#') = true)
    (inside : '\n' ∉ comment) :
    (derivation? (blanks ++ (comment ++ '\n' :: rest))).map pieces =
        (derivation? ('\n' :: rest)).map pieces ∧
      breaksTwice (blanks ++ (comment ++ '\n' :: rest)) = false := by
  cases comment with
  | nil =>
    rw [List.nil_append, derivation?_blanks blank rfl, breaksTwice_blanks blank rfl]
    exact ⟨rfl, rfl⟩
  | cons c comment =>
    obtain rfl : c = '#' := by simpa using hash
    -- The comment is idle, and so are the blanks before it.
    have idle := idle_comment (fun mem => inside (List.mem_cons_of_mem _ mem)) rest
    rw [derivation?_blanks blank rfl, breaksTwice_blanks blank rfl, derivation?_idle idle,
      breaksTwice, reaches_of_skip? idle.skips, List.drop_left]
    exact ⟨rfl, rfl⟩

/-- A header does not count, unless the script after it breaks twice. -/
theorem derivation?_header {header source : List Char} (h : IsHeader header)
    (once : breaksTwice source = false) :
    (derivation? (header ++ source)).map pieces = (derivation? source).map pieces ∧
      breaksTwice (header ++ source) = false := by
  induction h with
  | nil => exact ⟨rfl, once⟩
  | @line blanks comment others blank hash inside _ ih =>
    obtain ⟨same, once⟩ := derivation?_line (others ++ source) blank hash inside
    -- Of the line only its line end counts, and that does not count before the others.
    rw [List.append_assoc, List.append_assoc, List.cons_append]
    exact ⟨same.trans ((derivation?_feed _ ih.2).trans ih.1), once⟩

/-- What is read without places is made from the pieces of the derivation alone. -/
theorem toOption_parse (source : List Char) (file : Option String) :
    (parse source { file }).toOption =
      ((derivation? source).map pieces).bind fun read => (read.map scriptOf).toOption := by
  unfold parse
  cases derivation? source with
  | none => rfl
  | some t =>
    show (Except.map _ (build false origin t)).toOption = ((pieces t).map scriptOf).toOption
    rw [← build_pieces origin t]
    cases build false origin t <;> rfl

/-- Whether a script is read depends neither on the places that are wanted nor on the file
    that errors are about. -/
theorem isOk_parse (source : List Char) (options : ParseOptions) :
    (parse source options).isOk = (parse source { file := options.file }).toOption.isSome := by
  rw [parse_unplaced source options]
  cases parse source options <;> rfl

/-- Lines without statements do not matter: with them in front a script is read exactly
    when it is read without them, and without places it is read as the same tree, unless
    it breaks twice. -/
theorem parse_header {header source : List Char} (h : IsHeader header)
    (once : breaksTwice source = false) :
    (∀ options, (parse (header ++ source) options).isOk = (parse source options).isOk) ∧
      ∀ file n, parse (header ++ source) { file } = .ok n ↔ parse source { file } = .ok n := by
  have same (file : Option String) :
      (parse (header ++ source) { file }).toOption = (parse source { file }).toOption := by
    rw [toOption_parse, toOption_parse, (derivation?_header h once).1]
  have found (r : Except Error Node) (n : Node) : r = .ok n ↔ r.toOption = some n := by
    cases r <;> simp [Except.toOption]
  constructor
  · intro options
    rw [isOk_parse, isOk_parse source, same]
  · intro file n
    rw [found, found, same]

/-- A comment and a line end before a script that starts with a blank and continues a
    line. -/
theorem parse_header_comment :
    ∃ n, parse (" \t# a\r\n\n".toList ++ " \\\r\n b; c".toList) {} = .ok n ∧
      parse " \\\r\n b; c".toList {} = .ok n := by
  have header : IsHeader " \t# a\r\n\n".toList := by
    show IsHeader ([' ', '\t'] ++ (['#', ' ', 'a', '\r'] ++ '\n' :: ([] ++ ([] ++ '\n' :: []))))
    exact .line (List.all_eq_true.mp rfl) rfl (by decide)
      (.line (List.all_eq_true.mp rfl) rfl (by decide) .nil)
  have run : (parse " \\\r\n b; c".toList {}).toOption.isSome = true := by decide +kernel
  cases parsed : parse " \\\r\n b; c".toList {} with
  | error e =>
    rw [parsed] at run
    cases run
  | ok n => exact ⟨n, ((parse_header header (by decide +kernel)).2 none n).mpr parsed, rfl⟩

/-- After a line end the carriage return of a continued line may be read as a command. -/
theorem not_parse_header :
    ∃ header source t t', IsHeader header ∧ parse source {} = .ok t ∧
      parse (header ++ source) {} = .ok t' ∧ ∀ nulls, t.dump nulls ≠ t'.dump nulls := by
  let written (nulls : Nulls) (t : Node) : List Char := Json.writeAt .compact 0 (t.dump nulls)
  have differ : (parse "\\\r\n\n".toList {}).toOption.any (fun t =>
      (parse "\n\\\r\n\n".toList {}).toOption.any fun t' =>
        [Nulls.keep, .drop].all fun nulls => written nulls t != written nulls t') = true := by
    decide +kernel
  cases without : parse "\\\r\n\n".toList {} with
  | error e =>
    rw [without] at differ
    cases differ
  | ok t =>
    cases parsed : parse "\n\\\r\n\n".toList {} with
    | error e =>
      rw [without, parsed] at differ
      cases differ
    | ok t' =>
      refine ⟨"\n".toList, "\\\r\n\n".toList, t, t', ?_, without, parsed, fun nulls same => ?_⟩
      · show IsHeader ([] ++ ([] ++ '\n' :: []))
        exact .line (List.all_eq_true.mp rfl) rfl (by decide) .nil
      · rw [without, parsed] at differ
        have apart := List.all_eq_true.mp differ nulls (by cases nulls <;> simp)
        simp only [written, same, bne_self_eq_false] at apart
        cases apart

end Parse

end ShellInliner
