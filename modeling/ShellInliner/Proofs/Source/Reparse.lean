import ShellInliner.Proofs.Source.Marks
import ShellInliner.Proofs.Source.Rereading
import ShellInliner.Proofs.Source.Spelled

/-! # Reading a script, printing it and reading it again

    A script that was read is regular and spelled as terminals take it.  Its text can
    be read if every word ends where it is made to end and no name became a reserved
    word, and it is read as the very script if, besides, nothing in it can be
    mistaken. -/

namespace ShellInliner.Parse

open Grammar Node
open Source (isGroupParent)

/-! ### What is asked of a script -/

/-- Is what a conditional has on one line a single statement? -/
def isSingle (n : Node) : Bool :=
  n.kind != .ifElse ||
    (n.all .clause ++ n.all .elseBranch).all fun c => (c.all .commands).length ≤ 1

/-- Does the node end where it is made to end, whatever follows it: are words closed, is
    the operator of a redirection apart from the file, and are names not reserved? -/
def isComplete (n : Node) : Bool :=
  match n.head with
  | .word text | .assignmentWord text => Word.isClosed text.toList
  | .redirect op _ =>
    !(op == "<<" && (n.all .file).any fun f => (charactersOf f).head? == some '-')
  | .command _ | .function _ => (n.all .name).all fun m => !isReservedText (charactersOf m)
  | _ => true

/-- Is no construct parted by a reserved word that some word of the tree is spelled
    like? -/
def isDistinguished (t : Node) : Bool :=
  Reserved.all.all fun r => (partOf? r).all fun k =>
    t.everywhere (fun n => familyOf? n.kind != some k) ||
      t.everywhere fun v => v.kind != .word || charactersOf v != r.spelling

theorem isDistinguished_iff {t : Node} : isDistinguished t = true ↔ Distinguished t := by
  have every (r : Reserved) : r ∈ Reserved.all := by cases r <;> decide
  simp only [isDistinguished, List.all_eq_true, every, true_implies, Option.all_eq_true,
    Bool.or_eq_true, everywhere_iff_forall, bne_iff_ne, ne_eq]
  constructor
  · rintro h r k part ⟨n, holds, family⟩ v holds' word
    rcases h r k part with none | differ
    · exact absurd family (none n holds)
    · exact (differ v holds').resolve_left (not_not_intro word)
  · intro h r k part
    by_cases construct : ∃ n, t.Holds n ∧ familyOf? n.kind = some k
    · exact .inr fun v holds => or_iff_not_imp_left.mpr fun word => h r k part construct v holds (not_not.mp word)
    · exact .inl fun n holds family => construct ⟨n, holds, family⟩

instance (t : Node) : Decidable (Distinguished t) :=
  decidable_of_iff _ isDistinguished_iff

section

variable {n t : Node}

theorem isClosed_of_complete (complete : isComplete n = true)
    (word : n.kind = .word ∨ n.kind = .assignmentWord) : Word.isClosed (charactersOf n) = true := by
  rw [charactersOf, text?]
  rcases word with word | word
  all_goals
    obtain ⟨text, head⟩ := isHeadOf_kind word
    rw [isComplete, head] at complete
    rw [head]
    exact complete

theorem unreserved_of_complete (complete : isComplete n = true)
    (named : n.kind = .command ∨ n.kind = .function) :
    ∀ m ∈ n.all .name, isReservedText (charactersOf m) = false := by
  have names : ((n.all .name).all fun m => !isReservedText (charactersOf m)) = true := by
    rcases named with named | named
    all_goals
      obtain ⟨async, head⟩ := isHeadOf_kind named
      rw [isComplete, head] at complete
      exact complete
  simpa using names

theorem apart_of_complete {op : String} {number : Option Int} (complete : isComplete n = true)
    (head : n.head = .redirect op number) :
    ∀ f ∈ n.all .file, op.toList = ['<', '<'] → (charactersOf f).head? ≠ some '-' := by
  simp only [isComplete, head] at complete
  exact head_ne_dash complete

/-! ### Words in a new place -/

theorem isWord_of_takes {text : List Char} (closed : Word.isClosed text = true)
    (taken : Terminal.word.Takes text) : IsWord .word text := by
  obtain ⟨rest, taken⟩ := taken
  exact ⟨rfl, fun _ hr => wordLength?_delimited closed taken hr⟩

theorem isAssignment_of_takes {text : List Char} (closed : Word.isClosed text = true)
    (taken : Terminal.assignmentWord.Takes text) : IsWord .assignmentWord text := by
  obtain ⟨rest, taken⟩ := taken
  exact ⟨rfl, fun _ hr => assignmentLength?_delimited closed taken hr⟩

theorem isCommandWord_of_takes {text : List Char} (closed : Word.isClosed text = true)
    (unreserved : isReservedText text = false) (taken : Terminal.commandWord.Takes text) :
    IsWord .commandWord text := by
  obtain ⟨rest, taken⟩ := taken
  exact ⟨rfl, fun _ hr => commandWordLength?_delimited closed unreserved taken hr⟩

theorem isName_of_takes {text : List Char} (taken : Terminal.name.Takes text) : IsWord .name text := by
  obtain ⟨rest, taken⟩ := taken
  refine ⟨rfl, fun _ hr => nameLength?_append taken ?_⟩
  exact head_of_isDelimited (p := (!Word.isIdentifierPart ·)) hr (by decide)

theorem isFunctionNameText_of_takes {text : List Char} (unreserved : isReservedText text = false)
    (taken : Terminal.functionName.Takes text) : isFunctionNameText text = true := by
  obtain ⟨c, cs, rfl, start, parts⟩ := functionName_of_takes taken
  simp [isFunctionNameText, start, parts, unreserved]

/-! ### Regular nodes -/

/-- A regular node has what it needs besides its leaves so that its text can be read. -/
theorem Regular.shaped (regular : Regular n) (typed : n.isWellTyped = true) : Shaped n where
  -- Each clause is the shape of one kind, read off its head.
  filled f some c hc list := by
    refine regular.filled ?_ f c hc list
    intro item
    simp [mayBeEmpty, item] at some
  plain group f c hc list := by
    have admits := admits_of_mem typed (mem_all_iff.mp hc)
    rw [list] at admits
    have bare := isBare_of_bodyFields regular.shapely (mem_bodyFields admits group) hc
    exact ⟨bare.plain, bare.foreground⟩
  unnamed kind none := by
    obtain ⟨async, head⟩ := isHeadOf_kind kind
    have shapely := regular.shapely
    rw [IsShapely, head] at shapely
    exact (shapely none).symm
  piped kind none := by
    obtain ⟨async, bang, head⟩ := isHeadOf_kind kind
    have shapely := regular.shapely
    rw [IsShapely, head] at shapely
    have some := shapely.1
    rw [none] at some
    simp at some
  members kind := by
    obtain ⟨async, bang, head⟩ := isHeadOf_kind kind
    have shapely := regular.shapely
    rw [IsShapely, head] at shapely
    exact shapely.2
  operands kind f c hc := by
    obtain ⟨async, op, head⟩ := isHeadOf_kind kind
    have shapely := regular.shapely
    rw [IsShapely, head] at shapely
    rcases eq_of_operand typed kind hc with rfl | rfl
    · exact shapely.1 c hc
    · exact (shapely.2 c hc).1
  second kind c hc := by
    obtain ⟨async, op, head⟩ := isHeadOf_kind kind
    have shapely := regular.shapely
    rw [IsShapely, head] at shapely
    exact (shapely.2 c hc).2
  positive kind := by
    obtain ⟨async, head⟩ := isHeadOf_kind kind
    have shapely := regular.shapely
    rw [IsShapely, head] at shapely
    exact shapely.2.2.1
  patterns kind := by
    have head := isHeadOf_kind kind
    have shapely := regular.shapely
    rw [IsShapely, head] at shapely
    exact shapely.2

/-- A regular node without a place is what is read of its text. -/
theorem Regular.exact (regular : Regular n) (unplaced : n.kind.isExpansion = false → n.loc = none) :
    Exact n where
  loc := unplaced
  -- Word and assignment have the same shape.
  expansions kind := by
    have shapely := regular.shapely
    rcases kind with kind | kind
    all_goals
      rw [charactersOf, text?]
      obtain ⟨text, head⟩ := isHeadOf_kind kind
      rw [IsShapely, head] at shapely
      rw [head]
      exact shapely
  several async head := by
    have shapely := regular.shapely
    rw [IsShapely, head] at shapely
    simpa using shapely.1
  otherwise kind c hc := by
    obtain ⟨async, head⟩ := isHeadOf_kind kind
    have shapely := regular.shapely
    rw [IsShapely, head] at shapely
    exact (shapely.2.2.2 c hc).2

/-! ### Spelled nodes -/

/-- A node whose texts are spelled as terminals take them, and everything below it too,
    can be read from its text if it is shaped so and all of it is complete. -/
theorem sayable_of_spelled (typed : n.isWellTyped = true) (shaped : Shaped n)
    (single : isSingle n = true) (spelled : Throughout Spelled n)
    (complete : Throughout (fun n => isComplete n = true) n) : Sayable n where
  toShaped := shaped
  word kind := isWord_of_takes (isClosed_of_complete complete.here (.inl kind)) (spelled.here.word kind)
  assignment kind := isAssignment_of_takes (isClosed_of_complete complete.here (.inr kind))
    (spelled.here.assignment kind)
  -- A complete file does not go on with the operator.
  redirection op number head := by
    obtain ⟨operator, few⟩ := spelled.here.redirection op number head
    refine ⟨operator, few, fun f hf => ?_⟩
    have kind : n.kind = .redirect := congrArg Head.kind head
    have member : Member.child .file .required (.only .word) ∈ n.kind.members := by
      rw [kind]
      decide
    have word : f.kind = .word := kind_eq_of_mem_all typed member hf
    have isWord := isWord_of_takes (isClosed_of_complete (complete.all hf).here (.inl word))
      ((spelled.all hf).here.word word)
    exact isApart_of_isWord isWord (apart_of_complete complete.here head f hf)
  commandName kind m hm := by
    have member : Member.child .name .optional (.only .word) ∈ n.kind.members := by
      rw [kind]
      decide
    have word : m.kind = .word := kind_eq_of_mem_all typed member hm
    exact isCommandWord_of_takes (isClosed_of_complete (complete.all hm).here (.inl word))
      (unreserved_of_complete complete.here (.inl kind) m hm) (spelled.here.commandName kind m hm)
  functionName kind m hm := isFunctionNameText_of_takes
    (unreserved_of_complete complete.here (.inr kind) m hm) (spelled.here.functionName kind m hm)
  loopName kind m hm := isName_of_takes (spelled.here.loopName kind m hm)
  single kind f line c hc := by
    have here : c ∈ n.all .clause ++ n.all .elseBranch := by
      rcases line with rfl | rfl
      · exact List.mem_append_left _ hc
      · exact List.mem_append_right _ hc
    simp only [isSingle, kind, bne_self_eq_false, Bool.false_or] at single
    simpa using List.all_eq_true.mp single c here

/-! ### Scripts -/

theorem relative?_unplaced (t : Node) :
    Throughout (fun n => Extent.relative? n.loc = n.loc) t.unplaced := by
  induction t using induct with
  | step hd l cs ih =>
    refine throughout_iff.mpr ⟨?_, fun c hc => ?_⟩
    · show Extent.relative? (Extent.relative? l) = Extent.relative? l
      cases l with
      | none => rfl
      | some e => cases e <;> rfl
    · rw [children_unplaced] at hc
      obtain ⟨d, hd, rfl⟩ := List.mem_map.mp hc
      exact ih d hd

/-- The nodes of a script that is read without places have none. -/
theorem loc_of_parse {source : List Char} {file : Option String}
    (parsed : parse source { file } = .ok t) :
    Throughout (fun n => n.kind.isExpansion = false → n.loc = none) t := by
  have without := parse_unplaced source { file }
  rw [parsed] at without
  -- Without places the tree is its own copy without them.
  have same : t = t.unplaced := Except.ok.inj without
  have relative := relative?_unplaced t
  rw [← same] at relative
  refine ((throughout_isWellTyped (sound_parse parsed).2.typed).and relative).mono ?_
  intro n ⟨typed, relative⟩ other
  have fits := (isWellTyped_iff.mp typed).1
  cases place : n.loc with
  | none => rfl
  | some e =>
    rw [place] at relative fits
    cases e with
    | between => cases relative
    | offsets =>
      have expansion : n.kind.isExpansion = true := fits
      rw [other] at expansion
      cases expansion

/-- A script that was read is read from its text, if what a conditional has on one line
    is a single statement, every node ends where it is made to end, and no word can be
    mistaken for a reserved word or goes on in the next line. -/
theorem parse_source_parse {source : List Char} {file file' : Option String}
    (parsed : parse source { file } = .ok t) (single : t.everywhere isSingle = true)
    (complete : t.everywhere isComplete = true) (keeps : Throughout KeepsLines t)
    (distinguished : Distinguished t) :
    ∃ text, t.source none = .ok text ∧ parse text.toList { file := file' } = .ok t := by
  obtain ⟨script, typed, regular⟩ := sound_parse parsed
  have sayable : Throughout Sayable t := by
    have facts := (throughout_isWellTyped typed).and (regular.and ((spelled_parse parsed).throughout.and
      ((throughout_of_everywhere single).and (throughout_of_everywhere complete).throughout)))
    exact facts.mono fun n ⟨typed, regular, spelled, single, complete⟩ =>
      sayable_of_spelled typed (regular.shaped typed) single spelled complete
  have exact : Throughout Exact t :=
    (regular.and (loc_of_parse parsed)).mono fun n ⟨regular, unplaced⟩ => regular.exact unplaced
  exact parse_source script typed sayable exact keeps distinguished

/-- A loop over words that are like reserved words elsewhere. -/
theorem parse_source_parse_loop :
    ∃ t text, parse "for i in fi then; do (f 2>>log; echo \x7d | esac=in a$i) & done".toList {} = .ok t ∧
      t.source none = .ok text ∧ parse text.toList {} = .ok t := by
  let suits (t : Node) : Bool := t.everywhere isSingle && t.everywhere isComplete &&
    t.everywhere (fun n => !endsEscaped (charactersOf n)) && isDistinguished t
  have run : (parse "for i in fi then; do (f 2>>log; echo \x7d | esac=in a$i) & done".toList
      {}).toOption.any suits = true := by decide +kernel
  cases parsed : parse "for i in fi then; do (f 2>>log; echo \x7d | esac=in a$i) & done".toList {} with
  | error e =>
    rw [parsed] at run
    cases run
  | ok t =>
    rw [parsed] at run
    simp only [Except.toOption, Option.any_some, suits, Bool.and_eq_true] at run
    obtain ⟨⟨⟨single, complete⟩, keeps⟩, distinguished⟩ := run
    have lines : Throughout KeepsLines t :=
      (throughout_of_everywhere keeps).mono fun n escaped => by simpa [KeepsLines] using escaped
    obtain ⟨text, printed, reread⟩ := parse_source_parse parsed single complete lines
      (isDistinguished_iff.mp distinguished)
    exact ⟨t, text, rfl, printed, reread⟩

/-- The sign that a file starts with becomes a part of the operator before it. -/
theorem not_parse_source_parse :
    ∃ t text, parse "cat << -x".toList {} = .ok t ∧ t.everywhere isSingle = true ∧
      t.source none = .ok text ∧ parse text.toList {} ≠ .ok t := by
  let plain (n : Node) : Bool := n.head != .redirect "<<" none
  have run : (parse "cat << -x".toList {}).toOption.any (fun t => t.everywhere isSingle &&
      !t.everywhere plain && (t.source none).toOption.any fun text =>
        (parse text.toList {}).toOption.all (everywhere plain)) = true := by decide +kernel
  cases parsed : parse "cat << -x".toList {} with
  | error e =>
    rw [parsed] at run
    cases run
  | ok t =>
    rw [parsed] at run
    simp only [Except.toOption, Option.any_some, Bool.and_eq_true, Bool.not_eq_true'] at run
    obtain ⟨⟨single, doubled⟩, printed⟩ := run
    cases source : t.source none with
    | error e =>
      rw [source] at printed
      cases printed
    | ok text =>
      refine ⟨t, text, rfl, single, source, fun same => ?_⟩
      rw [source] at printed
      simp only [Option.any_some, same, Option.all_some, doubled] at printed
      cases printed

end

end ShellInliner.Parse
