import ShellInliner.Node.Load
import ShellInliner.Proofs.Node.Assemble

/-! # Writing trees and reading them

    A tree that is written can be read, and what is read is the tree, whether the
    members that hold nothing are written or left out.  Only well-typed trees are
    ever read.  So a tree that was read from anything at all, with members that are
    passed over or values that were taken generously, is the same once it has been
    written and read again. -/

namespace ShellInliner

open Json (Value Checked Trail member? memberEither? checkFlag checkInt checkText checkOptional
  refuse)

/-! ### Checks side by side -/

namespace Json.Checked

variable {α β : Type}

theorem both_eq_ok {a : Checked α} {b : Checked β} {p : α × β} :
    both a b = .ok p ↔ a = .ok p.1 ∧ b = .ok p.2 := by
  obtain ⟨x, y⟩ := p
  cases a <;> cases b <;> simp [both]

theorem map_eq_ok {a : Checked α} {f : α → β} {y : β} :
    a.map f = .ok y ↔ ∃ x, a = .ok x ∧ f x = y := by
  cases a <;> simp [Except.map]

/-- A row of checks succeeds if each of them does. -/
theorem all_eq_ok {cs : List (Checked α)} {xs : List α} : all cs = .ok xs ↔ cs = xs.map .ok := by
  induction cs generalizing xs with
  | nil =>
    unfold all
    cases xs <;> simp
  | cons c cs ih =>
    unfold all
    rw [map_eq_ok]
    constructor
    · -- The first check and the row of the others are made together.
      rintro ⟨⟨x, ys⟩, both, rfl⟩
      obtain ⟨first, others⟩ := both_eq_ok.mp both
      rw [List.map_cons, ← ih.mp others]
      exact congrArg (· :: cs) first
    · intro same
      obtain ⟨x, ys, rfl, first, others⟩ := List.map_eq_cons_iff.mp same.symm
      exact ⟨(x, ys), both_eq_ok.mpr ⟨first.symm, ih.mpr others.symm⟩, rfl⟩

end Json.Checked

open Json.Checked (both_eq_ok map_eq_ok all_eq_ok)

theorem checkOptional_eq_ok {α : Type} {check : Value → Checked α} {v : Option Value}
    {x : Option α} (h : checkOptional check v = .ok x) :
    x = none ∨ ∃ w y, check w = .ok y ∧ x = some y := by
  unfold checkOptional at h
  split at h
  · cases h
    exact .inl rfl
  · cases h
    exact .inl rfl
  · obtain ⟨y, checked, rfl⟩ := map_eq_ok.mp h
    exact .inr ⟨_, y, checked, rfl⟩

/-! ### Plain values -/

/-- The plain value is one of this type. -/
inductive AttributeType.Admits : AttributeType → Scalar → Prop
  /-- A flag. -/
  | flag (b : Bool) : Admits .flag (.flag b)
  /-- A text. -/
  | text (s : String) : Admits .text (.text s)
  /-- A connective. -/
  | connective (c : Connective) : Admits .connective (.connective c)
  /-- A number or nothing. -/
  | optionalNumber (n : Option Int) : Admits .optionalNumber (.optionalNumber n)
  /-- A text or nothing. -/
  | optionalText (s : Option String) : Admits .optionalText (.optionalText s)

/-- These are the values of the attributes among the members, in order. -/
inductive Carries : List Member → List Scalar → Prop
  /-- No members carry nothing. -/
  | nil : Carries [] []
  /-- An attribute carries a value of its type. -/
  | value {a : Attribute} {type : AttributeType} {ms : List Member} {s : Scalar}
    {ss : List Scalar} (fits : type.Admits s) (others : Carries ms ss) :
    Carries (.attribute a type :: ms) (s :: ss)
  /-- A field carries none. -/
  | field {f : Field} {arity : Arity} {admission : Admission} {ms : List Member}
    {ss : List Scalar} (others : Carries ms ss) : Carries (.child f arity admission :: ms) ss

theorem carries_scalars (h : Head) : Carries h.kind.members h.scalars := by
  cases h <;> repeat constructor

/-- Values of the attributes of a kind make a head of the kind. -/
theorem exists_head {k : Kind} {ss : List Scalar} (h : Carries k.members ss) :
    ∃ hd, Head.ofScalars? k ss = some hd ∧ hd.kind = k := by
  cases k <;>
    (repeat' (rcases h with _ | @⟨_, _, _, _, _, ⟨⟩, h⟩ | @⟨_, _, _, _, _, h⟩)) <;>
    exact ⟨_, rfl, rfl⟩

/-- The value as it stands among the members of an object. -/
def Nulls.written (nulls : Nulls) (v : Value) : Option Value :=
  match nulls, v with
  | drop, .null => none
  | _, v => some v

theorem Nulls.written_of_ne {nulls : Nulls} {v : Value} (h : v ≠ .null) :
    nulls.written v = some v := by
  cases nulls with
  | keep => rfl
  | drop => cases v <;> first | rfl | exact absurd rfl h

theorem Nulls.lookup_entry (nulls : Nulls) (key : String) (v : Value) :
    (nulls.entry key v).lookup key = nulls.written v := by
  cases nulls <;> cases v <;> simp [entry, written]

theorem Nulls.lookup_entry_of_ne {nulls : Nulls} {key other : String} (h : other ≠ key)
    (v : Value) : (nulls.entry key v).lookup other = none := by
  cases nulls <;> cases v <;> simp [entry, h]

/-- A plain value that was written is read. -/
theorem checkScalar_written {type : AttributeType} {s : Scalar} (h : type.Admits s)
    (nulls : Nulls) (trail : Trail) :
    Node.checkScalar trail type (nulls.written s.dump) = .ok s := by
  cases h with
  | flag b => rw [Nulls.written_of_ne (by simp [Scalar.dump])]; rfl
  | text s => rw [Nulls.written_of_ne (by simp [Scalar.dump])]; rfl
  | connective c =>
    rw [Nulls.written_of_ne (by simp [Scalar.dump])]
    cases c <;> rfl
  | optionalNumber n => cases n <;> cases nulls <;> rfl
  | optionalText s => cases s <;> cases nulls <;> rfl

/-- What is read as a plain value of a type is one. -/
theorem admits_of_checkScalar {type : AttributeType} {trail : Trail} {v : Option Value}
    {s : Scalar} (h : Node.checkScalar trail type v = .ok s) : type.Admits s := by
  unfold Node.checkScalar at h
  -- The arms with odd numbers are those of a value that is not there or is refused.
  split at h
  case h_1 =>
    cases h
    exact .flag _
  case h_2 =>
    obtain ⟨b, _, rfl⟩ := map_eq_ok.mp h
    exact .flag b
  case h_3 => cases h
  case h_4 =>
    obtain ⟨t, _, rfl⟩ := map_eq_ok.mp h
    exact .text t
  case h_5 => cases h
  case h_6 =>
    obtain ⟨c, _, rfl⟩ := map_eq_ok.mp h
    exact .connective c
  case h_7 =>
    obtain ⟨n, _, rfl⟩ := map_eq_ok.mp h
    exact .optionalNumber n
  case h_8 =>
    obtain ⟨t, _, rfl⟩ := map_eq_ok.mp h
    exact .optionalText t

/-! ### Places -/

/-- A place that was written is read. -/
theorem checkExtent_dump {k : Kind} {e : Extent} (h : Node.fitsLoc k (some e) = true)
    (trail : Trail) : Node.checkExtent k trail e.dump = .ok e := by
  cases e with
  | between start stop =>
    have other : k.isExpansion = false := by simpa [Node.fitsLoc] using h
    unfold Node.checkExtent
    rw [other]
    rfl
  | offsets start stop =>
    have same : k.isExpansion = true := h
    unfold Node.checkExtent
    rw [same]
    rfl

/-- What is read as the place of a node has the form of such places. -/
theorem fitsLoc_of_checkExtent {k : Kind} {trail : Trail} {v : Value} {e : Extent}
    (h : Node.checkExtent k trail v = .ok e) : Node.fitsLoc k (some e) = true := by
  unfold Node.checkExtent Node.checkObject at h
  cases v with
  | object members =>
    by_cases expansion : k.isExpansion = true
    · simp only [expansion, if_true] at h
      obtain ⟨_, _, rfl⟩ := map_eq_ok.mp h
      exact expansion
    · simp only [expansion, Bool.false_eq_true, if_false] at h
      obtain ⟨_, _, rfl⟩ := map_eq_ok.mp h
      simpa [Node.fitsLoc] using expansion
  | _ => cases h

/-! ### Names of members -/

/-- The name of a member in a written tree. -/
def Member.key : Member → String
  | .attribute a _ => a.key
  | .child f _ _ => f.key

/-- The second name of a member. -/
def Member.longKey : Member → String
  | .attribute a _ => a.longKey
  | .child f _ _ => f.longKey

/-- What is written for one of the members is not taken for the other. -/
def Member.Apart (m m' : Member) : Prop :=
  m.key ≠ m'.key ∧ m.longKey ≠ m'.key ∧ m.key ≠ m'.longKey

instance (m m' : Member) : Decidable (m.Apart m') :=
  inferInstanceAs (Decidable (_ ∧ _ ∧ _))

theorem members_apart (k : Kind) : k.members.Pairwise Member.Apart := by
  cases k <;> decide

/-- No member goes by a name that every object has. -/
theorem reserved_keys {k : Kind} {m : Member} (mem : m ∈ k.members) :
    (m.key ≠ "type" ∧ m.longKey ≠ "type") ∧ m.key ≠ "loc" ∧ m.longKey ≠ "loc" := by
  have check : k.members.all (fun m => decide
      ((m.key ≠ "type" ∧ m.longKey ≠ "type") ∧ m.key ≠ "loc" ∧ m.longKey ≠ "loc")) = true := by
    cases k <;> decide
  simpa using List.all_eq_true.mp check m mem

/-! ### Rows of members -/

section

variable {nulls : Nulls} {key : String} {e : Member × Value} {es : List (Member × Value)}

/-- Members with their values, as they stand in an object. -/
def Nulls.row (nulls : Nulls) (es : List (Member × Value)) : List (String × Value) :=
  es.flatMap fun e => nulls.entry e.1.key e.2

theorem lookup_row (h : ∀ e ∈ es, key ≠ e.1.key) : (nulls.row es).lookup key = none := by
  induction es with
  | nil => rfl
  | cons e es ih =>
    have first : (nulls.entry e.1.key e.2).lookup key = none :=
      Nulls.lookup_entry_of_ne (h e (List.mem_cons_self ..)) e.2
    have others := ih fun e' mem => h e' (List.mem_cons_of_mem _ mem)
    unfold Nulls.row at others ⊢
    rw [List.flatMap_cons, List.lookup_append, first, others]
    rfl

/-- A value is found under the name of its member, or under the second name. -/
theorem memberEither?_row {front : List (String × Value)}
    (apart : (es.map (·.1)).Pairwise Member.Apart) (mem : e ∈ es)
    (fresh : front.lookup e.1.key = none ∧ front.lookup e.1.longKey = none) :
    memberEither? (front ++ nulls.row es) e.1.key e.1.longKey = nulls.written e.2 := by
  obtain ⟨as, bs, rfl⟩ := List.append_of_mem mem
  rw [List.map_append, List.map_cons, List.pairwise_append] at apart
  obtain ⟨-, after, before⟩ := apart
  have after := (List.pairwise_cons.mp after).1
  -- Nothing before or after the member is taken for it.
  have as_key : (nulls.row as).lookup e.1.key = none := lookup_row fun a ha same =>
    (before a.1 (List.mem_map_of_mem ha) e.1 (List.mem_cons_self ..)).1 same.symm
  have as_long : (nulls.row as).lookup e.1.longKey = none := lookup_row fun a ha same =>
    (before a.1 (List.mem_map_of_mem ha) e.1 (List.mem_cons_self ..)).2.2 same.symm
  have bs_key : (nulls.row bs).lookup e.1.key = none := lookup_row fun b hb =>
    (after b.1 (List.mem_map_of_mem hb)).1
  have bs_long : (nulls.row bs).lookup e.1.longKey = none := lookup_row fun b hb =>
    (after b.1 (List.mem_map_of_mem hb)).2.1
  have split : nulls.row (as ++ e :: bs) = nulls.row as ++ (nulls.entry e.1.key e.2 ++ nulls.row bs) := by
    simp only [Nulls.row, List.flatMap_append, List.flatMap_cons]
  -- What is left are the two lookups in its own entry, which agree if both names do.
  unfold memberEither? member?
  rw [split]
  simp only [List.lookup_append, fresh, as_key, as_long, bs_key, bs_long, Option.none_or,
    Option.or_none, Nulls.lookup_entry]
  by_cases same : e.1.longKey = e.1.key
  · rw [same, Nulls.lookup_entry, Option.or_self]
  · rw [Nulls.lookup_entry_of_ne same, Option.or_none]

end

namespace Node

/-! ### What is written -/

section

variable {n : Node} {nulls : Nulls}

/-- The value of a field. -/
def valueIn (nulls : Nulls) (n : Node) (f : Field) : Arity → Value
  | .many => .array ((n.all f).map (dump nulls))
  | _ => ((n.all f).map (dump nulls)).head?.getD .null

/-- The members of a node with their values, given the values of its attributes. -/
def entries (nulls : Nulls) (n : Node) : List Member → List Scalar → List (Member × Value)
  | [], _ => []
  | .attribute _ _ :: ms, [] => entries nulls n ms []
  | .attribute a type :: ms, s :: ss => (.attribute a type, s.dump) :: entries nulls n ms ss
  | .child f arity admission :: ms, ss =>
    (.child f arity admission, n.valueIn nulls f arity) :: entries nulls n ms ss

/-- What stands before the members in the object that a node is written as. -/
def writtenHeading (nulls : Nulls) (n : Node) : List (String × Value) :=
  ("type", .string n.kind.label) :: nulls.entry "loc" ((n.loc.map Extent.dump).getD .null)

theorem carries_own (n : Node) : Carries n.kind.members n.head.scalars :=
  carries_scalars n.head

/-- The members of the object that a node is written as. -/
def writtenMembers (nulls : Nulls) (n : Node) : List (String × Value) :=
  n.writtenHeading nulls ++ nulls.row (entries nulls n n.kind.members n.head.scalars)

theorem dumpChildren_within (nulls : Nulls) (f : Field) (cs : List (Field × Node)) :
    ((dumpChildren nulls cs).filterMap fun c => if c.1 = f then some c.2 else none) =
      (within f cs).map (dump nulls) := by
  induction cs with
  | nil => rfl
  | cons c cs ih =>
    obtain ⟨g, m⟩ := c
    unfold dumpChildren
    by_cases same : g = f
    · simpa [within, same] using ih
    · simpa [within, same] using ih

theorem dumpMembers_eq (ms : List Member) (ss : List Scalar) :
    dumpMembers nulls (dumpChildren nulls n.children) ms ss =
      nulls.row (entries nulls n ms ss) := by
  induction ms generalizing ss with
  | nil => rfl
  | cons m ms ih =>
    -- An attribute takes the next value of the row, if there is one; a field takes none.
    match m, ss with
    | .attribute a type, [] => exact ih []
    | .attribute a type, s :: ss =>
      rw [dumpMembers, ih]
      rfl
    | .child f arity admission, ss =>
      unfold dumpMembers
      rw [dumpChildren_within, ih]
      cases arity <;> rfl

theorem dump_eq (nulls : Nulls) (n : Node) : n.dump nulls = .object (n.writtenMembers nulls) := by
  rw [writtenMembers, ← dumpMembers_eq]
  cases n with
  | mk h l cs =>
    unfold dump
    rfl

theorem map_fst_entries {ms : List Member} {ss : List Scalar} (h : Carries ms ss) :
    (entries nulls n ms ss).map (·.1) = ms := by
  induction h with
  | nil => rfl
  | value _ _ ih => exact congrArg (_ :: ·) ih
  | field _ ih => exact congrArg (_ :: ·) ih

/-- Every member is found in the object that a node is written as. -/
theorem memberEither?_written {e : Member × Value}
    (mem : e ∈ entries nulls n n.kind.members n.head.scalars) :
    memberEither? (n.writtenMembers nulls) e.1.key e.1.longKey = nulls.written e.2 := by
  have members : (entries nulls n n.kind.members n.head.scalars).map (·.1) = n.kind.members :=
    map_fst_entries n.carries_own
  have member : e.1 ∈ n.kind.members := members ▸ List.mem_map_of_mem mem
  obtain ⟨⟨type, longType⟩, place, longPlace⟩ := reserved_keys member
  apply memberEither?_row _ mem
  · simp only [writtenHeading, List.lookup_cons, beq_false_of_ne type, beq_false_of_ne longType,
      Nulls.lookup_entry_of_ne place, Nulls.lookup_entry_of_ne longPlace, and_self]
  · rw [members]
    exact members_apart _

theorem mem_entries_of_child {f : Field} {arity : Arity} {admission : Admission} {ms : List Member}
    {ss : List Scalar} (h : Carries ms ss) (mem : .child f arity admission ∈ ms) :
    (.child f arity admission, n.valueIn nulls f arity) ∈ entries nulls n ms ss := by
  induction h with
  | nil => cases mem
  | value _ _ ih =>
    rcases List.mem_cons.mp mem with same | later
    · cases same
    · exact List.mem_cons_of_mem _ (ih later)
  | field _ ih =>
    rcases List.mem_cons.mp mem with same | later
    · cases same
      exact List.mem_cons_self ..
    · exact List.mem_cons_of_mem _ (ih later)

end

/-! ### How deep values lie -/

section

variable {n c : Node} {nulls : Nulls}

theorem depth_le_of_mem {v : Value} {vs : List Value} (h : v ∈ vs) :
    depth v ≤ depthOfElements vs := by
  induction vs with
  | nil => cases h
  | cons w vs ih =>
    unfold depthOfElements
    rcases List.mem_cons.mp h with rfl | later
    · exact Nat.le_max_left ..
    · exact Nat.le_trans (ih later) (Nat.le_max_right ..)

theorem depth_le_of_lookup {key : String} {v : Value} {ms : List (String × Value)}
    (h : ms.lookup key = some v) : depth v ≤ depthOfMembers ms := by
  induction ms with
  | nil => cases h
  | cons m ms ih =>
    obtain ⟨name, w⟩ := m
    unfold depthOfMembers
    rw [List.lookup_cons] at h
    split at h
    · cases h
      exact Nat.le_max_left ..
    · exact Nat.le_trans (ih h) (Nat.le_max_right ..)

/-- A child is written less deep than its node. -/
theorem depth_dump_lt (typed : n.isWellTyped = true) {f : Field} (hc : c ∈ n.all f) :
    depth (c.dump nulls) < depth (n.dump nulls) := by
  obtain ⟨arity, admission, mem, -⟩ := admits_of_mem typed (mem_all_iff.mp hc)
  have entry : (.child f arity admission, n.valueIn nulls f arity) ∈
      entries nulls n n.kind.members n.head.scalars := mem_entries_of_child n.carries_own mem
  have found := memberEither?_written entry
  have inside : depth (c.dump nulls) ≤ depth (n.valueIn nulls f arity) ∧
      n.valueIn nulls f arity ≠ .null := by
    cases arity with
    | many =>
      have le := depth_le_of_mem (List.mem_map_of_mem (f := dump nulls) hc)
      refine ⟨?_, Value.noConfusion⟩
      show _ ≤ 1 + _
      omega
    | required =>
      obtain ⟨m, one, -⟩ := exists_all_eq_of_required typed mem
      rw [one, List.mem_singleton] at hc
      subst hc
      simp [valueIn, one, dump_eq]
    | optional =>
      rcases all_eq_of_optional typed mem with none | ⟨m, one, -⟩
      · rw [none] at hc
        cases hc
      · rw [one, List.mem_singleton] at hc
        subst hc
        simp [valueIn, one, dump_eq]
  -- A value other than `null` is kept among the members, and so counts for their depth.
  have there : nulls.written (n.valueIn nulls f arity) = some (n.valueIn nulls f arity) :=
    Nulls.written_of_ne inside.2
  have whole : depth (n.valueIn nulls f arity) ≤ depthOfMembers (n.writtenMembers nulls) := by
    rw [there] at found
    unfold memberEither? member? at found
    rcases Option.or_eq_some_iff.mp found with first | ⟨-, second⟩
    · exact depth_le_of_lookup first
    · exact depth_le_of_lookup second
  have outside : depth (n.dump nulls) = 1 + depthOfMembers (n.writtenMembers nulls) := by
    rw [dump_eq, depth]
  omega

end

/-! ### Reading what was written -/

theorem label_injective {k k' : Kind} (h : k.label = k'.label) : k = k' := by
  have check : ∀ k ∈ Kind.all, ∀ k' ∈ Kind.all, k.label = k'.label → k = k' := by decide
  exact check k (by cases k <;> decide) k' (by cases k' <;> decide) h

section

variable {n c : Node} {nulls : Nulls} {load : Loader}

theorem member?_type : member? (n.writtenMembers nulls) "type" = some (.string n.kind.label) := rfl

theorem member?_loc : member? (n.writtenMembers nulls) "loc" =
    nulls.written ((n.loc.map Extent.dump).getD .null) := by
  have members : (entries nulls n n.kind.members n.head.scalars).map (·.1) = n.kind.members :=
    map_fst_entries n.carries_own
  have others : (nulls.row (entries nulls n n.kind.members n.head.scalars)).lookup "loc" = none := by
    apply lookup_row
    intro e mem same
    have member : e.1 ∈ n.kind.members := members ▸ List.mem_map_of_mem mem
    exact (reserved_keys member).2.1 same.symm
  unfold member? writtenMembers
  rw [List.lookup_append, others, Option.or_none]
  exact Nulls.lookup_entry nulls "loc" _

theorem checkStated_written (trail : Trail) :
    checkStated n.kind trail (n.writtenMembers nulls) = .ok () := by
  unfold checkStated
  rw [member?_type]
  exact if_pos rfl

theorem checkLoc_written (typed : n.isWellTyped = true) (trail : Trail) :
    checkOptional (checkExtent n.kind trail) (member? (n.writtenMembers nulls) "loc") = .ok n.loc := by
  have fits := (isWellTyped_iff.mp typed).1
  rw [member?_loc]
  cases place : n.loc with
  | none => cases nulls <;> rfl
  | some e =>
    rw [place] at fits
    have found : nulls.written ((some e).map Extent.dump |>.getD .null) = some e.dump :=
      Nulls.written_of_ne (by cases e <;> exact Value.noConfusion)
    rw [found]
    have read := checkExtent_dump fits trail
    cases e <;> exact congrArg (Except.map some) read

/-- What was written for the node is read as the node. -/
def Rereads (load : Loader) (nulls : Nulls) (c : Node) : Prop :=
  ∀ trail, load c.kind trail (c.writtenMembers nulls) = .ok c

theorem loadChild_written {admission : Admission} (rereads : Rereads load nulls c)
    (admitted : c.kind ∈ admission.kinds) (trail : Trail) :
    loadChild load admission trail (c.dump nulls) = .ok c := by
  rw [dump_eq]
  cases admission with
  | only k =>
    obtain rfl : c.kind = k := List.mem_singleton.mp admitted
    exact rereads trail
  | oneOf ks =>
    -- Where several kinds are admitted, the written kind tells which one it is.
    have stated : statedKind ks trail (c.writtenMembers nulls) = .ok c.kind := by
      unfold statedKind
      rw [member?_type]
      have some : (ks.find? (·.label = c.kind.label)).isSome := by
        rw [List.find?_isSome]
        exact ⟨c.kind, admitted, by simp⟩
      obtain ⟨k, found⟩ := Option.isSome_iff_exists.mp some
      have label : k.label = c.kind.label := by simpa using List.find?_some found
      simp only [found, label_injective label]
    simp only [loadChild, stated]
    exact rereads _

theorem loadElements_written {admission : Admission} {ns : List Node}
    (loads : ∀ c ∈ ns, ∀ trail, loadChild load admission trail (c.dump nulls) = .ok c)
    (trail : Trail) (i : Nat) :
    loadElements load admission trail i (ns.map (dump nulls)) = .ok ns := by
  induction ns generalizing i with
  | nil => rfl
  | cons c ns ih =>
    have first := loads c (List.mem_cons_self ..) (.index i :: trail)
    have others := ih (fun m mem => loads m (List.mem_cons_of_mem _ mem)) (i + 1)
    rw [List.map_cons, loadElements]
    exact map_eq_ok.mpr ⟨(c, ns), both_eq_ok.mpr ⟨first, others⟩, rfl⟩

/-- The children in a field are read of its value. -/
theorem loadMember_written (typed : n.isWellTyped = true) {f : Field} {arity : Arity}
    {admission : Admission} (mem : .child f arity admission ∈ n.kind.members)
    (rereads : ∀ c ∈ n.all f, Rereads load nulls c) {members : List (String × Value)}
    (found : memberEither? members f.key f.longKey = nulls.written (n.valueIn nulls f arity))
    (trail : Trail) : loadMember load trail members (.child f arity admission) =
      .ok (.children ((n.all f).map (f, ·))) := by
  have loads : ∀ c ∈ n.all f, ∀ trail, loadChild load admission trail (c.dump nulls) = .ok c :=
    fun c hc => loadChild_written (rereads c hc) (kind_mem_of_mem_all typed mem hc)
  unfold loadMember
  simp only [found]
  cases arity with
  | many =>
    rw [Nulls.written_of_ne (by simp [valueIn])]
    exact map_eq_ok.mpr ⟨_, loadElements_written loads _ 0, rfl⟩
  | required =>
    obtain ⟨m, one, -⟩ := exists_all_eq_of_required typed mem
    have load := loads m (one ▸ List.mem_singleton_self m) (.key f.key :: trail)
    have value : n.valueIn nulls f .required = m.dump nulls := by simp [valueIn, one]
    rw [value, dump_eq, Nulls.written_of_ne Value.noConfusion, one]
    rw [dump_eq] at load
    exact map_eq_ok.mpr ⟨_, load, rfl⟩
  | optional =>
    -- A field that is not filled is written as nothing or as null.
    rcases all_eq_of_optional typed mem with none | ⟨m, one, -⟩
    · have value : n.valueIn nulls f .optional = .null := by simp [valueIn, none]
      rw [value, none]
      cases nulls <;> rfl
    · have load := loads m (one ▸ List.mem_singleton_self m) (.key f.key :: trail)
      have value : n.valueIn nulls f .optional = m.dump nulls := by simp [valueIn, one]
      rw [value, dump_eq, Nulls.written_of_ne Value.noConfusion, one]
      rw [dump_eq] at load
      exact map_eq_ok.mpr ⟨_, load, rfl⟩

/-- What is read for members: the values in order, and the children in their fields. -/
def readParts (n : Node) : List Member → List Scalar → List Part
  | [], _ => []
  | .attribute _ _ :: ms, [] => readParts n ms []
  | .attribute _ _ :: ms, s :: ss => .scalar s :: readParts n ms ss
  | .child f _ _ :: ms, ss => .children ((n.all f).map (f, ·)) :: readParts n ms ss

/-- All members are read of what was written for them. -/
theorem loadMembers_written (typed : n.isWellTyped = true)
    (rereads : ∀ f, ∀ c ∈ n.all f, Rereads load nulls c) {members : List (String × Value)}
    (trail : Trail) {ms : List Member} {ss : List Scalar} (carried : Carries ms ss)
    (own : ∀ m ∈ ms, m ∈ n.kind.members)
    (found : ∀ e ∈ entries nulls n ms ss,
      memberEither? members e.1.key e.1.longKey = nulls.written e.2) :
    ms.map (loadMember load trail members) = (n.readParts ms ss).map .ok := by
  induction carried with
  | nil => rfl
  -- The values and the fields are taken in the order of the members.
  | @value a type ms s ss fits others ih =>
    have others := ih (fun m mem => own m (List.mem_cons_of_mem _ mem))
      fun e mem => found e (List.mem_cons_of_mem _ mem)
    have here : memberEither? members a.key a.longKey = nulls.written s.dump :=
      found _ (List.mem_cons_self ..)
    have first : loadMember load trail members (.attribute a type) = .ok (.scalar s) := by
      have read := checkScalar_written fits nulls (.key a.key :: trail)
      rw [← here] at read
      exact map_eq_ok.mpr ⟨s, read, rfl⟩
    rw [List.map_cons, first, others]
    rfl
  | @field f arity admission ms ss others ih =>
    have others := ih (fun m mem => own m (List.mem_cons_of_mem _ mem))
      fun e mem => found e (List.mem_cons_of_mem _ mem)
    have first := loadMember_written typed (own _ (List.mem_cons_self ..)) (rereads f)
      (found _ (List.mem_cons_self ..)) trail
    rw [List.map_cons, first, others]
    rfl

/-! ### Nodes put together from what was read -/

theorem partScalars_readParts {ms : List Member} {ss : List Scalar} (h : Carries ms ss) :
    partScalars (n.readParts ms ss) = ss := by
  induction h with
  | nil => rfl
  | value _ _ ih => exact congrArg (_ :: ·) ih
  | field _ ih => exact ih

end

/-- The fields among the members, in order. -/
def childFields (ms : List Member) : List Field :=
  ms.filterMap fun
    | .child f _ _ => some f
    | .attribute _ _ => none

theorem childFields_nodup (k : Kind) : (childFields k.members).Nodup := by
  cases k <;> decide

theorem mem_childFields {ms : List Member} {f : Field} :
    f ∈ childFields ms ↔ ∃ arity admission, .child f arity admission ∈ ms := by
  simp only [childFields, List.mem_filterMap]
  constructor
  · rintro ⟨m, mem, here⟩
    split at here
    · cases here
      exact ⟨_, _, mem⟩
    · cases here
  · rintro ⟨arity, admission, mem⟩
    exact ⟨_, mem, rfl⟩

theorem mem_fieldOrder_of_member {k : Kind} {f : Field} {arity : Arity} {admission : Admission}
    (mem : .child f arity admission ∈ k.members) : f ∈ k.fieldOrder := by
  unfold Kind.fieldOrder
  cases arity with
  | required => exact List.mem_append_left _ (List.mem_filterMap.mpr ⟨_, mem, rfl⟩)
  | optional => exact List.mem_append_left _ (List.mem_filterMap.mpr ⟨_, mem, rfl⟩)
  | many => exact List.mem_append_right _ (List.mem_filterMap.mpr ⟨_, mem, rfl⟩)

/-- Put into visiting order, the children in a field are the same. -/
theorem within_inVisitingOrder {k : Kind} {f : Field} (mem : f ∈ k.fieldOrder)
    (cs : List (Field × Node)) : within f (inVisitingOrder k cs) = within f cs := by
  have once := fieldOrder_nodup k
  have fields : inVisitingOrder k cs = k.fieldOrder.flatMap fun g => (within g cs).map (g, ·) :=
    List.flatMap_congr fun g _ => filter_eq_map_within g cs
  rw [fields]
  generalize k.fieldOrder = fs at mem once
  induction fs with
  | nil => cases mem
  | cons g fs ih =>
    obtain ⟨absent, once⟩ := List.nodup_cons.mp once
    rw [List.flatMap_cons, within_append]
    rcases List.mem_cons.mp mem with rfl | later
    · -- No later field is this one again.
      have none : within f (fs.flatMap fun g => (within g cs).map (g, ·)) = [] := by
        apply within_eq_nil
        intro c hc
        obtain ⟨g, hg, there⟩ := List.mem_flatMap.mp hc
        obtain ⟨_, _, rfl⟩ := List.mem_map.mp there
        rintro rfl
        exact absent hg
      rw [within_map_self, none, List.append_nil]
    · have differ : g ≠ f := fun same => absent (same ▸ later)
      rw [within_map_of_ne differ, List.nil_append, ih later once]

/-- The part is what may be read for the member: a value of its type, or children in
    its field of which the condition holds. -/
def PartIs (F : Field → Arity → Admission → List Node → Prop) : Member → Part → Prop
  | .attribute _ type, .scalar s => type.Admits s
  | .child f arity admission, .children cs => ∃ ns, cs = ns.map (f, ·) ∧ F f arity admission ns
  | _, _ => False

section

variable {F : Field → Arity → Admission → List Node → Prop} {ms : List Member} {ps : List Part}

theorem carries_partScalars (h : List.Forall₂ (PartIs F) ms ps) : Carries ms (partScalars ps) := by
  induction h with
  | nil => exact .nil
  | @cons m p ms ps first _ ih =>
    match m, p with
    | .attribute a type, .scalar s => exact .value first ih
    | .child f arity admission, .children cs => exact .field ih

theorem field_mem_of_mem_partChildren (h : List.Forall₂ (PartIs F) ms ps) {c : Field × Node}
    (mem : c ∈ partChildren ps) : c.1 ∈ childFields ms := by
  induction h with
  | nil => cases mem
  | @cons m p ms ps first _ ih =>
    match m, p with
    | .attribute a type, .scalar s => exact ih mem
    | .child f arity admission, .children cs =>
      obtain ⟨ns, rfl, -⟩ := first
      rcases List.mem_append.mp mem with here | later
      · obtain ⟨_, _, rfl⟩ := List.mem_map.mp here
        exact List.mem_cons_self ..
      · exact List.mem_cons_of_mem _ (ih later)

/-- The children in a field are those that were read for its member. -/
theorem within_partChildren (h : List.Forall₂ (PartIs F) ms ps) (once : (childFields ms).Nodup)
    {f : Field} {arity : Arity} {admission : Admission} (mem : .child f arity admission ∈ ms) :
    F f arity admission (within f (partChildren ps)) := by
  induction h with
  | nil => cases mem
  | @cons m p ms ps first others ih =>
    match m, p with
    | .attribute a type, .scalar s =>
      have later := (List.mem_cons.mp mem).resolve_left (by intro same; cases same)
      exact ih once later
    | .child g arity' admission', .children cs =>
      obtain ⟨ns, rfl, holds⟩ := first
      obtain ⟨absent, once⟩ := List.nodup_cons.mp once
      have split : partChildren (.children (ns.map (g, ·)) :: ps) =
          ns.map (g, ·) ++ partChildren ps := rfl
      rw [split, within_append]
      rcases List.mem_cons.mp mem with same | later
      · cases same
        -- No later member is of the same field, so none gave a child of it.
        have none : within f (partChildren ps) = [] := by
          apply within_eq_nil
          rintro c hc rfl
          exact absent (field_mem_of_mem_partChildren others hc)
        rw [within_map_self, none, List.append_nil]
        exact holds
      · have differ : g ≠ f := by
          rintro rfl
          exact absent (mem_childFields.mpr ⟨_, _, later⟩)
        rw [within_map_of_ne differ, List.nil_append]
        exact ih once later

end

/-- Where a row of checks gave these parts, each part is what its member asks for. -/
theorem forall₂_partIs {F : Field → Arity → Admission → List Node → Prop}
    {check : Member → Checked Part} {ms : List Member} {ps : List Part}
    (row : ms.map check = ps.map .ok) (each : ∀ m p, check m = .ok p → PartIs F m p) :
    List.Forall₂ (PartIs F) ms ps := by
  induction ms generalizing ps with
  | nil =>
    obtain rfl := List.map_eq_nil_iff.mp row.symm
    exact .nil
  | cons m ms ih =>
    obtain ⟨p, ps, rfl, first, others⟩ := List.map_eq_cons_iff.mp row.symm
    exact .cons (each m p first.symm) (ih others.symm)

/-- What was read for a node is put together to the node. -/
theorem ofParts_readParts {n : Node} (typed : n.isWellTyped = true) :
    ofParts n.kind n.loc (n.readParts n.kind.members n.head.scalars) = n := by
  -- The condition on the parts is here that each holds all children of its field.
  have parts : ∀ {ms ss}, Carries ms ss →
      List.Forall₂ (PartIs fun f _ _ ns => ns = n.all f) ms (n.readParts ms ss) := by
    intro ms ss carried
    induction carried with
    | nil => exact .nil
    | value fits _ ih => exact .cons fits ih
    | field _ ih => exact .cons ⟨_, rfl, rfl⟩ ih
  have children : inVisitingOrder n.kind
      (partChildren (n.readParts n.kind.members n.head.scalars)) = n.children := by
    rw [children_eq_flatMap typed]
    apply List.flatMap_congr
    intro f hf
    obtain ⟨arity, admission, mem⟩ := exists_member_of_mem_fieldOrder hf
    have here := within_partChildren (parts n.carries_own) (childFields_nodup _) mem
    rw [filter_eq_map_within, here, filter_eq_map_within]
    rfl
  unfold ofParts
  rw [partScalars_readParts n.carries_own, children]
  have head : Head.ofScalars? n.kind n.head.scalars = some n.head := Head.ofScalars?_scalars n.head
  rw [head]
  cases n
  rfl

/-- A tree that was written is read, if values may lie as deep as it does. -/
theorem loadAs_written (nulls : Nulls) {n : Node} (typed : n.isWellTyped = true) {fuel : Nat}
    (enough : depth (n.dump nulls) ≤ fuel) : Rereads (loadAs fuel) nulls n := by
  induction fuel generalizing n with
  | zero =>
    rw [dump_eq, depth] at enough
    omega
  | succ fuel ih =>
    intro trail
    -- A child lies less deep than its node, so one step of fuel less is enough for it.
    have rereads : ∀ f, ∀ c ∈ n.all f, Rereads (loadAs fuel) nulls c := by
      intro f c hc
      have less : depth (c.dump nulls) < depth (n.dump nulls) := depth_dump_lt typed hc
      exact ih (isWellTyped_of_mem_all typed hc) (by omega)
    have members := loadMembers_written typed rereads trail n.carries_own (fun _ mem => mem)
      fun e mem => memberEither?_written mem
    unfold loadAs
    rw [map_eq_ok]
    refine ⟨((), n.loc, n.readParts n.kind.members n.head.scalars), ?_, ofParts_readParts typed⟩
    rw [both_eq_ok, both_eq_ok]
    exact ⟨checkStated_written trail, checkLoc_written typed _, all_eq_ok.mpr members⟩

/-! ### What is read is well-typed -/

/-- The children are of kinds that the field admits, as many as it holds, and
    well-typed. -/
def FieldFits (_ : Field) (arity : Arity) (admission : Admission) (ns : List Node) : Prop :=
  (∀ c ∈ ns, c.isWellTyped = true ∧ c.kind ∈ admission.kinds) ∧
    match arity with
    | .required => ns.length = 1
    | .optional => ns.length ≤ 1
    | .many => True

/-- Whatever is read as a node of a kind is a well-typed one. -/
def ReadsTyped (load : Loader) : Prop :=
  ∀ k trail members n, load k trail members = .ok n → n.isWellTyped = true ∧ n.kind = k

section

variable {load : Loader} {n : Node}

theorem loadChild_typed (typed : ReadsTyped load) {admission : Admission} {trail : Trail} {v : Value}
    (h : loadChild load admission trail v = .ok n) :
    n.isWellTyped = true ∧ n.kind ∈ admission.kinds := by
  unfold loadChild at h
  split at h
  case h_1 k v =>
    unfold checkObject at h
    split at h
    · obtain ⟨here, rfl⟩ := typed _ _ _ _ h
      exact ⟨here, List.mem_singleton_self _⟩
    · cases h
  case h_2 ks members =>
    cases stated : statedKind ks trail members with
    | error issues =>
      rw [stated] at h
      cases h
    | ok k =>
      rw [stated] at h
      obtain ⟨here, rfl⟩ := typed _ _ _ _ h
      refine ⟨here, ?_⟩
      -- The kind that is stated was found among the admitted ones.
      unfold statedKind at stated
      split at stated
      · cases stated
      · split at stated
        · cases stated
          rename_i found
          exact List.mem_of_find?_eq_some found
        · cases stated
      · cases stated
  case h_3 => cases h

theorem loadElements_typed (typed : ReadsTyped load) {admission : Admission} {trail : Trail} {i : Nat}
    {vs : List Value} {ns : List Node} (h : loadElements load admission trail i vs = .ok ns) :
    ∀ c ∈ ns, c.isWellTyped = true ∧ c.kind ∈ admission.kinds := by
  induction vs generalizing i ns with
  | nil =>
    cases h
    intro c hc
    cases hc
  | cons v vs ih =>
    obtain ⟨⟨first, others⟩, both, rfl⟩ := map_eq_ok.mp h
    obtain ⟨here, later⟩ := both_eq_ok.mp both
    intro c hc
    rcases List.mem_cons.mp hc with rfl | hc
    · exact loadChild_typed typed here
    · exact ih later c hc

theorem loadMember_typed (typed : ReadsTyped load) {trail : Trail}
    {members : List (String × Value)} {m : Member} {p : Part}
    (h : loadMember load trail members m = .ok p) : PartIs FieldFits m p := by
  -- Wherever a field takes one child at most, a value for it was read as that child.
  have single {f : Field} {arity : Arity} {admission : Admission} {trail : Trail} {v : Value}
      {p : Part} (notMany : arity ≠ .many)
      (h : ((loadChild load admission trail v).map fun n => Part.children [(f, n)]) = .ok p) :
      PartIs FieldFits (.child f arity admission) p := by
    obtain ⟨n, read, rfl⟩ := map_eq_ok.mp h
    refine ⟨[n], rfl, ?_, ?_⟩
    · intro c hc
      obtain rfl := List.mem_singleton.mp hc
      exact loadChild_typed typed read
    · cases arity <;> simp at notMany ⊢
  match m with
  | .attribute a type =>
    obtain ⟨s, read, rfl⟩ := map_eq_ok.mp h
    exact admits_of_checkScalar read
  | .child f arity admission =>
    unfold loadMember at h
    simp only at h
    generalize memberEither? members f.key f.longKey = found at h
    cases found with
    | none =>
      cases arity with
      | required => cases h
      | optional =>
        cases h
        exact ⟨[], rfl, by simp, Nat.zero_le _⟩
      | many =>
        cases h
        exact ⟨[], rfl, by simp, trivial⟩
    | some v =>
      cases arity with
      | required => cases v <;> exact single (by simp) h
      | optional =>
        cases v with
        | null =>
          cases h
          exact ⟨[], rfl, by simp, Nat.zero_le _⟩
        | _ => exact single (by simp) h
      | many =>
        cases v with
        | array vs =>
          obtain ⟨ns, read, rfl⟩ := map_eq_ok.mp h
          exact ⟨ns, rfl, loadElements_typed typed read, trivial⟩
        | _ => cases h

end

theorem isWellTyped_at {h : Head} {cs : List (Field × Node)} {l : Option Extent}
    (typed : (mk h none cs).isWellTyped = true) (fits : fitsLoc h.kind l = true) :
    (mk h l cs).isWellTyped = true := by
  unfold isWellTyped at typed ⊢
  rw [fits]
  exact typed

/-- A node that is put together from parts of its members is well-typed. -/
theorem isWellTyped_ofParts {k : Kind} {l : Option Extent} {ps : List Part}
    (parts : List.Forall₂ (PartIs FieldFits) k.members ps) (fits : fitsLoc k l = true) :
    (ofParts k l ps).isWellTyped = true ∧ (ofParts k l ps).kind = k := by
  obtain ⟨hd, made, rfl⟩ := exists_head (carries_partScalars parts)
  -- The parts make the head of the kind and the children in visiting order.
  have node : ofParts hd.kind l ps = mk hd l (inVisitingOrder hd.kind (partChildren ps)) := by
    unfold ofParts
    rw [made]
    rfl
  have fields : inVisitingOrder hd.kind (partChildren ps) =
      (hd.kind.fieldOrder.map fun f => (f, within f (partChildren ps))).flatMap
        fun p => p.2.map (p.1, ·) := by
    rw [List.flatMap_map]
    exact List.flatMap_congr fun f _ => filter_eq_map_within f _
  have holds {f : Field} {arity : Arity} {admission : Admission}
      (mem : .child f arity admission ∈ hd.kind.members) :
      FieldFits f arity admission (within f (partChildren ps)) :=
    within_partChildren parts (childFields_nodup _) mem
  rw [node]
  refine ⟨isWellTyped_at ?_ fits, rfl⟩
  rw [fields]
  apply isWellTyped_assemble
  · rw [List.map_map]
    exact (List.map_id _).symm ▸ List.Sublist.refl _
  · intro m mem
    match m with
    | .attribute a type => exact trivial
    | .child f arity admission =>
      -- The order does not change what stands in a field.
      have same : (Parse.assemble hd none (hd.kind.fieldOrder.map
          fun f => (f, within f (partChildren ps)))).all f = within f (partChildren ps) := by
        show within f (List.flatMap _ _) = _
        rw [← fields, within_inVisitingOrder (mem_fieldOrder_of_member mem)]
      have filled := holds mem
      rw [← same] at filled
      exact ⟨fun c hc => (filled.1 c hc).2, filled.2⟩
  · intro p hp c hc
    obtain ⟨f, hf, rfl⟩ := List.mem_map.mp hp
    obtain ⟨arity, admission, mem⟩ := exists_member_of_mem_fieldOrder hf
    exact ((holds mem).1 c hc).1

/-- Whatever is read is well-typed. -/
theorem loadAs_typed (fuel : Nat) : ReadsTyped (loadAs fuel) := by
  induction fuel with
  | zero =>
    intro k trail members n h
    cases h
  | succ fuel ih =>
    intro k trail members n h
    obtain ⟨⟨_, l, ps⟩, read, rfl⟩ := map_eq_ok.mp h
    obtain ⟨-, rest⟩ := both_eq_ok.mp read
    obtain ⟨place, row⟩ := both_eq_ok.mp rest
    apply isWellTyped_ofParts
    · exact forall₂_partIs (all_eq_ok.mp row) fun _ _ => loadMember_typed ih
    · -- The place is left out, or it was read as one of the kind.
      rcases checkOptional_eq_ok place with none | ⟨v, e, read, some⟩
      · simp only at none
        rw [none]
        rfl
      · simp only at some
        rw [some]
        exact fitsLoc_of_checkExtent read

/-- A well-typed tree is read again once it has been written. -/
theorem load_written (nulls : Nulls) {n : Node} (typed : n.isWellTyped = true) :
    load (n.dump nulls) = .ok n := by
  have read := loadAs_written nulls typed (Nat.le_refl _) []
  have known : Kind.ofLabel? n.kind.label = some n.kind := by
    cases n.kind <;> decide
  unfold load
  rw [dump_eq] at read ⊢
  simp only [member?_type, known, read]

/-- What is read from any value is well-typed. -/
theorem load_typed {v : Value} {n : Node} (h : load v = .ok n) : n.isWellTyped = true := by
  unfold load at h
  cases v with
  | object members =>
    simp only at h
    split at h
    · cases h
    · split at h
      · split at h
        · cases h
          rename_i read
          exact (loadAs_typed _ _ _ _ _ read).1
        · cases h
      · split at h <;> cases h
  | _ => cases h

/-- Writing and reading are inverse: a well-typed tree is read again as itself, and
    so is a tree that was read from any value at all. -/
theorem load_dump (n : Node) :
    (n.isWellTyped = true → ∀ nulls, load (n.dump nulls) = .ok n) ∧
      ∀ v, load v = .ok n → n.isWellTyped = true ∧ ∀ nulls, load (n.dump nulls) = .ok n := by
  refine ⟨fun typed nulls => load_written nulls typed, fun v h => ?_⟩
  have typed := load_typed h
  exact ⟨typed, fun nulls => load_written nulls typed⟩

/-- A redirected command in the background as another program might write it: flags and
    numbers as texts, second names, and members that no node has. -/
def laxCommand : Value :=
  .object
    [("type", .string "Command"), ("comment", .null), ("async_", .string "yes"),
      ("suffix", .array
        [.object
          [("type", .string "Redirect"), ("number_io", .string "2"), ("op", .string ">"),
            ("file", .object
              [("text", .string "log"), ("loc", .object
                [("start", .object [("row", .int 1), ("col", .int 9), ("char", .int 8)]),
                  ("end", .object
                    [("row", .bool true), ("col", .string " 12 "), ("char", .int 11)])])])]]),
      ("name", .object [("text", .string "make")])]

theorem load_dump_lax :
    ∃ n, load laxCommand = .ok n ∧ (n.head = .command true ∧ n.label? = some "make") ∧
      n.isWellTyped = true ∧ ∀ nulls, load (n.dump nulls) = .ok n := by
  let isMake (n : Node) : Bool := n.head == .command true && n.label? == some "make"
  have run : (load laxCommand).toOption.any isMake = true := by decide +kernel
  cases read : load laxCommand with
  | error e =>
    rw [read] at run
    cases run
  | ok n =>
    rw [read] at run
    obtain ⟨background, make⟩ := Bool.and_eq_true_iff.mp run
    have made : n.head = .command true ∧ n.label? = some "make" :=
      ⟨eq_of_beq background, eq_of_beq make⟩
    exact ⟨n, rfl, made, (load_dump n).2 laxCommand read⟩

end Node

end ShellInliner
