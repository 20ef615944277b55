import ShellInliner.Proofs.Json.Language
import ShellInliner.Proofs.Node.Loading

/-! # What a tree is written as

    An object that a node is written as has no two members of one name, and its
    numbers are those of the node: the points of its place, the offsets of an
    expansion in its word, and the file descriptor of a redirection. -/

namespace ShellInliner

open Json (Value PlainElements PlainMembers plainElements_iff plainMembers_iff)

/-! ### Numbers of a node -/

/-- The numbers of a point are of a certain sort. -/
def Position.Numbers (p : Int → Prop) (point : Position) : Prop :=
  p point.row ∧ p point.col ∧ p point.char

/-- So are the numbers of a place. -/
def Extent.Numbers (p : Int → Prop) : Extent → Prop
  | between start stop => start.Numbers p ∧ stop.Numbers p
  | offsets start stop => p start ∧ p stop

/-- So are the numbers of a node. -/
structure Node.Numbers (p : Int → Prop) (n : Node) : Prop where
  /-- Those of its place. -/
  place : ∀ l, n.loc = some l → l.Numbers p
  /-- That of the file descriptor of a redirection. -/
  descriptor : ∀ op i, n.head = .redirect op (some i) → p i

section

variable {p : Int → Prop}

theorem Position.plain_dump {point : Position} (numbers : point.Numbers p) : point.dump.Plain p := by
  have apart : ["row", "col", "char"].Nodup := by decide
  exact ⟨apart, numbers.1, numbers.2.1, numbers.2.2, trivial⟩

theorem Extent.plain_dump {l : Extent} (numbers : l.Numbers p) : l.dump.Plain p := by
  have apart : ["start", "end"].Nodup := by decide
  cases l with
  | between start stop =>
    exact ⟨apart, Position.plain_dump numbers.1, Position.plain_dump numbers.2, trivial⟩
  | offsets start stop => exact ⟨apart, numbers.1, numbers.2, trivial⟩

theorem Head.plain_dump {h : Head} (descriptor : ∀ op i, h = .redirect op (some i) → p i) {s : Scalar}
    (mem : s ∈ h.scalars) : s.dump.Plain p := by
  have text (t : Option String) : (Json.ofText? t).Plain p := by cases t <;> trivial
  cases s with
  | flag b => trivial
  | text t => trivial
  | connective c => trivial
  | optionalText t => exact text t
  | optionalNumber k =>
    -- Only a redirection has a number.
    cases k with
    | none => trivial
    | some i =>
      cases h <;> simp [scalars] at mem
      exact descriptor _ i (by rw [mem])

/-! ### Members -/

namespace Nulls

variable {nulls : Nulls} {key : String} {v : Value} {es : List (Member × Value)}

theorem mem_entry {m : String × Value} (h : m ∈ nulls.entry key v) : m = (key, v) := by
  unfold entry at h
  split at h
  · cases h
  · exact List.mem_singleton.mp h

theorem keys_entry (nulls : Nulls) (key : String) (v : Value) :
    ((nulls.entry key v).map (·.1)).Sublist [key] := by
  cases nulls <;> cases v <;> simp [entry]

theorem mem_row {m : String × Value} (h : m ∈ nulls.row es) : ∃ e ∈ es, m = (e.1.key, e.2) := by
  obtain ⟨e, mem, here⟩ := List.mem_flatMap.mp h
  exact ⟨e, mem, mem_entry here⟩

theorem keys_row (nulls : Nulls) (es : List (Member × Value)) :
    ((nulls.row es).map (·.1)).Sublist (es.map (·.1.key)) := by
  induction es with
  | nil => exact .slnil
  | cons e es ih =>
    have split : nulls.row (e :: es) = nulls.entry e.1.key e.2 ++ nulls.row es := rfl
    rw [split, List.map_append]
    exact (keys_entry nulls e.1.key e.2).append ih

end Nulls

namespace Node

section

variable {nulls : Nulls} {n : Node}

/-- The value of a member is that of an attribute or that of a field. -/
theorem mem_entries {ms : List Member} {ss : List Scalar} {e : Member × Value}
    (h : e ∈ entries nulls n ms ss) :
    (∃ s ∈ ss, e.2 = s.dump) ∨ ∃ f arity, e.2 = n.valueIn nulls f arity := by
  fun_induction entries nulls n ms ss with
  | case1 => cases h
  | case2 _ _ _ ih => exact ih h
  | case3 _ _ _ s ss ih =>
    rcases List.mem_cons.mp h with rfl | h
    · exact .inl ⟨s, List.mem_cons_self .., rfl⟩
    · rcases ih h with ⟨s', mem, same⟩ | other
      · exact .inl ⟨s', List.mem_cons_of_mem _ mem, same⟩
      · exact .inr other
  | case4 f arity _ _ _ ih =>
    rcases List.mem_cons.mp h with rfl | h
    · exact .inr ⟨f, arity, rfl⟩
    · exact ih h

/-- No two members of the object that a node is written as have one name. -/
theorem keys_nodup (nulls : Nulls) (n : Node) : ((n.writtenMembers nulls).map (·.1)).Nodup := by
  have members : (entries nulls n n.kind.members n.head.scalars).map (·.1) = n.kind.members :=
    map_fst_entries n.carries_own
  -- Some members may be left out, so the names are some of those of the table.
  have keys : ((n.writtenMembers nulls).map (·.1)).Sublist
      ("type" :: "loc" :: n.kind.members.map Member.key) := by
    have row := Nulls.keys_row nulls (entries nulls n n.kind.members n.head.scalars)
    have loc := Nulls.keys_entry nulls "loc" ((n.loc.map Extent.dump).getD .null)
    have same : (entries nulls n n.kind.members n.head.scalars).map (·.1.key) =
        n.kind.members.map Member.key := by
      conv => rhs; rw [← members, List.map_map]
      rfl
    rw [same] at row
    rw [writtenMembers, writtenHeading, List.map_append, List.map_cons]
    exact (loc.append row).cons_cons "type"
  have members : (n.kind.members.map Member.key).Nodup := by
    refine List.pairwise_map.mpr ((members_apart n.kind).imp fun apart => apart.1)
  refine keys.nodup (List.nodup_cons.mpr ⟨?_, List.nodup_cons.mpr ⟨?_, members⟩⟩)
  · simp only [List.mem_cons, List.mem_map, not_or, not_exists, not_and]
    exact ⟨by decide, fun m mem => (reserved_keys mem).1.1⟩
  · simp only [List.mem_map, not_exists, not_and]
    exact fun m mem => (reserved_keys mem).2.1

/-- The value of a field is plain if its nodes are written as plain values. -/
theorem plain_valueIn {f : Field} {arity : Arity} (each : ∀ c ∈ n.all f, (c.dump nulls).Plain p) :
    (n.valueIn nulls f arity).Plain p := by
  have all : ∀ v ∈ (n.all f).map (dump nulls), v.Plain p := by simpa using each
  have first : (((n.all f).map (dump nulls)).head?.getD .null).Plain p := by
    cases values : ((n.all f).map (dump nulls)).head? with
    | none => trivial
    | some v => exact all v (List.mem_of_mem_head? values)
  cases arity with
  | many => exact plainElements_iff.mpr all
  | optional => exact first
  | required => exact first

/-- A tree is written as a plain value, whose numbers are those of its nodes. -/
theorem plain_dump {t : Node} (numbers : Throughout (Numbers p) t) (nulls : Nulls) :
    (t.dump nulls).Plain p := by
  induction t using induct with
  | step h l cs ih =>
    obtain ⟨here, below⟩ := throughout_iff.mp numbers
    have child (f : Field) : ∀ c ∈ (mk h l cs).all f, (c.dump nulls).Plain p := fun c hc =>
      ih (f, c) (mem_all_iff.mp hc) (below _ (mem_all_iff.mp hc))
    rw [dump_eq]
    refine ⟨keys_nodup nulls _, plainMembers_iff.mpr fun m mem => ?_⟩
    -- The kind and the place come first, the members after them.
    rcases List.mem_append.mp mem with heading | own
    · rcases List.mem_cons.mp heading with rfl | place
      · trivial
      · rw [Nulls.mem_entry place]
        cases l with
        | none => trivial
        | some l => exact Extent.plain_dump (here.place l rfl)
    · obtain ⟨e, member, rfl⟩ := Nulls.mem_row own
      rcases mem_entries member with ⟨s, scalar, value⟩ | ⟨f, arity, value⟩
      · rw [value]
        exact Head.plain_dump here.descriptor scalar
      · rw [value]
        exact plain_valueIn (child f)

end

end Node

end

end ShellInliner
