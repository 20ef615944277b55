import Mathlib.Data.List.Basic
import ShellInliner.Node.Basic

/-! # Subtrees

    What holds everywhere in a tree, and what stands below a node, with the
    field it fills there.  Facts about whole trees are proved by `Node.induct`:
    a node may use that they hold of its children. -/

namespace ShellInliner.Node

/-- What passes from the children of a node to the node holds of every tree. -/
theorem induct {P : Node → Prop}
    (step : ∀ h l cs, (∀ c ∈ cs, P c.2) → P (mk h l cs)) : ∀ n, P n
  | mk h l cs => step h l cs (below cs)
where
  /-- The children are trees of their own. -/
  below : ∀ (cs : List (Field × Node)), ∀ c ∈ cs, P c.2
    | (_, n) :: cs, c, hc => by
      cases hc with
      | head => exact induct step n
      | tail _ h => exact below cs c h

/-! ### Everywhere in a tree -/

mutual

/-- Does the test hold of the node and of everything below it? -/
def everywhere (p : Node → Bool) : Node → Bool
  | mk h l cs => p (mk h l cs) && everywhereIn p cs

/-- Does the test hold of everything at and below the children? -/
def everywhereIn (p : Node → Bool) : List (Field × Node) → Bool
  | [] => true
  | (_, n) :: cs => everywhere p n && everywhereIn p cs

end

theorem everywhereIn_iff {p : Node → Bool} {cs : List (Field × Node)} :
    everywhereIn p cs = true ↔ ∀ c ∈ cs, everywhere p c.2 = true := by
  induction cs with
  | nil => simp [everywhereIn]
  | cons c cs ih => simp [everywhereIn, ih]

theorem everywhere_iff {p : Node → Bool} {n : Node} :
    everywhere p n = true ↔ p n = true ∧ ∀ c ∈ n.children, everywhere p c.2 = true := by
  cases n with
  | mk h l cs => simp [everywhere, everywhereIn_iff, children]

/-! ### Places below a node -/

/-- The second node stands below the first one, in a field of its parent. -/
inductive Site : Node → Field → Node → Prop
  /-- A child. -/
  | child {t n : Node} {f : Field} (mem : (f, n) ∈ t.children) : Site t f n
  /-- What stands below a child. -/
  | deeper {t m n : Node} {f g : Field} (mem : (g, m) ∈ t.children) (site : Site m f n) : Site t f n

/-- What holds of all places below a node holds of its children and of all
    places below these. -/
theorem forall_site_iff {t : Node} {P : Field → Node → Prop} :
    (∀ f n, Site t f n → P f n) ↔
      ∀ c ∈ t.children, P c.1 c.2 ∧ ∀ f n, Site c.2 f n → P f n := by
  constructor
  · intro h c hc
    exact ⟨h _ _ (.child hc), fun f n s => h f n (.deeper hc s)⟩
  · intro h f n s
    cases s with
    | child mem => exact (h _ mem).1
    | deeper mem site => exact (h _ mem).2 _ _ site

mutual

/-- Does the test hold of all places below the node? -/
def allSites (p : Field → Node → Bool) : Node → Bool
  | mk _ _ cs => allSitesIn p cs

/-- Does the test hold of the places of the children and of all places below them? -/
def allSitesIn (p : Field → Node → Bool) : List (Field × Node) → Bool
  | [] => true
  | (f, n) :: cs => p f n && allSites p n && allSitesIn p cs

end

theorem allSitesIn_iff {p : Field → Node → Bool} {cs : List (Field × Node)} :
    allSitesIn p cs = true ↔ ∀ c ∈ cs, p c.1 c.2 = true ∧ allSites p c.2 = true := by
  induction cs with
  | nil => simp [allSitesIn]
  | cons c cs ih => simp [allSitesIn, ih]

theorem allSites_iff {p : Field → Node → Bool} {t : Node} :
    allSites p t = true ↔ ∀ f n, Site t f n → p f n = true := by
  induction t using induct with
  | step h l cs ih =>
    rw [allSites, allSitesIn_iff, forall_site_iff]
    exact forall₂_congr fun c hc => and_congr_right fun _ => ih c hc

/-- A tree is searched for places that fail a test. -/
instance {P : Field → Node → Prop} [∀ f n, Decidable (P f n)] (t : Node) :
    Decidable (∀ f n, Site t f n → P f n) :=
  decidable_of_iff (allSites (fun f n => decide (P f n)) t = true) <| by
    simp only [allSites_iff, decide_eq_true_eq]

theorem everywhere_of_site {p : Node → Bool} {t n : Node} {f : Field}
    (h : everywhere p t = true) (s : Site t f n) : everywhere p n = true := by
  induction s with
  | child mem => exact (everywhere_iff.mp h).2 _ mem
  | deeper mem _ ih => exact ih ((everywhere_iff.mp h).2 _ mem)

theorem Site.trans {t m n : Node} {f g : Field} (s : Site t f m) (below : Site m g n) :
    Site t g n := by
  induction s with
  | child mem => exact .deeper mem below
  | deeper mem _ ih => exact .deeper mem (ih below)

/-! ### Well-typed trees -/

theorem areWellTyped_iff {cs : List (Field × Node)} :
    areWellTyped cs = true ↔ ∀ c ∈ cs, isWellTyped c.2 = true := by
  induction cs with
  | nil => simp [areWellTyped]
  | cons c cs ih => simp [areWellTyped, ih]

theorem isWellTyped_of_mem {t : Node} (h : t.isWellTyped = true) {c : Field × Node}
    (hc : c ∈ t.children) : c.2.isWellTyped = true := by
  cases t with
  | mk hd l cs =>
    simp only [isWellTyped, Bool.and_eq_true] at h
    exact areWellTyped_iff.mp h.2 c hc

theorem isWellTyped_of_site {t n : Node} {f : Field} (h : t.isWellTyped = true)
    (s : Site t f n) : n.isWellTyped = true := by
  induction s with
  | child mem => exact isWellTyped_of_mem h mem
  | deeper mem _ ih => exact ih (isWellTyped_of_mem h mem)

/-- A kind admits nodes of another kind in a field. -/
def Admits (k : Kind) (f : Field) (below : Kind) : Prop :=
  ∃ arity admission, Member.child f arity admission ∈ k.members ∧ below ∈ admission.kinds

/-- Does a member admit nodes of a kind in a field? -/
def memberAdmits (f : Field) (below : Kind) : Member → Bool
  | .attribute _ _ => false
  | .child g _ admission => g == f && admission.kinds.contains below

instance (k : Kind) (f : Field) (below : Kind) : Decidable (Admits k f below) :=
  decidable_of_iff (k.members.any (memberAdmits f below) = true) <| by
    rw [List.any_eq_true]
    constructor
    · rintro ⟨m, mem, here⟩
      rcases m with ⟨a, type⟩ | ⟨g, arity, admission⟩
      · cases here
      · simp only [memberAdmits, Bool.and_eq_true, beq_iff_eq, List.contains_iff_mem] at here
        obtain ⟨rfl, admitted⟩ := here
        exact ⟨arity, admission, mem, admitted⟩
    · rintro ⟨arity, admission, mem, admitted⟩
      exact ⟨_, mem, by simpa [memberAdmits] using admitted⟩

/-- Does the test hold of everything that a member admits? -/
def memberHolds (p : Field → Kind → Bool) : Member → Bool
  | .attribute _ _ => true
  | .child f _ admission => admission.kinds.all (p f)

/-- What holds of all members of a kind holds of everything it admits. -/
theorem Admits.holds {k below : Kind} {f : Field} {p : Field → Kind → Bool}
    (h : Admits k f below) (hp : k.members.all (memberHolds p) = true) : p f below = true := by
  obtain ⟨arity, admission, hm, hb⟩ := h
  exact List.all_eq_true.mp (List.all_eq_true.mp hp _ hm) _ hb

/-- The fields that have an order are those of the members. -/
theorem exists_member_of_mem_fieldOrder {k : Kind} {f : Field} (h : f ∈ k.fieldOrder) :
    ∃ arity admission, Member.child f arity admission ∈ k.members := by
  simp only [Kind.fieldOrder, Kind.singleFields, Kind.sequenceFields, List.mem_append,
    List.mem_filterMap] at h
  rcases h with ⟨m, hm, hf⟩ | ⟨m, hm, hf⟩ <;> split at hf <;> cases hf <;> exact ⟨_, _, hm⟩

/-- A child of a well-typed node is one that its kind admits. -/
theorem admits_of_mem {t : Node} (h : t.isWellTyped = true) {f : Field} {n : Node}
    (hc : (f, n) ∈ t.children) : Admits t.kind f n.kind := by
  cases t with
  | mk hd l cs =>
    simp only [isWellTyped, fitsChildren, fitsOrder, Bool.and_eq_true, decide_eq_true_eq] at h
    obtain ⟨⟨-, order, members⟩, -⟩ := h
    have field_mem : f ∈ (cs.map fun c => (c.1, c.2.kind)).map (·.1) :=
      List.mem_map.mpr ⟨(f, n.kind), List.mem_map.mpr ⟨(f, n), hc, rfl⟩, rfl⟩
    rw [order] at field_mem
    obtain ⟨g, hg, hgf⟩ := List.mem_flatMap.mp field_mem
    -- Children stand in the order of the fields, so their field is one that has an order.
    have same : f = g := by simpa using (List.mem_filter.mp hgf).2
    obtain ⟨arity, admission, hm⟩ := exists_member_of_mem_fieldOrder (same ▸ hg)
    refine ⟨arity, admission, hm, ?_⟩
    have fits := List.all_eq_true.mp members _ hm
    simp only [fitsMember, Bool.and_eq_true, List.all_eq_true] at fits
    -- The member of the field admits all that stands in it.
    have here : n.kind ∈ (cs.map fun c => (c.1, c.2.kind)).filterMap
        fun c => if c.1 = f then some c.2 else none :=
      List.mem_filterMap.mpr ⟨(f, n.kind), List.mem_map.mpr ⟨(f, n), hc, rfl⟩, by simp⟩
    exact List.contains_iff_mem.mp (fits.1 _ here)

/-- What stands below a well-typed node is what the kind of its parent admits. -/
theorem exists_admits_of_site {t n : Node} {f : Field} (h : t.isWellTyped = true)
    (s : Site t f n) : ∃ k, Admits k f n.kind := by
  induction s with
  | child mem => exact ⟨_, admits_of_mem h mem⟩
  | deeper mem _ ih => exact ih (isWellTyped_of_mem h mem)

/-! ### Children field by field -/

/-- Every field of a kind stands once among its fields. -/
theorem fieldOrder_nodup (k : Kind) : k.fieldOrder.Nodup := by
  cases k <;> decide

/-- What stands field by field, going by the fields alone, stands field by field. -/
theorem eq_flatMap_filter {α : Type} {fs : List Field} {cs : List (Field × α)} (once : fs.Nodup)
    (order : cs.map (·.1) = fs.flatMap fun f => (cs.map (·.1)).filter (· = f)) :
    cs = fs.flatMap fun f => cs.filter (·.1 = f) := by
  induction fs generalizing cs with
  | nil => exact List.map_eq_nil_iff.mp order
  | cons f fs ih =>
    obtain ⟨absent, once⟩ := List.nodup_cons.mp once
    rw [List.flatMap_cons] at order
    obtain ⟨here, others, rfl, first, second⟩ := List.map_eq_append_iff.mp order
    -- The first part fills the first field, and the second part does not.
    have fills : ∀ c ∈ here, c.1 = f := fun c mem => by
      have field : c.1 ∈ here.map (·.1) := List.mem_map_of_mem mem
      rw [first] at field
      simpa using (List.mem_filter.mp field).2
    have differs : ∀ c ∈ others, c.1 ≠ f := fun c mem same => by
      have field : c.1 ∈ others.map (·.1) := List.mem_map_of_mem mem
      rw [second] at field
      obtain ⟨g, there, filtered⟩ := List.mem_flatMap.mp field
      have same' : c.1 = g := by simpa using (List.mem_filter.mp filtered).2
      exact absent (same ▸ same' ▸ there)
    have own : (here ++ others).filter (·.1 = f) = here := by
      rw [List.filter_append, List.filter_eq_self.mpr (by simpa using fills),
        List.filter_eq_nil_iff.mpr (by simpa using differs), List.append_nil]
    have rest : ∀ g ∈ fs, (here ++ others).filter (·.1 = g) = others.filter (·.1 = g) := by
      intro g mem
      have other : ∀ c ∈ here, c.1 ≠ g := fun c there same =>
        absent (fills c there ▸ same ▸ mem)
      rw [List.filter_append, List.filter_eq_nil_iff.mpr (by simpa using other), List.nil_append]
    have rest' : ∀ g ∈ fs, ((here ++ others).map (·.1)).filter (· = g) =
        (others.map (·.1)).filter (· = g) := by
      intro g mem
      have both := congrArg (List.map (·.1)) (rest g mem)
      simpa [List.filter_map, Function.comp_def] using both
    rw [List.flatMap_congr rest'] at second
    rw [List.flatMap_cons, own, List.flatMap_congr rest, ← ih once second]

/-- The children of a well-typed node stand field by field, in the order of its
    fields. -/
theorem children_eq_flatMap {t : Node} (h : t.isWellTyped = true) :
    t.children = t.kind.fieldOrder.flatMap fun f => t.children.filter (·.1 = f) := by
  cases t with
  | mk hd l cs =>
    simp only [isWellTyped, fitsChildren, fitsOrder, Bool.and_eq_true, decide_eq_true_eq] at h
    obtain ⟨⟨-, order, -⟩, -⟩ := h
    rw [List.map_map] at order
    exact eq_flatMap_filter (fieldOrder_nodup _) order

end ShellInliner.Node
