import Mathlib.Order.Bounds.Basic
import ShellInliner.Grammar.Reach
import ShellInliner.Proofs.Grammar.Chart

/-! # The furthest place is the furthest

    An item gets to a place if it can begin there: a terminal gets over what is
    skipped before it, and to its end where it stands, and a row of items gets
    wherever its first item gets, or, after a complete first item, wherever the
    others get.  The reach that is computed from the chart is the greatest of these
    places.

    As for the chart itself, everything rests on one equation: in the finished row
    of a place the reach of a symbol is made from that row and the rows of the later
    places. -/

namespace ShellInliner.Grammar

/-! ### Partial derivations -/

mutual

/-- The item, complete or not, takes this many characters of the text. -/
inductive Item.GetsTo : Item → List Char → Nat → Prop
  /-- What is skipped before a terminal. -/
  | gap {t : Terminal} {text : List Char} {g : Nat} (mem : g ∈ gaps text) :
      Item.GetsTo (.token t) text g
  /-- A token that fits. -/
  | token {t : Token} {text rest : List Char} (fits : t.Fits text rest) :
      Item.GetsTo (.token t.terminal) text t.length
  /-- A part of a production. -/
  | production {s : Symbol} {items : List Item} {text : List Char} {n : Nat}
      (mem : items ∈ s.productions) (row : RowGetsTo items text n) :
      Item.GetsTo (.symbol s) text n

/-- The items, complete or not, take this many characters of the text. -/
inductive RowGetsTo : List Item → List Char → Nat → Prop
  /-- No items take nothing. -/
  | nil {text : List Char} : RowGetsTo [] text 0
  /-- The first item, complete or not. -/
  | first {x : Item} {xs : List Item} {text : List Char} {n : Nat} (gets : x.GetsTo text n) :
      RowGetsTo (x :: xs) text n
  /-- The first item is complete, and the others go on. -/
  | others {t : Tree} {xs : List Item} {text : List Char} {m n : Nat}
      (derives : t.Derives text (text.drop m)) (inside : m ≤ text.length)
      (row : RowGetsTo xs (text.drop m) n) : RowGetsTo (t.item :: xs) text (m + n)

end

theorem seeds_ne_nil (s : Symbol) : s.rule.seeds.isEmpty = false := by
  cases s <;> rfl

/-- Every item can begin anywhere. -/
theorem getsTo_zero (x : Item) (text : List Char) : x.GetsTo text 0 := by
  cases x with
  | token t => exact .gap (zero_mem_gaps text)
  | symbol s =>
    -- The first production of a symbol starts with a terminal or an earlier symbol.
    induction hm : s.earlier.length using Nat.strongRecOn generalizing s with
    | ind m ih =>
      obtain ⟨p, ps, seeds⟩ := List.exists_cons_of_ne_nil (List.isEmpty_eq_false_iff.mp (seeds_ne_nil s))
      have mem : p ∈ s.rule.seeds := seeds ▸ List.mem_cons_self ..
      have starts := List.all_eq_true.mp (seeds_startEarlier s) p mem
      obtain ⟨production, -⟩ := mem_seeds.mp mem
      refine .production (List.mem_of_getElem? production) ?_
      cases items : p.items with
      | nil => exact .nil
      | cons x xs =>
        apply RowGetsTo.first
        cases x with
        | token t => exact .gap (zero_mem_gaps text)
        | symbol u =>
          have earlier : u ∈ s.earlier := by simpa [startsEarlier, items] using starts
          exact ih _ (hm ▸ earlier_length_lt earlier) u rfl

/-! ### The greatest of some numbers -/

theorem furthest_cons (n : Nat) (ns : List Nat) : furthest (n :: ns) = max n (furthest ns) := by
  have start (a b : Nat) (ns : List Nat) : ns.foldl max (max a b) = max a (ns.foldl max b) := by
    induction ns generalizing b with
    | nil => rfl
    | cons m ns ih => rw [List.foldl_cons, List.foldl_cons, Nat.max_assoc, ih]
  show ns.foldl max (max 0 n) = max n (ns.foldl max 0)
  rw [Nat.max_comm 0 n, start]

theorem le_furthest {n : Nat} {ns : List Nat} (mem : n ∈ ns) : n ≤ furthest ns := by
  induction ns with
  | nil => cases mem
  | cons m ns ih =>
    rw [furthest_cons]
    rcases List.mem_cons.mp mem with rfl | mem
    · exact Nat.le_max_left ..
    · exact (ih mem).trans (Nat.le_max_right ..)

theorem furthest_mem (ns : List Nat) : furthest ns = 0 ∨ furthest ns ∈ ns := by
  induction ns with
  | nil => exact .inl rfl
  | cons m ns ih =>
    rw [furthest_cons]
    rcases Nat.le_total m (furthest ns) with le | le
    · rw [Nat.max_eq_right le]
      rcases ih with zero | mem
      · exact .inl zero
      · exact .inr (List.mem_cons_of_mem _ mem)
    · rw [Nat.max_eq_left le]
      exact .inr (List.mem_cons_self ..)

/-- What holds of zero and of some numbers holds of the greatest of them. -/
theorem furthest_holds {P : Nat → Prop} {ns : List Nat} (zero : P 0) (all : ∀ n ∈ ns, P n) :
    P (furthest ns) := by
  rcases furthest_mem ns with same | mem
  · rw [same]
    exact zero
  · exact all _ mem

theorem max_holds {P : Nat → Prop} {m n : Nat} (left : P m) (right : P n) : P (max m n) := by
  rcases Nat.le_total m n with le | le
  · rw [Nat.max_eq_right le]
    exact right
  · rw [Nat.max_eq_left le]
    exact left

/-- What holds of a number and of some others holds of the greatest of all. -/
theorem max_furthest_holds {P : Nat → Prop} {m : Nat} {ns : List Nat} (left : P m)
    (all : ∀ n ∈ ns, P n) : P (max m (furthest ns)) := by
  rcases furthest_mem ns with same | mem
  · rw [same, Nat.max_zero]
    exact left
  · exact max_holds left (all _ mem)

/-- The furthest place that skipping can reach is the greatest of them. -/
theorem furthestGap_isGreatest (text : List Char) :
    IsGreatest {g | g ∈ gaps text} (furthestGap text) := by
  constructor
  · exact furthest_holds (P := (· ∈ gaps text)) (zero_mem_gaps text) fun _ mem => mem
  · intro g mem
    exact le_furthest mem

/-! ### Rows -/

/-- The reaches at the places after the start of a text. -/
def laterReaches (text : List Char) : List ReachRow :=
  reachChart (laterRows text)

/-- The reaches at the start of a text. -/
def reachRowAt (text : List Char) : ReachRow :=
  rules.foldl (ReachRow.add (laterReaches text)) ⟨rowAt text, []⟩

theorem reachChart_eq (text : List Char) :
    reachChart (chart text) = reachRowAt text :: laterReaches text := by
  rw [chart_eq]
  rfl

theorem laterReaches_getElem? (text : List Char) (n : Nat) : (laterReaches text)[n]? =
    if n < text.length then some (reachRowAt (text.drop (n + 1))) else none := by
  induction text generalizing n with
  | nil => simp [laterReaches, laterRows, reachChart]
  | cons c cs ih =>
    rw [laterReaches, laterRows, reachChart_eq]
    cases n with
    | zero => simp
    | succ n => simp [ih n]

section ReachRow

variable (later : List ReachRow)

@[simp] theorem row_add (r : ReachRow) (rule : Rule) : (r.add later rule).row = r.row := rfl

theorem reach_add_self (r : ReachRow) (rule : Rule) :
    (r.add later rule).reach (.symbol rule.symbol) = reachOf rule r later := by
  simp [ReachRow.reach, ReachRow.add, Thunk.get]

theorem reach_add_of_ne {r : ReachRow} {rule : Rule} {s : Symbol} (h : s ≠ rule.symbol) :
    (r.add later rule).reach (.symbol s) = r.reach (.symbol s) := by
  have other : (s == rule.symbol) = false := beq_false_of_ne h
  simp [ReachRow.reach, ReachRow.add, List.lookup_cons, other]

/-- A row to which the reaches of some symbols have been added. -/
def reachUpTo (row : Row) (ss : List Symbol) : ReachRow :=
  (ss.map Symbol.rule).foldl (ReachRow.add later) ⟨row, []⟩

theorem reachUpTo_append (row : Row) (ss ts : List Symbol) : reachUpTo later row (ss ++ ts) =
    (ts.map Symbol.rule).foldl (ReachRow.add later) (reachUpTo later row ss) := by
  simp [reachUpTo]

theorem row_reachUpTo (row : Row) (ss : List Symbol) : (reachUpTo later row ss).row = row := by
  have step (rs : List Rule) (r : ReachRow) : (rs.foldl (ReachRow.add later) r).row = r.row := by
    induction rs generalizing r with
    | nil => rfl
    | cons x rs ih => rw [List.foldl_cons, ih, row_add]
  exact step _ _

/-- Later rules do not change how far a symbol reaches. -/
theorem reach_reachUpTo_append {row : Row} {ss ts : List Symbol} {s : Symbol} (h : s ∉ ts) :
    (reachUpTo later row (ss ++ ts)).reach (.symbol s) =
      (reachUpTo later row ss).reach (.symbol s) := by
  rw [reachUpTo_append]
  generalize reachUpTo later row ss = r
  induction ts generalizing r with
  | nil => rfl
  | cons t ts ih =>
    rw [List.mem_cons, not_or] at h
    rw [List.map_cons, List.foldl_cons, ih h.2, reach_add_of_ne later h.1]

end ReachRow

@[simp] theorem row_reachRowAt (text : List Char) : (reachRowAt text).row = rowAt text :=
  row_reachUpTo (laterReaches text) (rowAt text) Symbol.all

theorem reach_reachUpTo_earlier {text : List Char} {s : Symbol} {x : Item}
    (h : startsEarlier s [x] = true) :
    (reachUpTo (laterReaches text) (rowAt text) s.earlier).reach x = (reachRowAt text).reach x := by
  obtain ⟨ts, all, -, new⟩ := s.all_eq
  have whole : reachRowAt text = reachUpTo (laterReaches text) (rowAt text) (s.earlier ++ s :: ts) := by
    rw [← all]
    rfl
  cases x with
  | token t => simp only [ReachRow.reach, whole, row_reachUpTo]
  | symbol u =>
    have mem : u ∈ s.earlier := by simpa [startsEarlier] using h
    rw [whole, reach_reachUpTo_append _ (new u mem)]

/-- In the row of a place, the reach of a symbol is made from that row itself and
    the rows of the later places. -/
theorem reach_reachRowAt (text : List Char) (s : Symbol) :
    (reachRowAt text).reach (.symbol s) = reachOf s.rule (reachRowAt text) (laterReaches text) := by
  obtain ⟨ts, all, mem, -⟩ := s.all_eq
  have whole : reachRowAt text =
      reachUpTo (laterReaches text) (rowAt text) ((s.earlier ++ [s]) ++ ts) := by
    rw [List.append_assoc, List.singleton_append, ← all]
    rfl
  -- When the symbol is entered, the row holds the reaches of the earlier symbols only.
  have own : (reachRowAt text).reach (.symbol s) =
      reachOf s.rule (reachUpTo (laterReaches text) (rowAt text) s.earlier) (laterReaches text) := by
    rw [whole, reach_reachUpTo_append _ mem, reachUpTo_append]
    exact reach_add_self _ _ s.rule
  rw [own]
  unfold reachOf
  rw [row_reachUpTo, row_reachRowAt]
  refine congrArg (max · _) (congrArg furthest (List.map_congr_left fun p seed => ?_))
  have starts := List.all_eq_true.mp (seeds_startEarlier s) p seed
  -- A seed starts with one of these, so the finished row says the same of it.
  cases items : p.items with
  | nil => rfl
  | cons x xs =>
    have first : startsEarlier s [x] = true := by
      rw [items] at starts
      exact starts
    simp only [reachHere, reach_reachUpTo_earlier first, row_reachUpTo, row_reachRowAt]

/-! ### Nothing gets further -/

/-- The items reach at least as far as this, wherever they stand. -/
structure RowBounded (items : List Item) (text : List Char) (n : Nat) : Prop where
  /-- At the start of the text. -/
  here : .symbol .script ∉ items → n ≤ reachHere (reachRowAt text) (laterReaches text) items
  /-- At a later place of another text. -/
  after : ∀ base offset, .symbol .script ∉ items → 0 < offset → offset ≤ base.length →
    base.drop offset = text → offset + n ≤ reachAfter (laterReaches base) items offset

/-- The reach of the items at a later place of a text. -/
theorem reachAfter_cons {base : List Char} {x : Item} {xs : List Item} {offset : Nat}
    (pos : 0 < offset) (inside : offset ≤ base.length) :
    reachAfter (laterReaches base) (x :: xs) offset =
      max (offset + (reachRowAt (base.drop offset)).reach x)
        (furthest (((rowAt (base.drop offset)).derive x).map fun e =>
          reachAfter (laterReaches base) xs (offset + e.length))) := by
  have place : offset - 1 + 1 = offset := by omega
  rw [reachAfter, laterReaches_getElem?, place, if_pos (by omega)]
  simp only [row_reachRowAt]

/-- A derivation has an entry of its length. -/
theorem Tree.Derives.exists_entry {t : Tree} {text : List Char} {m : Nat}
    (derives : t.Derives text (text.drop m)) (inside : m ≤ text.length) :
    ∃ e ∈ (rowAt text).derive t.item, e.length = m ∧ (t.item ≠ .symbol .script → 0 < m) := by
  obtain ⟨e, mem, rest⟩ := derives.reaches
  have sound := rowAt_sound text t.item e mem
  have lengths := congrArg List.length rest
  rw [List.length_drop, List.length_drop] at lengths
  have bound := sound.length_le
  have same : e.length = m := by omega
  exact ⟨e, mem, same, fun other => same ▸ sound.length_pos other⟩

theorem rowBounded_first {x : Item} {xs : List Item} {text : List Char} {n : Nat}
    (bound : n ≤ (reachRowAt text).reach x) : RowBounded (x :: xs) text n := by
  constructor
  · intro _
    exact bound.trans (Nat.le_max_left ..)
  · intro base offset _ pos inside drop
    rw [reachAfter_cons pos inside, drop]
    exact (Nat.add_le_add_left bound offset).trans (Nat.le_max_left ..)

theorem rowBounded_others {t : Tree} {xs : List Item} {text : List Char} {m n : Nat}
    (derives : t.Derives text (text.drop m)) (inside : m ≤ text.length)
    (row : RowBounded xs (text.drop m) n) : RowBounded (t.item :: xs) text (m + n) := by
  obtain ⟨e, mem, same, positive⟩ := derives.exists_entry inside
  constructor
  · -- In this row the first item is an entry, and the bound is one of those after entries.
    intro solid
    rw [List.mem_cons, not_or] at solid
    have bound := row.after text m solid.2 (positive fun eq => solid.1 eq.symm) inside rfl
    refine bound.trans (le_trans (le_furthest ?_) (Nat.le_max_right ..))
    rw [row_reachRowAt]
    exact List.mem_map.mpr ⟨e, mem, by rw [same]⟩
  · -- At a later place the same, with the offset added throughout.
    intro base offset solid pos within drop
    rw [List.mem_cons, not_or] at solid
    subst drop
    rw [List.length_drop] at inside
    have bound := row.after base (offset + m) solid.2 (by omega) (by omega) List.drop_drop.symm
    rw [Nat.add_assoc] at bound
    rw [reachAfter_cons pos within]
    refine bound.trans (le_trans (le_furthest ?_) (Nat.le_max_right ..))
    exact List.mem_map.mpr ⟨e, mem, by rw [same]⟩

/-- What the items of a production reach is within the reach of its symbol. -/
theorem reachHere_le_reach {text : List Char} {s : Symbol} {items : List Item}
    (mem : items ∈ s.productions) :
    reachHere (reachRowAt text) (laterReaches text) items ≤ (reachRowAt text).reach (.symbol s) := by
  obtain ⟨n, production⟩ := List.getElem?_of_mem mem
  -- A production that grows from its own symbol is tried after each of its entries; any other
  -- one is a seed.
  by_cases grows : items.head? = some (.symbol s)
  · cases items with
    | nil => cases grows
    | cons x xs =>
      cases grows
      apply Nat.max_le.mpr
      refine ⟨Nat.le_refl _, ?_⟩
      rw [reach_reachRowAt]
      refine le_trans ?_ (Nat.le_max_right ..)
      refine furthest_holds (P := (· ≤ _)) (Nat.zero_le _) fun k mem => ?_
      obtain ⟨e, entry, rfl⟩ := List.mem_map.mp mem
      refine le_trans ?_ (le_furthest (List.mem_map.mpr ⟨e, entry, rfl⟩))
      exact le_furthest (List.mem_map.mpr ⟨⟨n, xs⟩, mem_growths.mpr production, rfl⟩)
  · rw [reach_reachRowAt]
    refine le_trans ?_ (Nat.le_max_left ..)
    exact le_furthest (List.mem_map.mpr ⟨⟨n, items⟩, mem_seeds.mpr ⟨production, grows⟩, rfl⟩)

theorem script_not_mem {s : Symbol} {items : List Item} (mem : items ∈ s.productions) :
    .symbol .script ∉ items := by
  obtain ⟨n, production⟩ := List.getElem?_of_mem mem
  have solid := isSolid_of_getElem? production
  simp only [isSolid, Bool.and_eq_true, Bool.not_eq_true', List.contains_eq_mem,
    decide_eq_false_iff_not] at solid
  exact solid.1.1

/-- No item gets further than its reach. -/
theorem Item.GetsTo.le_reach {x : Item} {text : List Char} {n : Nat} (gets : x.GetsTo text n) :
    n ≤ (reachRowAt text).reach x := by
  -- Rows of items are bounded in this row and at every later place at once.
  refine Item.GetsTo.rec (motive_1 := fun x text n _ => n ≤ (reachRowAt text).reach x)
    (motive_2 := fun items text n _ => RowBounded items text n) ?gap ?token ?production ?nil ?first ?others gets
  case gap =>
    intro t text g mem
    rw [ReachRow.reach, row_reachRowAt, text_rowAt]
    exact ((furthestGap_isGreatest text).2 mem).trans (Nat.le_max_left ..)
  case token =>
    intro t text rest fits
    obtain ⟨e, mem, same⟩ := tokenEntries_complete fits
    rw [ReachRow.reach, row_reachRowAt, text_rowAt]
    exact (le_furthest (List.mem_map.mpr ⟨e, mem, same⟩)).trans (Nat.le_max_right ..)
  case production =>
    intro s items text n mem _ bounded
    exact (bounded.here (script_not_mem mem)).trans (reachHere_le_reach mem)
  case nil =>
    intro text
    refine ⟨fun _ => Nat.zero_le _, fun base offset _ _ _ _ => ?_⟩
    exact Nat.le_refl offset
  case first =>
    intro x xs text n _ bound
    exact rowBounded_first bound
  case others =>
    intro t xs text m n derives inside _ row
    exact rowBounded_others derives inside row

/-! ### The reach is attained -/

/-- At all later places of the text, items get as far as they reach. -/
def LaterAttained (text : List Char) : Prop :=
  ∀ k, 0 < k → k ≤ text.length → ∀ x : Item,
    x.GetsTo (text.drop k) ((reachRowAt (text.drop k)).reach x)

/-- A terminal gets as far as it reaches. -/
theorem token_attained (t : Terminal) (text : List Char) :
    (Item.token t).GetsTo text ((reachRowAt text).reach (.token t)) := by
  rw [ReachRow.reach, row_reachRowAt, text_rowAt]
  refine max_furthest_holds (P := (Item.token t).GetsTo text)
    (.gap (furthestGap_isGreatest text).1) fun n mem => ?_
  obtain ⟨e, entry, rfl⟩ := List.mem_map.mp mem
  obtain ⟨item, within, -, derives⟩ := tokenEntries_sound entry
  obtain ⟨length, tree⟩ := e
  cases derives with
  | @leaf x _ _ fits =>
    cases item
    -- The entry is as long as the token that it holds.
    have lengths := congrArg List.length fits.text_eq
    rw [List.length_append, List.length_append, List.length_drop] at lengths
    have same : length = x.length := by
      unfold Token.length
      simp only at within lengths
      omega
    rw [same]
    exact .token fits
  | node production row => cases item

theorem Entry.Sound.others {text : List Char} {x : Item} {xs : List Item} {e : Entry} {n : Nat}
    (sound : e.Sound text x) (row : RowGetsTo xs (text.drop e.length) n) :
    RowGetsTo (x :: xs) text (e.length + n) := by
  rw [← sound.item_eq]
  exact .others sound.derives sound.length_le row

/-- Items get as far as they reach at a later place. -/
theorem reachAfter_attained {text : List Char} (later : LaterAttained text) {items : List Item}
    (solid : .symbol .script ∉ items) {offset : Nat} (pos : 0 < offset)
    (inside : offset ≤ text.length) :
    ∃ n, reachAfter (laterReaches text) items offset = offset + n ∧
      RowGetsTo items (text.drop offset) n := by
  induction items generalizing offset with
  | nil => exact ⟨0, rfl, .nil⟩
  | cons x xs ih =>
    rw [List.mem_cons, not_or] at solid
    have here := later offset pos inside x
    rw [reachAfter_cons pos inside]
    -- Either the first item stops the row, or an entry of it leads to the others.
    refine max_furthest_holds (P := fun k => ∃ n, k = offset + n ∧ RowGetsTo (x :: xs) _ n)
      ⟨_, rfl, .first here⟩ fun k mem => ?_
    obtain ⟨e, entry, same⟩ := List.mem_map.mp mem
    have sound := rowAt_sound (text.drop offset) x e entry
    have within := sound.length_le
    rw [List.length_drop] at within
    have after : 0 < offset + e.length ∧ offset + e.length ≤ text.length := by omega
    obtain ⟨n, reach, row⟩ := ih solid.2 after.1 after.2
    refine ⟨e.length + n, ?_, ?_⟩
    · rw [← same, reach, Nat.add_assoc]
    · rw [← List.drop_drop] at row
      exact sound.others row

/-- After a complete first item, the others get as far as they reach. -/
theorem others_attained {text : List Char} (later : LaterAttained text) {x : Item} {xs : List Item}
    (solid : .symbol .script ∉ x :: xs) {e : Entry} (mem : e ∈ (rowAt text).derive x) :
    RowGetsTo (x :: xs) text (reachAfter (laterReaches text) xs e.length) := by
  rw [List.mem_cons, not_or] at solid
  have sound := rowAt_sound text x e mem
  have pos := sound.length_pos fun eq => solid.1 eq.symm
  obtain ⟨n, reach, row⟩ := reachAfter_attained later solid.2 pos sound.length_le
  rw [reach]
  exact sound.others row

/-- Items get as far as they reach, if the first of them does. -/
theorem reachHere_attained {text : List Char} (later : LaterAttained text) {items : List Item}
    (solid : .symbol .script ∉ items)
    (first : ∀ x ∈ items.head?, x.GetsTo text ((reachRowAt text).reach x)) :
    RowGetsTo items text (reachHere (reachRowAt text) (laterReaches text) items) := by
  cases items with
  | nil => exact .nil
  | cons x xs =>
    refine max_furthest_holds (P := RowGetsTo (x :: xs) text) (.first (first x rfl)) fun k mem => ?_
    rw [row_reachRowAt] at mem
    obtain ⟨e, entry, rfl⟩ := List.mem_map.mp mem
    exact others_attained later solid entry

/-- A symbol gets as far as it reaches, if the symbols before it do. -/
theorem reachOf_attained {text : List Char} (later : LaterAttained text) {s : Symbol}
    (earlier : ∀ u ∈ s.earlier, (Item.symbol u).GetsTo text ((reachRowAt text).reach (.symbol u))) :
    (Item.symbol s).GetsTo text (reachOf s.rule (reachRowAt text) (laterReaches text)) := by
  have zero := getsTo_zero (.symbol s) text
  refine max_holds (P := (Item.symbol s).GetsTo text) (furthest_holds zero fun k mem => ?_)
    (furthest_holds zero fun k mem => ?_)
  · -- A seed starts with a token or with an earlier symbol.
    obtain ⟨p, seed, rfl⟩ := List.mem_map.mp mem
    have production := List.mem_of_getElem? (mem_seeds.mp seed).1
    have starts := List.all_eq_true.mp (seeds_startEarlier s) p seed
    refine .production production (reachHere_attained later (script_not_mem production) ?_)
    intro x head
    cases x with
    | token t =>
      exact token_attained t text
    | symbol u =>
      have mem : u ∈ s.earlier := by simpa [startsEarlier, Option.mem_def.mp head] using starts
      exact earlier u mem
  · -- A growth starts with an entry of the symbol itself.
    obtain ⟨e, entry, rfl⟩ := List.mem_map.mp mem
    rw [row_reachRowAt] at entry
    refine furthest_holds zero fun k mem => ?_
    obtain ⟨p, growth, rfl⟩ := List.mem_map.mp mem
    have production := List.mem_of_getElem? (mem_growths.mp growth)
    exact .production production
      (others_attained (x := .symbol s) later (script_not_mem production) entry)

/-- Every item gets as far as it reaches. -/
theorem reach_attained (text : List Char) (x : Item) :
    x.GetsTo text ((reachRowAt text).reach x) := by
  -- The induction is on the text: later places have less of it.
  induction hn : text.length using Nat.strongRecOn generalizing text x with
  | ind n ih =>
    have later : LaterAttained text := by
      intro k pos inside y
      exact ih (text.drop k).length (by rw [List.length_drop]; omega) (text.drop k) y rfl
    cases x with
    | token t => exact token_attained t text
    | symbol s =>
      -- At one place, a symbol starts with earlier ones.
      induction hm : s.earlier.length using Nat.strongRecOn generalizing s with
      | ind m ihm =>
        rw [reach_reachRowAt]
        apply reachOf_attained later
        intro u mem
        exact ihm _ (hm ▸ earlier_length_lt mem) u rfl

/-- The reach of an item is the furthest place that it gets to. -/
theorem reach_isGreatest (text : List Char) (x : Item) :
    IsGreatest {n | x.GetsTo text n} ((reachRowAt text).reach x) :=
  ⟨reach_attained text x, fun _ gets => gets.le_reach⟩

/-! ### Scripts -/

/-- A script, complete or not, takes this many characters of the text; after a
    complete one more may be skipped. -/
def ScriptGetsTo (text : List Char) (n : Nat) : Prop :=
  (Item.symbol .script).GetsTo text n ∨
    ∃ t : Tree, ∃ m g, t.item = .symbol .script ∧ m ≤ text.length ∧
      t.Derives text (text.drop m) ∧ g ∈ gaps (text.drop m) ∧ n = m + g

/-- The furthest place is the greatest that a script gets to. -/
theorem furthestReach_isGreatest (text : List Char) :
    IsGreatest {n | ScriptGetsTo text n} (furthestReach text) := by
  unfold furthestReach
  rw [reachChart_eq]
  simp only [row_reachRowAt]
  constructor
  · -- It is attained by a script that stops in the middle or by what is skipped after one.
    refine max_furthest_holds (P := ScriptGetsTo text) (.inl (reach_attained text _)) fun n mem => ?_
    obtain ⟨e, entry, rfl⟩ := List.mem_map.mp mem
    have sound := rowAt_sound text (.symbol .script) e entry
    exact .inr ⟨e.tree, e.length, _, sound.item_eq, sound.length_le, sound.derives,
      (furthestGap_isGreatest _).1, rfl⟩
  · -- It bounds both.
    intro n gets
    rcases gets with gets | ⟨t, m, g, item, inside, derives, mem, rfl⟩
    · exact gets.le_reach.trans (Nat.le_max_left ..)
    · obtain ⟨e, entry, same, -⟩ := derives.exists_entry inside
      rw [item] at entry
      refine le_trans ?_ (Nat.le_max_right ..)
      refine le_trans ?_ (le_furthest (List.mem_map.mpr ⟨e, entry, rfl⟩))
      rw [same]
      exact Nat.add_le_add_left ((furthestGap_isGreatest _).2 mem) m

/-! ### The dead end -/

/-- Something that can be skipped begins at the place or before it and goes on for
    more than one character after it. -/
def IsOpen (text : List Char) (place : Nat) : Prop :=
  ∃ start ≤ place, ∃ n, skip? (text.drop start) = some n ∧ place + 1 < start + n

/-- Nothing is open at the last character or after it. -/
theorem not_isOpen {text : List Char} {place : Nat} (last : text.length ≤ place + 1) :
    ¬ IsOpen text place := by
  rintro ⟨start, le, n, skips, more⟩
  have bound := (skip?_bounds skips).2
  rw [List.length_drop] at bound
  omega

/-- What can be skipped has no line feed but at its end. -/
theorem ne_lineFeed_of_skip? {cs : List Char} {n i : Nat} (h : skip? cs = some n) (lt : i + 1 < n) :
    cs[i]? ≠ some '\n' := by
  cases cs with
  | nil => cases h
  | cons c cs =>
    -- In a run of characters that are no line feeds, none is one.
    have run {p : Char → Bool} (first : c ≠ '\n') (others : p '\n' = false)
        (within : i < 1 + (cs.takeWhile p).length) : (c :: cs)[i]? ≠ some '\n' := by
      cases i with
      | zero => simpa using first
      | succ i =>
        intro here
        have short : i < (cs.takeWhile p).length := by omega
        have taken := List.all_takeWhile (p := p) (l := cs)
        have same : (cs.takeWhile p)[i]? = some '\n' := by
          rw [← List.takeWhile_append_dropWhile (p := p) (l := cs)] at here
          rw [List.getElem?_cons_succ, List.getElem?_append_left short] at here
          exact here
        have holds := List.all_eq_true.mp taken _ (List.mem_of_getElem? same)
        rw [others] at holds
        cases holds
    unfold skip? at h
    simp only at h
    split at h
    · rename_i blank
      cases h
      refine run (p := isLineBlank) ?_ (by decide) (by omega)
      intro eq
      rw [eq] at blank
      cases blank
    split at h
    · rename_i hash
      cases h
      refine run (p := (· != '\n')) ?_ (by decide) (by omega)
      rw [hash]
      decide
    split at h
    · rename_i backslash
      rw [backslash]
      split at h
      · cases h
        have zero : i = 0 := by omega
        subst zero
        simp
      · cases h
        have few : i = 0 ∨ i = 1 := by omega
        rcases few with rfl | rfl <;> simp
      · cases h
    · cases h

/-- What began before the offset ends where it is covered at the latest. -/
structure Covers (text : List Char) (offset covered : Nat) : Prop where
  /-- Everything ends there or before. -/
  le : ∀ start < offset, ∀ n, skip? (text.drop start) = some n → start + n ≤ covered
  /-- If this is after the offset, something ends there. -/
  attained : offset < covered →
    ∃ start < offset, ∃ n, skip? (text.drop start) = some n ∧ start + n = covered

theorem Covers.next {text : List Char} {offset covered : Nat} (covers : Covers text offset covered) :
    Covers text (offset + 1) (max covered (offset + (skip? (text.drop offset)).getD 0)) := by
  constructor
  · -- A start before the next offset is an old one or the offset itself.
    intro start before n skips
    rcases Nat.lt_succ_iff_lt_or_eq.mp before with before | rfl
    · exact (covers.le start before n skips).trans (Nat.le_max_left ..)
    · rw [skips]
      exact Nat.le_max_right ..
  · intro after
    -- Whichever of the two goes further is the one that is attained.
    rcases Nat.le_total (offset + (skip? (text.drop offset)).getD 0) covered with le | le
    · rw [Nat.max_eq_left le] at after ⊢
      obtain ⟨start, before, n, skips, same⟩ := covers.attained (by omega)
      exact ⟨start, by omega, n, skips, same⟩
    · rw [Nat.max_eq_right le] at after ⊢
      cases skips : skip? (text.drop offset) with
      | none =>
        rw [skips] at after
        simp only [Option.getD_none] at after
        omega
      | some n => exact ⟨offset, by omega, n, skips, rfl⟩

/-- The first place, from the offset on, at which nothing is open. -/
theorem firstUncovered_isLeast {text cs : List Char} {reached offset covered : Nat}
    (here : text.drop offset = cs) (inside : offset ≤ text.length) (within : reached ≤ text.length)
    (before : ∀ p < offset, reached ≤ p → IsOpen text p) (covers : Covers text offset covered) :
    IsLeast {p | reached ≤ p ∧ ¬ IsOpen text p} (firstUncovered reached offset covered cs) := by
  -- No place before the offset is one, so it is the least if it is one itself.
  have least {p : Nat} (mem : reached ≤ p ∧ ¬ IsOpen text p) : offset ≤ p := by
    apply Nat.not_lt.mp
    intro lt
    exact mem.2 (before p lt mem.1)
  induction cs generalizing offset covered with
  | nil =>
    have last : offset = text.length := by
      have none := List.drop_eq_nil_iff.mp here
      omega
    unfold firstUncovered
    exact ⟨⟨last ▸ within, not_isOpen (by omega)⟩, fun p mem => least mem⟩
  | cons c cs ih =>
    have next := covers.next
    rw [here] at next
    unfold firstUncovered
    simp only
    split
    · rename_i found
      refine ⟨⟨found.1, ?_⟩, fun p mem => least mem⟩
      rintro ⟨start, le, n, skips, lt⟩
      have bound := next.le start (by omega) n skips
      omega
    · rename_i missing
      have more : offset < text.length := by
        have length := congrArg List.length here
        rw [List.length_drop, List.length_cons] at length
        omega
      have onward : text.drop (offset + 1) = cs := by
        rw [← List.drop_drop, here, List.drop_one, List.tail_cons]
      have before' : ∀ p < offset + 1, reached ≤ p → IsOpen text p := by
        intro p lt reach
        rcases Nat.lt_succ_iff_lt_or_eq.mp lt with lt | rfl
        · exact before p lt reach
        · obtain ⟨start, le, n, skips, same⟩ := next.attained (by omega)
          exact ⟨start, by omega, n, skips, by omega⟩
      refine ih onward more before' next ?_
      intro p mem
      apply Nat.not_lt.mp
      intro lt
      exact mem.2 (before' p lt mem.1)

/-- A script gets to places inside the text. -/
theorem Item.GetsTo.le_length {x : Item} {text : List Char} {n : Nat} (gets : x.GetsTo text n) :
    n ≤ text.length := by
  refine Item.GetsTo.rec (motive_1 := fun _ text n _ => n ≤ text.length)
    (motive_2 := fun _ text n _ => n ≤ text.length) ?gap ?token ?production ?nil ?first ?others gets
  case gap =>
    intro t text g mem
    exact le_length_of_mem_gaps mem
  case token =>
    intro t text rest fits
    exact fits.length_bounds.2
  case production =>
    intro s items text n _ _ bound
    exact bound
  case nil =>
    intro text
    exact Nat.zero_le _
  case first =>
    intro x xs text n _ bound
    exact bound
  case others =>
    intro t xs text m n _ inside _ bound
    rw [List.length_drop] at bound
    omega

theorem ScriptGetsTo.le_length {text : List Char} {n : Nat} (gets : ScriptGetsTo text n) :
    n ≤ text.length := by
  rcases gets with gets | ⟨t, m, g, -, inside, -, mem, rfl⟩
  · exact gets.le_length
  · have bound := le_length_of_mem_gaps mem
    rw [List.length_drop] at bound
    omega

theorem furthestReach_le_length (text : List Char) : furthestReach text ≤ text.length :=
  (furthestReach_isGreatest text).1.le_length

/-- The dead end is the first place, from the furthest one on, at which nothing is
    open. -/
theorem deadEnd_isLeast (text : List Char) :
    IsLeast {p | furthestReach text ≤ p ∧ ¬ IsOpen text p} (deadEnd text) := by
  refine firstUncovered_isLeast rfl (Nat.zero_le _) (furthestReach_le_length text) ?_ ⟨?_, ?_⟩
  · intro p lt
    omega
  · intro start lt
    omega
  · intro lt
    omega

/-- The dead end is inside the text unless the furthest place is its end. -/
theorem deadEnd_lt_iff {text : List Char} :
    deadEnd text < text.length ↔ furthestReach text < text.length := by
  constructor
  · intro lt
    exact (deadEnd_isLeast text).1.1.trans_lt lt
  · intro lt
    have le := (deadEnd_isLeast text).2
      (show _ ≤ text.length - 1 ∧ _ from ⟨Nat.le_sub_one_of_lt lt, not_isOpen (by omega)⟩)
    omega

/-- No line ends between the furthest place and the dead end. -/
theorem ne_lineFeed_of_lt_deadEnd {text : List Char} {p : Nat} (from_reach : furthestReach text ≤ p)
    (before : p < deadEnd text) : text[p]? ≠ some '\n' := by
  have opened : IsOpen text p := by
    by_contra closed
    have le := (deadEnd_isLeast text).2 ⟨from_reach, closed⟩
    omega
  obtain ⟨start, le, n, skips, more⟩ := opened
  have free := ne_lineFeed_of_skip? (i := p - start) skips (by omega)
  rw [List.getElem?_drop, Nat.add_sub_cancel' le] at free
  exact free

end ShellInliner.Grammar
