import ShellInliner.Grammar.Chart
import ShellInliner.Proofs.Grammar.Length

/-! # The chart finds every derivation

    Every entry of the chart is a derivation of the text it says, and whatever a
    symbol derives at a place has an entry of that length there.  So a script is
    found exactly when the text is one.

    Both directions rest on one equation: in the finished row of a place, the
    entries of a symbol are made from that row itself and the rows of the later
    places. -/

namespace ShellInliner.Grammar

/-! ### Rows -/

/-- The rows of the places after the start of a text. -/
def laterRows : List Char → List Row
  | [] => []
  | _ :: cs => chart cs

/-- The row of the start of a text. -/
def rowAt (text : List Char) : Row :=
  rowOf text (laterRows text)

theorem chart_eq (text : List Char) : chart text = rowAt text :: laterRows text := by
  cases text <;> rfl

theorem laterRows_getElem? (text : List Char) (n : Nat) :
    (laterRows text)[n]? = if n < text.length then some (rowAt (text.drop (n + 1))) else none := by
  induction text generalizing n with
  | nil => simp [laterRows]
  | cons c cs ih =>
    rw [laterRows, chart_eq]
    cases n with
    | zero => simp
    | succ n => simp [ih n]

section Row

variable (later : List Row)

@[simp] theorem text_add (row : Row) (rule : Rule) : (row.add later rule).text = row.text := rfl

theorem get_add_self (row : Row) (rule : Rule) :
    (row.add later rule).get rule.symbol = entriesOf rule row later := by
  simp [Row.get, Row.add, Thunk.get]

theorem get_add_of_ne {row : Row} {rule : Rule} {s : Symbol} (h : s ≠ rule.symbol) :
    (row.add later rule).get s = row.get s := by
  have : (s == rule.symbol) = false := beq_false_of_ne h
  simp [Row.get, Row.add, List.lookup_cons, this]

/-- A row to which the rules of some symbols have been added. -/
def rowUpTo (text : List Char) (ss : List Symbol) : Row :=
  (ss.map Symbol.rule).foldl (Row.add later) ⟨text, []⟩

theorem rowUpTo_append (text : List Char) (ss ts : List Symbol) :
    rowUpTo later text (ss ++ ts) = (ts.map Symbol.rule).foldl (Row.add later) (rowUpTo later text ss) := by
  simp [rowUpTo]

theorem text_rowUpTo (text : List Char) (ss : List Symbol) : (rowUpTo later text ss).text = text := by
  have step (rs : List Rule) (row : Row) : (rs.foldl (Row.add later) row).text = row.text := by
    induction rs generalizing row with
    | nil => rfl
    | cons r rs ih => rw [List.foldl_cons, ih, text_add]
  exact step _ _

/-- Later rules do not change what a symbol derives. -/
theorem get_rowUpTo_append {text : List Char} {ss ts : List Symbol} {s : Symbol} (h : s ∉ ts) :
    (rowUpTo later text (ss ++ ts)).get s = (rowUpTo later text ss).get s := by
  rw [rowUpTo_append]
  generalize rowUpTo later text ss = row
  induction ts generalizing row with
  | nil => rfl
  | cons t ts ih =>
    rw [List.mem_cons, not_or] at h
    rw [List.map_cons, List.foldl_cons, ih h.2, get_add_of_ne later h.1]

end Row

/-- The symbols that stand before a symbol in the grammar. -/
def Symbol.earlier (s : Symbol) : List Symbol :=
  Symbol.all.takeWhile (· ≠ s)

theorem Symbol.all_eq (s : Symbol) :
    ∃ ts, Symbol.all = s.earlier ++ s :: ts ∧ s ∉ ts ∧ ∀ u ∈ s.earlier, u ∉ s :: ts := by
  refine ⟨(Symbol.all.dropWhile (· ≠ s)).tail, ?_⟩
  cases s <;> decide

/-- Does the production start with a terminal or with an earlier symbol? -/
def startsEarlier (s : Symbol) (items : List Item) : Bool :=
  match items.head? with
  | some (.symbol u) => s.earlier.contains u
  | _ => true

theorem seeds_startEarlier (s : Symbol) : s.rule.seeds.all (fun p => startsEarlier s p.items) = true := by
  cases s <;> rfl

theorem derive_rowUpTo_earlier {text : List Char} {s : Symbol} {x : Item}
    (h : startsEarlier s [x] = true) :
    (rowUpTo (laterRows text) text s.earlier).derive x = (rowAt text).derive x := by
  obtain ⟨ts, hall, -, hnew⟩ := s.all_eq
  have whole : rowAt text = rowUpTo (laterRows text) text (s.earlier ++ s :: ts) := by
    rw [← hall]
    rfl
  cases x with
  | token t => simp only [Row.derive, whole, text_rowUpTo]
  | symbol u =>
    have mem : u ∈ s.earlier := by simpa [startsEarlier] using h
    rw [Row.derive, Row.derive, whole, get_rowUpTo_append _ (hnew u mem)]

theorem spans_rowUpTo_earlier {text : List Char} {s : Symbol} {items : List Item}
    (h : startsEarlier s items = true) :
    spans (rowUpTo (laterRows text) text s.earlier) (laterRows text) items =
      spans (rowAt text) (laterRows text) items := by
  cases items with
  | nil => rfl
  | cons x xs => simp only [spans, derive_rowUpTo_earlier (x := x) h]

/-- In the row of a place, the entries of a symbol are made from that row itself
    and the rows of the later places. -/
theorem get_rowAt (text : List Char) (s : Symbol) :
    (rowAt text).get s = settle (grownCandidates s.rule (laterRows text)) (text.length + 1)
      (seedCandidates s.rule (rowAt text) (laterRows text)) := by
  obtain ⟨ts, hall, hs, -⟩ := s.all_eq
  -- The symbols are entered in their order, so the row splits at this one.
  have whole : rowAt text = rowUpTo (laterRows text) text ((s.earlier ++ [s]) ++ ts) := by
    rw [List.append_assoc, List.singleton_append, ← hall]
    rfl
  have own : (rowAt text).get s = entriesOf s.rule (rowUpTo (laterRows text) text s.earlier)
      (laterRows text) := by
    rw [whole, get_rowUpTo_append _ hs, rowUpTo_append]
    exact get_add_self _ _ s.rule
  rw [own, entriesOf, text_rowUpTo]
  congr 1
  -- A seed starts with an earlier symbol, whose entries are there when this one is entered.
  unfold seedCandidates
  rw [List.flatMap_def, List.flatMap_def]
  refine congrArg List.flatten (List.map_congr_left fun p hp => ?_)
  rw [spans_rowUpTo_earlier (List.all_eq_true.mp (seeds_startEarlier s) p hp)]

/-! ### Settling -/

theorem best?_eq_none {cs : List Candidate} (h : best? cs = none) : cs = [] := by
  cases cs with
  | nil => rfl
  | cons a cs =>
    rw [best?] at h
    split at h
    · cases h
    · split at h <;> cases h

/-- The best candidate is one of them, and none is shorter. -/
theorem best?_eq_some {cs : List Candidate} {c : Candidate} (h : best? cs = some c) :
    c ∈ cs ∧ ∀ d ∈ cs, c.entry.length ≤ d.entry.length := by
  induction cs generalizing c with
  | nil => cases h
  | cons a cs ih =>
    rw [best?] at h
    split at h
    · rename_i hnone
      injection h with h
      subst h
      simp [best?_eq_none hnone]
    · rename_i d hd
      obtain ⟨hm, hle⟩ := ih hd
      split at h <;> injection h with h <;> subst h
      · -- The best of the others goes before the first.
        rename_i before
        refine ⟨List.mem_cons_of_mem _ hm, fun e he => ?_⟩
        simp only [Candidate.precedes, Bool.or_eq_true, Bool.and_eq_true, decide_eq_true_eq,
          beq_iff_eq] at before
        rcases List.mem_cons.mp he with rfl | he
        · omega
        · exact hle e he
      · -- The first stays the best.
        rename_i notBefore
        refine ⟨List.mem_cons_self .., fun e he => ?_⟩
        simp only [Candidate.precedes, Bool.or_eq_true, Bool.and_eq_true, decide_eq_true_eq,
          beq_iff_eq, not_or] at notBefore
        rcases List.mem_cons.mp he with rfl | he
        · omega
        · have := hle e he
          omega

/-- What holds of all candidates and passes on to what extends them holds of all
    settled entries. -/
theorem settle_forall {grow : Entry → List Candidate} {P : Entry → Prop}
    (hgrow : ∀ e, P e → ∀ c ∈ grow e, P c.entry) (rounds : Nat) {pending : List Candidate}
    (hpending : ∀ c ∈ pending, P c.entry) : ∀ e ∈ settle grow rounds pending, P e := by
  induction rounds generalizing pending with
  | zero => intro e he; cases he
  | succ rounds ih =>
    rw [settle]
    split
    · intro e he
      cases he
    · rename_i c hc
      have hP := hpending c (best?_eq_some hc).1
      intro e he
      rcases List.mem_cons.mp he with rfl | he
      · exact hP
      · refine ih (fun d hd => ?_) e he
        -- What is pending next was pending before or grows from what was settled.
        rcases List.mem_append.mp hd with hd | hd
        · exact hpending d (List.mem_filter.mp hd).1
        · exact hgrow _ hP d hd

/-- Enough rounds settle an entry for the length of every candidate, and for
    every length to which a settled entry can grow. -/
theorem settle_complete {grow : Entry → List Candidate} {P : Entry → Prop} {N : Nat}
    (hle : ∀ e, P e → e.length ≤ N)
    (hgrow : ∀ e, P e → ∀ c ∈ grow e, P c.entry ∧ e.length < c.entry.length)
    (rounds least : Nat) (pending : List Candidate)
    (hpending : ∀ c ∈ pending, P c.entry ∧ least ≤ c.entry.length)
    (hrounds : N + 1 ≤ least + rounds) :
    (∀ c ∈ pending, ∃ e ∈ settle grow rounds pending, e.length = c.entry.length) ∧
    (∀ e ∈ settle grow rounds pending, ∀ c ∈ grow e,
      ∃ e' ∈ settle grow rounds pending, e'.length = c.entry.length) := by
  -- Each round drops the least length, so the bound on the rounds is kept.
  induction rounds generalizing pending least with
  | zero =>
    refine ⟨fun c hc => ?_, fun e he => by cases he⟩
    have := hpending c hc
    have := hle c.entry this.1
    omega
  | succ rounds ih =>
    rw [settle]
    split
    · rename_i hnone
      rw [best?_eq_none hnone]
      exact ⟨fun c hc => (by cases hc), fun e he => (by cases he)⟩
    · rename_i c hc
      obtain ⟨hmem, hbest⟩ := best?_eq_some hc
      have hc' := hpending c hmem
      obtain ⟨hpend, hclosed⟩ := ih (c.entry.length + 1)
        (pending.filter (fun d => d.entry.length != c.entry.length) ++ grow c.entry)
        (fun d hd => by
          rcases List.mem_append.mp hd with hd | hd
          · obtain ⟨hd, hne⟩ := List.mem_filter.mp hd
            have := hbest d hd
            simp only [bne_iff_ne, ne_eq] at hne
            exact ⟨(hpending d hd).1, by omega⟩
          · have := hgrow c.entry hc'.1 d hd
            exact ⟨this.1, by omega⟩)
        (by omega)
      constructor
      · intro d hd
        by_cases same : d.entry.length = c.entry.length
        · exact ⟨c.entry, List.mem_cons_self .., same.symm⟩
        · obtain ⟨e, he, hl⟩ := hpend d
            (List.mem_append_left _ (List.mem_filter.mpr ⟨hd, by simpa using same⟩))
          exact ⟨e, List.mem_cons_of_mem _ he, hl⟩
      · intro e he d hd
        rcases List.mem_cons.mp he with rfl | he
        · obtain ⟨e', he', hl⟩ := hpend d (List.mem_append_right _ hd)
          exact ⟨e', List.mem_cons_of_mem _ he', hl⟩
        · obtain ⟨e', he', hl⟩ := hclosed e he d hd
          exact ⟨e', List.mem_cons_of_mem _ he', hl⟩

/-! ### Seeds and growths -/

theorem mem_numbered {s : Symbol} {n : Nat} {items : List Item} :
    ⟨n, items⟩ ∈ s.numbered ↔ s.productions[n]? = some items := by
  simp only [Symbol.numbered, List.mem_map, Numbered.mk.injEq]
  constructor
  · rintro ⟨⟨xs, m⟩, hm, rfl, rfl⟩
    exact List.mem_zipIdx_iff_getElem?.mp hm
  · intro h
    exact ⟨(items, n), List.mem_zipIdx_iff_getElem?.mpr h, rfl, rfl⟩

theorem mem_seeds {s : Symbol} {n : Nat} {items : List Item} :
    ⟨n, items⟩ ∈ s.rule.seeds ↔
      s.productions[n]? = some items ∧ items.head? ≠ some (.symbol s) := by
  simp [Symbol.rule, mem_numbered]

theorem mem_growths {s : Symbol} {n : Nat} {items : List Item} :
    ⟨n, items⟩ ∈ s.rule.growths ↔ s.productions[n]? = some (.symbol s :: items) := by
  simp only [Symbol.rule, List.mem_filterMap]
  constructor
  · rintro ⟨⟨m, xs⟩, hm, h⟩
    -- Only a production that starts with the symbol itself is a growth.
    split at h
    · split at h
      · rename_i same
        simp only [Option.some.injEq, Numbered.mk.injEq] at h
        obtain ⟨rfl, rfl⟩ := h
        subst same
        exact mem_numbered.mp (by simp_all)
      · cases h
    · cases h
  · intro h
    exact ⟨⟨n, .symbol s :: items⟩, mem_numbered.mpr h, by simp⟩

/-- Is the production made of items that take at least one character each, and
    not empty unless it is one of the whole script? -/
def isSolid (s : Symbol) (items : List Item) : Bool :=
  !items.contains (.symbol .script) && (s == .script || !items.isEmpty) &&
    (items.head? != some (.symbol s) || !items.tail.isEmpty)

theorem productions_solid (s : Symbol) : s.productions.all (isSolid s) = true := by
  cases s <;> rfl

theorem isSolid_of_getElem? {s : Symbol} {n : Nat} {items : List Item}
    (h : s.productions[n]? = some items) : isSolid s items = true :=
  List.all_eq_true.mp (productions_solid s) _ (List.mem_of_getElem? h)

/-! ### Soundness -/

/-- The entry is what the item derives at the start of the text. -/
structure Entry.Sound (text : List Char) (x : Item) (e : Entry) : Prop where
  /-- The derivation is one of the item. -/
  item_eq : e.tree.item = x
  /-- The entry ends inside the text. -/
  length_le : e.length ≤ text.length
  /-- Nothing but a whole script is empty. -/
  length_pos : x ≠ .symbol .script → 0 < e.length
  /-- The derivation derives that many characters. -/
  derives : e.tree.Derives text (text.drop e.length)

/-- The derivations of the span derive what the items do, from the offset on. -/
structure Span.Sound (text : List Char) (offset : Nat) (items : List Item) (s : Span) : Prop where
  /-- The derivations are those of the items. -/
  items_eq : s.trees.map Tree.item = items
  /-- The span ends inside the text. -/
  length_le : s.length ≤ text.length
  /-- The span starts at the offset, and takes something if there are items. -/
  offset_le : offset ≤ s.length ∧ (items ≠ [] → offset < s.length)
  /-- The derivations follow one another. -/
  derives : RowDerives s.trees (text.drop offset) (text.drop s.length)

theorem tokenEntries_sound {t : Terminal} {text : List Char} {e : Entry}
    (h : e ∈ tokenEntries t text) : e.Sound text (.token t) := by
  simp only [tokenEntries, List.mem_filterMap, Option.map_eq_some_iff] at h
  obtain ⟨g, hg, n, hn, rfl⟩ := h
  have hgap := le_length_of_mem_gaps hg
  have hlen := Terminal.length?_bounds hn
  rw [List.length_drop] at hlen
  refine ⟨rfl, by simp only; omega, fun _ => by simp only; omega, .leaf ⟨?_, ?_, ?_⟩⟩
  · simp only
    rw [← List.drop_drop, List.append_assoc, List.take_append_drop, List.take_append_drop]
  · simpa [List.length_take, Nat.min_eq_left hgap] using hg
  · simp only
    rw [← List.drop_drop, List.take_append_drop, hn, List.length_take, List.length_drop,
      Nat.min_eq_left hlen.2]

/-- The rows of all places after the start of a text are sound. -/
def LaterSound (text : List Char) : Prop :=
  ∀ k, 0 < k → k ≤ text.length → ∀ x, ∀ e ∈ (rowAt (text.drop k)).derive x, e.Sound (text.drop k) x

theorem follow_sound {text : List Char} (later : LaterSound text) {items : List Item}
    (solid : .symbol .script ∉ items) {offset : Nat} (pos : 0 < offset)
    (inside : offset ≤ text.length) {s : Span} (h : s ∈ follow (laterRows text) items offset) :
    s.Sound text offset items := by
  induction items generalizing offset s with
  | nil =>
    rw [follow, List.mem_singleton] at h
    subst h
    exact ⟨rfl, inside, ⟨Nat.le_refl _, fun h => absurd rfl h⟩, .nil⟩
  | cons x xs ih =>
    rw [List.mem_cons, not_or] at solid
    have place : offset - 1 + 1 = offset := by omega
    rw [follow, laterRows_getElem?, place, if_pos (by omega)] at h
    simp only [List.mem_flatMap, List.mem_map] at h
    obtain ⟨e, he, s', hs', rfl⟩ := h
    obtain ⟨item_eq, e_le, e_pos, e_derives⟩ := later offset pos inside x e he
    rw [List.length_drop] at e_le
    -- No entry but that of a script is empty, so the others are followed at a later place.
    have e_pos := e_pos (fun h => solid.1 h.symm)
    obtain ⟨items_eq, s_le, s_off, s_derives⟩ := ih solid.2 (by omega) (by omega) hs'
    rw [List.drop_drop] at e_derives
    refine ⟨by simp [Span.push, item_eq, items_eq], s_le, ?_, .cons e_derives s_derives⟩
    exact ⟨by simp only [Span.push]; omega, fun _ => by simp only [Span.push]; omega⟩

theorem spans_sound {text : List Char} (later : LaterSound text) {items : List Item}
    (solid : .symbol .script ∉ items)
    (first : ∀ x ∈ items.head?, ∀ e ∈ (rowAt text).derive x, e.Sound text x) {s : Span}
    (h : s ∈ spans (rowAt text) (laterRows text) items) : s.Sound text 0 items := by
  cases items with
  | nil =>
    rw [spans, List.mem_singleton] at h
    subst h
    exact ⟨rfl, Nat.zero_le _, ⟨Nat.le_refl _, fun h => absurd rfl h⟩, .nil⟩
  | cons x xs =>
    rw [List.mem_cons, not_or] at solid
    simp only [spans, List.mem_flatMap, List.mem_map] at h
    obtain ⟨e, he, s', hs', rfl⟩ := h
    obtain ⟨item_eq, e_le, e_pos, e_derives⟩ := first x rfl e he
    -- The first entry stands in this row, the others in the rows of later places.
    have e_pos := e_pos (fun h => solid.1 h.symm)
    obtain ⟨items_eq, s_le, s_off, s_derives⟩ := follow_sound later solid.2 e_pos e_le hs'
    refine ⟨by simp [Span.push, item_eq, items_eq], s_le, ?_, .cons (by simpa using e_derives) s_derives⟩
    exact ⟨Nat.zero_le _, fun _ => by simp only [Span.push]; omega⟩

@[simp] theorem text_rowAt (text : List Char) : (rowAt text).text = text :=
  text_rowUpTo (laterRows text) text Symbol.all

theorem seedCandidates_sound {text : List Char} (later : LaterSound text) {s : Symbol}
    (earlier : ∀ u ∈ s.earlier, ∀ e ∈ (rowAt text).get u, e.Sound text (.symbol u))
    {c : Candidate} (h : c ∈ seedCandidates s.rule (rowAt text) (laterRows text)) :
    c.entry.Sound text (.symbol s) := by
  simp only [seedCandidates, List.mem_flatMap, List.mem_map] at h
  obtain ⟨p, hp, span, hspan, rfl⟩ := h
  have starts := List.all_eq_true.mp (seeds_startEarlier s) p hp
  obtain ⟨production, -⟩ := mem_seeds.mp hp
  have solid := isSolid_of_getElem? production
  simp only [isSolid, Bool.and_eq_true, Bool.not_eq_true', List.contains_eq_mem,
    decide_eq_false_iff_not, Bool.or_eq_true, beq_iff_eq, List.isEmpty_eq_false_iff] at solid
  obtain ⟨⟨noScript, nonempty⟩, -⟩ := solid
  have first : ∀ x ∈ p.items.head?, ∀ e ∈ (rowAt text).derive x, e.Sound text x := by
    intro x hx e he
    -- A token is found in the text; a symbol in the row, where it has been entered already.
    cases x with
    | token t => exact tokenEntries_sound (by simpa [Row.derive] using he)
    | symbol u =>
      have mem : u ∈ s.earlier := by simpa [startsEarlier, Option.mem_def.mp hx] using starts
      exact earlier u mem e he
  obtain ⟨items_eq, s_le, s_off, s_derives⟩ := spans_sound later noScript first hspan
  refine ⟨rfl, s_le, fun hs => ?_, .node (items_eq ▸ production) (by simpa using s_derives)⟩
  rcases nonempty with rfl | nonempty
  · exact absurd rfl hs
  · exact s_off.2 nonempty

theorem grownCandidates_sound {text : List Char} (later : LaterSound text) {s : Symbol} {e : Entry}
    (he : e.Sound text (.symbol s)) {c : Candidate}
    (h : c ∈ grownCandidates s.rule (laterRows text) e) :
    c.entry.Sound text (.symbol s) ∧ e.length < c.entry.length := by
  simp only [grownCandidates, List.mem_flatMap, List.mem_map] at h
  obtain ⟨p, hp, span, hspan, rfl⟩ := h
  have production := mem_growths.mp hp
  have solid := isSolid_of_getElem? production
  simp only [isSolid, Bool.and_eq_true, Bool.not_eq_true', List.contains_eq_mem,
    decide_eq_false_iff_not, List.mem_cons, not_or, List.head?_cons, bne_self_eq_false,
    Bool.false_or, List.tail_cons, List.isEmpty_eq_false_iff] at solid
  obtain ⟨⟨⟨notScript, noScript⟩, -⟩, nonempty⟩ := solid
  -- The entry that grows is not empty, and neither is what follows it.
  have e_pos := he.length_pos (fun h => notScript h.symm)
  obtain ⟨items_eq, s_le, s_off, s_derives⟩ := follow_sound later noScript e_pos he.length_le hspan
  have longer := s_off.2 nonempty
  refine ⟨⟨rfl, s_le, fun _ => by simp only; omega, .node ?_ (.cons he.derives s_derives)⟩, longer⟩
  rw [List.map_cons, items_eq, he.item_eq]
  exact production

theorem earlier_length_lt {s u : Symbol} (h : u ∈ s.earlier) : u.earlier.length < s.earlier.length := by
  have : s.earlier.all (fun u => u.earlier.length < s.earlier.length) = true := by
    cases s <;> decide
  simpa using List.all_eq_true.mp this u h

/-- Every entry of the chart is a derivation of the text it says. -/
theorem rowAt_sound (text : List Char) (x : Item) :
    ∀ e ∈ (rowAt text).derive x, e.Sound text x := by
  -- The induction is on the text: later places have less of it.
  induction hn : text.length using Nat.strongRecOn generalizing text x with
  | ind n ih =>
    have later : LaterSound text := by
      intro k hk hle y e he
      exact ih (text.drop k).length (by rw [List.length_drop]; omega) (text.drop k) y rfl e he
    cases x with
    | token t =>
      intro e he
      exact tokenEntries_sound (by simpa [Row.derive] using he)
    | symbol s =>
      -- At one place, a symbol starts with earlier ones.
      have symbols : ∀ m, ∀ u : Symbol, u.earlier.length = m →
          ∀ e ∈ (rowAt text).get u, e.Sound text (.symbol u) := by
        intro m
        induction m using Nat.strongRecOn with
        | ind m ihm =>
          rintro u rfl e he
          rw [get_rowAt] at he
          refine settle_forall (P := fun e => e.Sound text (.symbol u))
            (fun e he c hc => (grownCandidates_sound later he hc).1) _ (fun c hc => ?_) e he
          exact seedCandidates_sound later
            (fun v hv e he => ihm _ (earlier_length_lt hv) v rfl e he) hc
      exact symbols _ s rfl

/-! ### Completeness -/

theorem tokenEntries_complete {t : Token} {text rest : List Char} (h : t.Fits text rest) :
    ∃ e ∈ tokenEntries t.terminal text, e.length = t.length := by
  have after : text.drop t.gap.length = t.text ++ rest := by
    rw [h.text_eq, List.append_assoc, List.drop_left]
  refine ⟨⟨t.length, .leaf ⟨t.terminal, text.take t.gap.length,
    (text.drop t.gap.length).take t.text.length⟩⟩, ?_, rfl⟩
  refine List.mem_filterMap.mpr ⟨t.gap.length, h.gap_mem, ?_⟩
  exact Option.map_eq_some_iff.mpr ⟨t.text.length, by rw [after, h.length_eq], rfl⟩

/-- The entries of a symbol take up its seeds, and go on from each other. -/
theorem get_complete (text : List Char) (s : Symbol) :
    (∀ c ∈ seedCandidates s.rule (rowAt text) (laterRows text),
      ∃ e ∈ (rowAt text).get s, e.length = c.entry.length) ∧
    (∀ e ∈ (rowAt text).get s, ∀ c ∈ grownCandidates s.rule (laterRows text) e,
      ∃ e' ∈ (rowAt text).get s, e'.length = c.entry.length) := by
  have later : LaterSound text := fun k _ _ x => rowAt_sound (text.drop k) x
  rw [get_rowAt]
  refine settle_complete (P := fun e => e.Sound text (.symbol s)) (fun e he => he.length_le)
    (fun e he c hc => grownCandidates_sound later he hc) _ 0 _ (fun c hc => ?_) (by omega)
  exact ⟨seedCandidates_sound later (fun u _ => rowAt_sound text (.symbol u)) hc, Nat.zero_le _⟩

/-- The item has an entry at the start of the text that leaves the rest. -/
def Reaches (text : List Char) (x : Item) (rest : List Char) : Prop :=
  ∃ e ∈ (rowAt text).derive x, text.drop e.length = rest

/-- From the offset on, the items have a span that leaves the rest. -/
def Follows (text : List Char) (items : List Item) (offset : Nat) (rest : List Char) : Prop :=
  ∃ s ∈ follow (laterRows text) items offset, text.drop s.length = rest

/-- A production whose first item has an entry, after which the others follow,
    gives an entry of its symbol. -/
theorem reaches_of_production {text middle rest : List Char} {s : Symbol} {n : Nat} {x : Item}
    {xs : List Item} (production : s.productions[n]? = some (x :: xs))
    (first : Reaches text x middle)
    (others : ∀ offset, 0 < offset → offset ≤ text.length → text.drop offset = middle →
      Follows text xs offset rest) :
    Reaches text (.symbol s) rest := by
  obtain ⟨e, he, rfl⟩ := first
  have sound := rowAt_sound text x e he
  have solid := isSolid_of_getElem? production
  simp only [isSolid, Bool.and_eq_true, Bool.not_eq_true', List.contains_eq_mem,
    decide_eq_false_iff_not, List.mem_cons, not_or] at solid
  have e_pos := sound.length_pos (fun h => solid.1.1.1 h.symm)
  obtain ⟨span, hspan, rfl⟩ := others e.length e_pos sound.length_le rfl
  -- A production that starts with its own symbol grows from the first entry; the others
  -- are seeds.
  by_cases hx : x = .symbol s
  · subst hx
    have grown : ⟨n, ⟨span.length, .node s n (e.tree :: span.trees)⟩⟩ ∈
        grownCandidates s.rule (laterRows text) e :=
      List.mem_flatMap.mpr ⟨⟨n, xs⟩, mem_growths.mpr production, List.mem_map.mpr ⟨span, hspan, rfl⟩⟩
    obtain ⟨e', he', hl⟩ := (get_complete text s).2 e he _ grown
    exact ⟨e', he', by rw [hl]⟩
  · have whole : span.push e.tree ∈ spans (rowAt text) (laterRows text) (x :: xs) :=
      List.mem_flatMap.mpr ⟨e, he, List.mem_map.mpr ⟨span, hspan, rfl⟩⟩
    have seed : ⟨n, ⟨span.length, .node s n (e.tree :: span.trees)⟩⟩ ∈
        seedCandidates s.rule (rowAt text) (laterRows text) :=
      List.mem_flatMap.mpr ⟨⟨n, x :: xs⟩, mem_seeds.mpr ⟨production, by simpa using hx⟩,
        List.mem_map.mpr ⟨_, whole, rfl⟩⟩
    obtain ⟨e', he', hl⟩ := (get_complete text s).1 _ seed
    exact ⟨e', he', by rw [hl]⟩

theorem reaches_of_empty_production {text : List Char} {s : Symbol} {n : Nat}
    (production : s.productions[n]? = some []) : Reaches text (.symbol s) text := by
  have seed : ⟨n, ⟨0, .node s n []⟩⟩ ∈ seedCandidates s.rule (rowAt text) (laterRows text) :=
    List.mem_flatMap.mpr ⟨⟨n, []⟩, mem_seeds.mpr ⟨production, by simp⟩,
      List.mem_map.mpr ⟨⟨0, []⟩, by simp [spans], rfl⟩⟩
  obtain ⟨e, he, hl⟩ := (get_complete text s).1 _ seed
  exact ⟨e, he, by rw [hl]; rfl⟩

/-- A row is either empty, or its first derivation has an entry and the others
    follow. -/
def RowReaches (ts : List Tree) (text rest : List Char) : Prop :=
  match ts with
  | [] => text = rest
  | t :: ts => ∃ middle, Reaches text t.item middle ∧
      ∀ base offset, 0 < offset → offset ≤ base.length → base.drop offset = middle →
        Follows base (ts.map Tree.item) offset rest

theorem RowReaches.follows {ts : List Tree} {text rest : List Char} (h : RowReaches ts text rest)
    {base : List Char} {offset : Nat} (pos : 0 < offset) (inside : offset ≤ base.length)
    (hbase : base.drop offset = text) : Follows base (ts.map Tree.item) offset rest := by
  cases ts with
  | nil =>
    refine ⟨⟨offset, []⟩, by simp [follow], ?_⟩
    rw [hbase]
    exact h
  | cons t ts =>
    obtain ⟨middle, ⟨e, he, hmiddle⟩, others⟩ := h
    subst hbase
    have e_le := (rowAt_sound _ _ e he).length_le
    rw [List.length_drop] at e_le
    rw [List.drop_drop] at hmiddle
    obtain ⟨span, hspan, hrest⟩ := others base (offset + e.length) (by omega) (by omega) hmiddle
    refine ⟨span.push e.tree, ?_, hrest⟩
    -- The row of a later place is found in the chart by its offset.
    have place : offset - 1 + 1 = offset := by omega
    rw [List.map_cons, follow, laterRows_getElem?, place, if_pos (by omega)]
    exact List.mem_flatMap.mpr ⟨e, he, List.mem_map.mpr ⟨span, hspan, rfl⟩⟩

/-- Whatever is derived at a place has an entry of its length there. -/
theorem Tree.Derives.reaches {t : Tree} {text rest : List Char} (h : t.Derives text rest) :
    Reaches text t.item rest := by
  refine Tree.Derives.rec (motive_1 := fun t text rest _ => Reaches text t.item rest)
    (motive_2 := fun ts text rest _ => RowReaches ts text rest) ?leaf ?node ?nil ?cons h
  case leaf =>
    intro t text rest fits
    obtain ⟨e, he, hl⟩ := tokenEntries_complete fits
    refine ⟨e, by simpa [Tree.item, Row.derive] using he, ?_⟩
    rw [hl, fits.rest_eq]
  case node =>
    intro s n ts text rest production _ row
    cases ts with
    | nil =>
      cases row
      exact reaches_of_empty_production production
    | cons t ts =>
      obtain ⟨middle, first, others⟩ := row
      exact reaches_of_production production first fun offset => others text offset
  case nil =>
    intro text
    rfl
  case cons =>
    intro t ts text middle rest _ _ first others
    exact ⟨middle, first, fun base offset pos inside hbase => others.follows pos inside hbase⟩

/-! ### Scripts -/

/-- The derivation that is found is one of the whole script. -/
theorem derivation?_sound {text : List Char} {t : Tree} (h : derivation? text = some t) :
    t.DerivesScript text := by
  simp only [derivation?, scriptEntries, chart_eq, Option.map_eq_some_iff] at h
  obtain ⟨e, he, rfl⟩ := h
  have sound := rowAt_sound text (.symbol .script) e (List.mem_of_find?_eq_some he)
  have skippable : isSkippable (text.drop e.length) = true := by simpa using List.find?_some he
  exact ⟨sound.item_eq, _, sound.derives, skippable⟩

/-- A text that is a script has a derivation that is found. -/
theorem exists_derivation? {text : List Char} {t : Tree} (h : t.DerivesScript text) :
    ∃ t', derivation? text = some t' := by
  obtain ⟨item_eq, rest, derives, skippable⟩ := h
  obtain ⟨e, he, rfl⟩ := item_eq ▸ derives.reaches
  simp only [derivation?, scriptEntries, chart_eq]
  have found : ((rowAt text).get .script).find? (fun e => isSkippable (text.drop e.length)) ≠ none := by
    intro none
    exact absurd skippable (by simpa using List.find?_eq_none.mp none e he)
  obtain ⟨e', he'⟩ := Option.ne_none_iff_exists'.mp found
  exact ⟨e'.tree, by rw [he']; rfl⟩

end ShellInliner.Grammar
