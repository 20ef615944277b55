import ShellInliner.Proofs.Run
import ShellInliner.Proofs.Source.Layout
import ShellInliner.Proofs.Workspace.Graph
import ShellInliner.Workspace.Source

/-! # Reading sources does not disturb what is read

    A read lays out a node from the sources of its children and keeps every text
    on the way, also if it fails in the end.  `text` is the text of a node as a
    plain recursion gives it, which keeps nothing.  A read gives that text or
    that error, and whatever it has kept is such a text again; so no read can
    tell whether there were others before it. -/

namespace ShellInliner.Workspace

open Source (Parts layout Follows Related Gives FailsOnly)

/-! ### Texts without keeping -/

/-- The elements of a row. -/
def rowOf (w : Workspace) (r : RowHandle) : Except Error (List (Option Handle)) :=
  match w.rows[r]? with
  | some xs => .ok xs
  | none => .error .missingPart

/-- The children of a cell in a field. -/
def childrenOf (w : Workspace) (c : Cell) (f : Field) : Except Error (List (Option Handle)) :=
  match c.sequences.lookup f with
  | some r => w.rowOf r
  | none => .ok ((c.singles.lookup f).join.toList.map some)

/-- The text of an element of a row, which may not be empty. -/
def elementText (text : Handle → Except Error String) : Option Handle → Except Error String
  | some h => text h
  | none => .error .missingPart

/-- The texts of a row of nodes. -/
def textsOf (text : Handle → Except Error String) (hs : List (Option Handle)) :
    Except Error (List String) :=
  hs.mapM (elementText text)

/-- What the layout of a cell may ask for. -/
def partsOf (w : Workspace) (text : Handle → Except Error String) (c : Cell) :
    Parts (Except Error) where
  all f := do textsOf text (← w.childrenOf c f)
  statements f :=
    match child? c f with
    | none => .ok none
    | some h =>
      match w.cells[h]? with
      | none => .error .missingPart
      | some d =>
        match d.sequences.lookup .commands with
        | some r => do return some (← textsOf text (← w.rowOf r))
        | none => .error .missingPart
  bare f :=
    match child? c f with
    | none => .error .missingPart
    | some h =>
      match w.cells[h]? with
      | none => .error .missingPart
      | some d =>
        match d.head.text? with
        | some t => .ok t
        | none => .error .missingPart

/-- The text of a cell, given the texts of the nodes below it: the one that is
    kept, or else the one that its style lays out. -/
def cellText (w : Workspace) (text : Handle → Except Error String) (c : Cell) :
    Except Error String :=
  match c.memo, c.style with
  | some t, _ => .ok t
  | none, none => .error (.noSource c.head.kind)
  | none, some style => layout (style = .braced) c.head (w.partsOf text c)

/-- The text of a node.  The fuel bounds the depth. -/
def textAt (w : Workspace) : Nat → Handle → Except Error String
  | 0, _ => .error .endless
  | fuel + 1, h =>
    match w.cells[h]? with
    | none => .error .missingPart
    | some c => w.cellText (textAt w fuel) c

/-- The text of a node. -/
def text (w : Workspace) (h : Handle) : Except Error String :=
  w.textAt w.fuel h

/-! ### Children and grandchildren -/

theorem isChild_of_child? {w : Workspace} {p h : Handle} {c : Cell} {f : Field}
    (cell : w.cells[p]? = some c) (found : child? c f = some h) : w.IsChild p h := by
  unfold child? at found
  have entry : (f, some h) ∈ c.singles := mem_of_lookup (Option.join_eq_some_iff.mp found)
  exact ⟨c, cell, .inl ⟨f, entry⟩⟩

theorem isChild_of_mem_row {w : Workspace} {p h : Handle} {c : Cell} {f : Field} {r : RowHandle}
    {xs : List (Option Handle)} (cell : w.cells[p]? = some c)
    (found : c.sequences.lookup f = some r) (row : w.rowOf r = .ok xs) (mem : some h ∈ xs) :
    w.IsChild p h := by
  refine ⟨c, cell, .inr ⟨f, r, xs, mem_of_lookup found, ?_, mem⟩⟩
  unfold rowOf at row
  cases entry : w.rows[r]? with
  | none => simp [entry] at row
  | some ys => simpa [entry] using row

theorem isChild_of_mem_children {w : Workspace} {p h : Handle} {c : Cell} {f : Field}
    {xs : List (Option Handle)} (cell : w.cells[p]? = some c) (children : w.childrenOf c f = .ok xs)
    (mem : some h ∈ xs) : w.IsChild p h := by
  unfold childrenOf at children
  cases found : c.sequences.lookup f with
  | some r =>
    simp only [found] at children
    exact isChild_of_mem_row cell found children mem
  | none =>
    simp only [found, Except.ok.injEq] at children
    subst children
    have here : child? c f = some h := by simpa [child?] using mem
    exact isChild_of_child? cell here

/-! ### A text needs no more fuel than there are nodes -/

/-- The parts of a cell only depend on the texts of what lies below it. -/
theorem parts_congr {w : Workspace} {p : Handle} {c : Cell} (cell : w.cells[p]? = some c)
    (text text' : Handle → Except Error String)
    (same : ∀ h, w.IsChild p h → text h = text' h)
    (deeper : ∀ h x, w.IsChild p h → w.IsChild h x → text x = text' x) :
    w.partsOf text c = w.partsOf text' c := by
  have texts : ∀ (hs : List (Option Handle)), (∀ h, some h ∈ hs → text h = text' h) →
      textsOf text hs = textsOf text' hs := by
    intro hs each
    unfold textsOf
    exact Source.follows_eq.mapM fun x mem => by
      cases x with
      | none => rfl
      | some h => exact each h mem
  unfold partsOf
  congr 1
  · funext f
    cases children : w.childrenOf c f with
    | error e => rfl
    | ok xs => exact texts xs fun h mem => same h (isChild_of_mem_children cell children mem)
  · funext f
    -- The statements of a list are two steps down, so the texts there are compared too.
    cases found : child? c f with
    | none => rfl
    | some h =>
      have child := isChild_of_child? cell found
      simp only
      cases below : w.cells[h]? with
      | none => rfl
      | some d =>
        simp only
        cases entry : d.sequences.lookup .commands with
        | none => rfl
        | some r =>
          simp only
          cases row : w.rowOf r with
          | error e => rfl
          | ok xs =>
            have each := texts xs fun x mem =>
              deeper h x child (isChild_of_mem_row below entry row mem)
            show (do return some (← textsOf text xs)) = (do return some (← textsOf text' xs))
            rw [each]

/-- Fuel beyond the depth of a node makes no difference to its text. -/
theorem textAt_eq {w : Workspace} {n a b : Nat} {h : Handle} (within : w.IsWithin n h)
    (ha : n ≤ a) (hb : n ≤ b) : w.textAt a h = w.textAt b h := by
  induction n generalizing a b h with
  | zero => exact within.elim
  | succ n ih =>
    obtain ⟨a, rfl⟩ : ∃ k, a = k + 1 := ⟨a - 1, by omega⟩
    obtain ⟨b, rfl⟩ : ∃ k, b = k + 1 := ⟨b - 1, by omega⟩
    unfold textAt
    cases cell : w.cells[h]? with
    | none => rfl
    | some c =>
      -- The parts are texts of children and of their children, each with fuel enough.
      have same := parts_congr cell (w.textAt a) (w.textAt b)
        (fun x child => ih (within.child child) (by omega) (by omega))
        (fun x y child deeper => ih (within.grandchild child deeper) (by omega) (by omega))
      show w.cellText _ c = w.cellText _ c
      unfold cellText
      rw [same]

theorem text_eq_error {w : Workspace} {h : Handle} (cell : w.cells[h]? = none) :
    w.text h = .error .missingPart := by
  unfold text fuel textAt
  rw [cell]

/-- The text of a node is laid out from the texts of its children. -/
theorem text_eq {w : Workspace} {h : Handle} {c : Cell} (within : w.IsWithin w.fuel h)
    (cell : w.cells[h]? = some c) : w.text h = w.cellText w.text c := by
  have more : w.text h = w.textAt (w.fuel + 1) h := textAt_eq within le_rfl (by omega)
  rw [more]
  unfold textAt
  rw [cell]
  rfl

/-! ### What a read leaves -/

/-- The second workspace is the first one, except that texts of nodes have been
    kept. -/
structure Agrees (w v : Workspace) : Prop where
  /-- There are no other rows. -/
  rows : v.rows = w.rows
  /-- There are no other nodes. -/
  size : v.cells.size = w.cells.size
  /-- A cell is the same, or it now keeps the text of its node. -/
  cell : ∀ h : Handle, v.cells[h]? = w.cells[h]? ∨
    ∃ c t, w.cells[h]? = some c ∧ c.memo = none ∧ w.text h = .ok t ∧
      v.cells[h]? = some { c with memo := some t }

theorem Agrees.refl (w : Workspace) : w.Agrees w :=
  ⟨rfl, rfl, fun _ => .inl rfl⟩

theorem Agrees.fuel_eq {w v : Workspace} (agrees : w.Agrees v) : v.fuel = w.fuel := by
  unfold fuel
  rw [agrees.size]

/-- The cells still have the same heads and the same children. -/
theorem Agrees.exists_memo {w v : Workspace} (agrees : w.Agrees v) {h : Handle} {c : Cell}
    (cell : w.cells[h]? = some c) : ∃ memo, v.cells[h]? = some { c with memo } := by
  rcases agrees.cell h with same | ⟨d, t, found, -, -, kept⟩
  · exact ⟨c.memo, by rw [same, cell]⟩
  · rw [cell] at found
    cases found
    exact ⟨some t, kept⟩

theorem Agrees.cell_eq_none {w v : Workspace} (agrees : w.Agrees v) {h : Handle}
    (cell : w.cells[h]? = none) : v.cells[h]? = none := by
  rcases agrees.cell h with same | ⟨d, t, found, -⟩
  · rw [same, cell]
  · rw [cell] at found
    cases found

/-- To keep the text of a node that keeps none yet leaves a workspace that agrees. -/
theorem Agrees.keep {w v : Workspace} (agrees : w.Agrees v) {h : Handle} {c : Cell} {t : String}
    (cell : w.cells[h]? = some c) (empty : c.memo = none) (text : w.text h = .ok t) :
    w.Agrees { v with cells := v.cells.modify h fun c => { c with memo := some t } } where
  rows := agrees.rows
  size := by simpa using agrees.size
  cell x := by
    by_cases here : h = x
    · subst here
      obtain ⟨memo, found⟩ := agrees.exists_memo cell
      right
      refine ⟨c, t, cell, empty, text, ?_⟩
      simp [Array.getElem?_modify, found]
    · simpa [Array.getElem?_modify, here] using agrees.cell x

/-- From every workspace that agrees, the work ends in this outcome and leaves a
    workspace that agrees. -/
def Computes (w : Workspace) {α : Type} (x : Work α) (r : Except Error α) : Prop :=
  ∀ v, w.Agrees v → ∃ v', x.run.run v = (r, v') ∧ w.Agrees v'

theorem computes_throw (w : Workspace) {α : Type} (e : Error) :
    w.Computes (throw e : Work α) (.error e) :=
  fun v agrees => ⟨v, rfl, agrees⟩

theorem follows_computes (w : Workspace) : Follows (m := Work) Gives w.Computes where
  pure _ v agrees := ⟨v, rfl, agrees⟩
  bind {_ _ _ r _ _} first next := by
    intro v agrees
    obtain ⟨v₁, h₁, agrees₁⟩ := first v agrees
    cases r with
    | ok a =>
      obtain ⟨v₂, h₂, agrees₂⟩ := next a rfl v₁ agrees₁
      exact ⟨v₂, (Run.run_bind_ok h₁).trans h₂, agrees₂⟩
    | error e => exact ⟨v₁, Run.run_bind_error h₁, agrees₁⟩

theorem computes_row (w : Workspace) (r : RowHandle) : w.Computes (row r) (w.rowOf r) := by
  intro v agrees
  refine ⟨v, ?_, agrees⟩
  unfold row rowOf
  rw [Run.run_bind_ok (Run.run_get v), agrees.rows]
  cases w.rows[r]? <;> rfl

theorem computes_readAll {w : Workspace} {read : Handle → Work String}
    {text : Handle → Except Error String} {hs : List (Option Handle)}
    (each : ∀ h, some h ∈ hs → w.Computes (read h) (text h)) :
    w.Computes (readAll read hs) (textsOf text hs) := by
  refine (follows_computes w).mapM fun x mem => ?_
  cases x with
  | none => exact computes_throw w _
  | some h => exact each h mem

theorem run_cell (h : Handle) (v : Workspace) :
    (cell h).run.run v =
      match v.cells[h]? with
      | some c => (.ok c, v)
      | none => (.error .missingPart, v) := by
  unfold cell
  rw [Run.run_bind_ok (Run.run_get v)]
  cases v.cells[h]? <;> rfl

/-- Work that looks at a cell, but not at the text it keeps. -/
theorem computes_bind_cell {w : Workspace} {h : Handle} {α : Type} {f : Cell → Work α}
    {g : Cell → Except Error α} (blind : ∀ c memo, f { c with memo } = f c)
    (next : ∀ c, w.cells[h]? = some c → w.Computes (f c) (g c)) :
    w.Computes (cell h >>= f)
      (match w.cells[h]? with
        | none => .error .missingPart
        | some c => g c) := by
  intro v agrees
  have look := run_cell h v
  cases found : w.cells[h]? with
  | none =>
    rw [agrees.cell_eq_none found] at look
    exact ⟨v, Run.run_bind_error look, agrees⟩
  | some c =>
    -- The cell is the same but for its text, to which what follows is blind.
    obtain ⟨memo, kept⟩ := agrees.exists_memo found
    rw [kept] at look
    obtain ⟨v', ended, agrees'⟩ := next c found v agrees
    refine ⟨v', ?_, agrees'⟩
    rw [Run.run_bind_ok look, blind]
    exact ended

/-- Children are asked for what the pure parts tell of them. -/
theorem parts_related {w : Workspace} {p : Handle} {c : Cell} {read : Handle → Work String}
    {text : Handle → Except Error String} (cell : w.cells[p]? = some c)
    (each : ∀ h, w.IsChild p h → w.Computes (read h) (text h))
    (deeper : ∀ h x, w.IsChild p h → w.IsChild h x → w.Computes (read x) (text x)) :
    Related Gives w.Computes c.head.kind (parts read c) (w.partsOf text c) where
  all f := by
    have children : w.Computes (Workspace.children c f) (w.childrenOf c f) := by
      unfold Workspace.children childrenOf
      cases c.sequences.lookup f with
      | some r => exact computes_row w r
      | none => exact (follows_computes w).pure _
    refine (follows_computes w).bind children fun xs answer => ?_
    exact computes_readAll fun h mem => each h (isChild_of_mem_children cell answer mem)
  statements f _ _ := by
    simp only [parts, partsOf]
    cases found : child? c f with
    | none => exact (follows_computes w).pure _
    | some h =>
      have child := isChild_of_child? cell found
      -- The list itself is passed over: its statements are asked, two steps below the cell.
      refine computes_bind_cell (fun _ _ => rfl) fun d below => ?_
      cases entry : d.sequences.lookup .commands with
      | none => exact computes_throw w _
      | some r =>
        refine (follows_computes w).bind (computes_row w r) fun xs answer => ?_
        have elements : ∀ x, some x ∈ xs → w.Computes (read x) (text x) := fun x mem =>
          deeper h x child (isChild_of_mem_row below entry answer mem)
        have texts := computes_readAll elements
        exact (follows_computes w).bind texts fun _ _ => (follows_computes w).pure _
  bare _ := by
    simp only [parts, partsOf]
    cases child? c .name with
    | none => exact computes_throw w _
    | some h =>
      refine computes_bind_cell (fun _ _ => rfl) fun d _ => ?_
      cases d.head.text? with
      | none => exact computes_throw w _
      | some t => exact (follows_computes w).pure _
  missing _ _ _ := computes_throw w _
  missingClause _ _ := computes_throw w _

/-- A read gives the text of the node, and leaves a workspace that agrees. -/
theorem computes_readAt {w : Workspace} {n : Nat} {h : Handle} (within : w.IsWithin n h)
    (le : n ≤ w.fuel) : w.Computes (readAt n h) (w.text h) := by
  induction n generalizing h with
  | zero => exact within.elim
  | succ n ih =>
    intro v agrees
    have look := run_cell h v
    unfold readAt
    cases found : w.cells[h]? with
    | none =>
      rw [agrees.cell_eq_none found] at look
      rw [text_eq_error found]
      exact ⟨v, Run.run_bind_error look, agrees⟩
    | some c =>
      rcases agrees.cell h with same | ⟨d, t, there, -, known, kept⟩
      · -- The cell has not been touched: it is laid out as the text says.
        rw [same, found] at look
        rw [Run.run_bind_ok look]
        have known := text_eq (within.mono le) found
        unfold cellText at known
        cases memo : c.memo with
        | some t =>
          rw [memo] at known
          exact ⟨v, by rw [known]; rfl, agrees⟩
        | none =>
          cases style : c.style with
          | none =>
            rw [memo, style] at known
            exact ⟨v, by rw [known]; rfl, agrees⟩
          | some style' =>
            rw [memo, style] at known
            change w.text h = layout (style' = .braced) c.head (w.partsOf w.text c) at known
            have children : ∀ x, w.IsChild h x → w.Computes (readAt n x) (w.text x) :=
              fun x child => ih (within.child child) (by omega)
            have related := parts_related found children
              (fun x y child deeper => ih (within.grandchild child deeper) (by omega))
            obtain ⟨v₁, laid, agrees₁⟩ :=
              related.layout (follows_computes w) (style' = .braced) v agrees
            cases text : w.text h with
            | error e =>
              rw [← known, text] at laid
              exact ⟨v₁, Run.run_bind_error laid, agrees₁⟩
            | ok t =>
              rw [← known, text] at laid
              exact ⟨_, Run.run_bind_ok laid, agrees₁.keep found memo text⟩
      · -- The text has been kept by an earlier read.
        rw [kept] at look
        rw [Run.run_bind_ok look, known]
        exact ⟨v, rfl, agrees⟩

/-- In a workspace without cycles a read gives the text of the node, whatever has
    been read before. -/
theorem computes_read {w : Workspace} {h : Handle} (within : w.IsWithin w.fuel h) :
    w.Computes (read h) (w.text h) := by
  intro v agrees
  unfold read
  rw [Run.run_bind_ok (Run.run_get v), agrees.fuel_eq]
  exact computes_readAt within le_rfl v agrees

/-! ### How a read fails -/

/-- A node that a conditional admits in a single field is a list of statements. -/
theorem kind_of_admits_ifElse {f : Field} {k : Kind} (admits : Node.Admits .ifElse f k)
    (single : f.isSequence = false) : k = .compoundList := by
  have : f.isSequence || k == .compoundList :=
    admits.holds (p := fun f k => f.isSequence || k == .compoundList) (by decide)
  simpa [single] using this

/-- A node that is required as a name has a text. -/
theorem text_of_admits_name {k : Kind} {d : Head} (admits : Node.Admits k .name d.kind)
    (required : k.requires .name = true) : ∃ t, d.text? = some t := by
  have named : (k == .function || k == .forLoop) = true := by
    revert required
    cases k <;> decide
  have : .name != Field.name || d.kind == .name :=
    admits.holds (p := fun f below => f != .name || below == .name) (by
      revert named
      cases k <;> decide)
  cases d <;> first | exact ⟨_, rfl⟩ | cases this

/-- The texts of a full row fail only as the single texts do. -/
theorem textsOf_failsOnly {E : Error → Prop} {text : Handle → Except Error String}
    {hs : List Handle} (each : ∀ h ∈ hs, FailsOnly E (text h)) :
    FailsOnly E (textsOf text (hs.map some)) := by
  have elements : ∀ x ∈ hs.map some,
      elementText text x = elementText text x ∧ FailsOnly E (elementText text x) := by
    intro x mem
    obtain ⟨h, here, rfl⟩ := List.mem_map.mp mem
    exact ⟨rfl, each h here⟩
  exact ((Source.follows_failsOnly E).mapM elements).2

theorem rowOf_eq {w : Workspace} {r : RowHandle} {xs : List (Option Handle)}
    (row : w.rows[r]? = some xs) : w.rowOf r = .ok xs := by
  unfold rowOf
  rw [row]

/-- The children of a well-typed cell are there. -/
theorem exists_childrenOf {w : Workspace} {c : Cell} (fits : w.Fits c) (f : Field) :
    ∃ hs : List Handle, w.childrenOf c f = .ok (hs.map some) := by
  unfold childrenOf
  cases found : c.sequences.lookup f with
  | none => exact ⟨(child? c f).toList, rfl⟩
  | some r =>
    obtain ⟨hs, row, -⟩ := fits.row f r (mem_of_lookup found)
    exact ⟨hs, rowOf_eq row⟩

/-- The text of the first child of a required field is asked for, and it is there. -/
theorem childrenOf_required {w : Workspace} {c : Cell} (fits : w.Fits c) {f : Field}
    (required : c.head.kind.requires f = true) : ∃ h, w.childrenOf c f = .ok [some h] := by
  obtain ⟨h, found, -⟩ := fits.exists_child required
  have single := mem_singleFields_of_requires required
  unfold childrenOf
  rw [fits.lookup_sequences_eq_none single]
  unfold child? at found
  exact ⟨h, by simp [found]⟩

/-- The parts of a well-typed cell fail only as the texts below it do. -/
theorem parts_failsOnly {w : Workspace} {p : Handle} {c : Cell} {E : Error → Prop}
    {text : Handle → Except Error String} (cell : w.cells[p]? = some c)
    (fits : ∀ x, w.Below p x → ∃ d, w.cells[x]? = some d ∧ w.Fits d)
    (each : ∀ h, w.IsChild p h → FailsOnly E (text h))
    (deeper : ∀ h x, w.IsChild p h → w.IsChild h x → FailsOnly E (text x)) :
    Related Gives (fun x r => x = r ∧ FailsOnly E r) c.head.kind (w.partsOf text c) (w.partsOf text c) := by
  obtain ⟨c', cell', here⟩ := fits p .refl
  rw [cell] at cell'
  cases cell'
  -- A well-typed cell has every child that a layout asks for, so no part is missing.
  constructor
  case all =>
    intro f
    obtain ⟨hs, children⟩ := exists_childrenOf here f
    have texts : (w.partsOf text c).all f = textsOf text (hs.map some) := by
      simp only [partsOf, children]
      rfl
    refine ⟨rfl, ?_⟩
    rw [texts]
    refine textsOf_failsOnly fun h mem => each h ?_
    exact isChild_of_mem_children cell children (List.mem_map_of_mem mem)
  case statements =>
    intro f conditional single
    refine ⟨rfl, ?_⟩
    simp only [partsOf]
    cases found : child? c f with
    | none => exact fun e h => nomatch h
    | some h =>
      -- What a conditional asks for is a list, so it has a row of statements.
      have child := isChild_of_child? cell found
      obtain ⟨d, below, fits'⟩ := fits h (.single child)
      obtain ⟨d', below', admits⟩ := here.takes_of_child? found
      rw [below] at below'
      cases below'
      rw [conditional] at admits
      have list := kind_of_admits_ifElse admits single
      obtain ⟨r, hs, entry, row, -⟩ := fits'.exists_row (f := .commands) (by rw [list]; decide)
      have elements : ∀ x ∈ hs, FailsOnly E (text x) := fun x mem =>
        deeper h x child (isChild_of_mem_row below entry (rowOf_eq row) (List.mem_map_of_mem mem))
      have texts := textsOf_failsOnly elements
      simp only [below, entry, rowOf_eq row]
      have follows := Source.follows_failsOnly E
      exact (follows.bind (g := fun ts => .ok (some ts)) ⟨rfl, texts⟩ fun ts _ => follows.pure _).2
  case bare =>
    intro required
    refine ⟨rfl, ?_⟩
    simp only [partsOf]
    obtain ⟨h, found, d, below, admits⟩ := here.exists_child required
    obtain ⟨t, named⟩ := text_of_admits_name admits required
    simp only [found, below, named]
    exact fun e h => nomatch h
  case missing =>
    intro f required none
    unfold Gives at none
    obtain ⟨h, children⟩ := childrenOf_required here required
    have texts : (w.partsOf text c).all f = textsOf text [some h] := by
      simp only [partsOf, children]
      rfl
    rw [texts, textsOf, List.mapM_cons, List.mapM_nil] at none
    cases first : elementText text (some h) with
    | error e => simp [first, bind, Except.bind] at none
    | ok t => simp [first, bind, Except.bind, pure, Except.pure] at none
  case missingClause =>
    intro conditional none
    unfold Gives at none
    obtain ⟨h, found, d, below, -⟩ :=
      here.exists_child (f := .clause) (by rw [conditional]; rfl)
    simp only [partsOf, found, below] at none
    cases entry : d.sequences.lookup .commands with
    | none => simp [entry] at none
    | some r =>
      simp only [entry] at none
      cases row : w.rowOf r with
      | error e => simp [row, bind, Except.bind] at none
      | ok xs =>
        cases texts : textsOf text xs with
        | error e => simp [row, texts, bind, Except.bind] at none
        | ok ts => simp [row, texts, bind, Except.bind, pure, Except.pure] at none

/-- Where everything at and below a node is well-typed, its text fails only for
    want of a style. -/
theorem text_failsOnly {w : Workspace} {n : Nat} {h : Handle} {E : Error → Prop}
    (within : w.IsWithin n h) (le : n ≤ w.fuel)
    (fits : ∀ x, w.Below h x → ∃ d, w.cells[x]? = some d ∧ w.Fits d)
    (plain : ∀ x d, w.Below h x → w.cells[x]? = some d → d.style = none →
      E (.noSource d.head.kind)) : FailsOnly E (w.text h) := by
  induction n generalizing h with
  | zero => exact within.elim
  | succ n ih =>
    obtain ⟨c, cell, -⟩ := fits h .refl
    rw [text_eq (within.mono le) cell]
    unfold cellText
    -- A text that is kept is given out; without one the style decides.
    cases memo : c.memo with
    | some t => exact fun e found => nomatch found
    | none =>
      cases style : c.style with
      | none =>
        intro e found
        cases found
        exact plain h c .refl cell style
      | some style =>
        have below (x) (down : w.Below h x) (within : w.IsWithin n x) : FailsOnly E (w.text x) :=
          ih within (by omega) (fun y down' => fits y (down.trans down'))
            (fun y d down' => plain y d (down.trans down'))
        have parts := parts_failsOnly cell fits
          (fun x child => below x (.single child) (within.child child))
          (fun x y child deeper => below y (.tail (.single child) deeper)
            (within.grandchild child deeper))
        exact (parts.layout (Source.follows_failsOnly E) _).2

/-! ### Rows of reads -/

/-- The answers to reads one after the other.  A read that fails does not stop the
    ones after it, which start from what it has left. -/
def readings (w : Workspace) : List Handle → List (Except Error String)
  | [] => []
  | h :: hs =>
    let (answer, w') := (read h).run.run w
    answer :: readings w' hs

/-- Every read of a row gives the text that its node had at first. -/
theorem readings_eq {w v : Workspace} {hs : List Handle}
    (within : ∀ h ∈ hs, w.IsWithin w.fuel h) (agrees : w.Agrees v) :
    v.readings hs = hs.map w.text := by
  induction hs generalizing v with
  | nil => rfl
  | cons h hs ih =>
    obtain ⟨v', ended, agrees'⟩ := computes_read (within h (List.mem_cons_self ..)) v agrees
    have others := ih (fun x mem => within x (List.mem_cons_of_mem _ mem)) agrees'
    rw [readings, ended, List.map_cons]
    show _ :: v'.readings hs = _
    rw [others]

/-- A read gives the text of its node. -/
theorem read_eq {w : Workspace} {h : Handle} (within : w.IsWithin w.fuel h) :
    ((read h).run.run w).1 = w.text h := by
  obtain ⟨v, ended, -⟩ := computes_read within w (.refl w)
  rw [ended]

/-- A read that fails leaves no text with its node. -/
theorem memo_eq_none_of_error {w v : Workspace} {h : Handle} {e : Error}
    (within : w.IsWithin w.fuel h) (failed : (read h).run.run w = (.error e, v)) {c : Cell}
    (cell : v.cells[h]? = some c) : c.memo = none := by
  obtain ⟨v', ended, agrees⟩ := computes_read within w (.refl w)
  rw [failed] at ended
  injection ended with outcome left
  subst left
  rcases agrees.cell h with same | ⟨d, t, -, -, known, -⟩
  · rw [same] at cell
    have text := text_eq within cell
    rw [← outcome] at text
    unfold cellText at text
    -- Had the cell a text before, the read would have given it out.
    cases memo : c.memo with
    | none => rfl
    | some t =>
      rw [memo] at text
      cases text
  · rw [known] at outcome
    cases outcome

theorem exists_fits_of_below {w : Workspace} (typed : w.IsWellTyped) {h x : Handle}
    (inside : h < w.cells.size) (below : w.Below h x) :
    ∃ d, w.cells[x]? = some d ∧ w.Fits d := by
  induction below with
  | refl => exact ⟨_, Array.getElem?_eq_getElem inside, typed h _ (Array.getElem?_eq_getElem inside)⟩
  | tail _ child ih =>
    obtain ⟨c, cell, fits⟩ := ih
    obtain ⟨d, found⟩ := fits.exists_cell cell child
    exact ⟨d, found, typed _ d found⟩

/-- Reads do not disturb one another.  In a workspace of well-typed nodes without
    cycles, whatever styles are installed and whatever texts are kept, a read of a
    node gives the same after a read of any node as without it, whether that read
    has succeeded or failed; so all reads of a row give what they would give at
    first.  A read fails only for want of a style, and then leaves no text with its
    node. -/
theorem read_undisturbed (w : Workspace) (acyclic : w.IsAcyclic) (typed : w.IsWellTyped) :
    (∀ n m, ((read m).run.run ((read n).run.run w).2).1 = ((read m).run.run w).1) ∧
    (∀ hs, w.readings hs = hs.map fun h => ((read h).run.run w).1) ∧
    (∀ n < w.cells.size, (∃ t v, (read n).run.run w = (.ok t, v)) ∨
      ∃ k v c, (read n).run.run w = (.error (.noSource k), v) ∧
        v.cells[n]? = some c ∧ c.memo = none) := by
  refine ⟨fun n m => ?_, fun hs => ?_, fun n inside => ?_⟩
  · obtain ⟨v, ended, agrees⟩ := computes_read (acyclic.isWithin n) w (.refl w)
    obtain ⟨v', ended', -⟩ := computes_read (acyclic.isWithin m) v agrees
    rw [ended, ended', read_eq (acyclic.isWithin m)]
  · rw [readings_eq (fun h _ => acyclic.isWithin h) (.refl w)]
    exact List.map_congr_left fun h _ => (read_eq (acyclic.isWithin h)).symm
  · have within := acyclic.isWithin n
    obtain ⟨v, ended, agrees⟩ := computes_read within w (.refl w)
    have fails := text_failsOnly (E := fun e => ∃ k, e = .noSource k) within le_rfl
      (fun x below => exists_fits_of_below typed inside below) (fun _ _ _ _ _ => ⟨_, rfl⟩)
    cases text : w.text n with
    | ok t => exact .inl ⟨t, v, by rw [ended, text]⟩
    | error e =>
      obtain ⟨k, rfl⟩ := fails e text
      rw [text] at ended
      obtain ⟨memo, cell⟩ := agrees.exists_memo (Array.getElem?_eq_getElem inside)
      exact .inr ⟨k, v, _, ended, cell, memo_eq_none_of_error within ended cell⟩

/-- A command whose last word has no style cannot be read, although the texts of
    the words before it are kept on the way; its name can be read before and
    after. -/
theorem read_undisturbed_echo :
    let empty : List (Field × RowHandle) := [(.expansion, 0)]
    let w : Workspace :=
      { cells := #[⟨.word "echo", none, [], empty, some .plain, none⟩,
          ⟨.word "hi", none, [], empty, none, none⟩,
          ⟨.command false, none, [(.name, some 0)], [(.leading, 0), (.suffix, 1)], some .plain, none⟩]
        rows := #[[], [some 1]] }
    ((read 0).run.run ((read 2).run.run w).2).1 = .ok "echo" ∧
      w.readings [2, 0, 2] = [.error (.noSource .word), .ok "echo", .error (.noSource .word)] := by
  intro empty w
  have acyclic : w.IsAcyclic := isAcyclic_of_older (by decide)
  have typed : w.IsWellTyped := by decide
  obtain ⟨pair, row, -⟩ := read_undisturbed w acyclic typed
  refine ⟨(pair 2 0).trans ?_, (row [2, 0, 2]).trans ?_⟩
  · rfl
  · rfl

end ShellInliner.Workspace
