import ShellInliner.Proofs.Parse.Families

/-! # Rival readings

    Two readers go through one text, and at each place the second may take
    another terminal than the first.  The first reads a text that is laid out
    with care: it takes a word that closes something only after a line end.
    Then few pairs of phases can come together, and what sets the readers apart
    is always a word that closes something for one of them alone.  Each
    such word tilts the balance of the second reading to the same side, while
    every script is balanced; so in the end the readings are equal. -/

namespace ShellInliner.Parse

open Grammar

/-! ### Tilt -/

/-- What a terminal adds to the balance of a script. -/
def tilt : Terminal → Int
  | .reserved .fiWord | .reserved .doneWord | .reserved .closeBrace | .reserved .caseWord => 1
  | .reserved .ifWord | .reserved .doWord | .reserved .openBrace | .reserved .esacWord => -1
  | _ => 0

/-- The balance of some lexemes. -/
def balance : List Lexeme → Int
  | [] => 0
  | l :: w => tilt l.terminal + balance w

/-- The balance of the terminals of a production. -/
def itemsBalance : List Item → Int
  | [] => 0
  | .token t :: xs => tilt t + itemsBalance xs
  | .symbol _ :: xs => itemsBalance xs

/-- Every production opens as much as it closes. -/
theorem itemsBalance_production (s : Symbol) :
    s.productions.all (fun items => itemsBalance items == 0) = true := by
  cases s <;> decide

theorem balance_cons (l : Lexeme) (w : List Lexeme) :
    balance (l :: w) = tilt l.terminal + balance w := rfl

theorem balance_append (w₁ w₂ : List Lexeme) : balance (w₁ ++ w₂) = balance w₁ + balance w₂ := by
  induction w₁ with
  | nil => simp [balance]
  | cons l w₁ ih =>
    rw [List.cons_append, balance_cons, balance_cons, ih]
    omega

/-- What a symbol reads is balanced. -/
theorem Reads.balance_eq_zero {s : Symbol} {w : List Lexeme} {ps : List Piece}
    (h : Reads s w ps) : balance w = 0 := by
  -- A row is as balanced as the items of its production, which is checked for all productions.
  refine Reads.rec (motive_1 := fun _ w _ _ => balance w = 0)
    (motive_2 := fun xs w _ _ => balance w = itemsBalance xs) ?production ?nil ?token ?symbol h
  case production =>
    intro s items w ps qs mem _ _ row
    have balanced := List.all_eq_true.mp (itemsBalance_production s) items mem
    rw [row, eq_of_beq balanced]
  case nil =>
    rfl
  case token =>
    intro l xs w ps _ others
    rw [balance_cons, others]
    rfl
  case symbol =>
    intro s xs w₁ w₂ ps₁ ps₂ _ _ first others
    rw [balance_append, first, others, Int.zero_add]
    rfl

/-! ### Tidy phases -/

/-- Does the terminal close what was opened before? -/
def closes : Terminal → Bool
  | .reserved .thenWord | .reserved .elseWord | .reserved .elifWord | .reserved .fiWord
  | .reserved .doWord | .reserved .doneWord | .reserved .closeBrace | .reserved .esacWord
  | .sign .doubleSemicolon => true
  | _ => false

/-- May a line end have come before? -/
def Phase.afterLine : Phase → Bool
  | start | ahead | functionBody | forIn | forDo | caseIn | firstPattern => true
  | _ => false

/-- Is the terminal never written? -/
def isUnwritten : Terminal → Bool
  | .sign .semicolon | .reserved .functionWord => true
  | _ => false

/-- The phase after a terminal in a text that is laid out with care. -/
def Phase.tidyNext (p : Phase) (t : Terminal) : Option Phase :=
  if (closes t && !p.afterLine) || isUnwritten t then none else p.next t

theorem afterLine_newline {p p' : Phase} (h : p.next .newline = some p') : p'.afterLine = true := by
  revert p'
  have check : Phase.all.all (fun p => (p.next .newline).all Phase.afterLine) = true := by decide
  intro p' h
  have := List.all_eq_true.mp check p p.mem_all
  rwa [h] at this

/-! ### Rivals -/

/-- Can the second reader take another terminal where the first takes one, with
    the same characters? -/
def rivals : Terminal → Terminal → Bool
  | .reserved _, .word | .reserved _, .name => true
  | .name, .reserved _ | .name, .functionName | .name, .commandWord | .name, .word => true
  | .functionName, .commandWord | .functionName, .word | .functionName, .name => true
  | .assignmentWord, .functionName | .assignmentWord, .word | .assignmentWord, .name => true
  | .commandWord, .functionName | .commandWord, .word | .commandWord, .name => true
  | .word, .commandWord | .word, .assignmentWord | .word, .functionName | .word, .name => true
  | .word, .reserved r => (partOf? r).isNone
  | a, b => a == b

/-- The pairs of different phases that two readers can reach. -/
def mates : List (Phase × Phase) :=
  [(.simple true .none, .compound .none), (.simple true .number, .compound .number),
   (.simple true .operator, .compound .operator), (.compound .none, .simple false .none),
   (.compound .number, .simple false .number), (.compound .operator, .simple false .operator),
   (.compound .none, .start), (.compound .none, .afterPattern), (.ahead, .nextPattern),
   (.start, .afterPattern), (.simple false .none, .afterPattern),
   (.simple true .none, .afterPattern)]

/-- The pairs of phases after which two readers cannot both go on. -/
def strays : List (Phase × Phase) :=
  [(.functionName, .simple true .none), (.simple true .none, .functionName),
   (.simple false .none, .functionName), (.functionName, .afterPattern),
   (.caseWord, .afterPattern), (.forName, .afterPattern), (.ahead, .afterPattern)]

/-- Can two readers come together in these phases and go on? -/
def linked (p q : Phase) : Bool :=
  p == q || mates.contains (p, q)

/-- What holds after both readers have taken a terminal from phases that are
    linked. -/
def stepHolds (p q : Phase) (a b : Terminal) (p' q' : Phase) : Bool :=
  strays.contains (p', q') ||
    (linked p' q' && decide (tilt a ≤ tilt b) && ((startOf? b).isNone || a == b) &&
      (p != q || a == b || decide (tilt a < tilt b)))

/-- All terminals. -/
def terminals : List Terminal :=
  Reserved.all.map .reserved ++
    [.sign .andIf, .sign .orIf, .sign .ampersand, .sign .semicolon, .sign .doubleSemicolon,
     .sign .bar, .sign .openParen, .sign .closeParen, .ioNumber, .redirectOperator, .name,
     .functionName, .assignmentWord, .commandWord, .word, .newline]

theorem mem_terminals (t : Terminal) : t ∈ terminals := by
  cases t with
  | reserved r => cases r <;> decide
  | sign s => cases s <;> decide
  | _ => decide

/-- Every common step from linked phases has been looked at. -/
theorem all_steps_hold :
    Phase.all.all (fun p => Phase.all.all fun q => !linked p q || terminals.all fun a =>
      (p.tidyNext a).all fun p' => terminals.all fun b => !rivals a b ||
        (q.next b).all fun q' => stepHolds p q a b p' q') = true := by
  rfl

end ShellInliner.Parse
