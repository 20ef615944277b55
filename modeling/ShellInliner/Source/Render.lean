import ShellInliner.Source.Layout

/-! # The source of a tree

    The text of a tree is a plain recursion with the layout of each kind.  What
    a parent contributes is its kind, which decides where a list of statements
    stands between braces. -/

namespace ShellInliner.Node

open Source (Parts isBraced layout)

/-- The bare text of the first child in a field, which has to be a word or a
    name. -/
def bareIn (f : Field) (cs : List (Field × Node)) : Except Error String :=
  match (within f cs).head?.bind text? with
  | some t => .ok t
  | none => .error .missingPart

mutual

/-- The text of a tree under a parent of a kind. -/
def source (parent : Option Kind) : Node → Except Error String
  | mk h _ cs =>
    layout (isBraced parent h.kind) h
      ⟨fun f => sourcesIn h.kind f cs, fun f => statementsIn f cs, fun f => bareIn f cs⟩

/-- The texts of the children in a field. -/
def sourcesIn (parent : Kind) (f : Field) : List (Field × Node) → Except Error (List String)
  | [] => .ok []
  | (g, n) :: cs =>
    if g = f then do
      let s ← source (some parent) n
      let ss ← sourcesIn parent f cs
      return s :: ss
    else sourcesIn parent f cs

/-- The texts of the statements of the first child in a field, which has to be a
    list of some kind. -/
def statementsIn (f : Field) : List (Field × Node) → Except Error (Option (List String))
  | [] => .ok none
  | (g, mk h _ ds) :: cs =>
    if g = f then
      -- The child is looked into, not printed: its own braces and redirections do not show.
      if h.kind.sequenceFields.contains .commands then
        (sourcesIn h.kind .commands ds).map some
      else .error .missingPart
    else statementsIn f cs

end

/-! ### Listings -/

/-- The text of one node in a listing. -/
structure Listed where
  kind : Kind
  text : String
  /-- The texts of the expansions of a word. -/
  expansions : Option (List String)

/-- The entry of a node itself. -/
def listSelf (parent : Option Kind) (n : Node) : Except Error Listed := do
  let text ← n.source parent
  match n.kind with
  | .word | .assignmentWord => return ⟨n.kind, text, some (← sourcesIn n.kind .expansion n.children)⟩
  | _ => return ⟨n.kind, text, none⟩

mutual

/-- The texts of all nodes of a tree, children before their parents. -/
def listing (parent : Option Kind) : Node → Except Error (List Listed)
  | mk h l cs => do
    -- The expansions of a word are listed with the word.
    let below ← if h.kind.isLeaf then .ok [] else listingIn h.kind cs
    let self ← listSelf parent (mk h l cs)
    return below ++ [self]

/-- The texts of all nodes below the children of a node. -/
def listingIn (parent : Kind) : List (Field × Node) → Except Error (List Listed)
  | [] => .ok []
  | (_, n) :: cs => do
    let first ← listing (some parent) n
    let others ← listingIn parent cs
    return first ++ others

end

end ShellInliner.Node
