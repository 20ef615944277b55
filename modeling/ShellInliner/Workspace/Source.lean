import ShellInliner.Source.Layout
import ShellInliner.Workspace.Basic

/-! # Reading sources in a workspace

    The source of a node is laid out when it is read for the first time, from
    the sources of its children, and kept.  Later changes to the node or to its
    children do not show in it until it is forgotten. -/

namespace ShellInliner.Workspace

open Source (Parts layout)

/-- The sources of a row of nodes, none of which may be empty. -/
def readAll (read : Handle → Work String) (hs : List (Option Handle)) : Work (List String) :=
  hs.mapM fun
    | some h => read h
    | none => throw .missingPart

/-- What the layout of a cell may ask for, given how sources are read. -/
def parts (read : Handle → Work String) (c : Cell) : Parts Work where
  all f := do readAll read (← children c f)
  statements f := do
    match child? c f with
    | none => return none
    | some h =>
      match (← cell h).sequences.lookup .commands with
      | some r => return some (← readAll read (← row r))
      | none => throw .missingPart
  bare f := do
    match child? c f with
    | none => throw .missingPart
    | some h =>
      match (← cell h).head.text? with
      | some t => return t
      | none => throw .missingPart

/-- Read the source of a node.  The fuel bounds the depth of the tree. -/
def readAt : Nat → Handle → Work String
  | 0, _ => throw .endless
  | fuel + 1, h => do
    let c ← cell h
    match c.memo, c.style with
    -- A text that has been read stands, whatever has changed since.
    | some text, _ => return text
    | none, none => throw (.noSource c.head.kind)
    | none, some style =>
      let text ← layout (style = .braced) c.head (parts (readAt fuel) c)
      -- Nothing is kept where the layout fails, but the texts of the children that were read are.
      changeCell h fun c => { c with memo := some text }
      return text

/-- Read the source of a node. -/
def read (h : Handle) : Work String := do
  readAt (← get).fuel h

/-- Forget the source of a node. -/
def forget (h : Handle) : Work Unit :=
  changeCell h fun c => { c with memo := none }

end ShellInliner.Workspace
