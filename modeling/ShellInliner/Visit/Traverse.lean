import ShellInliner.Visit.Visitor

/-! # Traversals

    A traversal visits every node of a tree, children before their parents and
    single fields before sequences.  A handler sees its node with the children
    that earlier visits have left, but the parent and the root as they were
    before the traversal.  Leaves are not looked into.

    A sequence takes whatever the visits of its elements leave; a single field
    needs one node, and must not lose it where its kind requires it. -/

namespace ShellInliner.Visitor

variable {σ : Type}

/-- The children that the visit of a child leaves in its field. -/
def settle (k : Kind) (f : Field) (x : Visited Node) : Except Error (List (Field × Node)) :=
  if f.isSequence then .ok (x.sequence.map (f, ·))
  else (x.single k f).map fun n => n.toList.map (f, ·)

mutual

/-- Traverse a node: its children first, then the node with what is left of
    them. -/
def traverseNode (v : Visitor σ) (root : Node) (parent : Option Node) : Node → Run σ (Visited Node)
  | .mk h l cs =>
    if h.kind.isLeaf then v.visit parent root (.one (.mk h l cs))
    else do
      -- The handlers of the children see this node as it was.
      let ds ← traverseChildren v root (.mk h l cs) cs
      v.visit parent root (.one (.mk h l ds))

/-- Traverse the children of a node. -/
def traverseChildren (v : Visitor σ) (root parent : Node) :
    List (Field × Node) → Run σ (List (Field × Node))
  | [] => pure []
  | (f, n) :: cs => do
    let x ← traverseNode v root (some parent) n
    let here ← Run.lift (settle parent.kind f x)
    let others ← traverseChildren v root parent cs
    return here ++ others

end

/-- Traverse a tree.  A table with names of no kinds is refused. -/
def traverse (v : Visitor σ) (root : Node) : Run σ (Visited Node) :=
  match Table.unknownNames v with
  | [] => traverseNode v root none root
  | names => throw (.unknownKinds names)

end ShellInliner.Visitor
