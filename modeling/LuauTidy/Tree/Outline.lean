import LuauTidy.Text.Quoted
import LuauTidy.Tree.Basic

/-!
# Outlines

The outline of a tree has one line for each node, in preorder, indented by
two spaces for each level, and then one line for each diagnostic.  A leaf
shows its text.

* `SyntaxTree.outline` — the outline of a tree.
-/

namespace LuauTidy.SyntaxTree

mutual

/-- The lines of a subtree whose root stands at a depth. -/
def outlineNode (t : SyntaxTree) (depth : Nat) : Node → Except Fault Text
  | n@⟨_, _, _, _, children⟩ => do
    let shown ← if n.isLeaf then (t.text n).map fun text => ' ' :: Text.quoted text else pure []
    let below ← outlineNodes t (depth + 1) children
    return List.replicate (2 * depth) ' ' ++ n.label.toList ++ shown ++ ['\n'] ++ below

/-- The lines of the subtrees of siblings. -/
def outlineNodes (t : SyntaxTree) (depth : Nat) : List Node → Except Fault Text
  | [] => pure []
  | n :: rest => do
    let first ← outlineNode t depth n
    return first ++ (← outlineNodes t depth rest)

end

/-- The outline of a tree. -/
def outline (t : SyntaxTree) : Except Fault Text := do
  let nodes ← t.outlineNode 0 t.root
  let errors := t.errors.map fun e => "error: ".toList ++ e.display.toList ++ ['\n']
  return nodes ++ errors.flatten

end LuauTidy.SyntaxTree
