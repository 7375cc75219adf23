import LuauTidy.Text.JsonValue
import LuauTidy.Tree.Basic

/-!
# Dumps

The dump of a tree is a JSON value: whether the source has an error, its
diagnostics, and the root.  A node has its kind and range, and then its text,
if it is a leaf, or else its children.

* `SyntaxTree.dump` — the dump of a tree.
-/

namespace LuauTidy.SyntaxTree

mutual

/-- The dump of a subtree. -/
def dumpNode (t : SyntaxTree) : Node → Except Fault JsonValue
  | n@⟨_, kind, start, stop, children⟩ => do
    let place : List (String × JsonValue) :=
      [("kind", .string kind.grammarName.toList), ("start", .number start), ("end", .number stop)]
    if n.isLeaf then
      return .object (place ++ [("text", .string (← t.text n))])
    else
      return .object (place ++ [("children", .array (← dumpNodes t children))])

/-- The dumps of the subtrees of siblings. -/
def dumpNodes (t : SyntaxTree) : List Node → Except Fault (List JsonValue)
  | [] => pure []
  | n :: rest => do
    let first ← dumpNode t n
    return first :: (← dumpNodes t rest)

end

/-- The dump of a tree. -/
def dump (t : SyntaxTree) : Except Fault JsonValue := do
  let root ← t.dumpNode t.root
  return .object [
    ("has_error", .bool t.hasError),
    ("errors", .array (t.errors.map fun e => .string e.display.toList)),
    ("root", root)]

end LuauTidy.SyntaxTree
