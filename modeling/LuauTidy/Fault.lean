import LuauTidy.Kind

/-!
# Faults

A fault is a broken promise between two parts of the library: a tree of a
shape its reader does not expect, a step that a tree under construction does
not allow, a range that does not fit the text.  It is not an error in a
source, which the tree itself records.  Trees that come from a source raise
no fault; trees built by hand may.

* `Fault` — the causes;
* `Fault.message?` — the diagnostic of a cause that has one.
-/

namespace LuauTidy

/-- Why a step had no result. -/
inductive Fault
  /-- The layout has no rule for `child` inside `parent`. -/
  | noRule (child parent : Kind) (start : Nat)
  /-- A node that is no expression stands where an expression belongs. -/
  | notAnExpression (found : Kind) (start : Nat)
  /-- A node lacks the child at an index. -/
  | missingChild (kind : Kind) (start index count : Nat)
  /-- A node that is neither keyword nor expression stands in a conditional. -/
  | notInConditional (found : Kind) (start : Nat)
  /-- A checkpoint is used at another depth than the one it was taken at. -/
  | foreignCheckpoint
  /-- A checkpoint is used while no node is open. -/
  | noNodeToSplit
  /-- A node is finished while none is open. -/
  | noNodeToFinish
  /-- A tree is sealed while nodes are open. -/
  | nodesStillOpen
  /-- A range or an index lies outside of what it selects from. -/
  | outOfRange
  /-- A token was taken where none is left. -/
  | noTokenLeft
  /-- A comment or a lexical error was taken for a leaf. -/
  | notALeaf
  /-- A repetition ran more often than there are tokens. -/
  | noProgress
  deriving DecidableEq, Repr

namespace Fault

/-- A grammar name between backquotes. -/
def quoted (k : Kind) : String := "`" ++ k.grammarName ++ "`"

/-- The diagnostic of a fault; ranges and indices outside of their bounds have none. -/
def message? : Fault → Option String
  | .noRule child parent start =>
    some ("no formatting rule for " ++ quoted child ++ " inside " ++ quoted parent ++
      " at byte " ++ toString start)
  | .notAnExpression found start =>
    some ("expected an expression, found " ++ quoted found ++ " at byte " ++ toString start)
  | .missingChild kind start index count =>
    some ("malformed " ++ quoted kind ++ " node at byte " ++ toString start ++
      ": expected a child at index " ++ toString index ++ ", found " ++ toString count)
  | .notInConditional found start =>
    some ("unexpected " ++ quoted found ++ " inside " ++ quoted (.expr .conditional) ++
      " at byte " ++ toString start)
  | .foreignCheckpoint => some "checkpoint used at a different nesting depth"
  | .noNodeToSplit => some "start_node_at called without an open node"
  | .noNodeToFinish => some "finish_node called without an open node"
  | .nodesStillOpen => some "unfinished nodes left on the stack"
  | _ => none

end Fault

end LuauTidy
