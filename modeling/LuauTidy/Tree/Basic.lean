import LuauTidy.Fault
import LuauTidy.Text.Basic

/-!
# Syntax trees

A node has a kind, a byte range of the source and its children in order.  A
node without children is a leaf.  Its number tells when it was made: nodes
are numbered in the order in which they came into being, and a node comes
into being after its children.

A tree is made whole: it keeps the source it was made from, the diagnostics
of the source, and the comments for which no node has a place.

* `Node`, `SyntaxError`, `SyntaxTree` — the types;
* `Node.child?`, `Node.expectChild` — a child by index;
* `SyntaxTree.text` — the source text of a node;
* `Visit`, `SyntaxTree.visits` — every node in preorder, with its parent and
  the sibling before it;
* `SyntaxTree.follow` — the node at the end of a path of child indices.
-/

namespace LuauTidy

/-- A node of a syntax tree. -/
structure Node where
  id : Nat
  kind : Kind
  /-- The offset of the first byte. -/
  start : Nat
  /-- The offset after the last byte. -/
  stop : Nat
  children : List Node
  deriving Repr

/-- A diagnostic of a source. -/
structure SyntaxError where
  message : String
  offset : Nat
  deriving DecidableEq, Repr

/-- A diagnostic with its place. -/
def SyntaxError.display (e : SyntaxError) : String :=
  e.message ++ " at byte " ++ toString e.offset

/-- A source with its tree. -/
structure SyntaxTree where
  source : Text
  /-- The number of nodes that were made. -/
  nodeCount : Nat
  root : Node
  /-- The node that holds the root as a child, if a tree was sealed at an
  inner node. -/
  enclosing : Option Node
  /-- The diagnostics; any of them means that the source does not parse. -/
  errors : List SyntaxError
  /-- The ranges of the comments that no node has a place for. -/
  strayComments : List (Nat × Nat)
  deriving Repr

namespace Node

/-- A node without children. -/
def isLeaf (n : Node) : Bool := n.children.isEmpty

/-- The child at an index. -/
def child? (n : Node) (index : Nat) : Option Node := n.children[index]?

/-- The fault of a node that lacks the child at an index. -/
def missing (n : Node) (index : Nat) : Fault :=
  .missingChild n.kind n.start index n.children.length

/-- The child at an index that the shape of the node promises. -/
def expectChild (n : Node) (index : Nat) : Except Fault Node :=
  match n.child? index with
  | some c => .ok c
  | none => .error (n.missing index)

/-- The node is a token of a kind. -/
def isToken (n : Node) (k : TokenKind) : Bool := n.kind == .token k

/-- The node is an expression. -/
def isExpr (n : Node) : Bool := n.kind.isExpr

/-- Kind and range, in the form `kind@start..stop`. -/
def label (n : Node) : String :=
  n.kind.grammarName ++ "@" ++ toString n.start ++ ".." ++ toString n.stop

end Node

/-- A node on the way through a tree. -/
structure Visit where
  node : Node
  /-- The node whose child it is. -/
  parent : Option Node
  /-- The child of the parent before it. -/
  previous : Option Node

/-- The sibling before the child with a number. -/
def previousSibling (id : Nat) : List Node → Option Node
  | before :: n :: rest => if n.id = id then some before else previousSibling id (n :: rest)
  | _ => none

mutual

/-- The nodes of a subtree in preorder. -/
def Node.visits (parent previous : Option Node) : Node → List Visit
  | n@⟨_, _, _, _, children⟩ => ⟨n, parent, previous⟩ :: visitsOfAll n none children

/-- The nodes of the subtrees of siblings in preorder. -/
def visitsOfAll (parent : Node) (previous : Option Node) : List Node → List Visit
  | [] => []
  | n :: rest => n.visits (some parent) previous ++ visitsOfAll parent (some n) rest

end

namespace SyntaxTree

/-- The source does not parse. -/
def hasError (t : SyntaxTree) : Bool := !t.errors.isEmpty

/-- The source text of a node. -/
def text (t : SyntaxTree) (n : Node) : Except Fault Text :=
  match t.source.slice? n.start n.stop with
  | some part => .ok part
  | none => .error .outOfRange

/-- The visit of the root. -/
def rootVisit (t : SyntaxTree) : Visit where
  node := t.root
  parent := t.enclosing
  previous := t.enclosing.bind fun above => previousSibling t.root.id above.children

/-- The nodes of the tree in preorder. -/
def visits (t : SyntaxTree) : List Visit :=
  t.root.visits t.rootVisit.parent t.rootVisit.previous

/-- The visit at the end of a path of child indices. -/
def follow (visit : Visit) : List Nat → Except Fault Visit
  | [] => .ok visit
  | index :: path => do
    let child ← visit.node.expectChild index
    let previous := if index = 0 then none else visit.node.child? (index - 1)
    follow ⟨child, some visit.node, previous⟩ path

end SyntaxTree

end LuauTidy
