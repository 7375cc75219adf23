import LuauTidy.Tree.Basic

/-!
# Building trees by hand

A builder grows a tree from the bottom.  Leaves and finished nodes become
children of the node that is open when they are made.  A checkpoint marks a
place among the children of the open node; a node started at it adopts the
children made since.  What has been made is kept in records, which refer to
their children by number; sealing turns the records into a tree.

* `Builder` — the text, the records and the open nodes;
* `Builder.leaf`, `startNode`, `checkpoint`, `startNodeAt`, `finishNode`,
  `retag` — the steps;
* `Builder.toTree`, `Builder.abandon` — the two ways to end;
* `Arena.nodes` — the nodes that records stand for.
-/

namespace LuauTidy

/-- A node as the builder keeps it, with its children by number. -/
structure Record where
  kind : Kind
  start : Nat
  stop : Nat
  children : List Nat
  deriving DecidableEq, Repr

/-- A node that still takes children. -/
structure OpenNode where
  kind : Kind
  /-- Where the node stands if it stays empty. -/
  position : Nat
  children : List Nat
  deriving DecidableEq, Repr

/-- A place among the children of the open node. -/
structure Checkpoint where
  /-- The number of open nodes. -/
  depth : Nat
  /-- The number of children of the innermost one. -/
  length : Nat
  deriving DecidableEq, Repr

/-- All records, by number. -/
abbrev Arena := List Record

/-- A tree under construction. -/
structure Builder where
  text : Text
  arena : Arena
  /-- The open nodes, innermost first. -/
  opened : List OpenNode
  errors : List SyntaxError
  strayComments : List (Nat × Nat)
  deriving Repr

namespace Arena

/-- The node of a record whose children are among the nodes made before. -/
def nodeOf (made : List Node) (id : Nat) (r : Record) : Node :=
  ⟨id, r.kind, r.start, r.stop, r.children.filterMap (made[·]?)⟩

/-- The nodes of all records, by number. -/
def nodesFrom (made : List Node) : Arena → List Node
  | [] => made
  | r :: rest => nodesFrom (made ++ [nodeOf made made.length r]) rest

/-- The nodes of all records, by number. -/
def nodes (a : Arena) : List Node := nodesFrom [] a

/-- The number of the record that has the given one among its children. -/
def parent? (a : Arena) (id : Nat) : Option Nat :=
  a.findIdx? fun r => r.children.contains id

end Arena

namespace Builder

/-- A builder over a text. -/
def new (text : Text) : Builder := ⟨text, [], [], [], []⟩

/-- A record made and given to the open node, with its number. -/
def add (b : Builder) (r : Record) : Nat × Builder :=
  let id := b.arena.length
  let opened := match b.opened with
    | [] => []
    | top :: outer => ⟨top.kind, top.position, top.children ++ [id]⟩ :: outer
  (id, { b with arena := b.arena ++ [r], opened })

/-- A leaf made. -/
def leaf (b : Builder) (kind : Kind) (start stop : Nat) : Nat × Builder :=
  b.add ⟨kind, start, stop, []⟩

/-- A node opened, which stands at `position` if it stays empty. -/
def startNode (b : Builder) (kind : Kind) (position : Nat) : Builder :=
  { b with opened := ⟨kind, position, []⟩ :: b.opened }

/-- The present place. -/
def checkpoint (b : Builder) : Checkpoint :=
  ⟨b.opened.length, (b.opened.head?.map (·.children.length)).getD 0⟩

/-- The start of a record. -/
def startOf (b : Builder) (id : Nat) : Nat := (b.arena[id]?.map (·.start)).getD 0

/-- The end of a record. -/
def stopOf (b : Builder) (id : Nat) : Nat := (b.arena[id]?.map (·.stop)).getD 0

/-- A node opened around the children made since a checkpoint. -/
def startNodeAt (b : Builder) (c : Checkpoint) (kind : Kind) : Except Fault Builder :=
  if c.depth ≠ b.opened.length then .error .foreignCheckpoint
  else match b.opened with
    | [] => .error .noNodeToSplit
    | top :: outer =>
      if top.children.length < c.length then .error .outOfRange
      else
        let adopted := top.children.drop c.length
        let position := (adopted.head?.map b.startOf).getD b.text.byteLength
        .ok { b with
          opened := ⟨kind, position, adopted⟩ ::
            ⟨top.kind, top.position, top.children.take c.length⟩ :: outer }

/-- The innermost node finished, with its number.  It spans its children. -/
def finishNode (b : Builder) : Except Fault (Nat × Builder) :=
  match b.opened with
  | [] => .error .noNodeToFinish
  | top :: outer =>
    let start := (top.children.head?.map b.startOf).getD top.position
    let stop := (top.children.getLast?.map b.stopOf).getD top.position
    .ok ({ b with opened := outer }.add ⟨top.kind, start, stop, top.children⟩)

/-- A record given another kind. -/
def retag (b : Builder) (id : Nat) (kind : Kind) : Except Fault Builder :=
  match b.arena[id]? with
  | none => .error .outOfRange
  | some r => .ok { b with arena := b.arena.set id { r with kind } }

/-- The kind of a record. -/
def kindOf (b : Builder) (id : Nat) : Except Fault Kind :=
  match b.arena[id]? with
  | none => .error .outOfRange
  | some r => .ok r.kind

/-- A diagnostic recorded. -/
def error (b : Builder) (e : SyntaxError) : Builder := { b with errors := b.errors ++ [e] }

/-- A comment without a place recorded. -/
def strayComment (b : Builder) (start stop : Nat) : Builder :=
  { b with strayComments := b.strayComments ++ [(start, stop)] }

/-- The tree whose root is the record with a number; the root spans the text. -/
def toTree (b : Builder) (root : Nat) : Except Fault SyntaxTree :=
  match b.arena[root]? with
  | none => .error .outOfRange
  | some r =>
    if b.opened ≠ [] then .error .nodesStillOpen
    else
      let arena := b.arena.set root { r with start := 0, stop := b.text.byteLength }
      let nodes := Arena.nodes arena
      match nodes[root]? with
      | none => .error .outOfRange
      | some node =>
        .ok {
          source := b.text
          nodeCount := arena.length
          root := node
          enclosing := (Arena.parent? arena root).bind fun id => nodes[id]?
          errors := b.errors
          strayComments := b.strayComments }

end Builder

/-- The tree of a source that was given up: a single node over the whole text. -/
def SyntaxTree.abandoned (source : Text) (kind : Kind) (errors : List SyntaxError)
    (strayComments : List (Nat × Nat)) : SyntaxTree :=
  { source, nodeCount := 1, root := ⟨0, kind, 0, source.byteLength, []⟩, enclosing := none,
    errors, strayComments }

/-- The tree given up, with the diagnostics so far and one more. -/
def Builder.abandon (b : Builder) (kind : Kind) (e : SyntaxError) : SyntaxTree :=
  SyntaxTree.abandoned b.text kind (b.errors ++ [e]) b.strayComments

end LuauTidy
