import LuauTidy.Lowering.Construct
import LuauTidy.Lowering.Draft
import LuauTidy.Outcome

/-!
# One lowering pass

A pass exchanges the outermost constructs of a tree for their lowered texts.
What is nested in a construct keeps its source text and is left to the next
pass.  The exchange has two steps: first every construct is overwritten by
marks, and then the marks of each construct in turn are exchanged for the
lowered text.

* `Site`, `SyntaxTree.sites` — the outermost constructs, in order;
* `Draft.holdSites`, `SyntaxTree.releaseSites` — the two steps;
* `SyntaxTree.lowerOnce` — a pass.
-/

namespace LuauTidy

/-- A construct in a tree. -/
structure Site where
  construct : Construct
  node : Node
  /-- The kind of the parent. -/
  parent : Option Kind
  deriving Repr

/-- The number of bytes of a construct. -/
def Site.length (s : Site) : Nat := s.node.stop - s.node.start

mutual

/-- The outermost constructs of a subtree, in order. -/
def Node.sites (options : LoweringOptions) (parent : Option Kind) : Node → List Site
  | n@⟨_, kind, _, _, children⟩ =>
    match Construct.of? options n with
    | some c => [⟨c, n, parent⟩]
    | none => sitesAmong options (some kind) children

/-- The outermost constructs of the subtrees of siblings, in order. -/
def sitesAmong (options : LoweringOptions) (parent : Option Kind) : List Node → List Site
  | [] => []
  | n :: rest => n.sites options parent ++ sitesAmong options parent rest

end

/-- The draft with every site overwritten by marks.  Sites are numbered in
order. -/
def Draft.holdSites (d : Draft) (number : Nat) : List Site → Except Fault Draft
  | [] => .ok d
  | site :: rest =>
    match d.hold? number site.node.start site.node.stop with
    | none => .error .outOfRange
    | some d => d.holdSites (number + 1) rest

namespace SyntaxTree

/-- The outermost constructs of a tree, in order. -/
def sites (t : SyntaxTree) (options : LoweringOptions) : List Site :=
  t.root.sites options (t.rootVisit.parent.map Node.kind)

/-- The lowered text of a site. -/
def loweredSite (t : SyntaxTree) (site : Site) : Except Fault Text :=
  t.lowered site.construct site.parent site.node

/-- The draft with the marks of every site exchanged for its lowered text. -/
def releaseSites (t : SyntaxTree) (d : Draft) (number : Nat) : List Site → Except Fault Draft
  | [] => .ok d
  | site :: rest => do
    let text ← t.loweredSite site
    t.releaseSites (d.release number site.length text) (number + 1) rest

/-- A tree lowered once.  A tree with a diagnostic leaves its source as it is. -/
def lowerOnce (t : SyntaxTree) (options : LoweringOptions) : Except Fault Outcome :=
  if t.hasError then .ok (.untouched .parseError t.source)
  else do
    let found := t.sites options
    let held ← (Draft.ofText t.source).holdSites 0 found
    let released ← t.releaseSites held 0 found
    return .produced released.text.withSingleTrailingNewline

end SyntaxTree

end LuauTidy
