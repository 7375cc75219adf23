import LuauTidy.Layout.Render
import LuauTidy.Proofs.Tokens

/-!
# Shapes

The layout may change where nodes stand and in which order they were made, how
a short string is delimited and escaped, whether a single string or table as an
argument stands in parentheses, and what separates the fields of a table.  The
shape of a tree is everything else.

The layout drops semicolons and blanks, and a few sources need them: what they
hold apart would read on as one.  A tree is firm if nothing in it needs them.

* `SyntaxTree.shape` — a tree without what the layout may change;
* `SyntaxTree.IsFirm` — nothing reads on where the layout brings it together;
* `KeepsShape`, `IsIdempotent` — what the layout should do;
* `not_keepsShape_statements`, … — sources where it does not.
-/

namespace LuauTidy

/-! ### Shapes -/

/-- What a leaf says. -/
inductive Saying
  | nothing
  /-- The text of a token or comment. -/
  | verbatim (t : Text)
  /-- The value of a short string. -/
  | string (value : List StringPiece)
  deriving DecidableEq, Repr

/-- A node of a shape. -/
structure ShapeLine where
  depth : Nat
  kind : Kind
  saying : Saying
  deriving DecidableEq, Repr

/-- What a token or comment says. -/
def Saying.ofText (kind : Kind) (t : Text) : Saying :=
  if kind = .expr .string ∧ Text.startsWith isQuote t then
    .string (StringPiece.ofBody (t.drop 1).dropLast)
  else .verbatim t

/-- The children that the layout may leave out or put in. -/
def Kind.mayDrop (kind : Kind) (children : List Node) (child : Kind) : Bool :=
  match kind with
  | .aux .argList =>
    Layout.isSugar (children.filter (·.isExpr)) &&
      (child == .token .lparen || child == .token .rparen)
  | .aux .fieldList => child == .token .comma || child == .token .semi
  | _ => false

mutual

/-- The lines of a subtree. -/
def Node.shape (source : Text) (depth : Nat) : Node → List ShapeLine
  | ⟨_, kind, start, stop, children⟩ =>
    let saying := match kind, children with
      | .aux _, _ => .nothing
      | _, [] => .ofText kind ((source.slice? start stop).getD [])
      | _, _ => .nothing
    ⟨depth, kind, saying⟩ :: shapeOfAll source (depth + 1) (kind.mayDrop children) children

/-- The lines of siblings. -/
def shapeOfAll (source : Text) (depth : Nat) (drop : Kind → Bool) : List Node → List ShapeLine
  | [] => []
  | n :: rest =>
    (if drop n.kind then [] else n.shape source depth) ++ shapeOfAll source depth drop rest

end

/-- A tree without what the layout may change. -/
def SyntaxTree.shape (t : SyntaxTree) : List ShapeLine := t.root.shape t.source 0

/-! ### Firm trees -/

mutual

/-- What stands behind the node could belong to it: it ends in a variable, a
call, a parenthesis or `continue`. -/
def Node.isOpen : Node → Bool
  | ⟨_, kind, _, _, children⟩ =>
    [.expr .var, .expr .call, .expr .parens, .stmt .call, .stmt .continueStmt].contains kind ||
      lastIsOpen children

/-- The last of some siblings is open. -/
def lastIsOpen : List Node → Bool
  | [] => false
  | [n] => n.isOpen
  | _ :: n :: rest => lastIsOpen (n :: rest)

end

mutual

/-- The leaf with which a node starts. -/
def Node.firstLeaf : Node → Node
  | n@⟨_, _, _, _, children⟩ => firstLeafAmong n children

/-- The leaf with which siblings start. -/
def firstLeafAmong (parent : Node) : List Node → Node
  | [] => parent
  | n :: _ => n.firstLeaf

end

/-- A statement that starts with a parenthesis follows an open one. -/
def statementsMeet : List Node → Bool
  | a :: b :: rest =>
    (a.isOpen && b.firstLeaf.isToken .lparen) || statementsMeet (b :: rest)
  | _ => false

/-- A long string stands in brackets. -/
def bracketsMeet (source : Text) : List Node → Bool
  | a :: b :: rest =>
    (a.isToken .lbracket && b.firstLeaf.kind == .expr .string &&
        Text.startsWith (· == '[') ((source.slice? b.firstLeaf.start b.firstLeaf.stop).getD [])) ||
      bracketsMeet source (b :: rest)
  | _ => false

/-- A comment up to the end of its line. -/
def isLineComment (text : Text) : Bool := (Lexeme.longBracketLevel? (text.drop 2)).isNone

/-- A comment on the line of a separator follows a line comment before the
separator. -/
def commentsMeet (source : Text) : List Node → Bool
  | a :: b :: c :: rest =>
    (a.kind == .stmt .comment && isLineComment ((source.slice? a.start a.stop).getD []) &&
        (b.isToken .comma || b.isToken .semi) && c.kind == .stmt .comment &&
        !((source.slice? b.stop c.start).getD []).contains '\n') ||
      commentsMeet source (b :: c :: rest)
  | _ => false

/-- Nothing among the children of the node reads on. -/
def Node.isFirm (source : Text) (n : Node) : Bool :=
  match n.kind with
  | .aux .chunk | .aux .block => !statementsMeet (n.children.filter (·.kind != .stmt .comment))
  | .expr .var | .aux .field => !bracketsMeet source n.children
  | .aux .fieldList => !commentsMeet source n.children
  | .stmt .comment => ((source.slice? n.start n.stop).getD []).getLast? != some '\r'
  | _ => true

/-- Nothing in the tree reads on. -/
def SyntaxTree.IsFirm (t : SyntaxTree) : Prop :=
  ∀ v ∈ t.visits, v.node.isFirm t.source

instance (t : SyntaxTree) : Decidable t.IsFirm := by
  unfold SyntaxTree.IsFirm
  infer_instance

/-! ### What the layout should do -/

/-- A source without stray comments is laid out, and the result reads as the
same shape. -/
def KeepsShape (options : LayoutOptions) (source : Text) : Prop :=
  ∀ t, parse source = .ok t → t.errors = [] → t.strayComments = [] →
    ∃ text t', format source options = .ok (.produced text) ∧ parse text = .ok t' ∧
      t'.errors = [] ∧ t'.strayComments = [] ∧ t'.shape = t.shape

/-- What was laid out once is left alone. -/
def IsIdempotent (options : LayoutOptions) (source : Text) : Prop :=
  ∀ text, format source options = .ok (.produced text) →
    format text options = .ok (.produced text)

/-- A text reads as a shape. -/
def readsAs (shape : List ShapeLine) (text : Text) : Bool :=
  match parse text with
  | .ok t => t.errors.isEmpty && t.strayComments.isEmpty && t.shape == shape
  | .error _ => false

/-- The text that the layout produces, if it does. -/
def layout? (options : LayoutOptions) (source : Text) : Option Text :=
  match format source options with
  | .ok (.produced text) => some text
  | _ => none

theorem readsAs_iff {shape : List ShapeLine} {text : Text} :
    readsAs shape text ↔
      ∃ t, parse text = .ok t ∧ t.errors = [] ∧ t.strayComments = [] ∧ t.shape = shape := by
  unfold readsAs
  cases parse text with
  | error cause => simp
  | ok t => simp [and_assoc]

theorem layout?_eq_some {options : LayoutOptions} {source text : Text} :
    layout? options source = some text ↔ format source options = .ok (.produced text) := by
  unfold layout?
  split <;> simp_all

instance (options : LayoutOptions) (source : Text) : Decidable (KeepsShape options source) :=
  decidable_of_iff
    (∀ t ∈ (parse source).toOption, t.errors = [] → t.strayComments = [] →
      (layout? options source).any (readsAs t.shape)) <| by
    cases hparse : parse source with
    | error cause => simp [KeepsShape, hparse, Except.toOption]
    | ok t =>
        simp only [KeepsShape, hparse, Except.toOption, Option.any_eq_true, readsAs_iff,
          layout?_eq_some, Option.mem_def, Option.some.injEq, Except.ok.injEq, forall_eq']
        refine forall_congr' fun _ => forall_congr' fun _ => ?_
        exact ⟨fun ⟨text, h, t', h'⟩ => ⟨text, t', h, h'⟩, fun ⟨text, t', h, h'⟩ => ⟨text, h, t', h'⟩⟩

instance (options : LayoutOptions) (source : Text) : Decidable (IsIdempotent options source) :=
  decidable_of_iff
    (∀ text ∈ layout? options source, layout? options text = some text) <| by
    simp only [IsIdempotent, layout?_eq_some, Option.mem_def]

/-- Without the semicolon the parenthesis is the argument of a call. -/
theorem not_keepsShape_statements : ¬KeepsShape .standard "a = b; (f)()".toList := by
  decide +kernel

/-- Laid out once, two statements are one, which takes one line. -/
theorem not_isIdempotent_statements : ¬IsIdempotent .standard "a = b; (f)()".toList := by
  decide +kernel

end LuauTidy
