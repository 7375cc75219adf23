import LuauTidy.Tree.Basic

/-!
# Constructs to lower

Three forms of the dialect have no counterpart in plain Lua: conditional
expressions, floor division, and floor division that assigns.  Each has a
lowered text, which is made of the source texts of its parts.

* `a // b` becomes `math.floor(a/b)`, and `a //= b` assigns that to `a`; the
  right side of the latter gets parentheses if it is an operation.
* A conditional of one branch whose value is a literal that counts as true
  becomes `c and a or b`, in parentheses where it is an operand.
* Any other conditional becomes a function that is called at once and returns
  from the branch taken.

Main definitions:

* `LoweringOptions` — which forms are lowered, and how many passes are made;
* `Construct`, `Construct.of?` — the forms;
* `SyntaxTree.lowered` — the lowered text of a node.
-/

namespace LuauTidy

/-- Which forms are lowered, and how often at most. -/
structure LoweringOptions where
  conditionals : Bool
  floorDivision : Bool
  compoundFloorDivision : Bool
  /-- The number of passes after which lowering gives up. -/
  maxPasses : Nat
  deriving DecidableEq, Repr

/-- The choices made by default. -/
def LoweringOptions.standard : LoweringOptions := ⟨true, true, true, 64⟩

/-- A form without counterpart in plain Lua. -/
inductive Construct
  | conditional
  | floorDivision
  | compoundFloorDivision
  deriving DecidableEq, Repr

/-- The token kind of the operator, which is the second child. -/
def Node.operator? (n : Node) : Option TokenKind := (n.child? 1).bind fun op => op.kind.token?

/-- The form that a node is, if it is to be lowered. -/
def Construct.of? (options : LoweringOptions) (n : Node) : Option Construct :=
  match n.kind with
  | .expr .conditional => if options.conditionals then some .conditional else none
  | .expr .binary =>
    if options.floorDivision && n.operator? == some .doubleSlash then some .floorDivision
    else none
  | .stmt .compoundAssign =>
    if options.compoundFloorDivision && n.operator? == some .doubleSlashAssign then
      some .compoundFloorDivision
    else none
  | _ => none

/-- A literal that counts as true whatever its value. -/
def isTruthyLiteral : Kind → Bool
  | .expr .number | .expr .string | .expr .interpolation | .expr .true => true
  | _ => false

/-- An operation, whose operands stand apart. -/
def isOperation : Kind → Bool
  | .expr .binary | .expr .unary => true
  | _ => false

/-- A value that needs parentheses after a slash. -/
def needsParens : Kind → Bool
  | .expr .binary | .expr .conditional => true
  | _ => false

/-- A text in parentheses. -/
def parenthesized (t : Text) : Text := '(' :: t ++ [')']

namespace SyntaxTree

/-- A condition binds looser than `and`. -/
def bindsLoosely (condition : Node) : Except Fault Bool :=
  match condition.kind with
  | .expr .conditional => .ok true
  | .expr .binary => do return (← condition.expectChild 1).isToken .kwOr
  | _ => .ok false

/-- The quotient of two texts, rounded down. -/
def flooredQuotient (left right : Text) : Text :=
  "math.floor(".toList ++ left ++ ['/'] ++ right ++ [')']

/-- The lowered text of a floor division. -/
def loweredFloorDivision (t : SyntaxTree) (n : Node) : Except Fault Text := do
  let left ← t.text (← n.expectChild 0)
  let right ← t.text (← n.expectChild 2)
  return flooredQuotient left right

/-- The lowered text of a floor division that assigns. -/
def loweredCompound (t : SyntaxTree) (n : Node) : Except Fault Text := do
  let target ← t.text (← n.expectChild 0)
  let value ← n.expectChild 2
  let right ← t.text value
  let divisor := if needsParens value.kind then parenthesized right else right
  return target ++ " = ".toList ++ flooredQuotient target divisor

/-- The condition, the value and the alternative of a conditional of one
branch whose value counts as true. -/
def shortConditional? : List Node → Option (Node × Node × Node)
  | [_, condition, _, value, elseMark, alternative] =>
    if elseMark.isToken .kwElse && isTruthyLiteral value.kind then
      some (condition, value, alternative)
    else none
  | _ => none

/-- The operators that choose between a value and an alternative. -/
def choice (t : SyntaxTree) (condition value alternative : Node) : Except Fault Text := do
  let loose ← bindsLoosely condition
  let conditionText ← t.text condition
  let valueText ← t.text value
  let alternativeText ← t.text alternative
  let guard := if loose then parenthesized conditionText else conditionText
  return guard ++ " and ".toList ++ valueText ++ " or ".toList ++ alternativeText

/-- The statement that returns from the branch taken. -/
def branches (t : SyntaxTree) : List Node → Except Fault Text
  | [] => .ok []
  | n :: rest => do
    let here ← match n.kind with
      | .token .kwIf => .ok " if".toList
      | .token .kwThen => .ok " then return".toList
      | .token .kwElseif => .ok " elseif".toList
      | .token .kwElse => .ok " else return".toList
      | .expr _ => (t.text n).map fun text => ' ' :: text
      | _ => .error (.notInConditional n.kind n.start)
    return here ++ (← branches t rest)

/-- The lowered text of a conditional whose parent has a kind. -/
def loweredConditional (t : SyntaxTree) (parent : Option Kind) (n : Node) : Except Fault Text :=
  match shortConditional? n.children with
  | some (condition, value, alternative) => do
    let chosen ← t.choice condition value alternative
    return if parent.any isOperation then parenthesized chosen else chosen
  | none => do
    let body ← t.branches n.children
    return "(function()".toList ++ body ++ " end end)()".toList

/-- The lowered text of a node that is a construct. -/
def lowered (t : SyntaxTree) (c : Construct) (parent : Option Kind) (n : Node) :
    Except Fault Text :=
  match c with
  | .conditional => t.loweredConditional parent n
  | .floorDivision => t.loweredFloorDivision n
  | .compoundFloorDivision => t.loweredCompound n

end SyntaxTree

end LuauTidy
