import LuauTidy.Grammar.Cursor

/-!
# Expressions

Binary operators are read by their binding powers.  An operator takes the
operand on its left if its left power exceeds the limit of the operand that
is being read, and it reads its own right operand with its right power as the
limit.  Where the right power is below the left one, the operator groups to
the right.

Expressions hold blocks and further expressions.  A production does not call
itself for these but asks a `Descent`, which the grammar ties together level
by level; so each production here is a plain definition.

* `TokenKind.bindingPowers?`, `TokenKind.isUnary` — the operators;
* `Descent` — how to read what lies deeper;
* `Grammar.operand` — an expression down to a limit;
* `Grammar.suffixed` — a name or parenthesis with what follows it;
* `Grammar.table`, `Grammar.functionBody`, `Grammar.conditional`,
  `Grammar.interpolation` — the other compound forms.
-/

namespace LuauTidy

/-- The left and right binding power of a binary operator. -/
def TokenKind.bindingPowers? : TokenKind → Option (Nat × Nat)
  | .kwOr => some (1, 1)
  | .kwAnd => some (2, 2)
  | .eq | .ne | .lt | .le | .gt | .ge => some (3, 3)
  | .concat => some (5, 4)
  | .plus | .minus => some (6, 6)
  | .star | .slash | .doubleSlash | .percent => some (7, 7)
  | .caret => some (10, 9)
  | _ => none

/-- The binding power of unary operators: tighter than `*`, looser than `^`. -/
def unaryPower : Nat := 8

/-- A unary operator. -/
def TokenKind.isUnary : TokenKind → Bool
  | .kwNot | .minus | .hash => true
  | _ => false

/-- How to read the operands and blocks inside of a production. -/
structure Descent where
  /-- An expression of operators that bind tighter than a limit. -/
  operand : (limit : Nat) → Parser Node
  /-- A block up to the token that closes it. -/
  block : Parser Node

/-- An expression of any operators. -/
def Descent.expr (d : Descent) : Parser Node := d.operand 0

namespace Grammar

open LuauTidy.Parser

/-- Expressions between commas. -/
def exprs (d : Descent) : Parser (List Node) := separatedBy .comma d.expr

/-! ### Function bodies -/

/-- Parameters: names, and the mark of further ones in the last place. -/
def parameters : Parser (List Node) := many do
  match ← peekClass with
  | some (.literal .vararg) => return ([← bump], false)
  | _ =>
    let name ← expectName
    match ← eat .comma with
    | some comma => return ([name, comma], true)
    | none => return ([name], false)

/-- The parameters in parentheses, the block and `end`. -/
def functionBody (d : Descent) : Parser Node := do
  let opening ← expect .lparen
  let params ←
    if ← isAt .rparen then pure []
    else do
      let names ← parameters
      let list ← finish (.aux .paramList) names
      pure [list]
  let closing ← expect .rparen
  let block ← d.block
  let last ← expect .kwEnd
  finish (.aux .funcBody) (opening :: params ++ [closing, block, last])

/-- A function without a name. -/
def anonymousFunction (d : Descent) : Parser Node := do
  let mark ← bump
  let body ← functionBody d
  finish (.expr .function) [mark, body]

/-! ### Conditionals -/

/-- A condition with its value. -/
def branch (d : Descent) : Parser (List Node) := do
  let condition ← d.expr
  let mark ← expect .kwThen
  let value ← d.expr
  return [condition, mark, value]

/-- A conditional expression. -/
def conditional (d : Descent) : Parser Node := do
  let mark ← bump
  let first ← branch d
  let others ← many do
    match ← eat .kwElseif with
    | some mark => return (mark :: (← branch d), true)
    | none => return ([], false)
  let elseMark ← expect .kwElse
  let value ← d.expr
  finish (.expr .conditional) (mark :: first ++ others ++ [elseMark, value])

/-! ### Tables -/

/-- A field: a bracketed key or a name with a value, or a value alone. -/
def field (d : Descent) : Parser Node := do
  if ← isAt .lbracket then
    let opening ← bump
    let key ← d.expr
    let closing ← expect .rbracket
    let mark ← expect .assign
    let value ← d.expr
    finish (.aux .field) [opening, key, closing, mark, value]
  else if (← isAt .name) && kind? (← nth 1) == some .assign then
    let name ← bump
    let mark ← bump
    let value ← d.expr
    finish (.aux .field) [name, mark, value]
  else
    let value ← d.expr
    finish (.aux .field) [value]

/-- One field with the comments around it and its separator. -/
def fieldStep (d : Descent) : Parser (List Node × Bool) := do
  let before ← comments
  if ← isAt .rbrace then return (before, false)
  let f ← field d
  let after ← comments
  if (← isAt .comma) || (← isAt .semi) then
    let separator ← bump
    return (before ++ [f] ++ after ++ [separator], true)
  else
    return (before ++ [f] ++ after, false)

/-- A table. -/
def table (d : Descent) : Parser Node := do
  let opening ← expect .lbrace
  let fields ←
    if ← isRightAt .rbrace then pure []
    else do
      let items ← many (fieldStep d)
      let list ← finish (.aux .fieldList) items
      pure [list]
  let closing ← expect .rbrace
  finish (.expr .table) (opening :: fields ++ [closing])

/-! ### Interpolated strings -/

/-- A piece of an interpolated string. -/
def interpolationStep (d : Descent) : Parser (List Node × Bool) := do
  match ← peekKind with
  | some .interpContent => return ([← bump], true)
  | some .interpBraceOpen =>
    let opening ← bump
    let value ← d.expr
    let closing ← expect .interpBraceClose
    let piece ← finish (.aux .interpExpr) [opening, value, closing]
    return ([piece], true)
  | some .interpEnd => return ([← bump], false)
  | _ => unexpected .restOfInterpolation

/-- An interpolated string. -/
def interpolation (d : Descent) : Parser Node := do
  let opening ← bump
  let pieces ← many (interpolationStep d)
  finish (.expr .interpolation) (opening :: pieces)

/-! ### Suffixed expressions -/

/-- The arguments of a call: a list in parentheses, a string or a table. -/
def arguments (d : Descent) : Parser Node := do
  match ← peekClass with
  | some (.token .lparen) =>
    let opening ← bump
    let values ← if ← isAt .rparen then pure [] else exprs d
    let closing ← expect .rparen
    finish (.aux .argList) (opening :: values ++ [closing])
  | some (.literal .string) => finish (.aux .argList) [← bump]
  | some (.token .lbrace) => finish (.aux .argList) [← table d]
  | _ => unexpected .callArguments

/-- A name, or an expression in parentheses. -/
def base (d : Descent) : Parser Node := do
  match ← peekKind with
  | some .name => finish (.expr .var) [← bump]
  | some .lparen =>
    let opening ← bump
    let inside ← d.expr
    let closing ← expect .rparen
    finish (.expr .parens) [opening, inside, closing]
  | _ => unexpected .expression

/-- A field access, index or call of the node read so far. -/
def suffix (d : Descent) (node : Node) : Parser (Option Node) := do
  match ← peekClass with
  | some (.token .dot) =>
    let mark ← bump
    let name ← expectName
    return some (← finish (.expr .var) [node, mark, name])
  | some (.token .lbracket) =>
    let opening ← bump
    let key ← d.expr
    let closing ← expect .rbracket
    return some (← finish (.expr .var) [node, opening, key, closing])
  | some (.token .colon) =>
    let mark ← bump
    let name ← expectName
    let values ← arguments d
    return some (← finish (.expr .call) [node, mark, name, values])
  | some (.token .lparen) | some (.token .lbrace) | some (.literal .string) =>
    let values ← arguments d
    return some (← finish (.expr .call) [node, values])
  | _ => return none

/-- A name or parenthesis with any number of accesses, indices and calls. -/
def suffixed (d : Descent) : Parser Node := do
  let first ← base d
  chain (suffix d) first

/-! ### Operators -/

/-- An expression without operators. -/
def simple (d : Descent) : Parser Node := do
  match ← peekClass with
  | some (.literal _) => bump
  | some (.token .interpStart) => interpolation d
  | some (.token .lbrace) => table d
  | some (.token .kwFunction) => anonymousFunction d
  | some (.token .kwIf) => conditional d
  | _ => suffixed d

/-- A unary operator with its operand. -/
def unary (d : Descent) : Parser Node := do
  let mark ← bump
  let value ← d.operand unaryPower
  finish (.expr .unary) [mark, value]

/-- A binary operator that binds tighter than the limit, with the node read so
far as its left operand. -/
def binary (d : Descent) (limit : Nat) (left : Node) : Parser (Option Node) := do
  match (← peekKind).bind TokenKind.bindingPowers? with
  | none => return none
  | some (leftPower, rightPower) =>
    if leftPower ≤ limit then return none
    let mark ← bump
    let right ← d.operand rightPower
    return some (← finish (.expr .binary) [left, mark, right])

/-- An expression of operators that bind tighter than the limit. -/
def operand (d : Descent) (limit : Nat) : Parser Node := do
  let first ← if ((← peekKind).map TokenKind.isUnary).getD false then unary d else simple d
  chain (binary d limit) first

end Grammar

end LuauTidy
