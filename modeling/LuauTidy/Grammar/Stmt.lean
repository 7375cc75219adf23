import LuauTidy.Grammar.Expr

/-!
# Statements and blocks

A block is a list of statements, with the comments between them, up to a
token that closes it.  Semicolons after a statement leave no trace.  A
`return` ends its block.

* `Grammar.statement` — a statement;
* `Grammar.blockItems`, `Grammar.block` — a block;
* `Grammar.isContinue` — where `continue` is a statement and no variable.
-/

namespace LuauTidy.Grammar

open LuauTidy.Parser

/-- A token, or the end of the source, that closes a block. -/
def closesBlock : Option Token → Bool
  | none => true
  | some t => match t.cls with
    | .token .kwEnd | .token .kwElse | .token .kwElseif | .token .kwUntil => true
    | _ => false

/-- The next token closes the block. -/
def atBlockEnd : Parser Bool := do return closesBlock (← peek)

/-- A token after `continue` with which the word is a variable. -/
def continuesExpression : TokenClass → Bool
  | .token k =>
    k.isCompoundAssign || k == .lparen || k == .dot || k == .lbracket || k == .colon ||
      k == .assign || k == .comma || k == .lbrace
  | .literal k => k == .string
  | _ => false

/-- The next token is the word `continue` where it can be no variable. -/
def isContinue : Parser Bool := do
  match ← peek with
  | some t =>
    if t.cls == .token .name && t.text == "continue".toList then
      return !(((← nth 1).map fun after => continuesExpression after.cls).getD false)
    else return false
  | none => return false

/-- A name that is being declared. -/
def binding : Parser Node := do finish (.aux .binding) [← expectName]

/-- A declaration of local variables, or of a local function. -/
def localStatement (d : Descent) : Parser Node := do
  if kind? (← nth 1) == some .kwFunction then
    let mark ← bump
    let functionMark ← bump
    let name ← expectName
    let body ← functionBody d
    finish (.stmt .localFn) [mark, functionMark, name, body]
  else
    let mark ← bump
    let names ← separatedBy .comma binding
    match ← eat .assign with
    | some equals => finish (.stmt .localVar) (mark :: names ++ equals :: (← exprs d))
    | none => finish (.stmt .localVar) (mark :: names)

/-- The name of a function: names between points, and a method after a colon. -/
def functionName : Parser Node := do
  let names ← separatedBy .dot expectName
  match ← eat .colon with
  | some colon => finish (.aux .funcName) (names ++ [colon, ← expectName])
  | none => finish (.aux .funcName) names

/-- A declaration of a function. -/
def functionStatement (d : Descent) : Parser Node := do
  let mark ← bump
  let name ← functionName
  let body ← functionBody d
  finish (.stmt .fn) [mark, name, body]

/-- A condition with its block. -/
def guardedBlock (d : Descent) : Parser (List Node) := do
  let condition ← d.expr
  let mark ← expect .kwThen
  let block ← d.block
  return [condition, mark, block]

/-- A conditional statement. -/
def ifStatement (d : Descent) : Parser Node := do
  let mark ← bump
  let first ← guardedBlock d
  let others ← many do
    match ← eat .kwElseif with
    | some mark => return (mark :: (← guardedBlock d), true)
    | none => return ([], false)
  let final ← match ← eat .kwElse with
    | some elseMark => pure [elseMark, ← d.block]
    | none => pure []
  let last ← expect .kwEnd
  finish (.stmt .ifStmt) (mark :: first ++ others ++ final ++ [last])

/-- A loop while a condition holds. -/
def whileStatement (d : Descent) : Parser Node := do
  let mark ← bump
  let condition ← d.expr
  let doMark ← expect .kwDo
  let block ← d.block
  let last ← expect .kwEnd
  finish (.stmt .whileStmt) [mark, condition, doMark, block, last]

/-- A block as a statement. -/
def doStatement (d : Descent) : Parser Node := do
  let mark ← bump
  let block ← d.block
  let last ← expect .kwEnd
  finish (.stmt .doStmt) [mark, block, last]

/-- A loop until a condition holds. -/
def repeatStatement (d : Descent) : Parser Node := do
  let mark ← bump
  let block ← d.block
  let untilMark ← expect .kwUntil
  let condition ← d.expr
  finish (.stmt .repeatStmt) [mark, block, untilMark, condition]

/-- The bounds of a numeric loop: from, to, and the step if there is one. -/
def bounds (d : Descent) : Parser (List Node) := do
  let equals ← expect .assign
  let first ← d.expr
  let comma ← expect .comma
  let last ← d.expr
  match ← eat .comma with
  | some comma' => return [equals, first, comma, last, comma', ← d.expr]
  | none => return [equals, first, comma, last]

/-- The further names of a loop over iterators, and the iterators. -/
def iterators (d : Descent) : Parser (List Node) := do
  let names ← many do
    match ← eat .comma with
    | some comma => return ([comma, ← binding], true)
    | none => return ([], false)
  let mark ← expect .kwIn
  return names ++ mark :: (← exprs d)

/-- A loop over numbers or iterators; an equals sign after the first name
tells which. -/
def forStatement (d : Descent) : Parser Node := do
  let numeric := kind? (← nth 2) == some .assign
  let mark ← bump
  let name ← binding
  let header ← if numeric then bounds d else iterators d
  let doMark ← expect .kwDo
  let block ← d.block
  let last ← expect .kwEnd
  finish (.stmt (if numeric then .forRange else .forIn))
    (mark :: name :: header ++ [doMark, block, last])

/-- A return with its values. -/
def returnStatement (d : Descent) : Parser Node := do
  let mark ← bump
  let values ← if (← atBlockEnd) || (← isAt .semi) then pure [] else exprs d
  finish (.stmt .returnStmt) (mark :: values)

/-- A variable that is assigned to, after a comma. -/
def assigned (d : Descent) : Parser Node := do
  let place ← offset
  let target ← suffixed d
  if target.kind == .expr .var then return target
  else throw (.wrong .notAssignable place)

/-- An assignment, a compound assignment or a call: they all begin with a
suffixed expression. -/
def exprStatement (d : Descent) : Parser Node := do
  let place ← offset
  let target ← suffixed d
  let isVar := target.kind == .expr .var
  match ← peekKind with
  | some op =>
    if op == .assign || op == .comma then
      if !isVar then throw (.wrong .notAssignable place)
      let others ← many do
        match ← eat .comma with
        | some comma => return ([comma, ← assigned d], true)
        | none => return ([], false)
      let targets ← finish (.aux .varList) (target :: others)
      let equals ← expect .assign
      let values ← finish (.aux .exprList) (← exprs d)
      finish (.stmt .assign) [targets, equals, values]
    else if op.isCompoundAssign then
      if !isVar then throw (.wrong .notAssignable place)
      let mark ← bump
      let value ← d.expr
      finish (.stmt .compoundAssign) [target, mark, value]
    else callStatement place target
  | none => callStatement place target
where
  /-- A call by itself. -/
  callStatement (place : Nat) (target : Node) : Parser Node :=
    if target.kind == .expr .call then return { target with kind := .stmt .call }
    else throw (.wrong .notAStatement place)

/-- A statement. -/
def statement (d : Descent) : Parser Node := do
  match ← peekKind with
  | some .kwLocal => localStatement d
  | some .kwFunction => functionStatement d
  | some .kwIf => ifStatement d
  | some .kwWhile => whileStatement d
  | some .kwDo => doStatement d
  | some .kwFor => forStatement d
  | some .kwRepeat => repeatStatement d
  | some .kwReturn => returnStatement d
  | some .kwBreak => finish (.stmt .breakStmt) [← bump]
  | _ =>
    if ← isContinue then finish (.stmt .continueStmt) [← bumpAs (.token .kwContinue)]
    else exprStatement d

/-- Passes over the semicolons ahead. -/
def semicolons : Parser Unit := do
  let _ ← many do
    if ← isAt .semi then
      let _ ← advance
      return ([], true)
    else return ([], false)

/-- One statement of a block with the comments before it, or the end of the
block. -/
def blockStep (d : Descent) : Parser (List Node × Bool) := do
  let before ← comments
  if ← atBlockEnd then return (before, false)
  let isReturn ← isAt .kwReturn
  let s ← statement d
  semicolons
  if isReturn then
    let after ← comments
    if ← atBlockEnd then return (before ++ [s] ++ after, false)
    else unexpected .endOfBlock
  else
    return (before ++ [s], true)

/-- The statements and comments up to the end of the block. -/
def blockItems (d : Descent) : Parser (List Node) := many (blockStep d)

/-- A block; without items it stands where the last token ended. -/
def block (d : Descent) : Parser Node := do
  let position := (← get).lastEnd
  let items ← blockItems d
  finishAt position (.aux .block) items

/-- A whole source. -/
def chunk (d : Descent) : Parser Node := do
  let items ← blockItems d
  if (← peek).isSome then unexpected .endOfFile
  else finishAt 0 (.aux .chunk) items

end LuauTidy.Grammar
