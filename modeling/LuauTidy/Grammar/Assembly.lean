import LuauTidy.Grammar.Parse

/-!
# Parsing into a builder

The productions read tokens and make nodes of the nodes that they have read.
A parse that drives a builder does the same in another order: it opens a node
before it reads the children, which then join the open node by themselves, and
it takes a checkpoint where it may find out later that what it has read belongs
into a node.  Here each production works so; it looks ahead as the one of the
grammar does.

The steps of a builder have conditions: a checkpoint has to be of the depth at
which it is used, a node can only be finished while one is open, and a tree can
only be sealed when none is.  A step whose condition does not hold is a fault.

* `Bench`, `Assembler` — what such a parse works on;
* `Assembler.start`, `startAt`, `finish`, `bump`, … — its steps;
* `Assembly.operand`, `Assembly.statement`, … — the productions;
* `assemble` — the tree of a source.
-/

namespace LuauTidy

/-- Where a parse into a builder stands. -/
structure Bench where
  /-- The tokens ahead, comments among them. -/
  rest : List Token
  /-- Where the last token taken ended. -/
  lastEnd : Nat
  builder : Builder

/-- What a parser that makes its nodes itself knows in this place. -/
def Bench.cursor (s : Bench) : Cursor where
  rest := s.rest
  lastEnd := s.lastEnd
  strayComments := s.builder.strayComments
  made := s.builder.arena.length
  sourceEnd := s.builder.text.byteLength

/-- A parser that drives a builder. -/
abbrev Assembler := EStateM Failure Bench

namespace Assembler

/-- Does what a parser does that only looks ahead. -/
def glance (p : Parser α) : Assembler α := fun s =>
  match p.run s.cursor with
  | .ok a _ => .ok a s
  | .error cause _ => .error cause s

/-- A step of the builder. -/
def build (step : Builder → Except Fault (α × Builder)) : Assembler α := fun s =>
  match step s.builder with
  | .ok (a, builder) => .ok a { s with builder }
  | .error cause => .error (.fault cause) s

/-! ### Nodes -/

/-- Opens a node, which stands at a place if it stays empty. -/
def startPlaced (kind : Kind) (place : Nat) : Assembler Unit :=
  build fun b => .ok ((), b.startNode kind place)

/-- Opens a node in front of the next token. -/
def start (kind : Kind) : Assembler Unit := do
  let place ← glance Parser.offset
  startPlaced kind place

/-- The present place among the children of the open node. -/
def checkpoint : Assembler Checkpoint := build fun b => .ok (b.checkpoint, b)

/-- Opens a node around the children made since a checkpoint. -/
def startAt (mark : Checkpoint) (kind : Kind) : Assembler Unit :=
  build fun b => (b.startNodeAt mark kind).map fun b => ((), b)

/-- Finishes the open node. -/
def finish : Assembler Nat := build Builder.finishNode

/-- The kind of a node. -/
def kindOf (id : Nat) : Assembler Kind := build fun b => (b.kindOf id).map fun kind => (kind, b)

/-- Gives a node another kind. -/
def retag (id : Nat) (kind : Kind) : Assembler Unit :=
  build fun b => (b.retag id kind).map fun b => ((), b)

/-! ### Tokens -/

/-- Takes the next token and records the comments before it. -/
def advance : Assembler Token := do
  let s ← get
  let (passed, ahead) := s.rest.span Token.isComment
  match ahead with
  | [] => throw (.fault .noTokenLeft)
  | t :: rest =>
    let builder := passed.foldl (fun b p => b.strayComment p.start p.stop) s.builder
    set { s with rest, lastEnd := t.stop, builder }
    return t

/-- A leaf for a token. -/
def leaf (kind : Kind) (t : Token) : Assembler Nat :=
  build fun b => .ok (b.leaf kind t.start t.stop)

/-- Takes the next token as a leaf of a kind. -/
def bumpAs (kind : Kind) : Assembler Nat := do leaf kind (← advance)

/-- Takes the next token as a leaf of its own kind. -/
def bump : Assembler Nat := do
  let t ← advance
  match t.cls with
  | .token k => leaf (.token k) t
  | .literal k => leaf (.expr k) t
  | .comment => throw (.fault .notALeaf)
  | .error _ => throw (.fault .notALeaf)

/-- The next token is of a kind. -/
def isAt (k : TokenKind) : Assembler Bool := glance (Parser.isAt k)

/-- Stops with a complaint about the next token. -/
def unexpected (what : Expectation) : Assembler α := glance (Parser.unexpected what)

/-- Takes the next token if it is of a kind. -/
def eat (k : TokenKind) : Assembler Bool := do
  if ← isAt k then
    let _ ← bump
    return true
  else return false

/-- Takes the next token, which has to be of a kind. -/
def expect (k : TokenKind) : Assembler Nat := do
  if ← isAt k then bump else unexpected (.token k)

/-- Takes the next token, which has to be a name. -/
def expectName : Assembler Nat := do
  if ← isAt .name then bump else unexpected .name

/-- Takes the comments that stand right ahead as leaves. -/
def comments : Assembler Unit := do
  let s ← get
  let (here, rest) := s.rest.span Token.isComment
  set { s with rest }
  here.forM fun t => discard (leaf (.stmt .comment) t)

/-! ### Repetition -/

/-- Repeats a step that says whether to go on. -/
def manyFrom (step : Assembler Bool) : (bound : Nat) → Assembler Unit
  | 0 => throw (.fault .noProgress)
  | bound + 1 => do
    if ← step then manyFrom step bound

/-- Repeats a step that says whether to go on. -/
def many (step : Assembler Bool) : Assembler Unit := do
  manyFrom step ((← get).rest.length + 1)

/-- Repeats a step that may put the last node into another one, until it
declines. -/
def chainFrom (step : Assembler (Option Nat)) : (bound : Nat) → Nat → Assembler Nat
  | 0, _ => throw (.fault .noProgress)
  | bound + 1, id => do
    match ← step with
    | some around => chainFrom step bound around
    | none => return id

/-- Repeats a step that may put the last node into another one, until it
declines. -/
def chain (step : Assembler (Option Nat)) (id : Nat) : Assembler Nat := do
  chainFrom step ((← get).rest.length + 1) id

/-- Items between separators of a kind. -/
def separatedBy (separator : TokenKind) (item : Assembler Unit) : Assembler Unit := do
  item
  many do
    if ← eat separator then
      item
      return true
    else return false

end Assembler

namespace Assembly

open Assembler

/-- How to read the operands and blocks inside of a production. -/
structure Deeper where
  /-- An expression of operators that bind tighter than a limit. -/
  operand : (limit : Nat) → Assembler Nat
  /-- A block up to the token that closes it. -/
  block : Assembler Unit

/-- An expression of any operators. -/
def Deeper.expr (d : Deeper) : Assembler Unit := discard (d.operand 0)

/-- Expressions between commas. -/
def exprs (d : Deeper) : Assembler Unit := separatedBy .comma d.expr

/-! ### Expressions -/

/-- Parameters: names, and the mark of further ones in the last place. -/
def parameters : Assembler Unit := many do
  match ← glance Parser.peekClass with
  | some (.literal .vararg) =>
    let _ ← bump
    return false
  | _ =>
    let _ ← expectName
    eat .comma

/-- The parameters in parentheses, the block and `end`. -/
def functionBody (d : Deeper) : Assembler Unit := do
  start (.aux .funcBody)
  let _ ← expect .lparen
  if ← isAt .rparen then pure ()
  else
    start (.aux .paramList)
    parameters
    discard finish
  let _ ← expect .rparen
  d.block
  let _ ← expect .kwEnd
  discard finish

/-- A function without a name. -/
def anonymousFunction (d : Deeper) : Assembler Nat := do
  start (.expr .function)
  let _ ← bump
  functionBody d
  finish

/-- A condition with its value. -/
def branch (d : Deeper) : Assembler Unit := do
  d.expr
  let _ ← expect .kwThen
  d.expr

/-- A conditional expression. -/
def conditional (d : Deeper) : Assembler Nat := do
  start (.expr .conditional)
  let _ ← bump
  branch d
  many do
    if ← eat .kwElseif then
      branch d
      return true
    else return false
  let _ ← expect .kwElse
  d.expr
  finish

/-- A field: a bracketed key or a name with a value, or a value alone. -/
def field (d : Deeper) : Assembler Unit := do
  start (.aux .field)
  if ← isAt .lbracket then
    let _ ← bump
    d.expr
    let _ ← expect .rbracket
    let _ ← expect .assign
    d.expr
  else if (← isAt .name) && Parser.kind? (← glance (Parser.nth 1)) == some .assign then
    let _ ← bump
    let _ ← bump
    d.expr
  else d.expr
  discard finish

/-- One field with the comments around it and its separator. -/
def fieldStep (d : Deeper) : Assembler Bool := do
  comments
  if ← isAt .rbrace then return false
  field d
  comments
  if (← isAt .comma) || (← isAt .semi) then
    let _ ← bump
    return true
  else return false

/-- A table. -/
def table (d : Deeper) : Assembler Nat := do
  start (.expr .table)
  let _ ← expect .lbrace
  if ← glance (Parser.isRightAt .rbrace) then pure ()
  else
    start (.aux .fieldList)
    many (fieldStep d)
    discard finish
  let _ ← expect .rbrace
  finish

/-- A piece of an interpolated string. -/
def interpolationStep (d : Deeper) : Assembler Bool := do
  match ← glance Parser.peekKind with
  | some .interpContent =>
    let _ ← bump
    return true
  | some .interpBraceOpen =>
    start (.aux .interpExpr)
    let _ ← bump
    d.expr
    let _ ← expect .interpBraceClose
    let _ ← finish
    return true
  | some .interpEnd =>
    let _ ← bump
    return false
  | _ => unexpected .restOfInterpolation

/-- An interpolated string. -/
def interpolation (d : Deeper) : Assembler Nat := do
  start (.expr .interpolation)
  let _ ← bump
  many (interpolationStep d)
  finish

/-- The arguments of a call: a list in parentheses, a string or a table. -/
def arguments (d : Deeper) : Assembler Unit := do
  start (.aux .argList)
  match ← glance Parser.peekClass with
  | some (.token .lparen) =>
    let _ ← bump
    if ← isAt .rparen then pure () else exprs d
    let _ ← expect .rparen
  | some (.literal .string) => discard bump
  | some (.token .lbrace) => discard (table d)
  | _ => unexpected .callArguments
  discard finish

/-- A name, or an expression in parentheses. -/
def base (d : Deeper) : Assembler Nat := do
  match ← glance Parser.peekKind with
  | some .name =>
    start (.expr .var)
    let _ ← bump
    finish
  | some .lparen =>
    start (.expr .parens)
    let _ ← bump
    d.expr
    let _ ← expect .rparen
    finish
  | _ => unexpected .expression

/-- A field access, index or call of what was read since a checkpoint. -/
def suffix (d : Deeper) (mark : Checkpoint) : Assembler (Option Nat) := do
  match ← glance Parser.peekClass with
  | some (.token .dot) =>
    startAt mark (.expr .var)
    let _ ← bump
    let _ ← expectName
    return some (← finish)
  | some (.token .lbracket) =>
    startAt mark (.expr .var)
    let _ ← bump
    d.expr
    let _ ← expect .rbracket
    return some (← finish)
  | some (.token .colon) =>
    startAt mark (.expr .call)
    let _ ← bump
    let _ ← expectName
    arguments d
    return some (← finish)
  | some (.token .lparen) | some (.token .lbrace) | some (.literal .string) =>
    startAt mark (.expr .call)
    arguments d
    return some (← finish)
  | _ => return none

/-- A name or parenthesis with any number of accesses, indices and calls. -/
def suffixed (d : Deeper) : Assembler Nat := do
  let mark ← checkpoint
  let first ← base d
  chain (suffix d mark) first

/-- An expression without operators. -/
def simple (d : Deeper) : Assembler Nat := do
  match ← glance Parser.peekClass with
  | some (.literal _) => bump
  | some (.token .interpStart) => interpolation d
  | some (.token .lbrace) => table d
  | some (.token .kwFunction) => anonymousFunction d
  | some (.token .kwIf) => conditional d
  | _ => suffixed d

/-- A unary operator with its operand. -/
def unary (d : Deeper) : Assembler Nat := do
  start (.expr .unary)
  let _ ← bump
  let _ ← d.operand unaryPower
  finish

/-- A binary operator that binds tighter than the limit, with what was read
since a checkpoint as its left operand. -/
def binary (d : Deeper) (mark : Checkpoint) (limit : Nat) : Assembler (Option Nat) := do
  match (← glance Parser.peekKind).bind TokenKind.bindingPowers? with
  | none => return none
  | some (leftPower, rightPower) =>
    if leftPower ≤ limit then return none
    startAt mark (.expr .binary)
    let _ ← bump
    let _ ← d.operand rightPower
    return some (← finish)

/-- An expression of operators that bind tighter than the limit. -/
def operand (d : Deeper) (limit : Nat) : Assembler Nat := do
  let mark ← checkpoint
  let first ←
    if ((← glance Parser.peekKind).map TokenKind.isUnary).getD false then unary d else simple d
  chain (binary d mark limit) first

/-! ### Statements -/

/-- A name that is being declared. -/
def binding : Assembler Unit := do
  start (.aux .binding)
  let _ ← expectName
  discard finish

/-- A declaration of local variables, or of a local function. -/
def localStatement (d : Deeper) : Assembler Unit := do
  if Parser.kind? (← glance (Parser.nth 1)) == some .kwFunction then
    start (.stmt .localFn)
    let _ ← bump
    let _ ← bump
    let _ ← expectName
    functionBody d
    discard finish
  else
    start (.stmt .localVar)
    let _ ← bump
    separatedBy .comma binding
    if ← eat .assign then exprs d
    discard finish

/-- The name of a function: names between points, and a method after a colon. -/
def functionName : Assembler Unit := do
  start (.aux .funcName)
  separatedBy .dot (discard expectName)
  if ← eat .colon then discard expectName
  discard finish

/-- A declaration of a function. -/
def functionStatement (d : Deeper) : Assembler Unit := do
  start (.stmt .fn)
  let _ ← bump
  functionName
  functionBody d
  discard finish

/-- A condition with its block. -/
def guardedBlock (d : Deeper) : Assembler Unit := do
  d.expr
  let _ ← expect .kwThen
  d.block

/-- A conditional statement. -/
def ifStatement (d : Deeper) : Assembler Unit := do
  start (.stmt .ifStmt)
  let _ ← bump
  guardedBlock d
  many do
    if ← eat .kwElseif then
      guardedBlock d
      return true
    else return false
  if ← eat .kwElse then d.block
  let _ ← expect .kwEnd
  discard finish

/-- A loop while a condition holds. -/
def whileStatement (d : Deeper) : Assembler Unit := do
  start (.stmt .whileStmt)
  let _ ← bump
  d.expr
  let _ ← expect .kwDo
  d.block
  let _ ← expect .kwEnd
  discard finish

/-- A block as a statement. -/
def doStatement (d : Deeper) : Assembler Unit := do
  start (.stmt .doStmt)
  let _ ← bump
  d.block
  let _ ← expect .kwEnd
  discard finish

/-- A loop until a condition holds. -/
def repeatStatement (d : Deeper) : Assembler Unit := do
  start (.stmt .repeatStmt)
  let _ ← bump
  d.block
  let _ ← expect .kwUntil
  d.expr
  discard finish

/-- The bounds of a numeric loop: from, to, and the step if there is one. -/
def bounds (d : Deeper) : Assembler Unit := do
  let _ ← expect .assign
  d.expr
  let _ ← expect .comma
  d.expr
  if ← eat .comma then d.expr

/-- The further names of a loop over iterators, and the iterators. -/
def iterators (d : Deeper) : Assembler Unit := do
  many do
    if ← eat .comma then
      binding
      return true
    else return false
  let _ ← expect .kwIn
  exprs d

/-- A loop over numbers or iterators; an equals sign after the first name
tells which. -/
def forStatement (d : Deeper) : Assembler Unit := do
  let numeric := Parser.kind? (← glance (Parser.nth 2)) == some .assign
  start (.stmt (if numeric then .forRange else .forIn))
  let _ ← bump
  binding
  if numeric then bounds d else iterators d
  let _ ← expect .kwDo
  d.block
  let _ ← expect .kwEnd
  discard finish

/-- A return with its values. -/
def returnStatement (d : Deeper) : Assembler Unit := do
  start (.stmt .returnStmt)
  let _ ← bump
  if (← glance Grammar.atBlockEnd) || (← isAt .semi) then pure () else exprs d
  discard finish

/-- A variable that is assigned to, after a comma. -/
def assigned (d : Deeper) : Assembler Unit := do
  let place ← glance Parser.offset
  let target ← suffixed d
  let kind ← kindOf target
  if kind == .expr .var then return
  else throw (.wrong .notAssignable place)

/-- An assignment, a compound assignment or a call: they all begin with a
suffixed expression. -/
def exprStatement (d : Deeper) : Assembler Unit := do
  let mark ← checkpoint
  let place ← glance Parser.offset
  let target ← suffixed d
  let kind ← kindOf target
  match ← glance Parser.peekKind with
  | some op =>
    if op == .assign || op == .comma then
      if !(kind == .expr .var) then throw (.wrong .notAssignable place)
      startAt mark (.aux .varList)
      many do
        if ← eat .comma then
          assigned d
          return true
        else return false
      let _ ← finish
      startAt mark (.stmt .assign)
      let _ ← expect .assign
      start (.aux .exprList)
      exprs d
      let _ ← finish
      discard finish
    else if op.isCompoundAssign then
      if !(kind == .expr .var) then throw (.wrong .notAssignable place)
      startAt mark (.stmt .compoundAssign)
      let _ ← bump
      d.expr
      discard finish
    else callStatement place target kind
  | none => callStatement place target kind
where
  /-- A call by itself. -/
  callStatement (place target : Nat) (kind : Kind) : Assembler Unit :=
    if kind == .expr .call then retag target (.stmt .call)
    else throw (.wrong .notAStatement place)

/-- A statement. -/
def statement (d : Deeper) : Assembler Unit := do
  match ← glance Parser.peekKind with
  | some .kwLocal => localStatement d
  | some .kwFunction => functionStatement d
  | some .kwIf => ifStatement d
  | some .kwWhile => whileStatement d
  | some .kwDo => doStatement d
  | some .kwFor => forStatement d
  | some .kwRepeat => repeatStatement d
  | some .kwReturn => returnStatement d
  | some .kwBreak =>
    start (.stmt .breakStmt)
    let _ ← bump
    discard finish
  | _ =>
    if ← glance Grammar.isContinue then
      start (.stmt .continueStmt)
      let _ ← bumpAs (.token .kwContinue)
      discard finish
    else exprStatement d

/-- Passes over the semicolons ahead. -/
def semicolons : Assembler Unit := many do
  if ← isAt .semi then
    let _ ← advance
    return true
  else return false

/-- One statement of a block with the comments before it, or the end of the
block. -/
def blockStep (d : Deeper) : Assembler Bool := do
  comments
  if ← glance Grammar.atBlockEnd then return false
  let isReturn ← isAt .kwReturn
  statement d
  semicolons
  if isReturn then
    comments
    if ← glance Grammar.atBlockEnd then return false
    else unexpected .endOfBlock
  else return true

/-- The statements and comments up to the end of the block. -/
def blockItems (d : Deeper) : Assembler Unit := many (blockStep d)

/-- A block; without items it stands where the last token ended. -/
def block (d : Deeper) : Assembler Unit := do
  startPlaced (.aux .block) (← get).lastEnd
  blockItems d
  discard finish

/-- A whole source. -/
def chunk (d : Deeper) : Assembler Nat := do
  startPlaced (.aux .chunk) 0
  blockItems d
  if (← glance Parser.peek).isSome then unexpected .endOfFile else finish

/-- How to read what lies at most so many levels deep. -/
def Deeper.ofDepth : Nat → Deeper
  | 0 => ⟨fun _ => throw (.fault .noProgress), throw (.fault .noProgress)⟩
  | depth + 1 =>
    let deeper := ofDepth depth
    ⟨Assembly.operand deeper, Assembly.block deeper⟩

end Assembly

/-- The tree of a source, made by a builder. -/
def assemble (source : Text) : Except Fault SyntaxTree :=
  let tokens := tokenize source
  match (Assembly.chunk (.ofDepth tokens.length)).run ⟨tokens, 0, .new source⟩ with
  | .ok root s => s.builder.toTree root
  | .error (.wrong complaint offset) s =>
    .ok (s.builder.abandon (.aux .chunk) ⟨complaint.message, offset⟩)
  | .error (.fault cause) _ => .error cause

end LuauTidy
