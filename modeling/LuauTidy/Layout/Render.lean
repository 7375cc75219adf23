import LuauTidy.Grammar.Parse
import LuauTidy.Layout.Page
import LuauTidy.Layout.Rules
import LuauTidy.Outcome
import LuauTidy.StringLiteral

/-!
# Rendering

The layout walks a tree and writes it on a page: one statement a line,
indented by tabs, single spaces around operators, strings with the quotes
that need the fewest escapes, and a table on one line only if it has at most
one field, no comment, and no line break.  Comments keep their text; one that
shares a line with what stands before it in the source stays on that line.

Whether a table fits on one line is tried: it is written so, and taken back
if it did break.

* `Layout.expr`, `Layout.statement`, `Layout.statements` — the walk;
* `SyntaxTree.format` — a tree laid out;
* `format` — a source laid out.
-/

namespace LuauTidy

/-- What the walk refers to: the source and the choices. -/
structure Setting where
  source : Text
  options : LayoutOptions
  deriving Repr

namespace Layout

/-- Stops with a fault. -/
def broken (cause : Fault) : Layout α := throw cause

/-- The fault of a child that does not belong into a node. -/
def noRule (parent child : Node) : Fault := .noRule child.kind parent.kind child.start

/-- A part of the source. -/
def sourceText (s : Setting) (start stop : Nat) : Layout Text :=
  match s.source.slice? start stop with
  | some part => pure part
  | none => broken .outOfRange

/-- Writes the source text of a node. -/
def copy (s : Setting) (n : Node) : Layout Unit := do put (← sourceText s n.start n.stop)

/-- Writes the source texts of nodes, one after the other. -/
def copyAll (s : Setting) : List Node → Layout Unit
  | [] => pure ()
  | n :: rest => do
    copy s n
    copyAll s rest

/-- Writes parameters with commas between them. -/
def copyParameters (s : Setting) (first : Bool) : List Node → Layout Unit
  | [] => pure ()
  | n :: rest =>
    if n.isToken .comma then copyParameters s first rest
    else do
      if !first then write ", "
      copy s n
      copyParameters s false rest

/-- No line break lies between two offsets. -/
def sameLine (s : Setting) (start stop : Nat) : Layout Bool := do
  return !(← sourceText s start stop).contains '\n'

/-- Writes a comment on the line that was written last. -/
def trailingComment (s : Setting) (n : Node) : Layout Unit := do
  rejoinLine
  write " "
  copy s n
  newline

/-- Writes a comment on a line of its own. -/
def ownLineComment (s : Setting) (n : Node) : Layout Unit := do
  tabs
  copy s n
  newline

/-- Carries out a stroke for a child. -/
def stroke (s : Setting) (child : Node) : Stroke → Layout Unit
  | .text t => write t
  | .source => copy s child
  | .parameters => copyParameters s true child.children
  | .tabs => tabs
  | .deeper => deeper
  | .shallower => shallower

/-- Carries out strokes for a child. -/
def strokes (s : Setting) (child : Node) : List Stroke → Layout Unit
  | [] => pure ()
  | one :: rest => do
    stroke s child one
    strokes s child rest

/-- The statement after which a call or assignment stands apart. -/
def setsApart : Option StmtKind → StmtKind → Bool
  | some .localVar, .call | some .localVar, .assign | some .localVar, .compoundAssign => true
  | _, _ => false

/-- A blank line goes before a statement: before a comment that follows a
statement, and before a call or assignment that follows declarations. -/
def needsBlankLine (previous lineKind : Option StmtKind) (kind : StmtKind) : Bool :=
  (kind == .comment && previous.any (· != .comment)) || setsApart lineKind kind

/-- An operand before which a minus would begin a comment. -/
def startsWithMinus (operand : Node) : Bool :=
  operand.kind == .expr .unary && (operand.child? 0).any (·.isToken .minus)

/-- Some field list can be on one line: it has one field at most and no comment. -/
def mayBeInline (fields : List Node) : Bool :=
  fields.countP (·.kind == .aux .field) ≤ 1 && !fields.any (·.kind == .stmt .comment)

/-- The arguments of a call that may go without parentheses. -/
def isSugar : List Node → Bool
  | [only] => only.kind == .expr .string || only.kind == .expr .table
  | _ => false

mutual

/-- Writes an expression. -/
def expr (s : Setting) : Node → Layout Unit
  | n@⟨_, kind, start, stop, children⟩ =>
    match kind with
    | .expr .nil | .expr .true | .expr .false | .expr .number | .expr .vararg => copy s n
    | .expr .string => do
      let literal ← sourceText s start stop
      match normalizeQuotes literal with
      | .ok t => put t
      | .error f => broken f
    | .expr .interpolation => sequence s Rule.interpolation n true none children
    | .expr .table => table s children
    | .expr .function => anonymousFunction s n children
    | .expr .var => sequence s Rule.var n true none children
    | .expr .call => sequence s Rule.call n true none children
    | .expr .parens => parens s n children
    | .expr .binary => infixed s n children
    | .expr .unary => prefixed s n children
    | .expr .conditional => sequence s Rule.conditional n true none children
    | _ => broken (.notAnExpression kind start)
termination_by structural node => node

/-- Writes a function without a name. -/
def anonymousFunction (s : Setting) (parent : Node) : List Node → Layout Unit
  | _ :: body :: _ => do
    write "function"
    functionBody s body
  | _ => broken (parent.missing 1)
termination_by structural node => node

/-- Writes an expression in parentheses. -/
def parens (s : Setting) (parent : Node) : List Node → Layout Unit
  | _ :: inside :: _ => do
    write "("
    expr s inside
    write ")"
  | _ => broken (parent.missing 1)
termination_by structural node => node

/-- Writes an operator before an expression. -/
def prefixed (s : Setting) (parent : Node) : List Node → Layout Unit
  | [] => broken (parent.missing 0)
  | [_] => broken (parent.missing 1)
  | op :: operand :: _ => do
    match op.kind with
    | .token .kwNot => write "not "
    | .token .hash => write "#"
    | .token .minus => write (if startsWithMinus operand then "- " else "-")
    | _ => broken (noRule parent op)
    expr s operand
termination_by structural node => node

/-- Writes an operator between two expressions. -/
def infixed (s : Setting) (parent : Node) : List Node → Layout Unit
  | left :: op :: right :: _ => do
    expr s left
    write " "
    copy s op
    write " "
    expr s right
  | [left, op] => do
    expr s left
    copy s op
    broken (parent.missing 2)
  | [left] => do
    expr s left
    broken (parent.missing 1)
  | [] => broken (parent.missing 0)
termination_by structural node => node

/-- Writes the children of a node by a rule.  `previous` is where the child
before them ended. -/
def sequence (s : Setting) (rule : Rule) (parent : Node) (first : Bool) (previous : Option Nat) :
    List Node → Layout Unit
  | [] => pure ()
  | child :: rest => do
    match rule first child.kind with
    | none => broken (noRule parent child)
    | some (.strokes l) => strokes s child l
    | some .expression => expr s child
    | some .arguments => arguments s child
    | some .block => block s previous child
    | some .interpolated => interpolated s child
    sequence s rule parent false (some child.stop) rest
termination_by structural node => node

/-- Writes the expressions among nodes with commas between them. -/
def commaSeparated (s : Setting) (first : Bool) : List Node → Layout Unit
  | [] => pure ()
  | n :: rest =>
    if n.isExpr then do
      if !first then write ", "
      expr s n
      commaSeparated s false rest
    else commaSeparated s first rest
termination_by structural node => node

/-- Writes the expressions among the children of a node. -/
def expressionsIn (s : Setting) : Node → Layout Unit
  | ⟨_, _, _, _, children⟩ => commaSeparated s true children
termination_by structural node => node

/-- Writes the arguments of a call. -/
def arguments (s : Setting) : Node → Layout Unit
  | ⟨_, _, _, _, children⟩ => do
    if isSugar (children.filter (·.isExpr)) && s.options.callParens == .omit then
      write " "
      commaSeparated s true children
    else
      write "("
      commaSeparated s true children
      write ")"
termination_by structural node => node

/-- Writes a piece of code in an interpolated string.  Two braces in a row
are kept apart. -/
def interpolated (s : Setting) : Node → Layout Unit
  | ⟨_, _, _, _, _ :: value :: _⟩ => do
    write "\x7b"
    let mark := (← get).length
    expr s value
    if ((← get).since mark).head? == some '{' then modify fun p => p.insert mark ' '
    if (← get).endsWith '}' then write " "
    write "\x7d"
  | n => broken (n.missing 1)
termination_by structural node => node

/-- Writes the parameters, the block and the end of a function. -/
def functionBody (s : Setting) : Node → Layout Unit
  | n@⟨_, _, _, _, children⟩ => sequence s Rule.functionBody n true none children
termination_by structural node => node

/-- Writes a table, whose fields are in the first field list among its children. -/
def table (s : Setting) : List Node → Layout Unit
  | [] => write "\x7b\x7d"
  | n :: rest => if n.kind == .aux .fieldList then fieldList s n else table s rest
termination_by structural node => node

/-- Writes the fields of a table in their braces: on one line if that is
possible, else each on its line. -/
def fieldList (s : Setting) : Node → Layout Unit
  | n@⟨_, _, _, _, children⟩ => do
    let mark := (← get).length
    if mayBeInline children then
      write "\x7b"
      firstField s children
      write "\x7d"
    if !mayBeInline children || ((← get).since mark).contains '\n' then
      modify fun p => p.truncate mark
      write "\x7b\n"
      deeper
      fieldLine s n none children
      shallower
      tabs
      write "\x7d"
termination_by structural node => node

/-- Writes the first field among nodes. -/
def firstField (s : Setting) : List Node → Layout Unit
  | [] => pure ()
  | n :: rest => if n.kind == .aux .field then field s n else firstField s rest
termination_by structural node => node

/-- Writes the items of a field list, each on its line.  `previous` is where
the item before them ended. -/
def fieldLine (s : Setting) (parent : Node) (previous : Option Nat) : List Node → Layout Unit
  | [] => pure ()
  | n :: rest => do
    match n.kind with
    | .aux .field =>
      tabs
      field s n
      write ",\n"
    | .token .comma | .token .semi => pure ()
    | .stmt .comment =>
      let trailing ← match previous with
        | some stop => sameLine s stop n.start
        | none => pure false
      if trailing then trailingComment s n else ownLineComment s n
    | _ => broken (noRule parent n)
    fieldLine s parent (some n.stop) rest
termination_by structural node => node

/-- Writes a field of a table. -/
def field (s : Setting) : Node → Layout Unit
  | n@⟨_, _, _, _, children⟩ => sequence s Rule.field n true none children
termination_by structural node => node

/-- Writes the statements of a block.  `opener` is where the token that opens
the block ends. -/
def block (s : Setting) (opener : Option Nat) : Node → Layout Unit
  | n@⟨_, _, _, _, children⟩ => statements s n opener none none children
termination_by structural node => node

/-- Writes statements.  `lineEnd` is where the statement before them ended, or
what opens the block; `previous` is the kind of that statement, and
`lineKind` the kind of the last one that started a line. -/
def statements (s : Setting) (parent : Node) (lineEnd : Option Nat)
    (previous lineKind : Option StmtKind) : List Node → Layout Unit
  | [] => pure ()
  | n :: rest =>
    match n.kind with
    | .stmt kind => do
      let trailing ← match lineEnd with
        | some stop => if kind == .comment then sameLine s stop n.start else pure false
        | none => pure false
      if trailing then
        trailingComment s n
        statements s parent (some n.stop) (some kind) lineKind rest
      else
        if needsBlankLine previous lineKind kind then newline
        statement s n
        statements s parent (some n.stop) (some kind) (some kind) rest
    | _ => broken (noRule parent n)
termination_by structural node => node

/-- Writes a local function. -/
def localFunction (s : Setting) (parent : Node) : List Node → Layout Unit
  | _ :: _ :: name :: body :: _ => do
    write "local function "
    copy s name
    functionBody s body
  | [_, _, name] => do
    copy s name
    broken (parent.missing 3)
  | _ => broken (parent.missing 2)
termination_by structural node => node

/-- Writes a function with its name. -/
def namedFunction (s : Setting) (parent : Node) : List Node → Layout Unit
  | _ :: name :: body :: _ => do
    write "function "
    copyAll s name.children
    functionBody s body
  | [_, name] => do
    copyAll s name.children
    broken (parent.missing 2)
  | _ => broken (parent.missing 1)
termination_by structural node => node

/-- Writes an assignment. -/
def assignment (s : Setting) (parent : Node) : List Node → Layout Unit
  | targets :: _ :: values :: _ => do
    expressionsIn s targets
    write " = "
    expressionsIn s values
  | targets :: _ => do
    expressionsIn s targets
    broken (parent.missing 2)
  | [] => broken (parent.missing 0)
termination_by structural node => node

/-- Writes a statement on lines of its own. -/
def statement (s : Setting) : Node → Layout Unit
  | n@⟨_, kind, _, _, children⟩ =>
    match kind with
    | .stmt .localVar => do
      tabs
      sequence s Rule.localVar n true none children
      newline
    | .stmt .localFn => do
      tabs
      localFunction s n children
      newline
    | .stmt .fn => do
      tabs
      namedFunction s n children
      newline
    | .stmt .assign => do
      tabs
      assignment s n children
      newline
    | .stmt .compoundAssign => do
      tabs
      infixed s n children
      newline
    | .stmt .call => do
      tabs
      sequence s Rule.call n true none children
      newline
    | .stmt .returnStmt => do
      tabs
      write "return"
      if children.length > 1 then
        write " "
        commaSeparated s true children
      newline
    | .stmt .breakStmt => do
      tabs
      write "break\n"
    | .stmt .continueStmt => do
      tabs
      write "continue\n"
    | .stmt .comment => ownLineComment s n
    | _ => do
      sequence s Rule.blockStatement n true none children
      endLine
termination_by structural node => node

end

end Layout

/-- A tree laid out.  A tree with a diagnostic or a stray comment leaves its
source as it is. -/
def SyntaxTree.format (t : SyntaxTree) (options : LayoutOptions) : Except Fault Outcome :=
  if t.hasError then .ok (.untouched .parseError t.source)
  else if !t.strayComments.isEmpty then .ok (.untouched .strayComment t.source)
  else do
    let opener := t.rootVisit.previous.map Node.stop
    let ((), page) ← (Layout.block ⟨t.source, options⟩ opener t.root).run Page.blank
    return .produced page.text.withSingleTrailingNewline

/-- A source laid out. -/
def format (source : Text) (options : LayoutOptions) : Except Fault Outcome := do
  (← parse source).format options

end LuauTidy
