import LuauTidy.Layout.Render

/-!
# The layout with a journal

What a page looks like in the middle of a walk is no part of the result.  So
the walk is told once more, step by step, and keeps a journal on the way: of
every statement that starts a line, with the page before and behind it and with
the nodes around it, and of every tab that is taken back from the indentation.  The
walk hands the nodes around down, and marks the table that it breaks; they are not
read off the page.  Nothing that is written depends on the journal.

* `Enclosure.levels` — how many blocks and broken tables are around;
* `Node.Encloses` — what is around a node, up to a root;
* `Note` — an entry of a journal;
* `Journaled` — steps that write on a page and keep a journal;
* `Journaled.block`, `statement`, `expr`, … — the walk.
-/

namespace LuauTidy

/-- What is around a node. -/
inductive Enclosure
  /-- A node that it is below. -/
  | node (n : Node)
  /-- The fields of a table that is broken. -/
  | brokenTable (fields : Node)

/-- The blocks and broken tables among what is around. -/
def Enclosure.levels : List Enclosure → Nat
  | [] => 0
  | .node n :: around => if n.kind == .aux .block then levels around + 1 else levels around
  | .brokenTable _ :: around => levels around + 1

theorem Enclosure.levels_node {n : Node} {around : List Enclosure} (h : n.kind ≠ .aux .block) :
    levels (.node n :: around) = levels around := by
  simp [levels, h]

theorem Enclosure.levels_block {n : Node} {around : List Enclosure} (h : n.kind = .aux .block) :
    levels (.node n :: around) = levels around + 1 := by
  simp [levels, h]

/-- A root and all that is around a node below it, from its parent on. -/
inductive Node.Encloses (root : Node) : List Enclosure → Node → Prop
  | root : root.Encloses [] root
  | child {around : List Enclosure} {n c : Node} (h : root.Encloses around n)
    (hc : c ∈ n.children) : root.Encloses (.node n :: around) c
  | field {around : List Enclosure} {n c : Node} (h : root.Encloses around n)
    (hkind : n.kind = .aux .fieldList) (hc : c ∈ n.children) :
    root.Encloses (.brokenTable n :: around) c

/-- What a journal keeps of a layout. -/
inductive Note
  /-- A statement of a block that started a line, with what is around it. -/
  | statement (node : Node) (around : List Enclosure) (before after : Page)
  /-- The indentation was this before a tab was taken back. -/
  | dedent (indent : Nat)

/-- A step that writes on a page and keeps a journal. -/
abbrev Journaled := StateT (List Note) Layout

namespace Journaled

open Layout (broken noRule sourceText copy copyAll sameLine trailingComment ownLineComment
  needsBlankLine startsWithMinus mayBeInline isSugar write put newline tabs deeper endLine)

/-- Puts a note at the end of the journal. -/
def note (n : Note) : Journaled Unit := modify (· ++ [n])

/-- The page. -/
def page : Journaled Page := liftM (get : Layout Page)

/-- Indents further lines by one tab less, and keeps a note of it. -/
def shallower : Journaled Unit := do
  note (.dedent (← page).indent)
  Layout.shallower

/-- Carries out a step on lines of its own, and keeps a note of it. -/
def ownLines (n : Node) (around : List Enclosure) (step : Journaled Unit) : Journaled Unit := do
  let before ← page
  step
  note (.statement n around before (← page))

/-- Carries out a stroke for a child. -/
def stroke (s : Setting) (child : Node) : Stroke → Journaled Unit
  | .shallower => shallower
  | one => Layout.stroke s child one

/-- Carries out strokes for a child. -/
def strokes (s : Setting) (child : Node) : List Stroke → Journaled Unit
  | [] => pure ()
  | one :: rest => do
    stroke s child one
    strokes s child rest

mutual

/-- Writes an expression, with what is around it. -/
def expr (s : Setting) (around : List Enclosure) : Node → Journaled Unit
  | n@⟨_, kind, _, _, children⟩ =>
    match kind with
    | .expr .interpolation => sequence s (.node n :: around) Rule.interpolation n true none children
    | .expr .table => table s (.node n :: around) children
    | .expr .function => anonymousFunction s (.node n :: around) n children
    | .expr .var => sequence s (.node n :: around) Rule.var n true none children
    | .expr .call => sequence s (.node n :: around) Rule.call n true none children
    | .expr .parens => parens s (.node n :: around) n children
    | .expr .binary => infixed s (.node n :: around) n children
    | .expr .unary => prefixed s (.node n :: around) n children
    | .expr .conditional => sequence s (.node n :: around) Rule.conditional n true none children
    | _ => Layout.expr s n
termination_by structural node => node

/-- Writes a function without a name. -/
def anonymousFunction (s : Setting) (around : List Enclosure) (parent : Node) :
    List Node → Journaled Unit
  | _ :: body :: _ => do
    write "function"
    functionBody s around body
  | _ => broken (parent.missing 1)
termination_by structural node => node

/-- Writes an expression in parentheses. -/
def parens (s : Setting) (around : List Enclosure) (parent : Node) : List Node → Journaled Unit
  | _ :: inside :: _ => do
    write "("
    expr s around inside
    write ")"
  | _ => broken (parent.missing 1)
termination_by structural node => node

/-- Writes an operator before an expression. -/
def prefixed (s : Setting) (around : List Enclosure) (parent : Node) : List Node → Journaled Unit
  | [] => broken (parent.missing 0)
  | [_] => broken (parent.missing 1)
  | op :: operand :: _ => do
    match op.kind with
    | .token .kwNot => write "not "
    | .token .hash => write "#"
    | .token .minus => write (if startsWithMinus operand then "- " else "-")
    | _ => broken (noRule parent op)
    expr s around operand
termination_by structural node => node

/-- Writes an operator between two expressions. -/
def infixed (s : Setting) (around : List Enclosure) (parent : Node) : List Node → Journaled Unit
  | left :: op :: right :: _ => do
    expr s around left
    write " "
    copy s op
    write " "
    expr s around right
  | [left, op] => do
    expr s around left
    copy s op
    broken (parent.missing 2)
  | [left] => do
    expr s around left
    broken (parent.missing 1)
  | [] => broken (parent.missing 0)
termination_by structural node => node

/-- Writes the children of a node by a rule. -/
def sequence (s : Setting) (around : List Enclosure) (rule : Rule) (parent : Node) (first : Bool)
    (previous : Option Nat) : List Node → Journaled Unit
  | [] => pure ()
  | child :: rest => do
    match rule first child.kind with
    | none => broken (noRule parent child)
    | some (.strokes l) => strokes s child l
    | some .expression => expr s around child
    | some .arguments => arguments s around child
    | some .block => block s around previous child
    | some .interpolated => interpolated s around child
    sequence s around rule parent false (some child.stop) rest
termination_by structural node => node

/-- Writes the expressions among nodes with commas between them. -/
def commaSeparated (s : Setting) (around : List Enclosure) (first : Bool) :
    List Node → Journaled Unit
  | [] => pure ()
  | n :: rest =>
    if n.isExpr then do
      if !first then write ", "
      expr s around n
      commaSeparated s around false rest
    else commaSeparated s around first rest
termination_by structural node => node

/-- Writes the expressions among the children of a node. -/
def expressionsIn (s : Setting) (around : List Enclosure) : Node → Journaled Unit
  | n@⟨_, _, _, _, children⟩ => commaSeparated s (.node n :: around) true children
termination_by structural node => node

/-- Writes the arguments of a call. -/
def arguments (s : Setting) (around : List Enclosure) : Node → Journaled Unit
  | n@⟨_, _, _, _, children⟩ => do
    if isSugar (children.filter (·.isExpr)) && s.options.callParens == .omit then
      write " "
      commaSeparated s (.node n :: around) true children
    else
      write "("
      commaSeparated s (.node n :: around) true children
      write ")"
termination_by structural node => node

/-- Writes a piece of code in an interpolated string. -/
def interpolated (s : Setting) (around : List Enclosure) : Node → Journaled Unit
  | n@⟨_, _, _, _, _ :: value :: _⟩ => do
    write "\x7b"
    let mark := (← page).length
    expr s (.node n :: around) value
    if ((← page).since mark).head? == some '{' then
      (modify fun p => p.insert mark ' ' : Layout Unit)
    if (← page).endsWith '}' then write " "
    write "\x7d"
  | n => broken (n.missing 1)
termination_by structural node => node

/-- Writes the parameters, the block and the end of a function. -/
def functionBody (s : Setting) (around : List Enclosure) : Node → Journaled Unit
  | n@⟨_, _, _, _, children⟩ =>
    sequence s (.node n :: around) Rule.functionBody n true none children
termination_by structural node => node

/-- Writes a table, whose fields are in the first field list among its children. -/
def table (s : Setting) (around : List Enclosure) : List Node → Journaled Unit
  | [] => write "\x7b\x7d"
  | n :: rest => if n.kind == .aux .fieldList then fieldList s around n else table s around rest
termination_by structural node => node

/-- Writes the fields of a table in their braces: on one line if that is
possible, else the table is broken and each field is on its line. -/
def fieldList (s : Setting) (around : List Enclosure) : Node → Journaled Unit
  | n@⟨_, _, _, _, children⟩ => do
    let mark := (← page).length
    if mayBeInline children then
      write "\x7b"
      firstField s (.node n :: around) children
      write "\x7d"
    if !mayBeInline children || ((← page).since mark).contains '\n' then
      (modify fun p => p.truncate mark : Layout Unit)
      write "\x7b\n"
      deeper
      fieldLine s (.brokenTable n :: around) n none children
      shallower
      tabs
      write "\x7d"
termination_by structural node => node

/-- Writes the first field among nodes. -/
def firstField (s : Setting) (around : List Enclosure) : List Node → Journaled Unit
  | [] => pure ()
  | n :: rest => if n.kind == .aux .field then field s around n else firstField s around rest
termination_by structural node => node

/-- Writes the items of a field list, each on its line. -/
def fieldLine (s : Setting) (around : List Enclosure) (parent : Node) (previous : Option Nat) :
    List Node → Journaled Unit
  | [] => pure ()
  | n :: rest => do
    match n.kind with
    | .aux .field =>
      tabs
      field s around n
      write ",\n"
    | .token .comma | .token .semi => pure ()
    | .stmt .comment =>
      let trailing ← match previous with
        | some stop => liftM (sameLine s stop n.start)
        | none => pure false
      if trailing then trailingComment s n else ownLineComment s n
    | _ => broken (noRule parent n)
    fieldLine s around parent (some n.stop) rest
termination_by structural node => node

/-- Writes a field of a table. -/
def field (s : Setting) (around : List Enclosure) : Node → Journaled Unit
  | n@⟨_, _, _, _, children⟩ => sequence s (.node n :: around) Rule.field n true none children
termination_by structural node => node

/-- Writes the statements of a block. -/
def block (s : Setting) (around : List Enclosure) (opener : Option Nat) : Node → Journaled Unit
  | n@⟨_, _, _, _, children⟩ => statements s (.node n :: around) n opener none none children
termination_by structural node => node

/-- Writes statements, with a note of each that starts a line. -/
def statements (s : Setting) (around : List Enclosure) (parent : Node) (lineEnd : Option Nat)
    (previous lineKind : Option StmtKind) : List Node → Journaled Unit
  | [] => pure ()
  | n :: rest =>
    match n.kind with
    | .stmt kind => do
      let trailing ← match lineEnd with
        | some stop => if kind == .comment then liftM (sameLine s stop n.start) else pure false
        | none => pure false
      if trailing then
        trailingComment s n
        statements s around parent (some n.stop) (some kind) lineKind rest
      else
        if needsBlankLine previous lineKind kind then newline
        ownLines n around (statement s around n)
        statements s around parent (some n.stop) (some kind) (some kind) rest
    | _ => broken (noRule parent n)
termination_by structural node => node

/-- Writes a local function. -/
def localFunction (s : Setting) (around : List Enclosure) (parent : Node) :
    List Node → Journaled Unit
  | _ :: _ :: name :: body :: _ => do
    write "local function "
    copy s name
    functionBody s around body
  | [_, _, name] => do
    copy s name
    broken (parent.missing 3)
  | _ => broken (parent.missing 2)
termination_by structural node => node

/-- Writes a function with its name. -/
def namedFunction (s : Setting) (around : List Enclosure) (parent : Node) :
    List Node → Journaled Unit
  | _ :: name :: body :: _ => do
    write "function "
    copyAll s name.children
    functionBody s around body
  | [_, name] => do
    copyAll s name.children
    broken (parent.missing 2)
  | _ => broken (parent.missing 1)
termination_by structural node => node

/-- Writes an assignment. -/
def assignment (s : Setting) (around : List Enclosure) (parent : Node) : List Node → Journaled Unit
  | targets :: _ :: values :: _ => do
    expressionsIn s around targets
    write " = "
    expressionsIn s around values
  | targets :: _ => do
    expressionsIn s around targets
    broken (parent.missing 2)
  | [] => broken (parent.missing 0)
termination_by structural node => node

/-- Writes a statement on lines of its own. -/
def statement (s : Setting) (around : List Enclosure) : Node → Journaled Unit
  | n@⟨_, kind, _, _, children⟩ =>
    match kind with
    | .stmt .localVar => do
      tabs
      sequence s (.node n :: around) Rule.localVar n true none children
      newline
    | .stmt .localFn => do
      tabs
      localFunction s (.node n :: around) n children
      newline
    | .stmt .fn => do
      tabs
      namedFunction s (.node n :: around) n children
      newline
    | .stmt .assign => do
      tabs
      assignment s (.node n :: around) n children
      newline
    | .stmt .compoundAssign => do
      tabs
      infixed s (.node n :: around) n children
      newline
    | .stmt .call => do
      tabs
      sequence s (.node n :: around) Rule.call n true none children
      newline
    | .stmt .returnStmt => do
      tabs
      write "return"
      if children.length > 1 then
        write " "
        commaSeparated s (.node n :: around) true children
      newline
    | .stmt .breakStmt | .stmt .continueStmt | .stmt .comment => Layout.statement s n
    | _ => do
      sequence s (.node n :: around) Rule.blockStatement n true none children
      endLine
termination_by structural node => node

end

end Journaled

end LuauTidy
