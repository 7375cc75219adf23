import LuauTidy.Tree.Basic

/-!
# Rules of the layout

Most nodes are laid out child by child, and what a child becomes depends on
its kind alone.  A rule says it for the children of one form: a child becomes
some strokes, which write a fixed text or the child's own source text or
move the indentation, or it becomes what the layout of its kind gives.  A
child for which the rule has nothing does not belong there.

* `Stroke`, `Piece`, `Rule` — what a child becomes;
* `Rule.localVar`, `Rule.blockStatement`, `Rule.functionBody`, `Rule.var`,
  `Rule.call`, `Rule.field`, `Rule.conditional`, `Rule.interpolation` — the
  rules of the forms;
* `LayoutOptions` — the choices.
-/

namespace LuauTidy

/-- How calls with a single string or table are written. -/
inductive CallParens
  /-- Without parentheses, after a space. -/
  | omit
  /-- With parentheses. -/
  | always
  deriving DecidableEq, Repr

/-- The choices of a layout. -/
structure LayoutOptions where
  callParens : CallParens
  deriving DecidableEq, Repr

/-- The choices made by default. -/
def LayoutOptions.standard : LayoutOptions := ⟨.omit⟩

/-- One thing that is written for a child. -/
inductive Stroke
  /-- A fixed text. -/
  | text (s : String)
  /-- The source text of the child. -/
  | source
  /-- The parameters among the grandchildren. -/
  | parameters
  /-- The indentation of a new line. -/
  | tabs
  /-- Further lines are indented more. -/
  | deeper
  /-- Further lines are indented less. -/
  | shallower
  deriving DecidableEq, Repr

/-- What a child becomes. -/
inductive Piece
  | strokes (l : List Stroke)
  | expression
  | arguments
  | block
  | interpolated
  deriving DecidableEq, Repr

/-- What a child becomes by its kind; the flag tells the first child. -/
abbrev Rule := (first : Bool) → Kind → Option Piece

namespace Rule

/-- A fixed text. -/
def fixed (s : String) : Option Piece := some (.strokes [.text s])

/-- The source text. -/
def verbatim : Option Piece := some (.strokes [.source])

/-- Declarations of local variables. -/
def localVar : Rule
  | _, .token .kwLocal => fixed "local "
  | _, .token .comma => fixed ", "
  | _, .token .assign => fixed " = "
  | _, .aux .binding => verbatim
  | _, .expr _ => some .expression
  | _, _ => none

/-- Statements of keywords and blocks.  A keyword that opens a block ends its
line and indents the lines after it; one that closes a block takes the
indentation back before its own line. -/
def blockStatement : Rule
  | _, .token .kwIf => some (.strokes [.tabs, .source, .text " "])
  | _, .token .kwWhile => some (.strokes [.tabs, .source, .text " "])
  | _, .token .kwFor => some (.strokes [.tabs, .source, .text " "])
  | _, .token .kwRepeat => some (.strokes [.tabs, .text "repeat\n", .deeper])
  | true, .token .kwDo => some (.strokes [.tabs, .text "do\n", .deeper])
  | false, .token .kwDo => some (.strokes [.text " do\n", .deeper])
  | _, .token .kwThen => some (.strokes [.text " then\n", .deeper])
  | _, .token .kwElseif => some (.strokes [.shallower, .tabs, .text "elseif "])
  | _, .token .kwElse => some (.strokes [.shallower, .tabs, .text "else\n", .deeper])
  | _, .token .kwEnd => some (.strokes [.shallower, .tabs, .text "end\n"])
  | _, .token .kwUntil => some (.strokes [.shallower, .tabs, .text "until "])
  | _, .token .assign => fixed " = "
  | _, .token .comma => fixed ", "
  | _, .token .kwIn => fixed " in "
  | _, .aux .binding => verbatim
  | _, .aux .block => some .block
  | _, .expr _ => some .expression
  | _, _ => none

/-- The parameters, the block and the end of a function. -/
def functionBody : Rule
  | _, .token .lparen => fixed "("
  | _, .aux .paramList => some (.strokes [.parameters])
  | _, .token .rparen => some (.strokes [.text ")\n", .deeper])
  | _, .aux .block => some .block
  | _, .token .kwEnd => some (.strokes [.shallower, .tabs, .text "end"])
  | _, _ => none

/-- Names, accesses and indices. -/
def var : Rule
  | _, .token .name => verbatim
  | _, .token .dot => fixed "."
  | _, .token .lbracket => fixed "["
  | _, .token .rbracket => fixed "]"
  | _, .expr _ => some .expression
  | _, _ => none

/-- Calls, of functions and of methods. -/
def call : Rule
  | _, .expr _ => some .expression
  | _, .token .colon => fixed ":"
  | _, .token .name => verbatim
  | _, .aux .argList => some .arguments
  | _, _ => none

/-- Fields of a table. -/
def field : Rule
  | _, .token .name => verbatim
  | _, .token .assign => fixed " = "
  | _, .token .lbracket => fixed "["
  | _, .token .rbracket => fixed "]"
  | _, .expr _ => some .expression
  | _, _ => none

/-- Conditional expressions. -/
def conditional : Rule
  | _, .token .kwIf => fixed "if "
  | _, .token .kwThen => fixed " then "
  | _, .token .kwElseif => fixed " elseif "
  | _, .token .kwElse => fixed " else "
  | _, .expr _ => some .expression
  | _, _ => none

/-- Interpolated strings. -/
def interpolation : Rule
  | _, .token .interpStart => fixed "`"
  | _, .token .interpEnd => fixed "`"
  | _, .token .interpContent => verbatim
  | _, .aux .interpExpr => some .interpolated
  | _, _ => none

end Rule

end LuauTidy
