/-!
# Kinds of nodes

Every node of a syntax tree has a kind, and every kind belongs to one of four
closed categories: tokens, statements, expressions, and the auxiliary nodes
that group them.  A kind is written by its grammar name.

* `TokenKind`, `StmtKind`, `ExprKind`, `AuxKind` — the categories;
* `Kind` — a kind of any category, with `Kind.name` and `Kind.ofName?`;
* `TokenKind.keyword?` — the reserved words;
* `TokenKind.isCompoundAssign` — the operators that combine and assign.
-/

namespace LuauTidy

/-- Leaves: keywords, punctuation, operators, names and the pieces of an
interpolated string.  Literals are expressions. -/
inductive TokenKind
  | kwAnd | kwBreak | kwContinue | kwDo | kwElse | kwElseif | kwEnd | kwFor | kwFunction
  | kwIf | kwIn | kwLocal | kwNot | kwOr | kwRepeat | kwReturn | kwThen | kwUntil | kwWhile
  | lparen | rparen | lbrace | rbrace | lbracket | rbracket
  | comma | semi | dot | colon | assign
  | plus | minus | star | slash | doubleSlash | percent | caret | concat
  | eq | ne | lt | le | gt | ge | hash
  | plusAssign | minusAssign | starAssign | slashAssign | doubleSlashAssign | percentAssign
  | caretAssign | concatAssign
  | name
  | interpStart | interpContent | interpBraceOpen | interpBraceClose | interpEnd
  deriving DecidableEq, Repr

/-- Statements.  Comments stand between statements, so they are among them. -/
inductive StmtKind
  | localVar | localFn | fn | assign | compoundAssign | call | ifStmt | whileStmt | repeatStmt
  | forRange | forIn | doStmt | returnStmt | breakStmt | continueStmt | comment
  deriving DecidableEq, Repr

/-- Expressions. -/
inductive ExprKind
  | nil | true | false | number | string | interpolation | vararg | table | function | var | call
  | parens | binary | unary | conditional
  deriving DecidableEq, Repr

/-- Nodes that group others and are neither statement nor expression. -/
inductive AuxKind
  | chunk | block | binding | varList | exprList | argList | fieldList | field | paramList
  | funcName | funcBody | interpExpr
  deriving DecidableEq, Repr

/-- The kind of a node. -/
inductive Kind
  | token (kind : TokenKind)
  | stmt (kind : StmtKind)
  | expr (kind : ExprKind)
  | aux (kind : AuxKind)
  deriving DecidableEq, Repr

namespace TokenKind

/-- The grammar name; for keywords and symbols it is their spelling. -/
def grammarName : TokenKind → String
  | .kwAnd => "and" | .kwBreak => "break" | .kwContinue => "continue" | .kwDo => "do"
  | .kwElse => "else" | .kwElseif => "elseif" | .kwEnd => "end" | .kwFor => "for"
  | .kwFunction => "function" | .kwIf => "if" | .kwIn => "in" | .kwLocal => "local"
  | .kwNot => "not" | .kwOr => "or" | .kwRepeat => "repeat" | .kwReturn => "return"
  | .kwThen => "then" | .kwUntil => "until" | .kwWhile => "while"
  | .lparen => "(" | .rparen => ")" | .lbrace => "\x7b" | .rbrace => "\x7d"
  | .lbracket => "[" | .rbracket => "]" | .comma => "," | .semi => ";"
  | .dot => "." | .colon => ":" | .assign => "="
  | .plus => "+" | .minus => "-" | .star => "*" | .slash => "/"
  | .doubleSlash => "//" | .percent => "%" | .caret => "^" | .concat => ".."
  | .eq => "==" | .ne => "~=" | .lt => "<" | .le => "<=" | .gt => ">" | .ge => ">="
  | .hash => "#"
  | .plusAssign => "+=" | .minusAssign => "-=" | .starAssign => "*=" | .slashAssign => "/="
  | .doubleSlashAssign => "//=" | .percentAssign => "%=" | .caretAssign => "^="
  | .concatAssign => "..="
  | .name => "name"
  | .interpStart => "interp_start" | .interpContent => "interp_content"
  | .interpBraceOpen => "interp_brace_open" | .interpBraceClose => "interp_brace_close"
  | .interpEnd => "interp_end"

/-- The words that are always keywords.  `continue` is not one of them: it is
a keyword only where it can be no variable. -/
def keywords : List TokenKind :=
  [.kwAnd, .kwBreak, .kwDo, .kwElse, .kwElseif, .kwEnd, .kwFor, .kwFunction, .kwIf, .kwIn,
   .kwLocal, .kwNot, .kwOr, .kwRepeat, .kwReturn, .kwThen, .kwUntil, .kwWhile]

/-- The symbols.  Each stands before the symbols that it begins with. -/
def symbols : List TokenKind :=
  [.concatAssign, .concat, .dot, .doubleSlashAssign, .doubleSlash, .slashAssign, .slash,
   .eq, .assign, .ne, .le, .lt, .ge, .gt, .plusAssign, .plus, .minusAssign, .minus,
   .starAssign, .star, .percentAssign, .percent, .caretAssign, .caret, .hash,
   .lparen, .rparen, .lbracket, .rbracket, .semi, .colon, .comma]

/-- All token kinds. -/
def all : List TokenKind :=
  keywords ++ symbols ++
    [.kwContinue, .lbrace, .rbrace, .name, .interpStart, .interpContent, .interpBraceOpen,
     .interpBraceClose, .interpEnd]

/-- The keyword that a word is. -/
def keyword? (word : List Char) : Option TokenKind :=
  keywords.find? fun k => k.grammarName.toList == word

/-- An operator such as `+=`, which combines and assigns. -/
def isCompoundAssign : TokenKind → Bool
  | .plusAssign | .minusAssign | .starAssign | .slashAssign | .doubleSlashAssign
  | .percentAssign | .caretAssign | .concatAssign => true
  | _ => false

end TokenKind

/-- The grammar name of a statement. -/
def StmtKind.grammarName : StmtKind → String
  | .localVar => "local_var_stmt" | .localFn => "local_fn_stmt" | .fn => "fn_stmt"
  | .assign => "assign_stmt" | .compoundAssign => "var_stmt" | .call => "call_stmt"
  | .ifStmt => "if_stmt" | .whileStmt => "while_stmt" | .repeatStmt => "repeat_stmt"
  | .forRange => "for_range_stmt" | .forIn => "for_in_stmt" | .doStmt => "do_stmt"
  | .returnStmt => "ret_stmt" | .breakStmt => "break_stmt" | .continueStmt => "continue_stmt"
  | .comment => "comment"

/-- All kinds of statements. -/
def StmtKind.all : List StmtKind :=
  [.localVar, .localFn, .fn, .assign, .compoundAssign, .call, .ifStmt, .whileStmt,
   .repeatStmt, .forRange, .forIn, .doStmt, .returnStmt, .breakStmt, .continueStmt, .comment]

/-- The grammar name of an expression. -/
def ExprKind.grammarName : ExprKind → String
  | .nil => "nil" | .true => "true" | .false => "false" | .number => "number"
  | .string => "string" | .interpolation => "string_interp" | .vararg => "vararg"
  | .table => "table" | .function => "anon_fn" | .var => "var" | .call => "call"
  | .parens => "exp_wrap" | .binary => "binexp" | .unary => "unexp"
  | .conditional => "ifexp"

/-- All kinds of expressions. -/
def ExprKind.all : List ExprKind :=
  [.nil, .true, .false, .number, .string, .interpolation, .vararg, .table, .function, .var,
   .call, .parens, .binary, .unary, .conditional]

/-- The grammar name of an auxiliary node. -/
def AuxKind.grammarName : AuxKind → String
  | .chunk => "chunk" | .block => "block" | .binding => "binding" | .varList => "varlist"
  | .exprList => "explist" | .argList => "arglist" | .fieldList => "fieldlist"
  | .field => "field" | .paramList => "paramlist" | .funcName => "funcname"
  | .funcBody => "funcbody" | .interpExpr => "interp_exp"

/-- All kinds of auxiliary nodes. -/
def AuxKind.all : List AuxKind :=
  [.chunk, .block, .binding, .varList, .exprList, .argList, .fieldList, .field, .paramList,
   .funcName, .funcBody, .interpExpr]

namespace Kind

/-- The grammar name of a kind. -/
def grammarName : Kind → String
  | .token k => k.grammarName
  | .stmt k => k.grammarName
  | .expr k => k.grammarName
  | .aux k => k.grammarName

/-- The name of the category of a kind. -/
def category : Kind → String
  | .token _ => "token"
  | .stmt _ => "stmt"
  | .expr _ => "expr"
  | .aux _ => "aux"

/-- The token kind, of a token. -/
def token? : Kind → Option TokenKind
  | .token k => some k
  | _ => none

/-- The statement kind, of a statement. -/
def stmt? : Kind → Option StmtKind
  | .stmt k => some k
  | _ => none

/-- The expression kind, of an expression. -/
def expr? : Kind → Option ExprKind
  | .expr k => some k
  | _ => none

/-- An expression. -/
def isExpr (k : Kind) : Bool := k.expr?.isSome

/-- All kinds. -/
def all : List Kind :=
  TokenKind.all.map .token ++ StmtKind.all.map .stmt ++ ExprKind.all.map .expr ++
    AuxKind.all.map .aux

/-- The kind of a grammar name. -/
def ofName? (name : String) : Option Kind := all.find? (·.grammarName == name)

end Kind

end LuauTidy
