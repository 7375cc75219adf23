import LuauTidy.Proofs.Turns

/-!
# The layout as a text

The layout writes on a page, and looks at what it has written: it takes newlines
back for comments, it tries a table on one line, and it puts blanks behind braces
that stand on the page already.  Here every node has a text instead, which is put
together from the texts of its children.  A line feed stands before what starts a
line and not behind what ends one, so that nothing has to be taken back, and where
the layout looks at the page, the text of a child is looked at before it is used.

* `Typeset.word` — the source text of a node;
* `Typeset.sign`, `Typeset.keyword` — what tokens become;
* `Typeset.lineStart`, `Typeset.sharesLine` — where lines start;
* `Typeset.node`, `Typeset.block` — the text of a node, and of the statements of a
  block;
* `Kind.isRow`, `Kind.hasClauses` — nodes whose texts are those of their children,
  in a row.
-/

namespace LuauTidy

/-- Nodes whose children stay on their line. -/
def Kind.isRow : Kind → Bool
  | .expr .interpolation | .expr .var | .expr .call | .expr .conditional | .expr .binary
  | .expr .unary | .expr .function | .aux .field | .stmt .localVar | .stmt .localFn | .stmt .fn
  | .stmt .assign | .stmt .compoundAssign | .stmt .call => true
  | _ => false

/-- Nodes with blocks among their children. -/
def Kind.hasClauses (k : Kind) : Bool := k.startsLine || k == .aux .funcBody

theorem Kind.ne_token_of_isExpr {k : Kind} (h : k.isExpr) (t : TokenKind) : k ≠ .token t := by
  rintro rfl
  cases h

theorem Kind.ne_aux_of_isExpr {k : Kind} (h : k.isExpr) (a : AuxKind) : k ≠ .aux a := by
  rintro rfl
  cases h

namespace Typeset

open Layout (needsBlankLine startsWithMinus mayBeInline isSugar)

/-- The source text of a node. -/
def word (s : Setting) (n : Node) : Text := (s.source.slice? n.start n.stop).getD []

/-- A line feed with the indentation behind it. -/
def lineStart (d : Nat) : Text := '\n' :: List.replicate d '\t'

/-- No line feed lies between the end of what comes before, if anything does, and
a node. -/
def sharesLine (s : Setting) (stop : Option Nat) (n : Node) : Bool :=
  stop.any fun stop => !((s.source.slice? stop n.start).getD []).contains '\n'

/-- Parameters with commas between them. -/
def parameters (s : Setting) (first : Bool) : List Node → Text
  | [] => []
  | n :: rest =>
    if n.isToken .comma then parameters s first rest
    else (if first then [] else ", ".toList) ++ word s n ++ parameters s false rest

/-- What a rule makes of a token. -/
def ruled (s : Setting) (rule : Rule) (first : Bool) (n : Node) : Text :=
  match rule first n.kind with
  | some (.strokes l) => l.flatMap fun
    | .text t => t.toList
    | .source => word s n
    | _ => []
  | _ => []

/-- What a token becomes among the children of a node that stays on its line;
`rest` are the siblings behind it. -/
def sign (s : Setting) (parent : Kind) (first : Bool) (n : Node) (rest : List Node) : Text :=
  match parent with
  | .expr .unary =>
    match n.kind with
    | .token .kwNot => "not ".toList
    | .token .hash => "#".toList
    | _ => if rest.any startsWithMinus then "- ".toList else "-".toList
  | .expr .binary | .stmt .compoundAssign => " ".toList ++ word s n ++ " ".toList
  | .expr .function => "function".toList
  | .stmt .fn => "function ".toList
  | .stmt .localFn =>
    match n.kind with
    | .token .kwLocal => "local ".toList
    | .token .kwFunction => "function ".toList
    | _ => word s n
  | .stmt .assign => " = ".toList
  | _ =>
    match parent.rule? with
    | some rule => ruled s rule first n
    | none => []

/-- What a token becomes among the children of a node with blocks.  One that
closes a block starts a line. -/
def keyword (s : Setting) (d : Nat) (first : Bool) (n : Node) : Text :=
  match n.kind with
  | .token .kwIf | .token .kwWhile | .token .kwFor => word s n ++ " ".toList
  | .token .kwRepeat => "repeat".toList
  | .token .kwDo => if first then "do".toList else " do".toList
  | .token .kwThen => " then".toList
  | .token .kwElseif => lineStart d ++ "elseif ".toList
  | .token .kwElse => lineStart d ++ "else".toList
  | .token .kwEnd => lineStart d ++ "end".toList
  | .token .kwUntil => lineStart d ++ "until ".toList
  | .token .assign => " = ".toList
  | .token .comma => ", ".toList
  | .token .kwIn => " in ".toList
  | .token .lparen => "(".toList
  | .token .rparen => ")".toList
  | _ => []

/-- A value between the braces of an interpolated string.  Two braces in a row are
kept apart. -/
def braced (value : Text) : Text :=
  "\x7b".toList ++ (if value.head? = some '{' then " ".toList else []) ++ value ++
    (if value.getLast? = some '}' then " ".toList else []) ++ "\x7d".toList

mutual

/-- The text of a node, whose lines are indented by so many tabs.  A statement has
none before its first line. -/
def node (s : Setting) (d : Nat) : Node → Text
  | n@⟨_, kind, _, _, children⟩ =>
    match kind with
    | .expr .string => (normalizeQuotes (word s n)).toOption.getD []
    | .expr .table => table s d children
    | .expr .parens => "(".toList ++ series s d true children ++ ")".toList
    | .expr .interpolation | .expr .var | .expr .call | .expr .conditional | .expr .binary
    | .expr .unary | .expr .function | .aux .field | .stmt .localVar | .stmt .localFn | .stmt .fn
    | .stmt .assign | .stmt .compoundAssign | .stmt .call => row s d kind true children
    | .aux .varList | .aux .exprList => series s d true children
    | .aux .argList =>
      if isSugar (children.filter (·.isExpr)) && s.options.callParens == .omit then
        " ".toList ++ series s d true children
      else "(".toList ++ series s d true children ++ ")".toList
    | .aux .interpExpr => braced (series s d true children)
    | .aux .fieldList =>
      let inside := firstField s d children
      if mayBeInline children && !inside.contains '\n' then
        "\x7b".toList ++ inside ++ "\x7d".toList
      else "\x7b".toList ++ items s (d + 1) none children ++ lineStart d ++ "\x7d".toList
    | .aux .funcName => children.flatMap (word s)
    | .aux .paramList => parameters s true children
    | .stmt .ifStmt | .stmt .whileStmt | .stmt .repeatStmt | .stmt .forRange | .stmt .forIn
    | .stmt .doStmt | .aux .funcBody => clauses s d true none children
    | .stmt .returnStmt =>
      "return".toList ++
        if children.length > 1 then " ".toList ++ series s d true children else []
    | .stmt .breakStmt => "break".toList
    | .stmt .continueStmt => "continue".toList
    | _ => word s n
termination_by structural n => n

/-- Children that stay on their line. -/
def row (s : Setting) (d : Nat) (parent : Kind) (first : Bool) : List Node → Text
  | [] => []
  | n :: rest =>
    (match n.kind with
      | .token _ => sign s parent first n rest
      | _ => node s d n) ++ row s d parent false rest
termination_by structural n => n

/-- The expressions among nodes, with commas between them. -/
def series (s : Setting) (d : Nat) (first : Bool) : List Node → Text
  | [] => []
  | n :: rest =>
    if n.isExpr then
      (if first then [] else ", ".toList) ++ node s d n ++ series s d false rest
    else series s d first rest
termination_by structural n => n

/-- A table, whose fields are in the first field list among its children. -/
def table (s : Setting) (d : Nat) : List Node → Text
  | [] => "\x7b\x7d".toList
  | n :: rest => if n.kind = .aux .fieldList then node s d n else table s d rest
termination_by structural n => n

/-- The first field among nodes. -/
def firstField (s : Setting) (d : Nat) : List Node → Text
  | [] => []
  | n :: rest => if n.kind = .aux .field then node s d n else firstField s d rest
termination_by structural n => n

/-- The items of a field list, each on its line.  `previous` is where the item
before them ended. -/
def items (s : Setting) (d : Nat) (previous : Option Nat) : List Node → Text
  | [] => []
  | n :: rest =>
    (match n.kind with
      | .aux .field => lineStart d ++ node s d n ++ ",".toList
      | .stmt .comment =>
        (if sharesLine s previous n then " ".toList else lineStart d) ++ word s n
      | _ => []) ++ items s d (some n.stop) rest
termination_by structural n => n

/-- Children with blocks among them.  `previous` is where the child before them
ended. -/
def clauses (s : Setting) (d : Nat) (first : Bool) (previous : Option Nat) : List Node → Text
  | [] => []
  | n :: rest =>
    (match n.kind with
      | .token _ => keyword s d first n
      | .aux .block => block s (d + 1) previous n
      | _ => node s d n) ++ clauses s d false (some n.stop) rest
termination_by structural n => n

/-- The statements of a block.  `opener` is where the token that opens the block
ends. -/
def block (s : Setting) (d : Nat) (opener : Option Nat) : Node → Text
  | ⟨_, _, _, _, children⟩ => statements s d opener none none children
termination_by structural n => n

/-- Statements.  `lineEnd` is where the statement before them ended, or what opens
the block; `previous` is the kind of that statement, and `lineKind` the kind of the
last one that started a line. -/
def statements (s : Setting) (d : Nat) (lineEnd : Option Nat)
    (previous lineKind : Option StmtKind) : List Node → Text
  | [] => []
  | n :: rest =>
    match n.kind with
    | .stmt kind =>
      if kind == .comment && sharesLine s lineEnd n then
        " ".toList ++ word s n ++ statements s d (some n.stop) (some kind) lineKind rest
      else
        (if needsBlankLine previous lineKind kind then "\n".toList else []) ++ lineStart d ++
          node s d n ++ statements s d (some n.stop) (some kind) (some kind) rest
    | _ => []
termination_by structural n => n

end

/-! ### Texts by kind -/

variable {s : Setting} {d : Nat} {n : Node}

theorem node_of_isRow (h : n.kind.isRow) : node s d n = row s d n.kind true n.children := by
  obtain ⟨id, kind, start, stop, children⟩ := n
  cases kind with
  | expr k | stmt k | aux k => cases k <;> first | (cases h; done) | rfl
  | token k => cases h

theorem node_of_hasClauses (h : n.kind.hasClauses) :
    node s d n = clauses s d true none n.children := by
  obtain ⟨id, kind, start, stop, children⟩ := n
  cases kind with
  | expr k | stmt k | aux k => cases k <;> first | (cases h; done) | rfl
  | token k => cases h

/-- Words, and the names that are declared. -/
theorem node_word (h : n.kind.isInked ∧ n.kind ≠ .expr .string ∨ n.kind = .aux .binding) :
    node s d n = word s n := by
  obtain ⟨id, kind, start, stop, children⟩ := n
  rcases h with ⟨hink, hstring⟩ | h
  · cases kind with
    | expr k => cases k <;> first | (cases hink; done) | exact absurd rfl hstring | rfl
    | stmt k => cases k <;> first | (cases hink; done) | rfl
    | aux k => cases hink
    | token k => rfl
  · obtain rfl : kind = _ := h
    rfl

theorem node_string (h : n.kind = .expr .string) :
    node s d n = (normalizeQuotes (word s n)).toOption.getD [] := by
  obtain ⟨id, kind, start, stop, children⟩ := n
  obtain rfl : kind = _ := h
  rfl

theorem node_table (h : n.kind = .expr .table) : node s d n = table s d n.children := by
  obtain ⟨id, kind, start, stop, children⟩ := n
  obtain rfl : kind = _ := h
  rfl

theorem node_parens (h : n.kind = .expr .parens) :
    node s d n = "(".toList ++ series s d true n.children ++ ")".toList := by
  obtain ⟨id, kind, start, stop, children⟩ := n
  obtain rfl : kind = _ := h
  rfl

theorem node_expressions (h : n.kind = .aux .varList ∨ n.kind = .aux .exprList) :
    node s d n = series s d true n.children := by
  obtain ⟨id, kind, start, stop, children⟩ := n
  obtain rfl | rfl : kind = _ ∨ kind = _ := h <;> rfl

theorem node_argList (h : n.kind = .aux .argList) :
    node s d n =
      if isSugar (n.children.filter (·.isExpr)) && s.options.callParens == .omit then
        " ".toList ++ series s d true n.children
      else "(".toList ++ series s d true n.children ++ ")".toList := by
  obtain ⟨id, kind, start, stop, children⟩ := n
  obtain rfl : kind = _ := h
  rfl

theorem node_interpExpr (h : n.kind = .aux .interpExpr) :
    node s d n = braced (series s d true n.children) := by
  obtain ⟨id, kind, start, stop, children⟩ := n
  obtain rfl : kind = _ := h
  rfl

/-- A table on one line or more. -/
theorem node_fieldList (h : n.kind = .aux .fieldList) :
    node s d n =
      if mayBeInline n.children && !(firstField s d n.children).contains '\n' then
        "\x7b".toList ++ firstField s d n.children ++ "\x7d".toList
      else "\x7b".toList ++ items s (d + 1) none n.children ++ lineStart d ++ "\x7d".toList := by
  obtain ⟨id, kind, start, stop, children⟩ := n
  obtain rfl : kind = _ := h
  rfl

theorem node_funcName (h : n.kind = .aux .funcName) :
    node s d n = n.children.flatMap (word s) := by
  obtain ⟨id, kind, start, stop, children⟩ := n
  obtain rfl : kind = _ := h
  rfl

theorem node_paramList (h : n.kind = .aux .paramList) :
    node s d n = parameters s true n.children := by
  obtain ⟨id, kind, start, stop, children⟩ := n
  obtain rfl : kind = _ := h
  rfl

theorem node_returnStmt (h : n.kind = .stmt .returnStmt) :
    node s d n = "return".toList ++
      if n.children.length > 1 then " ".toList ++ series s d true n.children else [] := by
  obtain ⟨id, kind, start, stop, children⟩ := n
  obtain rfl : kind = _ := h
  rfl

theorem node_breakStmt (h : n.kind = .stmt .breakStmt) : node s d n = "break".toList := by
  obtain ⟨id, kind, start, stop, children⟩ := n
  obtain rfl : kind = _ := h
  rfl

theorem node_continueStmt (h : n.kind = .stmt .continueStmt) :
    node s d n = "continue".toList := by
  obtain ⟨id, kind, start, stop, children⟩ := n
  obtain rfl : kind = _ := h
  rfl

/-! ### Rows of texts -/

variable {parent : Kind} {first : Bool} {previous : Option Nat} {rest : List Node}

theorem sign_of_rule {rule : Rule} (h : parent.rule? = some rule) :
    sign s parent first n rest = ruled s rule first n := by
  cases parent with
  | expr k | stmt k | aux k => cases k <;> first | (cases h; done) | (cases h; rfl)
  | token k => cases h

theorem sign_unary :
    sign s (.expr .unary) first n rest =
      match n.kind with
      | .token .kwNot => "not ".toList
      | .token .hash => "#".toList
      | _ => if rest.any startsWithMinus then "- ".toList else "-".toList := rfl

theorem sign_localFn :
    sign s (.stmt .localFn) first n rest =
      match n.kind with
      | .token .kwLocal => "local ".toList
      | .token .kwFunction => "function ".toList
      | _ => word s n := rfl

theorem row_token {k : TokenKind} (h : n.kind = .token k) :
    row s d parent first (n :: rest) =
      sign s parent first n rest ++ row s d parent false rest := by
  rw [row, h]

theorem row_node (h : ∀ k, n.kind ≠ .token k) :
    row s d parent first (n :: rest) = node s d n ++ row s d parent false rest := by
  rw [row]
  split
  · exact absurd ‹_› (h _)
  · rfl

theorem series_token {k : TokenKind} (h : n.kind = .token k) :
    series s d first (n :: rest) = series s d first rest := by
  have hexpr : n.isExpr = false := by rw [Node.isExpr, h]; rfl
  rw [series, hexpr, if_neg Bool.false_ne_true]

theorem series_eq_nil {nodes : List Node} (h : ∀ n ∈ nodes, n.isExpr = false) :
    series s d first nodes = [] := by
  induction nodes with
  | nil => rw [series]
  | cons n rest ih =>
      rw [List.forall_mem_cons] at h
      rw [series, h.1, if_neg Bool.false_ne_true]
      exact ih h.2

/-- An expression between two tokens. -/
theorem series_between {left right : Node} {k l : TokenKind} (hleft : left.kind = .token k)
    (h : n.kind.isExpr) (hright : right.kind = .token l) :
    series s d true [left, n, right] = node s d n := by
  have hexpr : n.isExpr = true := h
  rw [series_token hleft, series, if_pos hexpr, series_token hright, series, if_pos rfl,
    List.nil_append, List.append_nil]

theorem clauses_token {k : TokenKind} (h : n.kind = .token k) :
    clauses s d first previous (n :: rest) =
      keyword s d first n ++ clauses s d false (some n.stop) rest := by
  rw [clauses, h]

theorem clauses_block (h : n.kind = .aux .block) :
    clauses s d first previous (n :: rest) =
      block s (d + 1) previous n ++ clauses s d false (some n.stop) rest := by
  rw [clauses, h]

theorem clauses_node (h : ∀ k, n.kind ≠ .token k) (hblock : n.kind ≠ .aux .block) :
    clauses s d first previous (n :: rest) =
      node s d n ++ clauses s d false (some n.stop) rest := by
  rw [clauses]
  split
  · exact absurd ‹_› (h _)
  · exact absurd ‹_› hblock
  · rfl

end Typeset

end LuauTidy
