import LuauTidy.Proofs.Fates
import LuauTidy.Proofs.Passes

/-!
# Forms

The children of a node follow its kind.  A form says for a kind which kinds
its children have, in order; there are one or more for each kind.  A parser
builds its nodes from phrases, and how many children a phrase contributes is
known phrase by phrase, so every node that it builds has one of the forms.

* `Series`, `Branches`, `CallForm`, `FieldsForm` — the lists in forms;
* `Form` — the kinds of the children of a node;
* `Nonterminal.Yields` — the kinds of the nodes of a phrase;
* `Parsed.formed` — every node of a source that parses has a form.
-/

namespace LuauTidy

/-! ### Forms -/

/-- A statement, or a comment among statements. -/
def Kind.isStmt (k : Kind) : Bool := k.stmt?.isSome

/-- An expression that can be called, accessed and indexed. -/
def Kind.isCallee : Kind → Bool
  | .expr .var | .expr .call | .expr .parens => true
  | _ => false

/-- Items with a separator between each two. -/
inductive Series (separator : TokenKind) (item : Kind → Prop) : List Kind → Prop
  | one {k : Kind} (h : item k) : Series separator item [k]
  | cons {k : Kind} {later : List Kind} (h : item k) (tail : Series separator item later) :
      Series separator item (k :: .token separator :: later)

/-- Branches behind the first one, each with a condition and a value. -/
inductive Branches (value : Kind → Prop) : List Kind → Prop
  | nil : Branches value []
  | cons {c v : Kind} {later : List Kind} (condition : c.isExpr) (h : value v)
      (tail : Branches value later) :
      Branches value (.token .kwElseif :: c :: .token .kwThen :: v :: later)

/-- What is called, with its arguments. -/
inductive CallForm : List Kind → Prop
  | call {callee : Kind} (h : callee.isCallee) : CallForm [callee, .aux .argList]
  | method {callee : Kind} (h : callee.isCallee) :
      CallForm [callee, .token .colon, .token .name, .aux .argList]

/-- Fields with separators between them, and comments. -/
inductive FieldsForm : List Kind → Prop
  | comments {ks : List Kind} (h : ∀ k ∈ ks, k = .stmt .comment) : FieldsForm ks
  | last {before after : List Kind} (hbefore : ∀ k ∈ before, k = .stmt .comment)
      (hafter : ∀ k ∈ after, k = .stmt .comment) : FieldsForm (before ++ .aux .field :: after)
  | more {before after later : List Kind} {separator : TokenKind}
      (hbefore : ∀ k ∈ before, k = .stmt .comment) (hafter : ∀ k ∈ after, k = .stmt .comment)
      (separates : separator = .comma ∨ separator = .semi) (tail : FieldsForm later) :
      FieldsForm (before ++ .aux .field :: (after ++ .token separator :: later))

/-- The kinds of the children of a node of a kind, in order. -/
inductive Form : Kind → List Kind → Prop
  | token (k : TokenKind) : Form (.token k) []
  | literal {k : ExprKind} (h : k.isLiteral) : Form (.expr k) []
  | comment : Form (.stmt .comment) []
  | chunk {ks : List Kind} (h : ∀ k ∈ ks, k.isStmt) : Form (.aux .chunk) ks
  | block {ks : List Kind} (h : ∀ k ∈ ks, k.isStmt) : Form (.aux .block) ks
  | declaration {names : List Kind} (h : Series .comma (· = .aux .binding) names) :
      Form (.stmt .localVar) (.token .kwLocal :: names)
  | definition {names values : List Kind} (h : Series .comma (· = .aux .binding) names)
      (hvalues : Series .comma (·.isExpr) values) :
      Form (.stmt .localVar) (.token .kwLocal :: (names ++ .token .assign :: values))
  | localFunction : Form (.stmt .localFn)
      [.token .kwLocal, .token .kwFunction, .token .name, .aux .funcBody]
  | function : Form (.stmt .fn) [.token .kwFunction, .aux .funcName, .aux .funcBody]
  | assignment : Form (.stmt .assign) [.aux .varList, .token .assign, .aux .exprList]
  | compoundAssignment {op : TokenKind} {value : Kind} (compound : op.isCompoundAssign)
      (h : value.isExpr) : Form (.stmt .compoundAssign) [.expr .var, .token op, value]
  | callStatement {ks : List Kind} (h : CallForm ks) : Form (.stmt .call) ks
  | ifStatement {c : Kind} {branches : List Kind} (condition : c.isExpr)
      (h : Branches (· = .aux .block) branches) : Form (.stmt .ifStmt)
        (.token .kwIf :: c :: .token .kwThen :: .aux .block :: (branches ++ [.token .kwEnd]))
  | ifElseStatement {c : Kind} {branches : List Kind} (condition : c.isExpr)
      (h : Branches (· = .aux .block) branches) : Form (.stmt .ifStmt)
        (.token .kwIf :: c :: .token .kwThen :: .aux .block ::
          (branches ++ [.token .kwElse, .aux .block, .token .kwEnd]))
  | whileStatement {c : Kind} (condition : c.isExpr) : Form (.stmt .whileStmt)
      [.token .kwWhile, c, .token .kwDo, .aux .block, .token .kwEnd]
  | doStatement : Form (.stmt .doStmt) [.token .kwDo, .aux .block, .token .kwEnd]
  | repeatStatement {c : Kind} (condition : c.isExpr) : Form (.stmt .repeatStmt)
      [.token .kwRepeat, .aux .block, .token .kwUntil, c]
  | forRange {first last : Kind} (hfirst : first.isExpr) (hlast : last.isExpr) :
      Form (.stmt .forRange) [.token .kwFor, .aux .binding, .token .assign, first, .token .comma,
        last, .token .kwDo, .aux .block, .token .kwEnd]
  | forRangeStep {first last step : Kind} (hfirst : first.isExpr) (hlast : last.isExpr)
      (hstep : step.isExpr) :
      Form (.stmt .forRange) [.token .kwFor, .aux .binding, .token .assign, first, .token .comma,
        last, .token .comma, step, .token .kwDo, .aux .block, .token .kwEnd]
  | forIn {names values : List Kind} (h : Series .comma (· = .aux .binding) names)
      (hvalues : Series .comma (·.isExpr) values) : Form (.stmt .forIn)
        (.token .kwFor :: (names ++ .token .kwIn ::
          (values ++ [.token .kwDo, .aux .block, .token .kwEnd])))
  | returnNothing : Form (.stmt .returnStmt) [.token .kwReturn]
  | returnValues {values : List Kind} (h : Series .comma (·.isExpr) values) :
      Form (.stmt .returnStmt) (.token .kwReturn :: values)
  | breakStatement : Form (.stmt .breakStmt) [.token .kwBreak]
  | continueStatement : Form (.stmt .continueStmt) [.token .kwContinue]
  | interpolation {pieces : List Kind}
      (h : ∀ k ∈ pieces, k = .token .interpContent ∨ k = .aux .interpExpr) :
      Form (.expr .interpolation) (.token .interpStart :: (pieces ++ [.token .interpEnd]))
  | interpolated {value : Kind} (h : value.isExpr) :
      Form (.aux .interpExpr) [.token .interpBraceOpen, value, .token .interpBraceClose]
  | emptyTable : Form (.expr .table) [.token .lbrace, .token .rbrace]
  | table : Form (.expr .table) [.token .lbrace, .aux .fieldList, .token .rbrace]
  | fieldList {ks : List Kind} (h : FieldsForm ks) (nonempty : ks ≠ []) :
      Form (.aux .fieldList) ks
  | keyedField {key value : Kind} (hkey : key.isExpr) (h : value.isExpr) : Form (.aux .field)
      [.token .lbracket, key, .token .rbracket, .token .assign, value]
  | namedField {value : Kind} (h : value.isExpr) :
      Form (.aux .field) [.token .name, .token .assign, value]
  | itemField {value : Kind} (h : value.isExpr) : Form (.aux .field) [value]
  | anonymousFunction : Form (.expr .function) [.token .kwFunction, .aux .funcBody]
  | functionBody : Form (.aux .funcBody)
      [.token .lparen, .token .rparen, .aux .block, .token .kwEnd]
  | functionBodyParams : Form (.aux .funcBody)
      [.token .lparen, .aux .paramList, .token .rparen, .aux .block, .token .kwEnd]
  | params {names : List Kind} (h : Series .comma (· = .token .name) names) :
      Form (.aux .paramList) names
  | vararg : Form (.aux .paramList) [.expr .vararg]
  | paramsVararg {names : List Kind} (h : Series .comma (· = .token .name) names) :
      Form (.aux .paramList) (names ++ [.token .comma, .expr .vararg])
  | functionName {names : List Kind} (h : Series .dot (· = .token .name) names) :
      Form (.aux .funcName) names
  | methodName {names : List Kind} (h : Series .dot (· = .token .name) names) :
      Form (.aux .funcName) (names ++ [.token .colon, .token .name])
  | variableName : Form (.expr .var) [.token .name]
  | access {callee : Kind} (h : callee.isCallee) :
      Form (.expr .var) [callee, .token .dot, .token .name]
  | index {callee key : Kind} (h : callee.isCallee) (hkey : key.isExpr) :
      Form (.expr .var) [callee, .token .lbracket, key, .token .rbracket]
  | call {ks : List Kind} (h : CallForm ks) : Form (.expr .call) ks
  | noArguments : Form (.aux .argList) [.token .lparen, .token .rparen]
  | arguments {values : List Kind} (h : Series .comma (·.isExpr) values) :
      Form (.aux .argList) (.token .lparen :: (values ++ [.token .rparen]))
  | stringArgument : Form (.aux .argList) [.expr .string]
  | tableArgument : Form (.aux .argList) [.expr .table]
  | parens {value : Kind} (h : value.isExpr) :
      Form (.expr .parens) [.token .lparen, value, .token .rparen]
  | unary {op : TokenKind} {value : Kind} (unary : op.isUnary) (h : value.isExpr) :
      Form (.expr .unary) [.token op, value]
  | binary {left right : Kind} {op : TokenKind} (hleft : left.isExpr)
      (binary : op.bindingPowers?.isSome) (hright : right.isExpr) :
      Form (.expr .binary) [left, .token op, right]
  | conditional {c value last : Kind} {branches : List Kind} (condition : c.isExpr)
      (h : value.isExpr) (hbranches : Branches (·.isExpr) branches) (hlast : last.isExpr) :
      Form (.expr .conditional) (.token .kwIf :: c :: .token .kwThen :: value ::
        (branches ++ [.token .kwElse, last]))
  | binding : Form (.aux .binding) [.token .name]
  | varList {vars : List Kind} (h : Series .comma (· = .expr .var) vars) :
      Form (.aux .varList) vars
  | exprList {values : List Kind} (h : Series .comma (·.isExpr) values) :
      Form (.aux .exprList) values

/-- The children of the node follow its kind. -/
def Node.IsFormed (n : Node) : Prop := Form n.kind (n.children.map Node.kind)

/-! ### The nodes of phrases -/

/-- The kinds of the nodes of a row. -/
def Forest.kinds : Forest → List Kind
  | nil => []
  | leaf kind _ _ later => kind :: later.kinds
  | skipped _ _ later => later.kinds
  | node kind _ later => kind :: later.kinds

@[simp] theorem Forest.kinds_append (f g : Forest) : (f ++ g).kinds = f.kinds ++ g.kinds := by
  induction f <;> simp_all [kinds]

theorem Forest.map_kind_nodes (f : Forest) (made lastEnd : Nat) :
    (f.nodes made lastEnd).map Node.kind = f.kinds := by
  induction f generalizing made lastEnd <;> simp_all [nodes, kinds, Node.around]

/-- A single node that can be an item between separators. -/
def Nonterminal.Item : Nonterminal → Kind → Prop
  | .operand _, k => k.isExpr
  | .variable, k => k = .expr .var
  | .name, k => k = .token .name
  | .binding, k => k = .aux .binding
  | _, _ => False

/-- A phrase that is an item between separators. -/
def Nonterminal.isItem : Nonterminal → Bool
  | .operand _ | .variable | .name | .binding => true
  | _ => false

/-- The kinds of the nodes of a phrase. -/
def Nonterminal.Yields : Nonterminal → List Kind → Prop
  | .operand _, ks | .climb _, ks | .simple, ks | .suffixed, ks => ∃ k : Kind, k.isExpr ∧ ks = [k]
  | .chain, ks => ∃ k : Kind, k.isCallee ∧ ks = [k]
  | .variable, ks => ks = [.expr .var]
  | .callParts, ks => CallForm ks
  | .arguments, ks => ks = [.aux .argList]
  | .more separator item, ks =>
    item.isItem → ∀ k, item.Item k → Series separator item.Item (k :: ks)
  | .exprs, ks => Series .comma (·.isExpr) ks
  | .table, ks => ks = [.expr .table]
  | .fieldList, ks => ks = [.aux .fieldList]
  | .fields, ks => FieldsForm ks
  | .field, ks => ks = [.aux .field]
  | .functionBody, ks => ks = [.aux .funcBody]
  | .paramList, ks => ks = [] ∨ ks = [.aux .paramList]
  | .someParams, ks => ks = [.aux .paramList]
  | .params, ks => Form (.aux .paramList) ks
  | .pieces, ks => ∃ pieces, ks = pieces ++ [.token .interpEnd] ∧
      ∀ k ∈ pieces, k = .token .interpContent ∨ k = .aux .interpExpr
  | .interpolated, ks => ks = [.aux .interpExpr]
  | .elseifs, ks => Branches (·.isExpr) ks
  | .name, ks => ks = [.token .name]
  | .binding, ks => ks = [.aux .binding]
  | .functionName, ks => ks = [.aux .funcName]
  | .varList, ks => ks = [.aux .varList]
  | .exprList, ks => ks = [.aux .exprList]
  | .elseifBlocks, ks => Branches (· = .aux .block) ks
  | .elseBlock, ks => ks = [] ∨ ks = [.token .kwElse, .aux .block]
  | .statement, ks | .returnStatement, ks => ∃ k : Kind, k.isStmt ∧ ks = [k]
  | .comments, ks => ∀ k ∈ ks, k = .stmt .comment
  | .semicolons, ks => ks = []
  | .items, ks => ∀ k ∈ ks, k.isStmt
  | .block, ks => ks = [.aux .block]
  | .chunk, ks => ks = [.aux .chunk]

/-- The kinds of the nodes of what is asked for. -/
def Symbol.Yields : List Symbol → List Kind → Prop
  | [], ks => ks = []
  | .leaf kind _ :: symbols, ks => ∃ later, ks = kind :: later ∧ Symbol.Yields symbols later
  | .skip _ :: symbols, ks => Symbol.Yields symbols ks
  | .look _ :: symbols, ks => Symbol.Yields symbols ks
  | .sub n :: symbols, ks => ∃ here later, ks = here ++ later ∧ n.Yields here ∧
      Symbol.Yields symbols later

theorem Holds.yields {symbols : List Symbol} {f : Forest} {next : Ahead}
    (h : Holds (fun n f _ => n.Yields f.kinds) symbols f next) :
    Symbol.Yields symbols f.kinds := by
  induction symbols generalizing f with
  | nil =>
      obtain rfl : f = .nil := h
      rfl
  | cons s symbols ih =>
      cases s with
      | leaf kind fits =>
          obtain ⟨passed, w, later, rfl, -, -, -, hlater⟩ := h
          exact ⟨later.kinds, rfl, ih hlater⟩
      | skip k =>
          obtain ⟨passed, w, later, rfl, -, -, hlater⟩ := h
          exact ih (f := later) hlater
      | look fits => exact ih h.2
      | sub n =>
          obtain ⟨g, later, rfl, -, hg, hlater⟩ := h
          exact ⟨g.kinds, later.kinds, Forest.kinds_append g later, hg, ih hlater⟩

/-- Items of a phrase are single nodes. -/
theorem Nonterminal.Yields.item {n : Nonterminal} {ks : List Kind} (h : n.Yields ks)
    (hn : n.isItem) : ∃ k, n.Item k ∧ ks = [k] := by
  cases n <;> first | exact h | exact ⟨_, rfl, h⟩ | simp [Nonterminal.isItem] at hn

/-- Statements and comments among them. -/
theorem Kind.isStmt_of_comments {ks : List Kind} (h : ∀ k ∈ ks, k = .stmt .comment) :
    ∀ k ∈ ks, k.isStmt := by
  intro k hk
  rw [h k hk]
  rfl

/-- The kinds of the nodes of a phrase without a node of its own. -/
theorem Production.yields {n : Nonterminal} {parts : List Symbol} {ks : List Kind}
    (rule : Production n none parts) (h : Symbol.Yields parts ks) : n.Yields ks := by
  cases rule with
  | operand | plain | simpleSuffixed | paramList =>
      obtain ⟨here, _, rfl, hhere, rfl⟩ := h
      rw [List.append_nil]
      first | exact hhere | exact .inr hhere
  | suffixed | chainVariable | simpleTable =>
      obtain ⟨here, _, rfl, hhere, rfl⟩ := h
      rw [List.append_nil]
      first
        | exact ⟨_, rfl, hhere⟩
        | obtain ⟨k, hk, rfl⟩ := hhere
          cases k <;> first | exact ⟨_, rfl, rfl⟩ | cases hk
  | literal k =>
      obtain ⟨_, rfl, rfl⟩ := h
      exact ⟨_, rfl, rfl⟩
  | content =>
      obtain ⟨_, rfl, here, _, rfl, ⟨pieces, rfl, hpieces⟩, rfl⟩ := h
      exact ⟨.token .interpContent :: pieces, by simp, by simpa using hpieces⟩
  | interpolated =>
      obtain ⟨_, _, rfl, rfl, here, _, rfl, ⟨pieces, rfl, hpieces⟩, rfl⟩ := h
      exact ⟨.aux .interpExpr :: pieces, by simp, by simpa using hpieces⟩
  | interpolationEnd =>
      obtain ⟨_, rfl, rfl⟩ := h
      exact ⟨[], rfl, by simp⟩
  | noElseif | noElseifBlock =>
      obtain rfl : ks = [] := h
      exact .nil
  | elseif =>
      obtain ⟨_, rfl, _, _, rfl, ⟨c, hc, rfl⟩, _, rfl, _, _, rfl, ⟨v, hv, rfl⟩, _, _, rfl, hlater, rfl⟩ :=
        h
      rw [List.append_nil]
      exact .cons hc hv hlater
  | elseifBlock =>
      obtain ⟨_, rfl, _, _, rfl, ⟨c, hc, rfl⟩, _, rfl, _, _, rfl, rfl, _, _, rfl, hlater, rfl⟩ := h
      rw [List.append_nil]
      exact .cons hc rfl hlater
  | call =>
      obtain ⟨_, _, rfl, ⟨callee, hcallee, rfl⟩, _, _, rfl, rfl, rfl⟩ := h
      exact .call hcallee
  | methodCall =>
      obtain ⟨_, _, rfl, ⟨callee, hcallee, rfl⟩, _, rfl, _, rfl, _, _, rfl, rfl, rfl⟩ := h
      exact .method hcallee
  | noMore separator item =>
      obtain rfl : ks = [] := h
      intro _ k hk
      exact .one hk
  | more separator item =>
      obtain ⟨_, rfl, _, _, rfl, hitem, _, _, rfl, hlater, rfl⟩ := h
      intro hn k hk
      obtain ⟨k', hk', rfl⟩ := hitem.item hn
      rw [List.append_nil]
      exact .cons hk (hlater hn k' hk')
  | exprs =>
      obtain ⟨_, _, rfl, ⟨k, hk, rfl⟩, _, _, rfl, hlater, rfl⟩ := h
      rw [List.append_nil]
      exact hlater rfl k hk
  | noFields =>
      obtain ⟨_, _, rfl, hcomments, rfl⟩ := h
      rw [List.append_nil]
      exact .comments hcomments
  | lastField =>
      obtain ⟨_, _, rfl, hbefore, _, _, rfl, rfl, _, _, rfl, hafter, rfl⟩ := h
      rw [List.append_nil]
      exact .last hbefore hafter
  | fields separator separates =>
      obtain ⟨_, _, rfl, hbefore, _, _, rfl, rfl, _, _, rfl, hafter, _, rfl, _, _, rfl, htail, rfl⟩ := h
      rw [List.append_nil]
      exact .more hbefore hafter separates htail
  | noParams | noElseBlock =>
      obtain rfl : ks = [] := h
      exact .inl rfl
  | varargParam =>
      obtain ⟨_, rfl, rfl⟩ := h
      exact .vararg
  | lastParam =>
      obtain ⟨_, rfl, rfl⟩ := h
      exact .params (.one rfl)
  | params =>
      obtain ⟨_, rfl, _, rfl, _, _, rfl, htail, rfl⟩ := h
      rw [List.append_nil]
      cases htail with
      | params htail => exact .params (.cons rfl htail)
      | vararg => exact .paramsVararg (.one rfl)
      | paramsVararg htail => exact .paramsVararg (.cons rfl htail)
  | name =>
      obtain ⟨_, rfl, rfl⟩ := h
      rfl
  | elseBlock =>
      obtain ⟨_, rfl, _, _, rfl, rfl, rfl⟩ := h
      exact .inr rfl
  | noComments | noSemicolons =>
      obtain rfl : ks = [] := h
      first | rfl | exact List.forall_mem_nil _
  | comments =>
      obtain ⟨_, rfl, _, _, rfl, hlater, rfl⟩ := h
      rw [List.append_nil]
      exact List.forall_mem_cons.mpr ⟨rfl, hlater⟩
  | semicolons =>
      obtain ⟨_, _, rfl, hlater, rfl⟩ := h
      rw [List.append_nil]
      exact hlater
  | lastItems =>
      obtain ⟨_, _, rfl, hcomments, rfl⟩ := h
      rw [List.append_nil]
      exact Kind.isStmt_of_comments hcomments
  | items =>
      obtain ⟨_, _, rfl, hcomments, _, _, rfl, ⟨k, hk, rfl⟩, _, _, rfl, rfl, _, _, rfl, hlater, rfl⟩ := h
      rw [List.append_nil]
      exact List.forall_mem_append.mpr ⟨Kind.isStmt_of_comments hcomments,
        List.forall_mem_cons.mpr ⟨hk, hlater⟩⟩
  | returnItems =>
      obtain ⟨_, _, rfl, hcomments, _, _, rfl, ⟨k, hk, rfl⟩, _, _, rfl, rfl, _, _, rfl, hlater, rfl⟩ := h
      rw [List.append_nil]
      exact List.forall_mem_append.mpr ⟨Kind.isStmt_of_comments hcomments,
        List.forall_mem_cons.mpr ⟨hk, Kind.isStmt_of_comments hlater⟩⟩

/-- The kind of the node of a phrase. -/
theorem Production.yields_kind {n : Nonterminal} {kind : Kind} {parts : List Symbol}
    (rule : Production n (some kind) parts) : n.Yields [kind] := by
  cases rule <;> first | rfl | exact ⟨_, rfl, rfl⟩

/-- The node that a production builds has a form. -/
theorem Production.form {n : Nonterminal} {kind : Kind} {parts : List Symbol} {ks : List Kind}
    (rule : Production n (some kind) parts) (h : Symbol.Yields parts ks) : Form kind ks := by
  cases rule with
  | unary limit op unary =>
      obtain ⟨_, rfl, _, _, rfl, ⟨k, hk, rfl⟩, rfl⟩ := h
      exact .unary unary hk
  | binary limit op left right powers tighter =>
      obtain ⟨_, _, rfl, ⟨k, hk, rfl⟩, _, rfl, _, _, rfl, ⟨k', hk', rfl⟩, rfl⟩ := h
      exact .binary hk (by simp [powers]) hk'
  | interpolation =>
      obtain ⟨_, rfl, _, _, rfl, ⟨pieces, rfl, hpieces⟩, rfl⟩ := h
      rw [List.append_nil]
      exact .interpolation hpieces
  | interpolatedExpr =>
      obtain ⟨_, rfl, _, _, rfl, ⟨k, hk, rfl⟩, _, rfl, rfl⟩ := h
      exact .interpolated hk
  | anonymousFunction =>
      obtain ⟨_, rfl, _, _, rfl, rfl, rfl⟩ := h
      exact .anonymousFunction
  | conditional =>
      obtain ⟨_, rfl, _, _, rfl, ⟨c, hc, rfl⟩, _, rfl, _, _, rfl, ⟨v, hv, rfl⟩, _, _, rfl, hbranches,
        _, rfl, _, _, rfl, ⟨l, hl, rfl⟩, rfl⟩ := h
      exact .conditional hc hv hbranches hl
  | chainCall =>
      obtain ⟨_, _, rfl, hcall, rfl⟩ := h
      rw [List.append_nil]
      exact .call hcall
  | parens =>
      obtain ⟨_, rfl, _, _, rfl, ⟨k, hk, rfl⟩, _, rfl, rfl⟩ := h
      exact .parens hk
  | variableName =>
      obtain ⟨_, rfl, rfl⟩ := h
      exact .variableName
  | access =>
      obtain ⟨_, _, rfl, ⟨k, hk, rfl⟩, _, rfl, _, rfl, rfl⟩ := h
      exact .access hk
  | index =>
      obtain ⟨_, _, rfl, ⟨k, hk, rfl⟩, _, rfl, _, _, rfl, ⟨key, hkey, rfl⟩, _, rfl, rfl⟩ := h
      exact .index hk hkey
  | noArguments =>
      obtain ⟨_, rfl, _, rfl, rfl⟩ := h
      exact .noArguments
  | arguments =>
      obtain ⟨_, rfl, _, _, rfl, hvalues, _, rfl, rfl⟩ := h
      exact .arguments hvalues
  | stringArgument =>
      obtain ⟨_, rfl, rfl⟩ := h
      exact .stringArgument
  | tableArgument =>
      obtain ⟨_, _, rfl, rfl, rfl⟩ := h
      exact .tableArgument
  | emptyTable =>
      obtain ⟨_, rfl, _, rfl, rfl⟩ := h
      exact .emptyTable
  | table =>
      obtain ⟨_, rfl, _, _, rfl, rfl, _, rfl, rfl⟩ := h
      exact .table
  | commentFields =>
      obtain ⟨_, rfl, _, _, rfl, hlater, rfl⟩ := h
      rw [List.append_nil]
      exact .fieldList (.comments (List.forall_mem_cons.mpr ⟨rfl, hlater⟩)) (List.cons_ne_nil _ _)
  | lastFieldOnly =>
      obtain ⟨_, _, rfl, hbefore, _, _, rfl, rfl, _, _, rfl, hafter, rfl⟩ := h
      rw [List.append_nil]
      exact .fieldList (.last hbefore hafter) (by simp)
  | fieldList separator separates =>
      obtain ⟨_, _, rfl, hbefore, _, _, rfl, rfl, _, _, rfl, hafter, _, rfl, _, _, rfl, htail, rfl⟩ := h
      rw [List.append_nil]
      exact .fieldList (.more hbefore hafter separates htail) (by simp)
  | keyedField =>
      obtain ⟨_, rfl, _, _, rfl, ⟨key, hkey, rfl⟩, _, rfl, _, rfl, _, _, rfl, ⟨k, hk, rfl⟩, rfl⟩ := h
      exact .keyedField hkey hk
  | namedField =>
      obtain ⟨_, rfl, _, rfl, _, _, rfl, ⟨k, hk, rfl⟩, rfl⟩ := h
      exact .namedField hk
  | itemField =>
      obtain ⟨_, _, rfl, ⟨k, hk, rfl⟩, rfl⟩ := h
      exact .itemField hk
  | functionBody =>
      obtain ⟨_, rfl, _, _, rfl, rfl | rfl, _, rfl, _, _, rfl, rfl, _, rfl, rfl⟩ := h
      · exact .functionBody
      · exact .functionBodyParams
  | someParams =>
      obtain ⟨_, _, rfl, hparams, rfl⟩ := h
      rw [List.append_nil]
      exact hparams
  | binding =>
      obtain ⟨_, rfl, rfl⟩ := h
      exact .binding
  | functionName =>
      obtain ⟨_, _, rfl, rfl, _, _, rfl, hlater, rfl⟩ := h
      rw [List.append_nil]
      exact .functionName (hlater rfl _ rfl)
  | methodName =>
      obtain ⟨_, _, rfl, rfl, _, _, rfl, hlater, _, rfl, _, rfl, rfl⟩ := h
      exact .methodName (hlater rfl _ rfl)
  | varList =>
      obtain ⟨_, _, rfl, rfl, _, _, rfl, hlater, rfl⟩ := h
      rw [List.append_nil]
      exact .varList (hlater rfl _ rfl)
  | exprList =>
      obtain ⟨_, _, rfl, hvalues, rfl⟩ := h
      rw [List.append_nil]
      exact .exprList hvalues
  | localFunction =>
      obtain ⟨_, rfl, _, rfl, _, rfl, _, _, rfl, rfl, rfl⟩ := h
      exact .localFunction
  | declaration =>
      obtain ⟨_, rfl, _, _, rfl, rfl, _, _, rfl, hlater, rfl⟩ := h
      rw [List.append_nil]
      exact .declaration (hlater rfl _ rfl)
  | definition =>
      obtain ⟨_, rfl, _, _, rfl, rfl, _, _, rfl, hlater, _, rfl, _, _, rfl, hvalues, rfl⟩ := h
      rw [List.append_nil]
      exact .definition (hlater rfl _ rfl) hvalues
  | function =>
      obtain ⟨_, rfl, _, _, rfl, rfl, _, _, rfl, rfl, rfl⟩ := h
      exact .function
  | ifStatement =>
      obtain ⟨_, rfl, _, _, rfl, ⟨c, hc, rfl⟩, _, rfl, _, _, rfl, rfl, _, _, rfl, hbranches, _, _, rfl,
        rfl | rfl, _, rfl, rfl⟩ := h
      · exact .ifStatement hc hbranches
      · exact .ifElseStatement hc hbranches
  | whileStatement =>
      obtain ⟨_, rfl, _, _, rfl, ⟨c, hc, rfl⟩, _, rfl, _, _, rfl, rfl, _, rfl, rfl⟩ := h
      exact .whileStatement hc
  | doStatement =>
      obtain ⟨_, rfl, _, _, rfl, rfl, _, rfl, rfl⟩ := h
      exact .doStatement
  | repeatStatement =>
      obtain ⟨_, rfl, _, _, rfl, rfl, _, rfl, _, _, rfl, ⟨c, hc, rfl⟩, rfl⟩ := h
      exact .repeatStatement hc
  | forRange =>
      obtain ⟨_, rfl, _, _, rfl, rfl, _, rfl, _, _, rfl, ⟨a, ha, rfl⟩, _, rfl, _, _, rfl, ⟨b, hb, rfl⟩,
        _, rfl, _, _, rfl, rfl, _, rfl, rfl⟩ := h
      exact .forRange ha hb
  | forRangeStep =>
      obtain ⟨_, rfl, _, _, rfl, rfl, _, rfl, _, _, rfl, ⟨a, ha, rfl⟩, _, rfl, _, _, rfl, ⟨b, hb, rfl⟩,
        _, rfl, _, _, rfl, ⟨c, hc, rfl⟩, _, rfl, _, _, rfl, rfl, _, rfl, rfl⟩ := h
      exact .forRangeStep ha hb hc
  | forIn =>
      obtain ⟨_, rfl, _, _, rfl, rfl, _, _, rfl, hlater, _, rfl, _, _, rfl, hvalues, _, rfl, _, _, rfl,
        rfl, _, rfl, rfl⟩ := h
      exact .forIn (hlater rfl _ rfl) hvalues
  | breakStatement =>
      obtain ⟨_, rfl, rfl⟩ := h
      exact .breakStatement
  | continueStatement =>
      obtain ⟨_, rfl, rfl⟩ := h
      exact .continueStatement
  | assignment =>
      obtain ⟨_, _, rfl, rfl, _, rfl, _, _, rfl, rfl, rfl⟩ := h
      exact .assignment
  | compoundAssignment op compound =>
      obtain ⟨_, _, rfl, rfl, _, rfl, _, _, rfl, ⟨k, hk, rfl⟩, rfl⟩ := h
      exact .compoundAssignment compound hk
  | callStatement =>
      obtain ⟨_, _, rfl, hcall, rfl⟩ := h
      rw [List.append_nil]
      exact .callStatement hcall
  | returnNothing =>
      obtain ⟨_, rfl, rfl⟩ := h
      exact .returnNothing
  | returnValues =>
      obtain ⟨_, rfl, _, _, rfl, hvalues, rfl⟩ := h
      rw [List.append_nil]
      exact .returnValues hvalues
  | block =>
      obtain ⟨_, _, rfl, hitems, rfl⟩ := h
      rw [List.append_nil]
      exact .block hitems
  | chunk =>
      obtain ⟨_, _, rfl, hitems, rfl⟩ := h
      rw [List.append_nil]
      exact .chunk hitems

/-- The kinds of the nodes of a row that matches. -/
theorem Derives.yields {symbols : List Symbol} {f : Forest} {next : Ahead}
    (h : Derives symbols f next) : Symbol.Yields symbols f.kinds := by
  refine (h.holds (M := fun n f _ => n.Yields f.kinds) ?_ ?_).yields
  · intro n parts f next rule _ holds
    exact rule.yields holds.yields
  · intro n kind parts f next rule _ _
    exact rule.yields_kind

/-- The leaf of a token has the form of its kind. -/
theorem LeafFits.form {kind : Kind} {t : Token} (h : LeafFits kind t)
    (hliteral : ∀ k, t.cls = .literal k → k.isLiteral) : Form kind [] := by
  rcases h with hkind | ⟨-, rfl⟩ | ⟨-, -, rfl⟩
  · cases hcls : t.cls with
    | token k =>
        rw [hcls] at hkind
        obtain rfl := Option.some.inj hkind
        exact .token k
    | literal k =>
        rw [hcls] at hkind
        obtain rfl := Option.some.inj hkind
        exact .literal (hliteral k hcls)
    | comment | error => simp [hcls, TokenClass.leafKind?] at hkind
  · exact .comment
  · exact .token _

/-- Every node of a row is formed. -/
theorem Forest.formed {f : Forest} {next : Ahead} (hfit : f.Fit) (hruled : f.Ruled next)
    (hliteral : ∀ w ∈ f.words, ∀ k, w.cls = .literal k → k.isLiteral) (made lastEnd : Nat) :
    ∀ m ∈ preorderOfAll (f.nodes made lastEnd), m.IsFormed := by
  induction f generalizing next made lastEnd with
  | nil => simp [nodes, preorderOfAll]
  | leaf kind passed w later ih =>
      simp only [words, List.forall_mem_append, List.forall_mem_cons] at hliteral
      refine List.forall_mem_cons.mpr ⟨hfit.2.1.form hliteral.2.1, ?_⟩
      exact ih hfit.2.2 hruled hliteral.2.2 _ _
  | skipped passed w later ih =>
      simp only [words, List.forall_mem_append, List.forall_mem_cons] at hliteral
      exact ih hfit.2.2 hruled hliteral.2.2 made w.stop
  | node kind inner later ihInner ih =>
      obtain ⟨⟨n, parts, rule, inside⟩, hlater⟩ := hruled
      simp only [words, List.forall_mem_append] at hliteral
      have hnode : (Node.around (made + inner.count) kind (emptyPlace kind lastEnd)
          (inner.nodes made lastEnd)).IsFormed := by
        simp only [Node.IsFormed, Node.around, map_kind_nodes]
        exact rule.form inside.yields
      simp only [nodes, preorderOfAll, Node.preorder_eq, List.mem_append, List.mem_cons]
      rintro m ((rfl | hm) | hm)
      · exact hnode
      · exact ihInner hfit.1 inside.ruled hliteral.1 made lastEnd m hm
      · exact ih hfit.2 hlater hliteral.2 _ _ m hm

/-- Every node of a tree is formed. -/
theorem Parsed.formed {source : Text} {t : SyntaxTree} {inner : Forest} {gap : Text}
    (h : Parsed source t inner gap) : ∀ m ∈ t.root.preorder, m.IsFormed := by
  rw [Node.preorder_eq, h.root_eq]
  refine List.forall_mem_cons.mpr ⟨?_, ?_⟩
  · simp only [Node.IsFormed, Node.around, Forest.map_kind_nodes]
    exact Production.chunk.form h.derives.yields
  · exact Forest.formed (h.derives.fit (by simp)) h.derives.ruled h.among.isLiteral 0 0

end LuauTidy
