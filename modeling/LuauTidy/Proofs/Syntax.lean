import LuauTidy.Grammar.Stmt
import LuauTidy.Proofs.Forest

/-!
# The grammar

The grammar as data: productions, each of which lists what it asks for from
left to right.  A production may build a node around its row, or leave the row
to the one that asked for it.  Some productions look at what stands ahead
without taking it.

* `Nonterminal`, `Symbol`, `Production` — the productions;
* `Derives` — the rows that match what is asked for;
* `Holds` — a row taken apart by what is asked for;
* `Derives.phrase_induction` — induction over the productions used.
-/

namespace LuauTidy

/-- What a phrase can be. -/
inductive Nonterminal
  /-- An expression of operators that bind tighter than a limit. -/
  | operand (limit : Nat)
  /-- Such an expression, as far as it was read. -/
  | climb (limit : Nat)
  | simple
  | suffixed
  /-- A name or parenthesis with some suffixes. -/
  | chain
  | variable
  /-- What stands inside of a call. -/
  | callParts
  | arguments
  /-- Further items, each after a separator. -/
  | more (separator : TokenKind) (item : Nonterminal)
  | exprs
  | table
  | fieldList
  | fields
  | field
  | functionBody
  | paramList
  | someParams
  | params
  | pieces
  | interpolated
  | elseifs
  | name
  | binding
  | functionName
  | varList
  | exprList
  | elseifBlocks
  | elseBlock
  | statement
  | returnStatement
  | comments
  | semicolons
  | items
  | block
  | chunk
  deriving DecidableEq, Repr

/-- An expression of any operators. -/
abbrev Nonterminal.expr : Nonterminal := .operand 0

/-- What a production asks for in one place. -/
inductive Symbol
  /-- A token as a leaf of a kind. -/
  | leaf (kind : Kind) (fits : Token → Prop)
  /-- A token of a kind, which leaves no trace. -/
  | skip (k : TokenKind)
  /-- A glance at the next token. -/
  | look (fits : Ahead → Prop)
  | sub (n : Nonterminal)

/-- A keyword or symbol. -/
def Symbol.mark (k : TokenKind) : Symbol := .leaf (.token k) fun t => t.cls = .token k

/-- A literal. -/
def Symbol.literal (k : ExprKind) : Symbol := .leaf (.expr k) fun t => t.cls = .literal k

/-- A comment. -/
def Symbol.comment : Symbol := .leaf (.stmt .comment) fun t => t.cls = .comment

/-- The word `continue`. -/
def Symbol.continueWord : Symbol :=
  .leaf (.token .kwContinue) fun t => t.cls = .token .name ∧ t.text = "continue".toList

/-- A keyword, symbol or name is no comment. -/
theorem Token.isComment_of_mark {t : Token} {k : TokenKind} (h : t.cls = .token k) :
    t.isComment = false := by
  simp [Token.isComment, h]

/-! ### Glances -/

/-- A token with which a suffix begins. -/
def TokenClass.startsSuffix : TokenClass → Bool
  | .token .dot | .token .lbracket | .token .colon | .token .lparen | .token .lbrace => true
  | .literal .string => true
  | _ => false

/-- A token that closes a block. -/
def TokenClass.closesBlock : TokenClass → Bool
  | .token .kwEnd | .token .kwElse | .token .kwElseif | .token .kwUntil => true
  | _ => false

/-- The next token is not of a kind. -/
def LacksToken (k : TokenKind) (next : Ahead) : Prop := next.cls ≠ some (.token k)

/-- The next token is no operator that binds tighter than a limit. -/
def EndsOperand (limit : Nat) (next : Ahead) : Prop :=
  ∀ k l r, next.cls = some (.token k) → k.bindingPowers? = some (l, r) → l ≤ limit

/-- The next token is no suffix. -/
def EndsChain (next : Ahead) : Prop := ∀ cls, next.cls = some cls → cls.startsSuffix = false

/-- The next token does not assign to what was read. -/
def EndsCall (next : Ahead) : Prop :=
  ∀ k, next.cls = some (.token k) → k ≠ .assign ∧ k ≠ .comma ∧ k.isCompoundAssign = false

/-- The next token, if there is one, closes the block. -/
def EndsBlock (next : Ahead) : Prop := ∀ cls, next.cls = some cls → cls.closesBlock

/-- The next token is none with which `continue` is a variable. -/
def EndsContinue (next : Ahead) : Prop :=
  ∀ cls, next.cls = some cls → Grammar.continuesExpression cls = false

/-- A return without values ends here. -/
def EndsReturn (next : Ahead) : Prop := EndsBlock next ∨ next.cls = some (.token .semi)

/-- No comment stands right ahead. -/
def EndsComments (next : Ahead) : Prop := next.comment = false

/-! ### Productions -/

open Symbol in
/-- The productions.  A production of a kind builds a node of the kind. -/
inductive Production : Nonterminal → Option Kind → List Symbol → Prop
  | operand (limit : Nat) : Production (.operand limit) none [sub (.climb limit), look (EndsOperand limit)]
  | plain (limit : Nat) : Production (.climb limit) none [sub .simple]
  | unary (limit : Nat) (op : TokenKind) (unary : op.isUnary) :
      Production (.climb limit) (some (.expr .unary)) [mark op, sub (.operand unaryPower)]
  | binary (limit : Nat) (op : TokenKind) (left right : Nat)
      (powers : op.bindingPowers? = some (left, right)) (tighter : limit < left) :
      Production (.climb limit) (some (.expr .binary)) [sub (.climb limit), mark op, sub (.operand right)]
  | literal (k : ExprKind) : Production .simple none [literal k]
  | interpolation : Production .simple (some (.expr .interpolation)) [mark .interpStart, sub .pieces]
  | content : Production .pieces none [mark .interpContent, sub .pieces]
  | interpolated : Production .pieces none [sub .interpolated, sub .pieces]
  | interpolatedExpr : Production .interpolated (some (.aux .interpExpr))
      [mark .interpBraceOpen, sub .expr, mark .interpBraceClose]
  | interpolationEnd : Production .pieces none [mark .interpEnd]
  | simpleTable : Production .simple none [sub .table]
  | anonymousFunction :
      Production .simple (some (.expr .function)) [mark .kwFunction, sub .functionBody]
  | conditional : Production .simple (some (.expr .conditional))
      [mark .kwIf, sub .expr, mark .kwThen, sub .expr, sub .elseifs, mark .kwElse, sub .expr]
  | noElseif : Production .elseifs none []
  | elseif : Production .elseifs none
      [mark .kwElseif, sub .expr, mark .kwThen, sub .expr, sub .elseifs]
  | simpleSuffixed : Production .simple none [sub .suffixed]
  | suffixed : Production .suffixed none [sub .chain, look EndsChain]
  | chainVariable : Production .chain none [sub .variable]
  | chainCall : Production .chain (some (.expr .call)) [sub .callParts]
  | parens : Production .chain (some (.expr .parens)) [mark .lparen, sub .expr, mark .rparen]
  | variableName : Production .variable (some (.expr .var)) [mark .name]
  | access : Production .variable (some (.expr .var)) [sub .chain, mark .dot, mark .name]
  | index : Production .variable (some (.expr .var))
      [sub .chain, mark .lbracket, sub .expr, mark .rbracket]
  | call : Production .callParts none [sub .chain, sub .arguments]
  | methodCall : Production .callParts none [sub .chain, mark .colon, mark .name, sub .arguments]
  | noArguments : Production .arguments (some (.aux .argList)) [mark .lparen, mark .rparen]
  | arguments : Production .arguments (some (.aux .argList)) [mark .lparen, sub .exprs, mark .rparen]
  | stringArgument : Production .arguments (some (.aux .argList)) [literal .string]
  | tableArgument : Production .arguments (some (.aux .argList)) [sub .table]
  | noMore (separator : TokenKind) (item : Nonterminal) :
      Production (.more separator item) none [look (LacksToken separator)]
  | more (separator : TokenKind) (item : Nonterminal)
      (separates : separator = .comma ∨ separator = .dot) :
      Production (.more separator item) none [mark separator, sub item, sub (.more separator item)]
  | exprs : Production .exprs none [sub .expr, sub (.more .comma .expr)]
  | emptyTable : Production .table (some (.expr .table))
      [mark .lbrace, look EndsComments, mark .rbrace]
  | table : Production .table (some (.expr .table)) [mark .lbrace, sub .fieldList, mark .rbrace]
  | commentFields : Production .fieldList (some (.aux .fieldList)) [comment, sub .comments]
  | lastFieldOnly : Production .fieldList (some (.aux .fieldList))
      [sub .comments, sub .field, sub .comments]
  | fieldList (separator : TokenKind) (separates : separator = .comma ∨ separator = .semi) :
      Production .fieldList (some (.aux .fieldList))
        [sub .comments, sub .field, sub .comments, mark separator, sub .fields]
  | noFields : Production .fields none [sub .comments]
  | lastField : Production .fields none [sub .comments, sub .field, sub .comments]
  | fields (separator : TokenKind) (separates : separator = .comma ∨ separator = .semi) :
      Production .fields none [sub .comments, sub .field, sub .comments, mark separator, sub .fields]
  | keyedField : Production .field (some (.aux .field))
      [mark .lbracket, sub .expr, mark .rbracket, mark .assign, sub .expr]
  | namedField : Production .field (some (.aux .field)) [mark .name, mark .assign, sub .expr]
  | itemField : Production .field (some (.aux .field)) [sub .expr]
  | functionBody : Production .functionBody (some (.aux .funcBody))
      [mark .lparen, sub .paramList, mark .rparen, sub .block, mark .kwEnd]
  | noParams : Production .paramList none []
  | paramList : Production .paramList none [sub .someParams]
  | someParams : Production .someParams (some (.aux .paramList)) [sub .params]
  | varargParam : Production .params none [literal .vararg]
  | lastParam : Production .params none [mark .name, look (LacksToken .comma)]
  | params : Production .params none [mark .name, mark .comma, sub .params]
  | name : Production .name none [mark .name]
  | binding : Production .binding (some (.aux .binding)) [mark .name]
  | functionName : Production .functionName (some (.aux .funcName))
      [sub .name, sub (.more .dot .name), look (LacksToken .colon)]
  | methodName : Production .functionName (some (.aux .funcName))
      [sub .name, sub (.more .dot .name), mark .colon, mark .name]
  | varList : Production .varList (some (.aux .varList)) [sub .variable, sub (.more .comma .variable)]
  | exprList : Production .exprList (some (.aux .exprList)) [sub .exprs]
  | localFunction : Production .statement (some (.stmt .localFn))
      [mark .kwLocal, mark .kwFunction, mark .name, sub .functionBody]
  | declaration : Production .statement (some (.stmt .localVar))
      [mark .kwLocal, sub .binding, sub (.more .comma .binding), look (LacksToken .assign)]
  | definition : Production .statement (some (.stmt .localVar))
      [mark .kwLocal, sub .binding, sub (.more .comma .binding), mark .assign, sub .exprs]
  | function : Production .statement (some (.stmt .fn))
      [mark .kwFunction, sub .functionName, sub .functionBody]
  | ifStatement : Production .statement (some (.stmt .ifStmt))
      [mark .kwIf, sub .expr, mark .kwThen, sub .block, sub .elseifBlocks, sub .elseBlock,
        mark .kwEnd]
  | noElseifBlock : Production .elseifBlocks none []
  | elseifBlock : Production .elseifBlocks none
      [mark .kwElseif, sub .expr, mark .kwThen, sub .block, sub .elseifBlocks]
  | noElseBlock : Production .elseBlock none []
  | elseBlock : Production .elseBlock none [mark .kwElse, sub .block]
  | whileStatement : Production .statement (some (.stmt .whileStmt))
      [mark .kwWhile, sub .expr, mark .kwDo, sub .block, mark .kwEnd]
  | doStatement : Production .statement (some (.stmt .doStmt)) [mark .kwDo, sub .block, mark .kwEnd]
  | repeatStatement : Production .statement (some (.stmt .repeatStmt))
      [mark .kwRepeat, sub .block, mark .kwUntil, sub .expr]
  | forRange : Production .statement (some (.stmt .forRange))
      [mark .kwFor, sub .binding, mark .assign, sub .expr, mark .comma, sub .expr, mark .kwDo,
        sub .block, mark .kwEnd]
  | forRangeStep : Production .statement (some (.stmt .forRange))
      [mark .kwFor, sub .binding, mark .assign, sub .expr, mark .comma, sub .expr, mark .comma,
        sub .expr, mark .kwDo, sub .block, mark .kwEnd]
  | forIn : Production .statement (some (.stmt .forIn))
      [mark .kwFor, sub .binding, sub (.more .comma .binding), mark .kwIn, sub .exprs, mark .kwDo,
        sub .block, mark .kwEnd]
  | breakStatement : Production .statement (some (.stmt .breakStmt)) [mark .kwBreak]
  | continueStatement : Production .statement (some (.stmt .continueStmt))
      [continueWord, look EndsContinue]
  | assignment : Production .statement (some (.stmt .assign))
      [sub .varList, mark .assign, sub .exprList]
  | compoundAssignment (op : TokenKind) (compound : op.isCompoundAssign) :
      Production .statement (some (.stmt .compoundAssign)) [sub .variable, mark op, sub .expr]
  | callStatement : Production .statement (some (.stmt .call))
      [sub .callParts, look EndsChain, look EndsCall]
  | returnNothing : Production .returnStatement (some (.stmt .returnStmt))
      [mark .kwReturn, look EndsReturn]
  | returnValues : Production .returnStatement (some (.stmt .returnStmt)) [mark .kwReturn, sub .exprs]
  | noComments : Production .comments none [look EndsComments]
  | comments : Production .comments none [comment, sub .comments]
  | noSemicolons : Production .semicolons none [look (LacksToken .semi)]
  | semicolons : Production .semicolons none [skip .semi, sub .semicolons]
  | lastItems : Production .items none [sub .comments, look EndsBlock]
  | items : Production .items none [sub .comments, sub .statement, sub .semicolons, sub .items]
  | returnItems : Production .items none
      [sub .comments, sub .returnStatement, sub .semicolons, sub .comments, look EndsBlock]
  | block : Production .block (some (.aux .block)) [sub .items]
  | chunk : Production .chunk (some (.aux .chunk)) [sub .items]

/-! ### Rows -/

/-- A row matches what is asked for, where `next` is the class of the token
behind it.  Only comments are passed over, and none before a comment. -/
inductive Derives : List Symbol → Forest → (next : Ahead) → Prop
  | nil (next : Ahead) : Derives [] .nil next
  | leaf {kind : Kind} {fits : Token → Prop} {passed : List Word} {w : Word} {later : Forest}
      {symbols : List Symbol} {next : Ahead}
      (comments : ∀ p ∈ passed, p.isComment) (right : w.isComment → passed = [])
      (fitting : fits w.toToken) (tail : Derives symbols later next) :
      Derives (.leaf kind fits :: symbols) (.leaf kind passed w later) next
  | skip {k : TokenKind} {passed : List Word} {w : Word} {later : Forest}
      {symbols : List Symbol} {next : Ahead}
      (comments : ∀ p ∈ passed, p.isComment) (fitting : w.cls = .token k)
      (tail : Derives symbols later next) :
      Derives (.skip k :: symbols) (.skipped passed w later) next
  | look {fits : Ahead → Prop} {f : Forest} {symbols : List Symbol}
      {next : Ahead} (fitting : fits (f.ahead next)) (tail : Derives symbols f next) :
      Derives (.look fits :: symbols) f next
  | flat {n : Nonterminal} {parts symbols : List Symbol} {f later : Forest}
      {next : Ahead} (rule : Production n none parts)
      (inside : Derives parts f (later.ahead next)) (tail : Derives symbols later next) :
      Derives (.sub n :: symbols) (f ++ later) next
  | node {n : Nonterminal} {kind : Kind} {parts symbols : List Symbol} {inner later : Forest}
      {next : Ahead} (rule : Production n (some kind) parts)
      (inside : Derives parts inner (later.ahead next)) (tail : Derives symbols later next) :
      Derives (.sub n :: symbols) (.node kind inner later) next

/-! ### Leaves -/

/-- The kind of the leaf that a token becomes. -/
def TokenClass.leafKind? : TokenClass → Option Kind
  | .token k => some (.token k)
  | .literal k => some (.expr k)
  | _ => none

/-- A token can be a leaf of a kind: of its own kind, as a comment, or as the
word `continue`. -/
def LeafFits (kind : Kind) (t : Token) : Prop :=
  t.cls.leafKind? = some kind ∨ (t.cls = .comment ∧ kind = .stmt .comment) ∨
    (t.cls = .token .name ∧ t.text = "continue".toList ∧ kind = .token .kwContinue)

/-- A leaf of another kind is no comment. -/
theorem LeafFits.not_comment {kind : Kind} {t : Token} (h : LeafFits kind t)
    (hkind : kind ≠ .stmt .comment) : t.isComment = false := by
  cases ht : t.isComment with
  | false => rfl
  | true =>
      have hcls : t.cls = .comment := by simpa [Token.isComment] using ht
      simp [LeafFits, hcls, TokenClass.leafKind?, hkind] at h

/-- The leaves that a symbol asks for fit their tokens. -/
def Symbol.Proper : Symbol → Prop
  | .leaf kind fits => ∀ t, fits t → LeafFits kind t
  | .skip k => k = .semi
  | _ => True

@[simp] theorem Symbol.proper_mark (k : TokenKind) : (Symbol.mark k).Proper := by
  intro t ht
  exact .inl (by rw [ht]; rfl)

@[simp] theorem Symbol.proper_literal (k : ExprKind) : (Symbol.literal k).Proper := by
  intro t ht
  exact .inl (by rw [ht]; rfl)

@[simp] theorem Symbol.proper_comment : Symbol.comment.Proper := by
  intro t ht
  exact .inr (.inl ⟨ht, rfl⟩)

@[simp] theorem Symbol.proper_continueWord : Symbol.continueWord.Proper := by
  intro t ht
  exact .inr (.inr ⟨ht.1, ht.2, rfl⟩)

@[simp] theorem Symbol.proper_look (fits : Ahead → Prop) :
    (Symbol.look fits).Proper := trivial

@[simp] theorem Symbol.proper_sub (n : Nonterminal) : (Symbol.sub n).Proper := trivial

/-- The productions ask for leaves that fit their tokens. -/
theorem Production.proper {n : Nonterminal} {kind : Option Kind} {parts : List Symbol}
    (h : Production n kind parts) : ∀ s ∈ parts, s.Proper := by
  cases h <;> simp
  rfl

/-- Every leaf of a forest fits its token, and only comments are passed over
and only semicolons skipped. -/
def Forest.Fit : Forest → Prop
  | .nil => True
  | .leaf kind passed w later =>
    (∀ p ∈ passed, p.isComment) ∧ LeafFits kind w.toToken ∧ later.Fit
  | .skipped passed w later =>
    (∀ p ∈ passed, p.isComment) ∧ w.cls = .token .semi ∧ later.Fit
  | .node _ inner later => inner.Fit ∧ later.Fit

theorem Forest.fit_append {f g : Forest} : (f ++ g).Fit ↔ f.Fit ∧ g.Fit := by
  induction f <;> simp_all [Forest.Fit, and_assoc]

/-- The leaves of a row that matches fit their tokens. -/
theorem Derives.fit {symbols : List Symbol} {f : Forest} {next : Ahead}
    (h : Derives symbols f next) (hproper : ∀ s ∈ symbols, s.Proper) : f.Fit := by
  induction h with
  | nil => trivial
  | leaf comments _ fitting _ ih =>
      simp only [List.mem_cons, forall_eq_or_imp] at hproper
      exact ⟨comments, hproper.1 _ fitting, ih hproper.2⟩
  | skip comments fitting _ ih =>
      simp only [List.mem_cons, forall_eq_or_imp] at hproper
      obtain rfl := hproper.1
      exact ⟨comments, fitting, ih hproper.2⟩
  | look _ _ ih =>
      simp only [List.mem_cons, forall_eq_or_imp] at hproper
      exact ih hproper.2
  | flat rule _ _ ihInside ih =>
      simp only [List.mem_cons, forall_eq_or_imp] at hproper
      exact Forest.fit_append.mpr ⟨ihInside rule.proper, ih hproper.2⟩
  | node rule _ _ ihInside ih =>
      simp only [List.mem_cons, forall_eq_or_imp] at hproper
      exact ⟨ihInside rule.proper, ih hproper.2⟩

/-- No word of a forest is an error. -/
theorem Forest.Fit.noError {f : Forest} (h : f.Fit) :
    ∀ w ∈ f.words, ∀ cause, w.cls ≠ .error cause := by
  induction f with
  | nil => simp [Forest.words]
  | leaf kind passed w later ih =>
      obtain ⟨hpassed, hw, hlater⟩ := h
      intro v hv cause hcls
      simp only [Forest.words, List.mem_append, List.mem_cons] at hv
      obtain hv | rfl | hv := hv
      · simpa [Token.isComment, hcls] using hpassed v hv
      · simp [LeafFits, hcls, TokenClass.leafKind?] at hw
      · exact ih hlater v hv cause hcls
  | skipped passed w later ih =>
      obtain ⟨hpassed, hw, hlater⟩ := h
      intro v hv cause hcls
      simp only [Forest.words, List.mem_append, List.mem_cons] at hv
      obtain hv | rfl | hv := hv
      · simpa [Token.isComment, hcls] using hpassed v hv
      · simp [hcls] at hw
      · exact ih hlater v hv cause hcls
  | node kind inner later ihInner ih =>
      intro v hv
      simp only [Forest.words, List.mem_append] at hv
      exact hv.elim (ihInner h.1 v) (ih h.2 v)

/-- Every node in a row is built by a production. -/
def Forest.Ruled (next : Ahead) : Forest → Prop
  | .nil => True
  | .leaf _ _ _ later => later.Ruled next
  | .skipped _ _ later => later.Ruled next
  | .node kind inner later =>
    (∃ n parts, Production n (some kind) parts ∧ Derives parts inner (later.ahead next)) ∧
      later.Ruled next

theorem Forest.ruled_append {f g : Forest} {next : Ahead} :
    (f ++ g).Ruled next ↔ f.Ruled (g.ahead next) ∧ g.Ruled next := by
  induction f <;> simp_all [Forest.Ruled, and_assoc]

/-- The nodes in a row that matches are built by productions. -/
theorem Derives.ruled {symbols : List Symbol} {f : Forest} {next : Ahead}
    (h : Derives symbols f next) : f.Ruled next := by
  induction h with
  | nil => trivial
  | leaf _ _ _ _ ih => exact ih
  | skip _ _ _ ih => exact ih
  | look _ _ ih => exact ih
  | flat _ _ _ ihInside ih => exact Forest.ruled_append.mpr ⟨ihInside, ih⟩
  | node rule inside _ _ ih => exact ⟨⟨_, _, rule, inside⟩, ih⟩

/-! ### Taking rows apart -/

/-- A row taken apart by what is asked for, where `M` says what is known about
its phrases. -/
def Holds (M : Nonterminal → Forest → Ahead → Prop) :
    List Symbol → Forest → Ahead → Prop
  | [], f, _ => f = .nil
  | .leaf kind fits :: symbols, f, next => ∃ passed w later, f = .leaf kind passed w later ∧
      (∀ p ∈ passed, p.isComment) ∧ (w.isComment → passed = []) ∧ fits w.toToken ∧
      Holds M symbols later next
  | .skip k :: symbols, f, next => ∃ passed w later, f = .skipped passed w later ∧
      (∀ p ∈ passed, p.isComment) ∧ w.cls = .token k ∧ Holds M symbols later next
  | .look fits :: symbols, f, next => fits (f.ahead next) ∧ Holds M symbols f next
  | .sub n :: symbols, f, next => ∃ g later, f = g ++ later ∧
      Derives [.sub n] g (later.ahead next) ∧ M n g (later.ahead next) ∧
      Holds M symbols later next

namespace Derives

variable {n : Nonterminal} {kind : Kind} {symbols parts : List Symbol} {f g : Forest}
  {next : Ahead}

/-- A phrase by a production without a node. -/
theorem ofFlat (rule : Production n none parts) (inside : Derives parts f next) :
    Derives [.sub n] f next := by
  have h : Derives [.sub n] (f ++ .nil) next := .flat rule inside (.nil next)
  rwa [Forest.append_nil] at h

/-- A phrase by a production with a node. -/
theorem ofNode (rule : Production n (some kind) parts) (inside : Derives parts f next) :
    Derives [.sub n] (.node kind f .nil) next :=
  .node rule inside (.nil next)

/-- Rows that match one after the other. -/
theorem append (hf : Derives symbols f (g.ahead next)) (hg : Derives parts g next) :
    Derives (symbols ++ parts) (f ++ g) next := by
  generalize hz : g.ahead next = z at hf
  induction hf with
  | nil => exact hg
  | leaf comments right fitting _ ih => exact .leaf comments right fitting (ih hz)
  | skip comments fitting _ ih => exact .skip comments fitting (ih hz)
  | look fitting _ ih => exact .look (by simpa [hz] using fitting) (ih hz)
  | flat rule inside _ _ ih =>
      rw [List.cons_append, Forest.append_assoc]
      exact .flat rule (by simpa [hz] using inside) (ih hz)
  | node rule inside _ _ ih =>
      rw [List.cons_append, Forest.node_append]
      exact .node rule (by simpa [hz] using inside) (ih hz)

/-- The next token before a row that matches is the next token of the row. -/
theorem ahead_words (h : Derives symbols f next) (ws : List Word) :
    Word.ahead (f.words ++ ws) = f.ahead (Word.ahead ws) := by
  induction h generalizing ws with
  | nil => rfl
  | @leaf _ _ _ w _ _ _ comments right _ _ ih =>
      simp only [Forest.words, List.append_assoc, List.cons_append, Word.ahead_comments comments,
        Word.ahead, Forest.ahead, ih]
      by_cases hw : w.isComment
      · simp [hw, right hw]
      · simp [hw]
  | @skip _ _ w _ _ _ comments fitting _ ih =>
      have hw : w.isComment = false := by simp [Token.isComment, fitting]
      simp [Forest.words, Word.ahead_comments comments, Word.ahead, Forest.ahead, hw]
  | look _ _ ih => exact ih ws
  | flat _ _ _ ihInside ih => simp [ihInside, ih]
  | node _ _ _ ihInside ih => simp [Forest.words, Forest.ahead, ihInside, ih]

/-- What holds of a phrase by the productions holds of every phrase. -/
theorem holds {M : Nonterminal → Forest → Ahead → Prop}
    (flat : ∀ n parts f next, Production n none parts → Derives parts f next → Holds M parts f next →
      M n f next)
    (node : ∀ n kind parts f next, Production n (some kind) parts → Derives parts f next →
      Holds M parts f next → M n (.node kind f .nil) next)
    (h : Derives symbols f next) : Holds M symbols f next := by
  induction h with
  | nil => rfl
  | leaf comments right fitting _ ih => exact ⟨_, _, _, rfl, comments, right, fitting, ih⟩
  | skip comments fitting _ ih => exact ⟨_, _, _, rfl, comments, fitting, ih⟩
  | look fitting _ ih => exact ⟨fitting, ih⟩
  | flat rule inside _ ihInside ih =>
      exact ⟨_, _, rfl, ofFlat rule inside, flat _ _ _ _ rule inside ihInside, ih⟩
  | node rule inside _ ihInside ih =>
      exact ⟨.node _ _ .nil, _, rfl, ofNode rule inside, node _ _ _ _ _ rule inside ihInside, ih⟩

/-- A row that matches, taken apart. -/
theorem parted (h : Derives symbols f next) : Holds (fun _ _ _ => True) symbols f next :=
  h.holds (fun _ _ _ _ _ _ _ => trivial) fun _ _ _ _ _ _ _ _ => trivial

/-- Induction over the productions by which a phrase is derived. -/
theorem phrase_induction {M : Nonterminal → Forest → Ahead → Prop}
    (flat : ∀ n parts f next, Production n none parts → Derives parts f next → Holds M parts f next →
      M n f next)
    (node : ∀ n kind parts f next, Production n (some kind) parts → Derives parts f next →
      Holds M parts f next → M n (.node kind f .nil) next)
    (h : Derives [.sub n] f next) : M n f next := by
  obtain ⟨g, later, rfl, -, hM, rfl⟩ := h.holds flat node
  simpa [Forest.ahead] using hM

/-- The production by which a phrase is derived. -/
theorem phrase_cases (h : Derives [.sub n] f next) :
    (∃ parts, Production n none parts ∧ Derives parts f next) ∨
      ∃ kind parts inner, f = .node kind inner .nil ∧ Production n (some kind) parts ∧
        Derives parts inner next := by
  refine h.phrase_induction
    (M := fun n f next => (∃ parts, Production n none parts ∧ Derives parts f next) ∨
      ∃ kind parts inner, f = .node kind inner .nil ∧ Production n (some kind) parts ∧
        Derives parts inner next) ?_ ?_
  · intro n parts f next rule inside _
    exact .inl ⟨parts, rule, inside⟩
  · intro n kind parts f next rule inside _
    exact .inr ⟨kind, parts, f, rfl, rule, inside⟩

end Derives

end LuauTidy
