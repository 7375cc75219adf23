import LuauTidy.Proofs.Renditions

/-!
# Quotients

The operands of a floor division are copied as they stand into the lowered text.
They are read from it as the trees that they are in the source: what can stand
beside a double slash can stand beside a slash, and a closing parenthesis bounds
every expression.

* `Takes.slash` — a slash before an operand;
* `Rendition.quotient`, `Rendition.assignment` — the lowered texts;
* `SyntaxTree.exists_quotient`, `SyntaxTree.exists_assignment` — their rows, whatever follows;
* `SyntaxTree.KeepsDivision`, `SyntaxTree.KeepsAssignment` — what is read from
  them;
* `lowering_keeps_operands` — every floor division of a tree keeps its operands.
-/

namespace LuauTidy

open Lexeme

namespace Content

/-- The call `math.floor(left/right)`. -/
def quotient (left right : Content) : Content :=
  ⟨.expr .call, [],
    [⟨.expr .var, [], [⟨.expr .var, [], [name "math".toList]⟩, mark .dot, name "floor".toList]⟩,
      ⟨.aux .argList, [], [mark .lparen, binary .slash left right, mark .rparen]⟩]⟩

/-- The assignment of a value to a target. -/
def assignment (target value : Content) : Content :=
  ⟨.stmt .assign, [],
    [⟨.aux .varList, [], [target]⟩, mark .assign, ⟨.aux .exprList, [], [value]⟩]⟩

end Content

/-! ### Quotients -/

/-- A text goes on from a slash with another one, or with an equals sign. -/
def extendsSlash : Text → Bool
  | '/' :: c :: _ => c == '/' || c == '='
  | '/' :: [] => false
  | [] => false
  | _ => true

/-- A slash stands by itself before what is no slash and no equals sign. -/
theorem Takes.slash {c : Char} (hslash : c ≠ '/') (hequals : c ≠ '=') (rest : Text) :
    Takes [] ['/'] (c :: rest) (.token .slash) [] := by
  have hlonger : ∀ j ∈ TokenKind.symbols.takeWhile (· != .slash),
      extendsSlash j.grammarName.toList := by decide
  have hfound : (TokenKind.symbols.find? fun j =>
      j.grammarName.toList.isPrefixOf (TokenKind.slash.grammarName.toList ++ c :: rest)) =
        some .slash := by
    rw [TokenKind.find_symbols_eq_some (by decide)]
    refine ⟨List.prefix_append _ _, ?_⟩
    intro j hj hprefix
    have hname := hlonger j hj
    obtain ⟨tail, htail⟩ := hprefix
    have htail : j.grammarName.toList ++ tail = '/' :: c :: rest := htail
    generalize j.grammarName.toList = name at hname htail
    match name with
    | [] => cases hname
    | [d] =>
        obtain ⟨rfl, -⟩ := List.cons.inj htail
        cases hname
    | d :: e :: name =>
        obtain ⟨rfl, hsecond⟩ := List.cons.inj htail
        obtain ⟨rfl, -⟩ := List.cons.inj hsecond
        simp [extendsSlash, hslash, hequals] at hname
  exact (Code.symbol rfl rfl rfl rfl hfound).takes rfl

variable {left right : Text} {leftContent rightContent : Content} {leftRow : Text → Forest}
  {rightRow : Forest}

/-- A quotient of two operands. -/
theorem Rendition.quotient {rest : Text}
    (hleft : Excerpt (.climb 0) (.of .slash) left leftContent leftRow)
    (hright : Rendition [.sub (.operand 7)] (.of .rparen) right (')' :: rest) [rightContent]
      rightRow)
    (hopens : ∃ c later, right = c :: later ∧ c ≠ '/' ∧ c ≠ '=') (gap : Text)
    (blank : gap.all isBlank) (next : Ahead) :
    ∃ f, f.OpensBehind gap ∧ Rendition [.sub .chain] next (gap ++ SyntaxTree.flooredQuotient left right) rest
      [.quotient leftContent rightContent] f := by
  have hslash : TokenKind.slash.grammarName.toList = ['/'] := by decide
  have hdot : TokenKind.dot.grammarName.toList = ['.'] := by decide
  have hopen : TokenKind.lparen.grammarName.toList = ['('] := by decide
  have hclose : TokenKind.rparen.grammarName.toList = [')'] := by decide
  have htakes : Takes [] ['/'] (right ++ ')' :: rest) (.token .slash) [] := by
    obtain ⟨c, later, rfl, hc, hequals⟩ := hopens
    exact Takes.slash hc hequals _
  -- from the inside to the outside, and from the right to the left
  have hdivide := hright.mark [] hslash rfl htakes
  have hdivision := ((hleft.rendition [] rfl (.cons (by decide) _)).append hdivide).node
    (.binary 0 .slash 7 7 rfl (by decide))
  have hvalue := (hdivision.operand (Ahead.bounds_of rfl).operand).exprs (Ahead.bounds_of rfl)
  have hend := (nil next rest).mark [] hclose rfl rfl
  have harguments := ((hvalue.append hend).mark [] hopen rfl rfl).node .arguments
  have hmath (later : Text) := (((nil (.of .dot) ('.' :: later)).name gap "math".toList blank
    rfl).node .variableName).flat .chainVariable
  have hfloor (later : Text) := ((nil (.of .lparen) ('(' :: later)).name [] "floor".toList rfl
    rfl).mark [] hdot rfl rfl
  have haccess (later : Text) :=
    (((hmath _).append (hfloor later)).node .access).flat .chainVariable
  have hcall := (((haccess _).append harguments).flat .call).node .chainCall
  refine ⟨_, ?_, hcall.derives, hcall.spells, hcall.flat_eq.trans ?_, hcall.contents_eq.trans rfl⟩
  · exact ⟨_, rfl, rfl, rfl⟩
  · have hname : "math.floor(".toList = "math".toList ++ '.' :: ("floor".toList ++ ['(']) := by
      decide
    rw [SyntaxTree.flooredQuotient_eq, hname]
    generalize "math".toList = math
    generalize "floor".toList = floor
    simp

/-! ### Assignments -/

/-- The row of an assignment. -/
def Forest.assignment (target value : Forest) : Forest :=
  node (.stmt .assign) (node (.aux .varList) target
    (mark [' '] .assign (node (.aux .exprList) value nil))) nil

/-- An assignment of a value to a target. -/
theorem Rendition.assignment {next : Ahead} {target value rest : Text}
    {targetContent valueContent : Content} {targetRow : Text → Forest} {valueRow : Forest}
    (htarget : Excerpt .variable (.of .assign) target targetContent targetRow)
    (hvalue : Rendition [.sub .expr] next ([' '] ++ value) rest [valueContent] valueRow)
    (hnext : next.Bounds) (gap : Text) (blank : gap.all isBlank) :
    Rendition [.sub .statement] next (gap ++ (target ++ " = ".toList ++ value)) rest
      [.assignment targetContent valueContent] (.assignment (targetRow gap) valueRow) := by
  have hequals : TokenKind.assign.grammarName.toList = ['='] := by decide
  have hvalues := ((hvalue.exprs hnext).node .exprList).mark [' '] hequals rfl rfl
  have hnoMore (rest : Text) := ((nil (.of .assign) rest).look
    (Ahead.bounds_of (k := .assign) rfl).comma).flat (.noMore .comma .variable)
  have htargets (later : Text) := ((htarget.rendition gap blank (Text.parts_blank later)).append
    (hnoMore (' ' :: later))).node .varList
  have hstatement := ((htargets _).append hvalues).node .assignment
  rw [Forest.append_nil] at hstatement
  refine ⟨hstatement.derives, hstatement.spells, hstatement.flat_eq.trans ?_,
    hstatement.contents_eq.trans rfl⟩
  simp

/-! ### What lowering does to operands -/

/-- The lowered text of a floor division is the call of `math.floor` with one
argument, the quotient of the operands of the division. -/
def SyntaxTree.KeepsDivision (t : SyntaxTree) (n : Node) : Prop :=
  ∃ left mark right text, n.children = [left, mark, right] ∧ t.loweredFloorDivision n = .ok text ∧
    ReadsAs text (.quotient (left.content t.source) (right.content t.source))

/-- The lowered text of a floor division that assigns is one assignment to the
target.  Its value is the call of `math.floor` for the quotient of the target and
the value, in parentheses if the value is a binary operation or a conditional. -/
def SyntaxTree.KeepsAssignment (t : SyntaxTree) (n : Node) : Prop :=
  ∃ target mark value text u, n.children = [target, mark, value] ∧
    t.loweredCompound n = .ok text ∧ parse text = .ok u ∧ u.errors = [] ∧
      contentsOf u.source u.root.children = [.assignment (target.content t.source)
        (.quotient (target.content t.source)
          (if needsParens value.kind then .parens (value.content t.source)
            else value.content t.source))]

/-- A slash answers the questions of an operand as a double slash does: the two
have the same powers. -/
theorem Derives.before_slash {f : Forest} {limit : Nat} {comment : Bool}
    (h : Derives [.sub (.climb limit)] f ⟨some (.token .doubleSlash), comment⟩) :
    Derives [.sub (.climb 0)] f (.of .slash) := by
  apply (h.loosened (Nat.zero_le limit)).expr_before rfl
  · intro limit hends k l r hk hpowers
    obtain rfl := TokenClass.token.inj (Option.some.inj hk)
    exact hends .doubleSlash l r rfl hpowers
  · intro _ cls hcls
    obtain rfl := Option.some.inj hcls
    rfl

/-- The parts of an operation in the source and in the lowered text. -/
theorem Forest.contents_between {op : TokenKind} {g later : Forest} {passed : List Word} {w : Word}
    {t : SyntaxTree} {ws vs : List Word} (hleft : g.IsExpr) (hright : later.IsExpr)
    (hamong : Word.Among t ws (g ++ .leaf (.token op) passed w later).words vs)
    {made lastEnd : Nat} {left mark right : Node}
    (hnodes : (g ++ leaf (.token op) passed w later).nodes made lastEnd = [left, mark, right]) :
    g.contents = [left.content t.source] ∧ later.contents = [right.content t.source] := by
  have hcontents := Forest.contentsOf_nodes hamong.stand made lastEnd
  obtain ⟨c, hc⟩ := hleft.contents
  obtain ⟨d, hd⟩ := hright.contents
  rw [hnodes, Forest.contents_append, Forest.contents, hc, hd] at hcontents
  simp only [contentsOf, List.cons_append, List.nil_append, List.cons.injEq] at hcontents
  rw [hc, hd, hcontents.1, hcontents.2.2.1]
  exact ⟨rfl, rfl⟩

section Lowered

variable {t : SyntaxTree} {inner f : Forest} {next : Ahead} {ws vs : List Word} {made lastEnd : Nat}
  {n : Node}

/-- The lowered text of a floor division, and the row that is read from it: a slash
binds as tightly as a double slash on both sides. -/
theorem SyntaxTree.exists_quotient {limit : Nat}
    (h : Derives [.sub (.climb limit), .mark .doubleSlash, .sub (.operand 7)] inner next)
    (hamong : Word.Among t ws inner.words vs) (hn : n.children = inner.nodes made lastEnd) :
    ∃ left mark right text, n.children = [left, mark, right] ∧
      t.loweredFloorDivision n = .ok text ∧ ∀ gap : Text, gap.all isBlank → ∀ next rest, ∃ f,
        f.OpensBehind gap ∧ Rendition [.sub .chain] next (gap ++ text) rest
          [.quotient (left.content t.source) (right.content t.source)] f := by
  obtain ⟨g, passed, w, later, left, mark, right, k, rfl, hg, hlater, -, hw, hnodes, -, -, hleft,
    hright⟩ := h.spans_between rfl rfl hamong.stand made lastEnd
  obtain ⟨hleftContent, hrightContent⟩ :=
    Forest.contents_between (hg.isExpr rfl) (hlater.isExpr rfl) hamong hnodes
  rw [Forest.words_append, Forest.words] at hamong
  rw [hw] at hg
  have hdividend := hg.before_slash.excerpt rfl hamong.left hleftContent
  have hbounded := hlater.bounded rfl Ahead.bounds_rparen
  have hdivisor := hbounded.excerpt rfl hamong.right.tail hrightContent
  refine ⟨left, mark, right, _, hn.trans hnodes, ?_, fun gap blank next rest =>
    Rendition.quotient hdividend (hdivisor.rendition [] rfl (Text.parts_rparen rest))
      hdivisor.opens gap blank next⟩
  simp [loweredFloorDivision, Node.expectChild, Node.child?, hn, hnodes, hleft.text_eq,
    hright.text_eq, bind, Except.bind, pure, Except.pure]

/-- A floor division keeps its operands. -/
theorem SyntaxTree.keepsDivision {limit : Nat}
    (h : Derives [.sub (.climb limit), .mark .doubleSlash, .sub (.operand 7)] inner next)
    (hamong : Word.Among t ws inner.words vs) (hn : n.children = inner.nodes made lastEnd) :
    t.KeepsDivision n := by
  obtain ⟨left, mark, right, text, hchildren, htext, hrow⟩ := exists_quotient h hamong hn
  obtain ⟨f, -, hcall⟩ := hrow [] rfl .none []
  exact ⟨left, mark, right, text, hchildren, htext,
    (hcall.operand_of_chain Ahead.bounds_none 0).readsAs⟩

/-- A variable is the left operand of a division. -/
theorem Derives.dividend (h : Derives [.sub .variable] f next) :
    Derives [.sub (.climb 0)] f (.of .slash) := by
  have hvariable : Derives [.sub .chain] f (.of .slash) :=
    .ofFlat .chainVariable (h.closed_before rfl _)
  exact hvariable.climb_of_chain (Grammar.endsChain_of rfl rfl) 0

/-- A value that is no binary operation is the right operand of a division. -/
theorem Derives.divisor (h : Derives [.sub .expr] f next)
    (hf : ∀ inner, f ≠ .node (.expr .binary) inner .nil) :
    Derives [.sub (.operand 7)] f (.of .rparen) := by
  have hrparen := Ahead.bounds_rparen
  have htight := h.climb_of_operand.tightened hf 7
  exact (htight.bounded rfl hrparen).operand (hrparen.operand.mono (Nat.zero_le 7))

/-- The value of a floor division that assigns, as it stands behind the slash. -/
theorem Derives.exists_divisor (h : Derives [.sub .expr] f next)
    (hamong : Word.Among t ws f.words vs) (hcontent : f.contents = [n.content t.source]) :
    ∃ divisor content row, divisor = (if needsParens n.kind then parenthesized (Word.body f.words)
        else Word.body f.words) ∧
      content = (if needsParens n.kind then .parens (n.content t.source) else n.content t.source) ∧
      (∃ c later, divisor = c :: later ∧ c ≠ '/' ∧ c ≠ '=') ∧
      ∀ later, Rendition [.sub (.operand 7)] (.of .rparen) divisor (')' :: later) [content] row := by
  have hrparen := Ahead.bounds_rparen
  cases hparens : needsParens n.kind with
  | true =>
      have hvalue := (h.bounded rfl hrparen).excerpt rfl hamong hcontent
      have hinside (later : Text) := hvalue.rendition [] rfl (Text.parts_rparen later)
      have hgroup (later : Text) :=
        ((hinside (')' :: later)).parens [] rfl (.of .rparen)).operand_of_chain hrparen 7
      exact ⟨_, _, _, rfl, rfl, ⟨_, _, rfl, by decide, by decide⟩, hgroup⟩
  | false =>
      have hf : ∀ inner, f ≠ .node (.expr .binary) inner .nil := by
        rintro inner rfl
        rw [Forest.contents, Node.content_eq, List.cons.injEq, Content.mk.injEq] at hcontent
        rw [← hcontent.1.1] at hparens
        cases hparens
      have hvalue := (h.divisor hf).excerpt rfl hamong hcontent
      exact ⟨_, _, _, rfl, rfl, hvalue.opens, fun later =>
        hvalue.rendition [] rfl (Text.parts_rparen later)⟩

/-- The lowered text of a floor division that assigns, and the row that is read
from it.  It begins as the floor division does, with the target. -/
theorem SyntaxTree.exists_assignment
    (h : Derives [.sub .variable, .mark .doubleSlashAssign, .sub .expr] inner next)
    (hamong : Word.Among t ws inner.words vs) (hn : n.children = inner.nodes made lastEnd) :
    ∃ g later target mark value text, inner = g ++ later ∧ n.children = [target, mark, value] ∧
      Derives [.sub .variable] g (.of .assign) ∧ EndsOperand 0 next ∧
      t.loweredCompound n = .ok text ∧ ∀ gap : Text, gap.all isBlank → ∀ next, next.Bounds →
        ∀ rest, ∃ f, Derives [.sub .chain] f next ∧
          Rendition [.sub .statement] next (gap ++ text) rest [.assignment (target.content t.source)
            (.quotient (target.content t.source) (if needsParens value.kind
              then .parens (value.content t.source) else value.content t.source))]
            (.assignment (g.led gap) f) := by
  obtain ⟨g, passed, w, later, left, mark, right, k, rfl, hg, hlater, -, -, hnodes, -, -, hleft,
    hright⟩ := h.spans_between rfl rfl hamong.stand made lastEnd
  obtain ⟨hleftContent, hrightContent⟩ :=
    Forest.contents_between (hg.isExpr rfl) (hlater.isExpr rfl) hamong hnodes
  rw [Forest.words_append, Forest.words] at hamong
  have hbefore := hg.closed_before rfl (.of .assign)
  have htarget := hbefore.excerpt rfl hamong.left hleftContent
  have hdividend := hg.dividend.excerpt rfl hamong.left hleftContent
  obtain ⟨divisor, content, row, hdivisor, hcontent, hopens, hrow⟩ :=
    hlater.exists_divisor hamong.right.tail hrightContent
  subst hdivisor hcontent
  refine ⟨g, _, left, mark, right, Word.body g.words ++ " = ".toList ++
    flooredQuotient (Word.body g.words) (if needsParens right.kind
      then parenthesized (Word.body later.words) else Word.body later.words),
    rfl, hn.trans hnodes, hbefore, hlater.endsOperand, ?_, fun gap blank next hnext rest => ?_⟩
  · simp only [loweredCompound, Node.expectChild, Node.child?, hn, hnodes, bind, Except.bind, pure,
      Except.pure, List.getElem?_cons_zero, List.getElem?_cons_succ, hleft.text_eq, hright.text_eq]
  · obtain ⟨f, -, hcall⟩ := Rendition.quotient hdividend (hrow rest) hopens [' '] rfl next
    exact ⟨f, hcall.derives, Rendition.assignment htarget (hcall.operand_of_chain hnext 0) hnext gap blank⟩

/-- A floor division that assigns keeps its target and its value. -/
theorem SyntaxTree.keepsAssignment
    (h : Derives [.sub .variable, .mark .doubleSlashAssign, .sub .expr] inner next)
    (hamong : Word.Among t ws inner.words vs) (hn : n.children = inner.nodes made lastEnd) :
    t.KeepsAssignment n := by
  obtain ⟨g, _, target, mark, value, text, -, hchildren, hg, -, htext, hrow⟩ :=
    exists_assignment h hamong hn
  obtain ⟨f, -, hassign⟩ := hrow [] rfl .none Ahead.bounds_none []
  obtain ⟨kind, w, hw, hkind⟩ := hg.firstLeaf Production.firstIs_expr rfl
  have hcomment : w.isComment = false :=
    (Forest.head_of_firstLeaf (hg.fit (by simp)) hw 0 0).2.1.not_comment (by
      rintro rfl
      cases hkind)
  obtain ⟨u, hparse, herrors, hcontents⟩ := hassign.exists_tree (g.ahead_led [] hw hcomment _)
  exact ⟨target, mark, value, text, u, hchildren, htext, hparse, herrors, hcontents⟩

end Lowered

/-- Lowering keeps the operands of floor divisions.  Each operand is copied as it
stands, without parentheses, and is read again in the lowered text as the same
tree: what can stand beside a double slash can stand beside a slash. -/
theorem lowering_keeps_operands {source : Text} {t : SyntaxTree} (hparse : parse source = .ok t)
    (herrors : t.errors = []) : ∀ v ∈ t.visits,
    (v.node.kind = .expr .binary → v.node.operator? = some .doubleSlash →
      t.KeepsDivision v.node) ∧
    (v.node.kind = .stmt .compoundAssign → v.node.operator? = some .doubleSlashAssign →
      t.KeepsAssignment v.node) := by
  intro v hv
  obtain ⟨inner, gap, hparsed⟩ := parse_parsed hparse herrors
  rcases hparsed.built v hv with hleaf | ⟨rule, inside, hamong, hkind, hchildren⟩
  · have hoperator : v.node.operator? = none := by
      simp [Node.operator?, Node.child?, hleaf]
    constructor
    · intro _ h
      rw [hoperator] at h
      cases h
    · intro _ h
      rw [hoperator] at h
      cases h
  · constructor
    · intro hbinary hslash
      rw [hkind] at hbinary
      subst hbinary
      cases rule with
      | binary limit op left right powers =>
          rw [operator?_between inside rfl rfl hamong hchildren, Option.some.injEq] at hslash
          subst hslash
          obtain ⟨rfl, rfl⟩ := Prod.mk.inj (Option.some.inj powers)
          exact SyntaxTree.keepsDivision inside hamong hchildren
    · intro hcompound hslash
      rw [hkind] at hcompound
      subst hcompound
      cases rule with
      | compoundAssignment op compound =>
          rw [operator?_between inside rfl rfl hamong hchildren, Option.some.injEq] at hslash
          subst hslash
          exact SyntaxTree.keepsAssignment inside hamong hchildren

/-- A power with a sign and a conditional stay what they are to the right of the
slash. -/
theorem lowering_keeps_operands_greedy :
    ∃ t, parse "x = a // b ^ -c; y //= if p then q else r".toList = .ok t ∧ t.errors = [] ∧
      (∃ v ∈ t.visits, v.node.kind = .expr .binary ∧ t.KeepsDivision v.node) ∧
      ∃ v ∈ t.visits, v.node.kind = .stmt .compoundAssign ∧ t.KeepsAssignment v.node := by
  obtain ⟨t, hparse, h⟩ := exists_tree_with
    (p := fun t => t.errors = [] ∧
      (∃ v ∈ t.visits, v.node.kind = .expr .binary ∧ v.node.operator? = some .doubleSlash) ∧
      ∃ v ∈ t.visits, v.node.kind = .stmt .compoundAssign ∧
        v.node.operator? = some .doubleSlashAssign)
    "x = a // b ^ -c; y //= if p then q else r".toList (by decide +kernel)
  obtain ⟨herrors, ⟨v, hv, hdivision, hslash⟩, u, hu, hcompound, hassign⟩ := h
  have hkeeps := lowering_keeps_operands hparse herrors
  exact ⟨t, hparse, herrors, ⟨v, hv, hdivision, (hkeeps v hv).1 hdivision hslash⟩, u, hu, hcompound,
    (hkeeps u hu).2 hcompound hassign⟩

end LuauTidy
