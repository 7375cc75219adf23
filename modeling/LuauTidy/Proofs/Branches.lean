import LuauTidy.Proofs.Renditions

/-!
# Branches

A conditional that is lowered to a function keeps its branches: the function
holds one statement, which tests the conditions of the conditional one after the
other and returns the value of the branch taken.

* `Content.branches`, `Content.closure` — the function for a conditional;
* `Rendition.returned`, `Rendition.branch` — a value that is returned, and a
  branch with its condition;
* `SyntaxTree.Operand` — an expression of a source and its node;
* `Derives.exists_branches` — the further branches, one after the other;
* `Derives.exists_conditional` — the parts of a conditional;
* `Derives.exists_closure` — the lowered text of a conditional is read as its
  function.
-/

namespace LuauTidy

open Lexeme

/-! ### The function for a conditional -/

namespace Content

/-- The kind of a subtree. -/
def kind : Content → Kind
  | ⟨kind, _, _⟩ => kind

/-- A block that returns a value. -/
def returned (value : Content) : Content :=
  ⟨.aux .block, [], [⟨.stmt .returnStmt, [], [mark .kwReturn, value]⟩]⟩

/-- The branches of a statement, from those of a conditional: the conditions stay,
and the values are returned. -/
def branches : List Content → List Content
  | keyword :: part :: rest =>
    keyword :: (if keyword.kind = .token .kwThen ∨ keyword.kind = .token .kwElse then returned part
      else part) :: branches rest
  | parts => parts

/-- The call of a function without parameters and with one statement. -/
def called (statement : Content) : Content :=
  ⟨.expr .call, [],
    [parens ⟨.expr .function, [],
      [mark .kwFunction, ⟨.aux .funcBody, [],
        [mark .lparen, mark .rparen, ⟨.aux .block, [], [statement]⟩, mark .kwEnd]⟩]⟩,
      ⟨.aux .argList, [], [mark .lparen, mark .rparen]⟩]⟩

/-- The function for a conditional with some parts, called at once. -/
def closure (parts : List Content) : Content :=
  called ⟨.stmt .ifStmt, [], branches parts ++ [mark .kwEnd]⟩

end Content

/-! ### Branches -/

/-- The row of a block that returns a value. -/
def Forest.returned (value : Forest) : Forest :=
  node (.aux .block) (node (.stmt .returnStmt) (mark [' '] .kwReturn value) nil) nil

/-- The row of a branch before further branches. -/
def Forest.branch (k : TokenKind) (condition value later : Forest) : Forest :=
  mark [' '] k (condition ++ mark [' '] .kwThen (returned value ++ later))

namespace Rendition

variable {symbols : List Symbol} {next : Ahead} {condition value text rest : Text}
  {conditionContent valueContent : Content} {contents : List Content} {conditionRow : Text → Forest}
  {valueRow : Text → Forest} {f : Forest}

/-- A value that is returned where a block is closed. -/
theorem returned (h : Excerpt .expr next value valueContent valueRow) (hnext : next.Closes)
    (parts : rest.Parts) :
    Rendition [.sub .block] next (" return ".toList ++ value) rest [.returned valueContent]
      (.returned (valueRow [' '])) := by
  have hreturn : TokenKind.kwReturn.grammarName.toList = "return".toList := by decide
  have hbare : EndsComments (.of .kwReturn) := rfl
  have hvalue := (h.rendition [' '] rfl parts).exprs hnext.toBounds
  have hstatement := (hvalue.mark [' '] hreturn rfl rfl).node .returnValues
  have hend := (noComments hnext.bare rest).append ((nil next rest).look hnext.block)
  have hbehind := hstatement.append ((noSemicolons hnext.semi rest).append hend)
  have hblock := (((noComments hbare _).append hbehind).flat .returnItems).node .block
  refine ⟨hblock.derives, hblock.spells, hblock.flat_eq.trans ?_, hblock.contents_eq.trans rfl⟩
  simp

/-- A branch with its condition before further branches. -/
theorem branch (h : Rendition symbols next text rest contents f)
    (hcloses : (f.ahead next).Closes) (parts : (text ++ rest).Parts)
    (hcondition : Excerpt .expr (.of .kwThen) condition conditionContent conditionRow)
    (hvalue : Excerpt .expr (f.ahead next) value valueContent valueRow) {k : TokenKind}
    {word : Text} (hword : k.grammarName.toList = word)
    (htakes : ∀ later, Takes [] word (' ' :: later) (.token k) []) :
    Rendition (.mark k :: .sub .expr :: .mark .kwThen :: .sub .block :: symbols) next
      (' ' :: word ++ ' ' :: condition ++ " then return ".toList ++ value ++ text) rest
      (.mark k :: conditionContent :: .mark .kwThen :: .returned valueContent :: contents)
      (.branch k (conditionRow [' ']) (valueRow [' ']) f) := by
  have hthen : TokenKind.kwThen.grammarName.toList = "then".toList := by decide
  have hbehind := ((returned hvalue hcloses parts).append h).mark [' '] hthen rfl rfl
  have htest := (hcondition.rendition [' '] rfl (Text.parts_blank _)).append hbehind
  have hall := htest.mark [' '] hword rfl (htakes _)
  refine ⟨hall.derives, hall.spells, hall.flat_eq.trans ?_, hall.contents_eq.trans rfl⟩
  simp

end Rendition

/-! ### Parts of a conditional -/

section Conditional

variable {t : SyntaxTree} {f row : Forest} {next : Ahead} {ws vs : List Word}

/-- The row of an expression in a source, and its node. -/
structure SyntaxTree.Operand (t : SyntaxTree) (row : Forest) (node : Node) : Prop where
  derives : ∃ next, Derives [.sub .expr] row next
  among : ∃ ws vs, Word.Among t ws row.words vs
  nodes_eq : ∃ made lastEnd, row.nodes made lastEnd = [node]
  kind_eq : ∃ k, node.kind = .expr k
  text_eq : t.text node = .ok (Word.body row.words)
  contents_eq : row.contents = [node.content t.source]

/-- An expression of a source has a node. -/
theorem Derives.exists_operand (h : Derives [.sub .expr] row next)
    (hamong : Word.Among t ws row.words vs) (made lastEnd : Nat) :
    ∃ node, row.nodes made lastEnd = [node] ∧ t.Operand row node := by
  obtain ⟨node, k, hnodes, hkind, hspans⟩ := h.spans rfl hamong.stand made lastEnd
  have hcontents := Forest.contentsOf_nodes hamong.stand made lastEnd
  rw [hnodes] at hcontents
  exact ⟨node, hnodes, ⟨_, h⟩, ⟨_, _, hamong⟩, ⟨_, _, hnodes⟩, ⟨k, hkind⟩, hspans.text_eq,
    hcontents.symm⟩

/-- An expression of a source before all that bounds expressions. -/
theorem SyntaxTree.Operand.excerpt {node : Node} (h : t.Operand row node) (hnext : next.Bounds) :
    Excerpt .expr next (Word.body row.words) (node.content t.source) fun gap => row.led gap := by
  obtain ⟨_, hrow⟩ := h.derives
  obtain ⟨_, _, hamong⟩ := h.among
  exact (hrow.bounded rfl hnext).excerpt rfl hamong h.contents_eq

/-- A branch of a conditional: its keywords, its condition and its value, before
further branches. -/
inductive SyntaxTree.Branch (t : SyntaxTree) (k : TokenKind) (f later : Forest) (nodes : List Node)
    (laterNodes : List Node) : Prop
  | intro (mark thenMark : Node) {condition value : Forest} {test result : Node}
      (test_is : t.Operand condition test) (result_is : t.Operand value result)
      (mark_kind : mark.kind = .token k) (then_kind : thenMark.kind = .token .kwThen)
      (nodes_eq : nodes = mark :: test :: thenMark :: result :: laterNodes)
      (contents_eq : f.contents = .mark k :: test.content t.source :: .mark .kwThen ::
        result.content t.source :: later.contents)

/-- The first branch of a row of branches. -/
theorem Derives.exists_branch {k : TokenKind} {symbols : List Symbol} (hk : k.isMark)
    (h : Derives (.mark k :: .sub .expr :: .mark .kwThen :: .sub .expr :: symbols) f next)
    (hamong : Word.Among t ws f.words vs) (made lastEnd : Nat) :
    ∃ later before ws' made' lastEnd', f.words = before ++ later.words ∧ before ≠ [] ∧
      Derives symbols later next ∧ Word.Among t ws' later.words vs ∧
      t.Branch k f later (f.nodes made lastEnd) (later.nodes made' lastEnd') := by
  obtain ⟨passed, w, _, rfl, -, -, hw, h⟩ := h.uncons_leaf
  obtain ⟨condition, _, rfl, hcondition, h⟩ := h.uncons_sub
  obtain ⟨passed₁, w₁, _, rfl, -, -, hw₁, h⟩ := h.uncons_leaf
  obtain ⟨value, later, rfl, hvalue, hlater⟩ := h.uncons_sub
  have hword : w.text = _ := hamong.mark_text (by simp [Forest.words]) hw hk
  have hword₁ : w₁.text = _ := hamong.mark_text (by simp [Forest.words]) hw₁ (by decide)
  rw [Forest.words, Forest.words_append, Forest.words, Forest.words_append] at hamong
  obtain ⟨test, htest, htestIs⟩ := hcondition.exists_operand hamong.tail.left (made + 1) w.stop
  obtain ⟨result, hresult, hresultIs⟩ := hvalue.exists_operand hamong.tail.right.tail.left
    (made + 1 + condition.count + 1) w₁.stop
  refine ⟨later, passed ++ w :: (condition.words ++ (passed₁ ++ w₁ :: value.words)), _,
    made + 1 + condition.count + 1 + value.count, value.endFrom w₁.stop, ?_, by simp, hlater,
    hamong.tail.right.tail.right, .intro ⟨made, .token k, w.start, w.stop, []⟩
      ⟨made + 1 + condition.count, .token .kwThen, w₁.start, w₁.stop, []⟩ htestIs hresultIs rfl rfl
      ?_ ?_⟩
  · simp [Forest.words]
  · simp [Forest.nodes, Token.isComment_of_mark hw, Token.isComment_of_mark hw₁, htest, hresult]
  · simp [Forest.contents, htestIs.contents_eq, hresultIs.contents_eq, hword, hword₁, Content.mark]

namespace SyntaxTree

variable {n : Node} {l : List Node} {text body : Text}

/-- The statement for a row of branches begins with an expression. -/
theorem branches_expr {k : ExprKind} (hkind : n.kind = .expr k) (htext : t.text n = .ok text)
    (hl : t.branches l = .ok body) : t.branches (n :: l) = .ok (' ' :: text ++ body) := by
  simp [branches, hkind, htext, hl, Except.map, bind, Except.bind, pure, Except.pure]

theorem branches_if (hkind : n.kind = .token .kwIf) (hl : t.branches l = .ok body) :
    t.branches (n :: l) = .ok (" if".toList ++ body) := by
  simp [branches, hkind, hl, bind, Except.bind, pure, Except.pure]

theorem branches_then (hkind : n.kind = .token .kwThen) (hl : t.branches l = .ok body) :
    t.branches (n :: l) = .ok (" then return".toList ++ body) := by
  simp [branches, hkind, hl, bind, Except.bind, pure, Except.pure]

theorem branches_elseif (hkind : n.kind = .token .kwElseif) (hl : t.branches l = .ok body) :
    t.branches (n :: l) = .ok (" elseif".toList ++ body) := by
  simp [branches, hkind, hl, bind, Except.bind, pure, Except.pure]

theorem branches_else (hkind : n.kind = .token .kwElse) (hl : t.branches l = .ok body) :
    t.branches (n :: l) = .ok (" else return".toList ++ body) := by
  simp [branches, hkind, hl, bind, Except.bind, pure, Except.pure]

end SyntaxTree

/-- Further branches of a conditional, as a statement renders them before its last
branch. -/
structure Forest.Branches (t : SyntaxTree) (f : Forest) (nodes : List Node) (body : Text)
    (row : Forest) : Prop where
  branches_eq {l : List Node} {later : Text} (hl : t.branches l = .ok later) :
    t.branches (nodes ++ l) = .ok (body ++ later)
  contents_eq (parts : List Content) :
    Content.branches (f.contents ++ parts) = Content.branches f.contents ++ Content.branches parts
  closes : (row.ahead (.of .kwElse)).Closes
  parts {rest : Text} (hrest : rest.Parts) : (body ++ rest).Parts
  rendition {rest : Text} (hrest : rest.Parts) :
    Rendition [.sub .elseifBlocks] (.of .kwElse) body rest (Content.branches f.contents) row

/-- No further branches. -/
theorem Forest.Branches.nil : Forest.nil.Branches t [] [] .nil where
  branches_eq hl := hl
  contents_eq _ := rfl
  closes := Ahead.closes_of rfl
  parts hrest := hrest
  rendition {rest} _ := (Rendition.nil _ rest).flat .noElseifBlock

/-- The text of a branch behind its keyword. -/
def Forest.branchText (condition value : Forest) (later : Text) : Text :=
  ' ' :: Word.body condition.words ++ " then return ".toList ++ Word.body value.words ++ later

/-- A further branch before others. -/
theorem Forest.Branches.cons {later : Forest} {nodes laterNodes : List Node} {body : Text}
    (hbranch : t.Branch .kwElseif f later nodes laterNodes)
    (hlater : later.Branches t laterNodes body row) :
    ∃ body row, f.Branches t nodes body row := by
  cases hbranch with
  | @intro mark thenMark condition value test result htest hresult hmark hthen hnodes hcontents =>
      subst hnodes
      have helseif : TokenKind.kwElseif.grammarName.toList = "elseif".toList := by decide
      have hthenBounds : (Ahead.of .kwThen).Bounds := Ahead.bounds_of rfl
      obtain ⟨_, hkind⟩ := htest.kind_eq
      obtain ⟨_, hkind'⟩ := hresult.kind_eq
      refine ⟨" elseif".toList ++ condition.branchText value body,
        .branch .kwElseif (condition.led [' ']) (value.led [' ']) row, ?_, ?_, Ahead.closes_of rfl,
        fun _ => .cons (by decide) _, ?_⟩
      · intro l text hl
        have hbranches := SyntaxTree.branches_elseif hmark (SyntaxTree.branches_expr hkind
          htest.text_eq (SyntaxTree.branches_then hthen (SyntaxTree.branches_expr hkind'
            hresult.text_eq (hlater.branches_eq hl))))
        simpa [branchText] using hbranches
      · intro parts
        simp [hcontents, Content.branches, hlater.contents_eq]
      · intro rest hrest
        have hrow := (hlater.rendition hrest).branch hlater.closes (hlater.parts hrest)
          (htest.excerpt hthenBounds) (hresult.excerpt hlater.closes.toBounds) helseif fun _ => rfl
        rw [hcontents]
        exact hrow.flat .elseifBlock

/-- A row of further branches is rendered branch by branch. -/
theorem Derives.exists_branches (h : Derives [.sub .elseifs] f next)
    (hamong : Word.Among t ws f.words vs) (made lastEnd : Nat) :
    ∃ body row, f.Branches t (f.nodes made lastEnd) body row := by
  induction hlength : f.words.length using Nat.strongRecOn generalizing f ws made lastEnd with
  | ind length ih =>
      obtain ⟨parts, rule, inside⟩ | ⟨kind, parts, inner, -, rule, -⟩ := h.phrase_cases
      · cases rule with
        | noElseif =>
            cases inside
            exact ⟨_, _, .nil⟩
        | elseif =>
            obtain ⟨later, before, ws', made', lastEnd', hsplit, hne, hlater, hamongLater, hbranch⟩ :=
              inside.exists_branch (by decide) hamong made lastEnd
            have hshorter : later.words.length < length := by
              rw [← hlength, hsplit, List.length_append]
              have := List.length_pos_of_ne_nil hne
              omega
            obtain ⟨body, row, hbody⟩ :=
              ih _ hshorter hlater hamongLater made' lastEnd' rfl
            exact hbody.cons hbranch
      · cases rule

/-- A conditional: its first branch, its further branches and its alternative, which
is the end of it. -/
inductive SyntaxTree.Conditional (t : SyntaxTree) (f : Forest) (next : Ahead) (nodes : List Node) :
    Prop
  | intro (mark thenMark elseMark : Node) {condition value more last : Forest}
      {test result other : Node} {ahead : Ahead} {ws vs : List Word} (made lastEnd : Nat)
      (test_is : t.Operand condition test) (result_is : t.Operand value result)
      (other_is : t.Operand last other) (last_derives : Derives [.sub .expr] last next)
      (ends : last.words <:+ f.words) (more_derives : Derives [.sub .elseifs] more ahead)
      (more_among : Word.Among t ws more.words vs) (mark_kind : mark.kind = .token .kwIf)
      (then_kind : thenMark.kind = .token .kwThen) (else_kind : elseMark.kind = .token .kwElse)
      (nodes_eq : nodes =
        mark :: test :: thenMark :: result :: (more.nodes made lastEnd ++ [elseMark, other]))
      (contents_eq : f.contents = .mark .kwIf :: test.content t.source :: .mark .kwThen ::
        result.content t.source :: (more.contents ++ [.mark .kwElse, other.content t.source]))

theorem Derives.exists_conditional (h : Derives SyntaxTree.conditionalParts f next)
    (hamong : Word.Among t ws f.words vs) (made lastEnd : Nat) :
    t.Conditional f next (f.nodes made lastEnd) := by
  obtain ⟨_, before, ws', made', lastEnd', hsplit, hne, hlater, hamongLater, hbranch⟩ :=
    h.exists_branch (by decide) hamong made lastEnd
  obtain ⟨more, _, rfl, hmore, hlater⟩ := hlater.uncons_sub
  obtain ⟨passed, w, _, rfl, -, -, hw, hlater⟩ := hlater.uncons_leaf
  obtain ⟨last, _, rfl, hlast, hlater⟩ := hlater.uncons_sub
  cases hlater
  have hword : w.text = _ := hamongLater.mark_text (by simp [Forest.words]) hw (by decide)
  rw [Forest.append_nil, Forest.words_append, Forest.words] at hamongLater
  obtain ⟨other, hother, hotherIs⟩ := hlast.exists_operand hamongLater.right.tail
    (made' + more.count + 1) w.stop
  obtain ⟨mark, thenMark, htest, hresult, hmark, hthen, hnodes, hcontents⟩ := hbranch
  refine .intro mark thenMark ⟨made' + more.count, .token .kwElse, w.start, w.stop, []⟩ made'
    lastEnd' htest hresult hotherIs hlast ?_ hmore hamongLater.left hmark hthen rfl ?_ ?_
  · refine ⟨before ++ (more.words ++ (passed ++ [w])), ?_⟩
    simp [hsplit, Forest.words]
  · simp [hnodes, Forest.nodes, Token.isComment_of_mark hw, hother]
  · simp [hcontents, Forest.contents, hotherIs.contents_eq, hword, Content.mark]

/-- The text of a conditional as a statement is read as its branches. -/
theorem SyntaxTree.Conditional.exists_statement {nodes : List Node}
    (h : t.Conditional f next nodes) :
    ∃ body row, t.branches nodes = .ok body ∧ EndsComments (row.ahead (.of .kwEnd)) ∧
      ∀ later, Rendition [.sub .statement] (.of .kwEnd) (body ++ " end".toList) (' ' :: later)
        [⟨.stmt .ifStmt, [], Content.branches f.contents ++ [.mark .kwEnd]⟩] row := by
  cases h with
  | @intro mark thenMark elseMark condition value more last test result other _ _ _ _ _ htest
      hresult hother _ _ hmore hamong hmark hthen helseMark hnodes hcontents =>
      subst hnodes
      have hif : TokenKind.kwIf.grammarName.toList = "if".toList := by decide
      have helse : TokenKind.kwElse.grammarName.toList = "else".toList := by decide
      have hend : TokenKind.kwEnd.grammarName.toList = "end".toList := by decide
      have hcloses : (Ahead.of .kwEnd).Closes := Ahead.closes_of rfl
      have hthenBounds : (Ahead.of .kwThen).Bounds := Ahead.bounds_of rfl
      obtain ⟨_, hkind⟩ := htest.kind_eq
      obtain ⟨_, hkind'⟩ := hresult.kind_eq
      obtain ⟨_, hkind''⟩ := hother.kind_eq
      obtain ⟨body, row, hbody⟩ := hmore.exists_branches hamong _ _
      let behind :=
        Forest.mark [' '] .kwElse (.returned (last.led [' '])) ++ .mark [' '] .kwEnd .nil
      have hahead : (row ++ behind).ahead (.of .kwEnd) = row.ahead (.of .kwElse) := by
        rw [Forest.ahead_append]
        rfl
      have hrowCloses : ((row ++ behind).ahead (.of .kwEnd)).Closes := by
        rw [hahead]
        exact hbody.closes
      refine ⟨" if".toList ++ condition.branchText value
          (body ++ (" else return ".toList ++ Word.body last.words)),
        .node (.stmt .ifStmt)
          (.branch .kwIf (condition.led [' ']) (value.led [' ']) (row ++ behind)) .nil, ?_, rfl, ?_⟩
      · have hlastBranch := SyntaxTree.branches_else helseMark
          (SyntaxTree.branches_expr (l := []) hkind'' hother.text_eq rfl)
        have hbranches := SyntaxTree.branches_if hmark (SyntaxTree.branches_expr hkind htest.text_eq
          (SyntaxTree.branches_then hthen (SyntaxTree.branches_expr hkind' hresult.text_eq
            (hbody.branches_eq hlastBranch))))
        simpa [Forest.branchText] using hbranches
      · intro later
        -- from the last branch to the first one
        have hlastRow (text : Text) := ((Rendition.returned (hother.excerpt hcloses.toBounds)
          hcloses (Text.parts_blank text)).mark [' '] helse rfl rfl).flat .elseBlock
        have hendRow := (Rendition.nil (.of .kwEnd) (' ' :: later)).mark [' '] hend rfl rfl
        have hmoreRow := (hbody.rendition (Text.parts_blank _)).append ((hlastRow _).append hendRow)
        have hmoreParts : (body ++ (([' '] ++ ("else".toList ++ (" return ".toList ++
            Word.body last.words))) ++ ([' '] ++ ("end".toList ++ []))) ++ ' ' :: later).Parts := by
          rw [List.append_assoc]
          exact hbody.parts (Text.parts_blank _)
        have hrow := (hmoreRow.branch hrowCloses hmoreParts (htest.excerpt hthenBounds)
          (hresult.excerpt hrowCloses.toBounds) hif fun _ => rfl).node .ifStatement
        refine ⟨hrow.derives, hrow.spells, hrow.flat_eq.trans ?_, hrow.contents_eq.trans ?_⟩
        · simp [Forest.branchText]
        · simp [hcontents, Content.branches, hbody.contents_eq, Content.mark, Content.kind]

/-! ### The function that is called -/

/-- A statement in a function that is called at once. -/
theorem Rendition.called {text : Text} {content : Content} {row : Forest}
    (h : ∀ later, Rendition [.sub .statement] (.of .kwEnd) text (' ' :: later) [content] row)
    (hbare : EndsComments (row.ahead (.of .kwEnd))) (gap : Text) (blank : gap.all isBlank)
    (next : Ahead) (rest : Text) :
    ∃ f, f.OpensBehind gap ∧ Rendition [.sub .chain] next
      (gap ++ ("(function()".toList ++ text ++ " end)()".toList)) rest [.called content] f := by
  have hfunction : TokenKind.kwFunction.grammarName.toList = "function".toList := by decide
  have hend : TokenKind.kwEnd.grammarName.toList = "end".toList := by decide
  have hopen : TokenKind.lparen.grammarName.toList = ['('] := by decide
  have hclose : TokenKind.rparen.grammarName.toList = [')'] := by decide
  have hcloses : (Ahead.of .kwEnd).Closes := Ahead.closes_of rfl
  have hclosed := (nil next rest).mark [] hclose rfl rfl
  have harguments := (hclosed.mark [] hopen rfl rfl).node .noArguments
  have hblock (later : Text) := ((h later).items hcloses hbare).node .block
  have hbodyEnd (later : Text) := (nil (.of .rparen) (')' :: later)).mark [' '] hend rfl rfl
  have hparams (later : Text) := ((hblock _).append (hbodyEnd later)).mark [] hclose rfl rfl
  have hsignature (later : Text) := ((nil (.of .rparen) _).flat .noParams).append (hparams later)
  have hbody (later : Text) := ((hsignature later).mark [] hopen rfl rfl).node .functionBody
  have hanonymous (later : Text) :=
    ((hbody later).mark [] hfunction rfl rfl).node .anonymousFunction
  have hvalue (later : Text) :=
    ((hanonymous later).flat (.plain 0)).operand Ahead.bounds_rparen.operand
  have hcallee (later : Text) := (hvalue later).parens gap blank (.of .lparen)
  have hcall := (((hcallee _).append harguments).flat .call).node .chainCall
  refine ⟨_, ?_, hcall.derives, hcall.spells, hcall.flat_eq.trans ?_, hcall.contents_eq.trans ?_⟩
  · exact ⟨_, rfl, rfl, rfl⟩
  · simp [parenthesized]
  · rfl

/-- The function for a conditional, and the row that is read from its text. -/
theorem Derives.exists_called (h : Derives SyntaxTree.conditionalParts f next)
    (hamong : Word.Among t ws f.words vs) {made lastEnd : Nat} {n : Node}
    (hn : n.children = f.nodes made lastEnd) :
    ∃ body, t.branches n.children = .ok body ∧ ∀ gap : Text, gap.all isBlank → ∀ next rest, ∃ g,
      g.OpensBehind gap ∧ Rendition [.sub .chain] next
        (gap ++ ("(function()".toList ++ body ++ " end end)()".toList)) rest
        [.closure (contentsOf t.source n.children)] g := by
  obtain ⟨body, row, hbranches, hbare, hstatement⟩ :=
    (h.exists_conditional hamong made lastEnd).exists_statement
  refine ⟨body, by rw [hn, hbranches], fun gap blank next rest => ?_⟩
  have htext : "(function()".toList ++ (body ++ " end".toList) ++ " end)()".toList =
      "(function()".toList ++ body ++ " end end)()".toList := by simp
  rw [← htext, hn, Forest.contentsOf_nodes hamong.stand made lastEnd]
  exact Rendition.called hstatement hbare gap blank next rest

/-- The function for a conditional is read as its branches. -/
theorem Derives.exists_closure (h : Derives SyntaxTree.conditionalParts f next)
    (hamong : Word.Among t ws f.words vs) {made lastEnd : Nat} {n : Node}
    (hn : n.children = f.nodes made lastEnd) :
    ∃ body, t.branches n.children = .ok body ∧
      ReadsAs ("(function()".toList ++ body ++ " end end)()".toList)
        (.closure (contentsOf t.source n.children)) := by
  obtain ⟨body, hbranches, hrow⟩ := h.exists_called hamong hn
  obtain ⟨g, -, hcall⟩ := hrow [] rfl .none []
  exact ⟨body, hbranches, (hcall.operand_of_chain Ahead.bounds_none 0).readsAs⟩

end Conditional

end LuauTidy
