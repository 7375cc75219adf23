import LuauTidy.Proofs.Choices

/-!
# Grouping

A conditional is lowered to the function that takes its branches, or to `and`
and `or` if its value counts as true.  The function always keeps the branches.
The operators keep the grouping unless the condition is open: it goes without
parentheses, but ends in a conditional.  An open condition takes in the value and
the alternative.

* `SyntaxTree.readsAs_choice` — `and` and `or` behind a closed condition;
* `endsOpen_of_readsAs_choice` — no condition before `and` is open;
* `lowering_groups_choices` — which conditionals keep their grouping;
* `not_keepsGrouping_openCondition` — one that does not.
-/

namespace LuauTidy

/-- A content with parentheses or without. -/
def Content.parensIf (enclosed : Bool) (inside : Content) : Content :=
  if enclosed then parens inside else inside

/-! ### A closed condition -/

section Kept

variable {t : SyntaxTree} {condition value last : Forest} {test result other : Node} {loose : Bool}

/-- A disjunction binds loosely. -/
theorem SyntaxTree.bindsLoosely_of_isOr {source : Text} (h : (test.content source).isOr) :
    bindsLoosely test = .ok true := by
  unfold Content.isOr at h
  split at h
  · rename_i hcontent
    obtain ⟨hkind, left, mark, right, hchildren, -, hmark, -⟩ := Node.exists_parts hcontent
    have hor : mark.kind = .token .kwOr := Node.kind_content hmark
    simp [bindsLoosely, hkind, Node.expectChild, Node.child?, hchildren, Node.isToken, hor,
      bind, Except.bind, pure, Except.pure]
  · cases h

/-- A condition that goes without parentheses and is not open stands before `and`. -/
theorem SyntaxTree.Operand.guard (h : t.Operand condition test)
    (htight : bindsLoosely test = .ok false) (hclosed : (test.content t.source).endsOpen = false) :
    Excerpt (.climb 0) (.of .kwAnd) (Word.body condition.words) (test.content t.source)
      fun gap => condition.led gap := by
  obtain ⟨_, hexpr⟩ := h.derives
  obtain ⟨_, _, hamong⟩ := h.among
  have hor : (test.content t.source).isOr = false := by
    rw [Bool.eq_false_iff]
    intro hisOr
    rw [bindsLoosely_of_isOr hisOr] at htight
    cases htight
  have hoperand : EndsOperand 2 (.of .kwAnd) :=
    Ahead.endsOperand_of (by simp [TokenKind.bindingPowers?])
  have htighter := hexpr.climb_of_operand.climb_one h.contents_eq hor
  have hbefore := htighter.tight_before (Nat.le_refl 1) h.contents_eq hclosed hoperand
    (Grammar.endsChain_of rfl rfl)
  exact (hbefore.loosened (Nat.zero_le 1)).excerpt rfl hamong h.contents_eq

/-- A condition before `and`, in parentheses if it binds loosely. -/
theorem SyntaxTree.Operand.exists_guard (h : t.Operand condition test)
    (hloose : bindsLoosely test = .ok loose)
    (hclosed : loose = true ∨ (test.content t.source).endsOpen = false) (gap : Text)
    (blank : gap.all Lexeme.isBlank) :
    ∃ row, row.OpensBehind gap ∧ ∀ later, Rendition [.sub (.climb 0)] (.of .kwAnd)
      (gap ++ if loose then parenthesized (Word.body condition.words) else Word.body condition.words)
      (' ' :: later) [.parensIf loose (test.content t.source)] row := by
  cases loose with
  | true =>
      have hinside (later : Text) :=
        (h.excerpt Ahead.bounds_rparen).rendition [] rfl (Text.parts_rparen later)
      have hgroup (later : Text) := (hinside (' ' :: later)).parens gap blank (.of .kwAnd)
      refine ⟨_, ?_, fun later => (hgroup later).climb_of_chain (Grammar.endsChain_of rfl rfl) 0⟩
      exact ⟨_, rfl, rfl, rfl⟩
  | false =>
      have hguard := h.guard hloose (hclosed.resolve_left Bool.false_ne_true)
      exact ⟨_, hguard.leads gap, fun later => hguard.rendition gap blank (Text.parts_blank later)⟩

/-- A literal that counts as true is no operation and no conditional. -/
theorem plain_of_isTruthyLiteral {kind : Kind} (h : isTruthyLiteral kind) :
    isOperation kind = false ∧ kind ≠ .expr .conditional := by
  unfold isTruthyLiteral at h
  split at h <;> first
    | exact ⟨rfl, nofun⟩
    | cases h

/-- A literal that counts as true stands before `or`. -/
theorem SyntaxTree.Operand.truthy (h : t.Operand value result)
    (htruthy : isTruthyLiteral result.kind) :
    Excerpt (.operand 2) (.of .kwOr) (Word.body value.words) (result.content t.source)
      fun gap => value.led gap := by
  obtain ⟨_, hexpr⟩ := h.derives
  obtain ⟨_, _, hamong⟩ := h.among
  obtain ⟨hoperation, hconditional⟩ := plain_of_isTruthyLiteral htruthy
  have hclosed : (result.content t.source).endsOpen = false := by
    rw [Node.endsOpen_content, Node.rightSpine_of_not_operation hoperation]
    simpa using hconditional
  have hbinary : ∀ inner, value ≠ .node (.expr .binary) inner .nil := by
    rintro inner rfl
    have hcontents := h.contents_eq
    rw [Forest.contents, List.cons.injEq] at hcontents
    rw [Node.kind_content hcontents.1.symm] at hoperation
    cases hoperation
  have hoperand : EndsOperand 2 (.of .kwOr) :=
    Ahead.endsOperand_of (by simp [TokenKind.bindingPowers?])
  have htight := hexpr.climb_of_operand.tightened hbinary 2
  have hbefore := htight.tight_before (Nat.le_succ 1) h.contents_eq hclosed hoperand
    (Grammar.endsChain_of rfl rfl)
  exact (hbefore.operand hoperand).excerpt rfl hamong h.contents_eq

/-- An alternative stands behind `or` where expressions are bounded. -/
theorem SyntaxTree.Operand.alternative {next : Ahead} (h : t.Operand last other)
    (hnext : next.Bounds) :
    Excerpt (.climb 0) next (Word.body last.words) (other.content t.source)
      fun gap => last.led gap := by
  obtain ⟨_, hexpr⟩ := h.derives
  obtain ⟨_, _, hamong⟩ := h.among
  exact (hexpr.bounded rfl hnext).climb_of_operand.excerpt rfl hamong h.contents_eq

/-- The text of a choice. -/
def choiceText (loose : Bool) (condition value last : Forest) : Text :=
  (if loose then parenthesized (Word.body condition.words) else Word.body condition.words) ++
    " and ".toList ++ Word.body value.words ++ " or ".toList ++ Word.body last.words

/-- The operators between the value and the alternative of a conditional whose
condition is in parentheses or not open. -/
theorem SyntaxTree.exists_choiceText {next : Ahead} {rest : Text} {row : Forest}
    (htest : t.Operand condition test) (hresult : t.Operand value result)
    (htruthy : isTruthyLiteral result.kind) (hloose : bindsLoosely test = .ok loose)
    (hclosed : loose = true ∨ (test.content t.source).endsOpen = false)
    (halternative : Rendition [.sub (.climb 0)] next ([' '] ++ Word.body last.words) rest
      [other.content t.source] row)
    (hends : EndsOperand 1 next) (gap : Text) (blank : gap.all Lexeme.isBlank) :
    ∃ f, f.OpensBehind gap ∧ Rendition [.sub (.climb 0)] next
      (gap ++ choiceText loose condition value last) rest
      [.choice (.parensIf loose (test.content t.source)) (result.content t.source)
        (other.content t.source)] f := by
  obtain ⟨row, hopens, hguard⟩ := htest.exists_guard hloose hclosed gap blank
  have hchoice := Rendition.choice hguard hopens (hresult.truthy htruthy) halternative hends
  simpa only [choiceText, List.append_assoc] using hchoice

/-- The operators in parentheses stand before any text. -/
theorem SyntaxTree.exists_enclosed (htest : t.Operand condition test)
    (hresult : t.Operand value result) (hother : t.Operand last other)
    (htruthy : isTruthyLiteral result.kind) (hloose : bindsLoosely test = .ok loose)
    (hclosed : loose = true ∨ (test.content t.source).endsOpen = false) (gap : Text)
    (blank : gap.all Lexeme.isBlank) (next : Ahead) (rest : Text) :
    ∃ f, f.OpensBehind gap ∧ Rendition [.sub .chain] next
      (gap ++ parenthesized (choiceText loose condition value last)) rest
      [.parens (.choice (.parensIf loose (test.content t.source)) (result.content t.source)
        (other.content t.source))] f := by
  have hrparen := Ahead.bounds_rparen
  obtain ⟨f, -, hf⟩ := exists_choiceText htest hresult htruthy hloose hclosed
    ((hother.alternative hrparen).rendition [' '] rfl (Text.parts_rparen rest))
    (hrparen.operand.mono (Nat.zero_le 1)) [] rfl
  refine ⟨_, ?_, (hf.operand hrparen.operand).parens gap blank next⟩
  exact ⟨_, rfl, rfl, rfl⟩

/-- The operators choose between the value and the alternative of a conditional
whose condition is in parentheses or not open. -/
theorem SyntaxTree.readsAs_choice (htest : t.Operand condition test)
    (hresult : t.Operand value result) (hother : t.Operand last other)
    (htruthy : isTruthyLiteral result.kind) (hloose : bindsLoosely test = .ok loose)
    (hclosed : loose = true ∨ (test.content t.source).endsOpen = false) (enclosed : Bool) :
    ReadsAs (if enclosed then parenthesized (choiceText loose condition value last)
        else choiceText loose condition value last)
      (.parensIf enclosed (.choice (.parensIf loose (test.content t.source))
        (result.content t.source) (other.content t.source))) := by
  cases enclosed with
  | true =>
      obtain ⟨f, -, hf⟩ :=
        exists_enclosed htest hresult hother htruthy hloose hclosed [] rfl .none []
      exact (hf.operand_of_chain Ahead.bounds_none 0).readsAs
  | false =>
      obtain ⟨f, -, hf⟩ := exists_choiceText htest hresult htruthy hloose hclosed
        ((hother.alternative Ahead.bounds_none).rendition [' '] rfl .nil)
        (Ahead.bounds_none.operand.mono (Nat.zero_le 1)) [] rfl
      exact (hf.operand Ahead.bounds_none.operand).readsAs

end Kept

/-! ### An open condition -/

section Open

variable {text : Text} {guard value alternative head : Content}

/-- The nodes of a text that is read as an expression are grouped. -/
theorem isGrouped_of_expression {e : Node} (h : expression? text = some e) :
    ∀ m ∈ e.preorder, m.IsGrouped := by
  obtain ⟨ws, last, gap, -, hspells, -, htokens⟩ := exists_words text
  rw [expression?] at h
  split at h
  · rename_i e' c hrun
    have hstart : Cursor.start text (tokenize text) =
        (Cursor.start text []).facing (Word.place 0 ws ++ if last.isEmpty then [] else
          [Word.mk (Token.endInside text.byteLength) []]) := by
      rw [htokens]
      rfl
    rw [hstart] at hrun
    obtain ⟨c₁, ws₁, -, f, hwords, -, hnodes, hderives⟩ :=
      Grammar.reads_operand (Grammar.sound_ofDepth _) 0 hrun
    split at h
    · obtain rfl := Option.some.inj h
      have hliteral : ∀ w ∈ f.words, ∀ k, w.cls = .literal k → k.isLiteral := by
        intro w hw k hk
        have hmem : w ∈ f.words ++ ws₁ := List.mem_append_left ws₁ hw
        rw [← hwords, List.mem_append] at hmem
        rcases hmem with hmem | hmem
        · exact (hspells.place 0).isLiteral w hmem k hk
        · -- a string left open at the end is no literal
          split at hmem
          · cases hmem
          · rw [List.mem_singleton.mp hmem] at hk
            cases hk
      have hgrouped := Forest.grouped (hderives.fit (by simp)) hderives.ruled hliteral
        (Cursor.start text []).made (Cursor.start text []).lastEnd
      rw [← hnodes] at hgrouped
      intro m hm
      exact hgrouped m (by simpa [preorderOfAll] using hm)
    · cases h
  · cases h

/-- What is joined to an alternative is a part of it that is grouped. -/
theorem Node.exists_head {e : Node} (h : e.content text = head.orElse alternative)
    (hgrouped : ∀ m ∈ e.preorder, m.IsGrouped) :
    ∃ m : Node, m.IsGrouped ∧ m.content text = head := by
  induction alternative using Content.orElse.induct generalizing e with
  | case1 word left mark below right ih =>
      rw [Content.orElse] at h
      obtain ⟨-, x, y, z, hchildren, hx, -, -⟩ := exists_parts h
      have hchild : x ∈ e.children := by simp [hchildren]
      exact ih hx fun m hm => hgrouped m (mem_preorder_of_child hchild hm)
  | case2 alternative hnot =>
      rw [Content.orElse.eq_2 _ _ hnot] at h
      obtain ⟨-, x, y, z, hchildren, hx, -, -⟩ := exists_parts h
      have hchild : x ∈ e.children := by simp [hchildren]
      exact ⟨x, hgrouped x (mem_preorder_of_child hchild (by simp [preorder_eq])), hx⟩

/-- The left operand of a grouped operation is not open. -/
theorem Node.endsOpen_of_isGrouped {m : Node} {op : TokenKind} {left right : Content}
    (h : m.IsGrouped) (hm : m.content text = .binary op left right) : left.endsOpen = false := by
  obtain ⟨hkind, x, y, z, hchildren, rfl, -, -⟩ := exists_parts hm
  obtain ⟨x', _, _, l, _, hchildren', -, -, hyields⟩ := h.binary hkind
  rw [hchildren, List.cons.injEq] at hchildren'
  obtain ⟨rfl, -⟩ := hchildren'
  rw [endsOpen_content, List.any_eq_false]
  intro n hn
  simpa using (hyields n hn).not_conditional

/-- A condition that stands before `and` is not open. -/
theorem endsOpen_of_readsAs_choice {enclosed : Bool}
    (h : ReadsAs text (.parensIf enclosed (.choice guard value alternative))) :
    guard.endsOpen = false := by
  obtain ⟨e, hread, hcontent⟩ := h
  have hgrouped := isGrouped_of_expression hread
  have hhead : ∃ m : Node, m.IsGrouped ∧ m.content text = .binary .kwAnd guard value := by
    cases enclosed with
    | false => exact Node.exists_head hcontent hgrouped
    | true =>
        obtain ⟨-, x, y, z, hchildren, -, hy, -⟩ := Node.exists_parts hcontent
        have hchild : y ∈ e.children := by simp [hchildren]
        exact Node.exists_head hy fun m hm => hgrouped m (Node.mem_preorder_of_child hchild hm)
  obtain ⟨m, hm, hand⟩ := hhead
  exact Node.endsOpen_of_isGrouped hm hand

end Open

/-! ### Conditionals of a tree -/

namespace SyntaxTree

/-- A condition is open if it goes without parentheses and ends in a conditional,
which takes in what follows it. -/
def OpenCondition (condition : Node) : Prop :=
  bindsLoosely condition = .ok false ∧ ∃ m ∈ condition.rightSpine, m.kind = .expr .conditional

variable (t : SyntaxTree) (parent : Option Kind)

/-- The operators for a conditional of a tree, with or without parentheses around
them and around the condition. -/
def choiceOf (enclosed guarded : Bool) (condition value alternative : Node) : Content :=
  .parensIf enclosed (.choice (.parensIf guarded (condition.content t.source))
    (value.content t.source) (alternative.content t.source))

/-- The lowered text of a conditional is the function with its branches, or it
consists of the operators for its condition, its value and its alternative. -/
def KeepsGrouping (n : Node) : Prop :=
  ∃ text, t.loweredConditional parent n = .ok text ∧
    (ReadsAs text (.closure (contentsOf t.source n.children)) ∨
      ∃ ifMark condition thenMark value elseMark alternative enclosed guarded,
        n.children = [ifMark, condition, thenMark, value, elseMark, alternative] ∧
          ReadsAs text (t.choiceOf enclosed guarded condition value alternative))

variable {t : SyntaxTree} {f : Forest} {n condition value alternative : Node}

/-- The parts of a conditional whose value counts as true, and its lowered text.  The
alternative is the end of it. -/
theorem Conditional.exists_rows {next : Ahead} (h : t.Conditional f next n.children)
    (hshort : shortConditional? n.children = some (condition, value, alternative)) :
    ∃ conditionRow valueRow last loose, t.Operand conditionRow condition ∧
      t.Operand valueRow value ∧ t.Operand last alternative ∧ isTruthyLiteral value.kind ∧
      bindsLoosely condition = .ok loose ∧ Derives [.sub .expr] last next ∧
      last.words <:+ f.words ∧ t.loweredConditional parent n = .ok (if parent.any isOperation
        then parenthesized (choiceText loose conditionRow valueRow last)
        else choiceText loose conditionRow valueRow last) := by
  obtain ⟨_, _, _, hshape, htruthy⟩ := shortConditional?_eq_some hshort
  cases h with
  | @intro mark thenMark elseMark conditionRow valueRow more last test result other _ _ _ made
      lastEnd htest hresult hother hlast hends _ _ _ _ _ hnodes _ =>
      rw [hshape] at hnodes
      -- six children leave no room for further branches
      have hmore : more.nodes made lastEnd = [] := by
        have hlength := congrArg List.length hnodes
        simpa using hlength
      rw [hmore] at hnodes
      obtain ⟨-, rfl, -, rfl, -, rfl⟩ : _ ∧ condition = test ∧ _ ∧ value = result ∧ _ ∧
          alternative = other := by
        simpa using hnodes
      obtain ⟨_, hderives⟩ := htest.derives
      obtain ⟨_, _, hamong⟩ := htest.among
      obtain ⟨_, _, htestNodes⟩ := htest.nodes_eq
      obtain ⟨loose, hloose⟩ := bindsLoosely_ok hderives rfl hamong.isLiteral htestNodes
      refine ⟨conditionRow, valueRow, last, loose, htest, hresult, hother, htruthy, hloose, hlast,
        hends, ?_⟩
      simp only [loweredConditional, hshort, choice, hloose, htest.text_eq, hresult.text_eq,
        hother.text_eq, bind, Except.bind, pure, Except.pure, choiceText]

/-- A condition goes in parentheses or is not open, unless it counts as open. -/
theorem not_openCondition_iff {loose : Bool} (hloose : bindsLoosely condition = .ok loose) :
    ¬OpenCondition condition ↔
      loose = true ∨ (condition.content t.source).endsOpen = false := by
  rw [OpenCondition, hloose, Node.endsOpen_content]
  cases loose <;> simp

/-- A conditional whose value counts as true. -/
theorem Conditional.exists_choice {next : Ahead} (h : t.Conditional f next n.children)
    (hshort : shortConditional? n.children = some (condition, value, alternative)) :
    ∃ text loose, t.loweredConditional parent n = .ok text ∧ bindsLoosely condition = .ok loose ∧
      (ReadsAs text (t.choiceOf (parent.any isOperation) loose condition value alternative) ↔
        ¬OpenCondition condition) := by
  obtain ⟨_, _, _, loose, htest, hresult, hother, htruthy, hloose, -, -, htext⟩ :=
    h.exists_rows parent hshort
  refine ⟨_, loose, htext, hloose, ?_⟩
  rw [not_openCondition_iff (t := t) hloose]
  constructor
  · intro hreads
    cases loose with
    | true => exact .inl rfl
    | false => exact .inr (endsOpen_of_readsAs_choice hreads)
  · intro hclosed
    exact readsAs_choice htest hresult hother htruthy hloose hclosed _

end SyntaxTree

/-- Every conditional is lowered.  A conditional with further branches, or with a
value that may not count as true, is read again as the function with its
branches.  Any other is read as `and` and `or` between its condition, its value
and its alternative if and only if its condition is not open. -/
theorem lowering_groups_choices {source : Text} {t : SyntaxTree} (hparse : parse source = .ok t)
    (herrors : t.errors = []) :
    ∀ v ∈ t.visits, v.node.kind = .expr .conditional → ∀ parent : Option Kind,
      ∃ text, t.loweredConditional parent v.node = .ok text ∧
        (SyntaxTree.shortConditional? v.node.children = none →
          ReadsAs text (.closure (contentsOf t.source v.node.children))) ∧
        ∀ condition value alternative,
          SyntaxTree.shortConditional? v.node.children = some (condition, value, alternative) →
            ∃ loose, SyntaxTree.bindsLoosely condition = .ok loose ∧
              (ReadsAs text
                (t.choiceOf (parent.any isOperation) loose condition value alternative) ↔
                  ¬SyntaxTree.OpenCondition condition) := by
  intro v hv hkind parent
  obtain ⟨inner, gap, hparsed⟩ := parse_parsed hparse herrors
  rcases hparsed.built v hv with hleaf |
    @⟨_, _, _, _, _, _, _, made, lastEnd, rule, inside, hamong, hbuilt, hchildren⟩
  · -- a node without children is no conditional
    have hmem : v.node ∈ t.root.preorder := by
      rw [← Node.map_visits t.root t.rootVisit.parent t.rootVisit.previous]
      exact List.mem_map_of_mem hv
    have hform := hparsed.formed v.node hmem
    rw [Node.IsFormed, hkind, hleaf] at hform
    cases hform with
    | literal h => cases h
  · rw [hkind] at hbuilt
    subst hbuilt
    cases rule with
    | conditional =>
        cases hshort : SyntaxTree.shortConditional? v.node.children with
        | none =>
            obtain ⟨body, hbody, hreads⟩ := inside.exists_closure hamong hchildren
            refine ⟨_, ?_, fun _ => hreads, ?_⟩
            · simp [SyntaxTree.loweredConditional, hshort, hbody, bind, Except.bind, pure,
                Except.pure]
            · intro condition value alternative h
              cases h
        | some parts =>
            obtain ⟨condition, value, alternative⟩ := parts
            have hparts := inside.exists_conditional hamong made lastEnd
            rw [← hchildren] at hparts
            obtain ⟨text, loose, htext, hloose, hiff⟩ := hparts.exists_choice parent hshort
            refine ⟨text, htext, ?_, ?_⟩
            · intro h
              cases h
            · intro condition value alternative h
              cases h
              exact ⟨loose, hloose, hiff⟩

/-- A disjunction before `and` and one behind `or`: the condition stands in
parentheses, and the alternative joins the choice. -/
theorem lowering_groups_choices_disjunctions :
    ∃ t, parse "x = if a or b then 1 else c or d".toList = .ok t ∧ t.errors = [] ∧
      ∃ v ∈ t.visits, v.node.kind = .expr .conditional ∧
        ∃ text, t.loweredConditional none v.node = .ok text ∧
          ∃ condition value alternative, SyntaxTree.shortConditional? v.node.children =
            some (condition, value, alternative) ∧
              ReadsAs text (t.choiceOf false true condition value alternative) := by
  obtain ⟨t, hparse, herrors, v, hv, hkind, hshort⟩ := exists_tree_with
    (p := fun t => t.errors = [] ∧ ∃ v ∈ t.visits, v.node.kind = .expr .conditional ∧
      (SyntaxTree.shortConditional? v.node.children).any fun parts =>
        (SyntaxTree.bindsLoosely parts.1).toOption == some true)
    "x = if a or b then 1 else c or d".toList (by decide +kernel)
  obtain ⟨text, htext, -, hchoice⟩ := lowering_groups_choices hparse herrors v hv hkind none
  obtain ⟨⟨condition, value, alternative⟩, hparts, hbinds⟩ := Option.any_eq_true _ _ |>.mp hshort
  obtain ⟨loose, hloose, hiff⟩ := hchoice condition value alternative hparts
  have htrue : loose = true := by simpa [hloose, Except.toOption] using hbinds
  subst htrue
  refine ⟨t, hparse, herrors, v, hv, hkind, text, htext, condition, value, alternative, hparts,
    hiff.mpr ?_⟩
  rintro ⟨htight, -⟩
  rw [hloose] at htight
  cases htight

/-! ### A condition that takes in what follows it -/

/-- Not every conditional keeps its grouping.  Here the condition is a negation,
which goes without parentheses, but it ends in a conditional whose alternative
takes in the operators: all of the lowered text is one negation. -/
theorem not_keepsGrouping_openCondition : ¬∀ (source : Text) (t : SyntaxTree),
    parse source = .ok t → t.errors = [] → ∀ v ∈ t.visits, v.node.kind = .expr .conditional →
      t.KeepsGrouping (v.parent.map Node.kind) v.node := by
  intro h
  obtain ⟨t, hparse, herrors, v, hv, hkind, hread⟩ := exists_tree_with
    (p := fun t => t.errors = [] ∧ ∃ v ∈ t.visits, v.node.kind = .expr .conditional ∧
      ((t.loweredConditional (v.parent.map Node.kind) v.node).toOption.bind expression?).map
        Node.kind = some (.expr .unary))
    "x = if not if a then 1 else 2 then 3 else 4".toList (by decide +kernel)
  obtain ⟨text, htext, hkeeps⟩ := h _ t hparse herrors v hv hkind
  have hunary : ∀ {content : Content}, ReadsAs text content → content.kind = .expr .unary := by
    rintro content ⟨e, he, rfl⟩
    rw [htext, Except.toOption, Option.bind_some, he, Option.map_some, Option.some.injEq] at hread
    rw [Node.content_eq, Content.kind, hread]
  rcases hkeeps with hclosure | ⟨_, _, _, _, _, _, enclosed, _, -, hchoice⟩
  · cases hunary hclosure
  · have hchosen := hunary hchoice
    cases enclosed with
    | true => cases hchosen
    | false =>
        obtain ⟨word, children, hbinary⟩ := Content.orElse_eq_binary _ _
        rw [SyntaxTree.choiceOf, Content.parensIf, Content.choice, if_neg Bool.false_ne_true,
          hbinary] at hchosen
        cases hchosen

end LuauTidy
