import LuauTidy.Proofs.Grouping
import LuauTidy.Proofs.Locality
import LuauTidy.Proofs.Quotients

/-!
# Counterparts

A pass that is local leaves the tree as it is outside of the constructs, and puts
one node over the lowered text in the place of each construct.  What stands below
this node is known: the text of a node is read by itself as it is read in its
place, and the lowered texts are read as quotients, assignments, choices and
functions.  So the whole tree of a pass is known from the tree before it.

* `Node.Grown`, `Node.Grown.readsAs` — nodes are read by themselves;
* `Construct.Gives` — what takes the place of a construct;
* `Node.Becomes` — a node and the content of its counterpart;
* `becomes_of_mirrored` — the tree of a local pass.
-/

namespace LuauTidy

variable {options : LoweringOptions} {source text : Text} {t t' : SyntaxTree}

/-! ### Nodes by themselves -/

section Rows

variable {m : Nonterminal} {f : Forest} {next next' : Ahead}

/-- An expression of any form is an expression where expressions are bounded. -/
theorem Derives.asExpr (h : Derives [.sub m] f next) (hm : m.isWholeExpr) (hnext : next'.Bounds) :
    Derives [.sub .expr] f next' := by
  have hclimb : ∀ {limit}, Derives [.sub (.climb limit)] f next' → Derives [.sub .expr] f next' :=
    fun h => (h.loosened (Nat.zero_le _)).operand hnext.operand
  have hsimple : Derives [.sub .simple] f next' → Derives [.sub .expr] f next' :=
    fun h => hclimb (.ofFlat (.plain 0) h)
  have hchain : Derives [.sub .chain] f next' → Derives [.sub .expr] f next' :=
    fun h => hclimb (h.climb_of_chain hnext.chain 0)
  cases m with
  | operand limit => exact hclimb (h.bounded rfl hnext).climb_of_operand
  | climb limit => exact hclimb (h.bounded rfl hnext)
  | simple => exact hsimple (h.bounded rfl hnext)
  | suffixed => exact hsimple (.ofFlat .simpleSuffixed (h.bounded rfl hnext))
  | chain => exact hchain (h.closed_before rfl next')
  | «variable» => exact hchain (.ofFlat .chainVariable (h.closed_before rfl next'))
  | table => exact hsimple (.ofFlat .simpleTable (h.closed_before rfl next'))
  | _ => cases hm

/-- Further expressions stand before all that bounds expressions.  If there are any,
the row ends with one. -/
theorem Derives.moreExprs_bounded (h : Derives [.sub (.more .comma .expr)] f next)
    (hnext : next'.Bounds) : Derives [.sub (.more .comma .expr)] f next' ∧
      (EndsOperand 0 (f.ahead next') ∧ EndsChain (f.ahead next')) ∧
      (f = .nil ∨ ∃ g e, f = g ++ e ∧ Derives [.sub .expr] e next') := by
  refine h.phrase_induction (M := fun n f _ => n = .more .comma .expr →
    Derives [.sub n] f next' ∧ (EndsOperand 0 (f.ahead next') ∧ EndsChain (f.ahead next')) ∧
      (f = .nil ∨ ∃ g e, f = g ++ e ∧ Derives [.sub .expr] e next')) ?_ ?_ rfl
  · rintro n parts f next rule - holds rfl
    cases rule with
    | noMore =>
        obtain ⟨-, rfl⟩ := holds
        exact ⟨.ofFlat (.noMore _ _) (.look hnext.comma (.nil next')),
          ⟨hnext.operand, hnext.chain⟩, .inl rfl⟩
    | more =>
        obtain ⟨passed, w, _, rfl, hpassed, hw, hcls, e, _, rfl, he, -, later, _, rfl, -, ih, rfl⟩ :=
          holds
        obtain ⟨hlater, ⟨hoperand, hchain⟩, hends⟩ := ih rfl
        have hcls : w.cls = .token .comma := hcls
        rw [Forest.append_nil] at he ⊢
        have he' : Derives [.sub .expr] e (later.ahead next') :=
          he.expr_before rfl (fun limit _ => hoperand.mono (Nat.zero_le limit)) fun _ => hchain
        refine ⟨.ofFlat (.more .comma .expr (.inl rfl)) (.leaf hpassed hw hcls (he'.append hlater)),
          ?_, .inr ?_⟩
        · simp only [Forest.ahead, Token.isComment_of_mark hcls, hcls]
          exact ⟨Ahead.endsOperand_of (k := .comma) (by simp [TokenKind.bindingPowers?]),
            Grammar.endsChain_of rfl rfl⟩
        · obtain rfl | ⟨g, e', rfl, he''⟩ := hends
          · exact ⟨.leaf (.token .comma) passed w .nil, e, by simp, by simpa [Forest.ahead] using he'⟩
          · exact ⟨.leaf (.token .comma) passed w (e ++ g), e', by simp, he''⟩
  · rintro n kind parts f next rule - - rfl
    cases rule

/-- Expressions stand before all that bounds expressions, and end with one. -/
theorem Derives.exprs_bounded (h : Derives [.sub .exprs] f next) (hnext : next'.Bounds) :
    Derives [.sub .exprs] f next' ∧ ∃ g e, f = g ++ e ∧ Derives [.sub .expr] e next' := by
  obtain ⟨parts, rule, inside⟩ | ⟨kind, parts, inner, -, rule, -⟩ := h.phrase_cases
  · cases rule with
    | exprs =>
        obtain ⟨e, _, rfl, he, -, more, _, rfl, hmore, -, rfl⟩ := inside.parted
        obtain ⟨hmore, ⟨hoperand, hchain⟩, hends⟩ := hmore.moreExprs_bounded hnext
        rw [Forest.append_nil] at he ⊢
        have he' : Derives [.sub .expr] e (more.ahead next') :=
          he.expr_before rfl (fun limit _ => hoperand.mono (Nat.zero_le limit)) fun _ => hchain
        refine ⟨.ofFlat .exprs (he'.append hmore), ?_⟩
        obtain rfl | ⟨g, e', rfl, he''⟩ := hends
        · exact ⟨.nil, e, by simp, by simpa [Forest.ahead] using he'⟩
        · exact ⟨e ++ g, e', by simp, he''⟩
  · cases rule

end Rows

/-- A node made of words of a source: the leaf of a word, or a node that a production
builds. -/
inductive Node.Grown (t : SyntaxTree) : Node → Prop
  | leaf {kind : Kind} {w : Word} {ws vs : List Word} (made : Nat)
      (fits : LeafFits kind w.toToken) (among : Word.Among t ws [w] vs) :
      Node.Grown t ⟨made, kind, w.start, w.stop, []⟩
  | node {m : Nonterminal} {kind : Kind} {parts : List Symbol} {inner : Forest} {next : Ahead}
      {ws vs : List Word} (made lastEnd : Nat) (rule : Production m (some kind) parts)
      (inside : Derives parts inner next) (among : Word.Among t ws inner.words vs) :
      Node.Grown t (.around (made + inner.count) kind (Forest.emptyPlace kind lastEnd)
        (inner.nodes made lastEnd))

/-- The nodes of a row are made of its words. -/
theorem Forest.grown {f : Forest} {next : Ahead} (hfit : f.Fit) (hruled : f.Ruled next)
    {ws vs : List Word} (hamong : Word.Among t ws f.words vs) (made lastEnd : Nat) :
    ∀ n ∈ preorderOfAll (f.nodes made lastEnd), n.Grown t := by
  induction f generalizing next ws vs made lastEnd with
  | nil => simp [nodes, preorderOfAll]
  | leaf kind passed w later ih =>
      have hword : Word.Among t (ws ++ passed) [w] (later.words ++ vs) :=
        Word.Among.left (hamong.right (x := passed) (y := [w] ++ later.words))
      intro n hn
      rw [nodes, preorderOfAll, List.mem_append] at hn
      obtain hn | hn := hn
      · obtain rfl : n = _ := by simpa [Node.preorder, preorderOfAll] using hn
        exact .leaf made hfit.2.1 hword
      · exact ih hfit.2.2 hruled hamong.tail _ _ n hn
  | skipped passed w later ih => exact ih hfit.2.2 hruled hamong.tail made w.stop
  | node kind inner later ihInner ih =>
      obtain ⟨⟨m, parts, rule, inside⟩, hlater⟩ := hruled
      rw [words] at hamong
      intro n hn
      rw [nodes, preorderOfAll, Node.around, Node.preorder, List.mem_append, List.mem_cons] at hn
      obtain (rfl | hn) | hn := hn
      · exact .node made lastEnd rule inside hamong.left
      · exact ihInner hfit.1 inside.ruled hamong.left _ _ n hn
      · exact ih hfit.2 hlater hamong.right _ _ n hn

/-- Every node of a tree but the root is made of words of the source. -/
theorem Parsed.grown {inner : Forest} {gap : Text} (h : Parsed source t inner gap) :
    ∀ n ∈ t.root.preorder, n.kind ≠ .aux .chunk → n.Grown t := by
  intro n hn hkind
  have hroot : t.root.preorder = t.root :: preorderOfAll (inner.nodes 0 0) := by
    rw [h.root_eq]
    rfl
  rw [hroot, List.mem_cons] at hn
  obtain rfl | hn := hn
  · rw [h.root_eq] at hkind
    exact absurd rfl hkind
  · exact Forest.grown (h.derives.fit (by simp)) h.derives.ruled h.among 0 0 n hn

/-- An expression is the node of a row that stands for an expression. -/
theorem Node.Grown.exists_operand {n : Node} (h : n.Grown t) {k : ExprKind}
    (hkind : n.kind = .expr k) : ∃ row, t.Operand row n := by
  cases h with
  | @leaf kind w ws vs made fits among =>
      obtain rfl : kind = .expr k := hkind
      have hcls : w.cls = .literal k := by
        obtain hleaf | ⟨-, hcomment⟩ | ⟨-, -, hcontinue⟩ := fits
        · cases hw : w.cls <;> simp_all [TokenClass.leafKind?]
        · cases hcomment
        · cases hcontinue
      have hsimple : Derives [.sub .simple] (.leaf (.expr k) [] w .nil) .none :=
        .ofFlat (.literal k) (.leaf (by simp) (fun _ => rfl) hcls (.nil _))
      obtain ⟨n, hnodes, hoperand⟩ := (hsimple.asExpr rfl Ahead.bounds_none).exists_operand among
        made 0
      rw [Forest.nodes, Forest.nodes, List.cons.injEq] at hnodes
      exact ⟨_, hnodes.1 ▸ hoperand⟩
  | @node m kind parts inner next ws vs made lastEnd rule inside among =>
      obtain rfl : kind = .expr k := hkind
      have hwhole : m.isWholeExpr := by cases rule <;> rfl
      have hamong : Word.Among t ws (Forest.node (.expr k) inner .nil).words vs := by
        rw [Forest.words, Forest.words, List.append_nil]
        exact among
      obtain ⟨n, hnodes, hoperand⟩ := ((Derives.ofNode rule inside).asExpr hwhole
        Ahead.bounds_none).exists_operand hamong made lastEnd
      rw [Forest.nodes, Forest.nodes, List.cons.injEq] at hnodes
      exact ⟨_, hnodes.1 ▸ hoperand⟩

/-- An expression of a source is read by itself as it is read there. -/
theorem SyntaxTree.Operand.readsAs {row : Forest} {n : Node} (h : t.Operand row n) :
    ReadsAs (Word.body row.words) (n.content t.source) :=
  ((h.excerpt Ahead.bounds_none).rendition [] rfl .nil).readsAs

/-- The row of an assignment stands by itself. -/
theorem Derives.assignment_alone {inner : Forest} {next : Ahead}
    (h : Derives [.sub .varList, .mark .assign, .sub .exprList] inner next) {ws vs : List Word}
    (hamong : Word.Among t ws inner.words vs) :
    inner.Grounded ∧ ∃ row, Rendition [.sub .statement] .none (Word.body inner.words) []
      [⟨.stmt .assign, [], inner.contents⟩] row ∧ EndsComments (row.ahead .none) := by
  obtain ⟨targets, _, rfl, htargets, -, passed, w, _, rfl, hpassed, hw, hcls, values, _, rfl,
    hvalues, -, rfl⟩ := h.parted
  obtain ⟨_, rule, -⟩ | ⟨kind, parts, targets, rfl, rule, htargets⟩ := htargets.phrase_cases
  · cases rule
  cases rule
  obtain ⟨_, rule, -⟩ | ⟨kind, parts, values, rfl, rule, hvalues⟩ := hvalues.phrase_cases
  · cases rule
  cases rule
  have hmark : w.cls = .token .assign := hcls
  simp only [Forest.ahead, Token.isComment_of_mark hmark, hmark, Bool.false_eq_true, if_false]
    at htargets
  obtain ⟨hvalues, before, last, hsplit, hexpr⟩ := hvalues.exprs_bounded Ahead.bounds_none
  obtain ⟨kind, u, hu, hends⟩ := hexpr.lastLeaf Production.lastIs_expr rfl
  obtain ⟨kind', v, hv, hbegins⟩ := htargets.firstLeaf Production.firstIs_expr rfl
  have hlast : values.lastLeaf = some (kind, u) := by
    rw [hsplit, Forest.lastLeaf_append (Forest.ne_nil_of_lastLeaf hu), hu]
  -- the same words in a row without the nodes around the lists
  have hrow : Derives [.sub .variable, .sub (.more .comma .variable), .mark .assign, .sub .exprs]
      (targets ++ .leaf (.token .assign) passed w values) .none := by
    have hmarked : Derives [.mark .assign, .sub .exprs] (.leaf (.token .assign) passed w values)
        .none := .leaf hpassed hw hcls hvalues
    have htargets : Derives [.sub .variable, .sub (.more .comma .variable)] targets
        ((Forest.leaf (.token .assign) passed w values).ahead .none) := by
      simpa only [Forest.ahead, Token.isComment_of_mark hmark, hmark, Bool.false_eq_true, if_false]
        using htargets
    exact htargets.append hmarked
  have hamong' : Word.Among t ws (targets ++ .leaf (.token .assign) passed w values).words vs := by
    simpa [Forest.words] using hamong
  have hrowLast : (targets ++ .leaf (.token .assign) passed w values).lastLeaf = some (kind, u) := by
    rw [Forest.lastLeaf_append (by simp), Forest.lastLeaf, if_neg (Forest.ne_nil_of_lastLeaf hlast),
      hlast]
  obtain ⟨first, later, hleads⟩ := hrow.leadsWith_row (by simp) rfl ⟨_, _, hrowLast, hends⟩ (by
    intro n hn
    simp [Nonterminal.stands, Nonterminal.turn, Nesting.admits, Nesting.turn, hn]) hamong'
  obtain ⟨_, hspells⟩ := hleads.spells
  have hspells := hspells.resumed hleads.noError hleads.ends .nil
  have hled := Forest.led_append [] hv (.leaf (.token .assign) passed w values)
  have hwords := hleads.words_led []
  rw [hled, Forest.words_append, Forest.words] at hwords
  have hflat : Word.body (targets ++ Forest.leaf (.token .assign) passed w values).words =
      Word.flat ({ first with gap := [] } :: later) := by
    rw [hleads.body_eq, Word.flat_cons, List.nil_append]
  refine ⟨⟨⟨kind', v, hv, ?_⟩, kind, u, ?_⟩, .node (.stmt .assign)
    (.node (.aux .varList) (targets.led []) (.leaf (.token .assign) passed w
      (.node (.aux .exprList) values .nil))) .nil, ⟨?_, ?_, ?_, ?_⟩, ?_⟩
  · rintro rfl
    cases hbegins
  · simp [Forest.lastLeaf, hlast]
  · refine .ofNode .assignment (.node .varList ?_ (.leaf hpassed hw hcls (.ofNode .exprList hvalues)))
    simpa only [Forest.ahead, Token.isComment_of_mark hmark, hmark, Bool.false_eq_true, if_false]
      using htargets.led rfl []
  · simp only [Forest.words, List.append_nil]
    rw [hwords]
    cases hspells with
    | cons _ _ read tail => exact .cons rfl (fun _ => rfl) read tail
  · simp only [Forest.words, List.append_nil]
    rw [hwords, ← hflat]
    simp [Forest.words]
  · simp [Forest.contents]
  · have hbare := hleads.bare [] .none
    rw [hled, Forest.ahead_append] at hbare
    simpa [EndsComments, Forest.ahead, Token.isComment_of_mark hmark, hmark] using hbare

/-- An assignment of a source is read by itself as it is read there. -/
theorem Node.Grown.exists_tree {n : Node} (h : n.Grown t) (hkind : n.kind = .stmt .assign) :
    ∃ text u, t.text n = .ok text ∧ parse text = .ok u ∧ u.errors = [] ∧
      contentsOf u.source u.root.children = [n.content t.source] := by
  cases h with
  | @leaf kind w ws vs made fits among =>
      obtain rfl : kind = .stmt .assign := hkind
      obtain hleaf | ⟨-, hcomment⟩ | ⟨-, -, hcontinue⟩ := fits
      · cases hw : w.cls <;> simp_all [TokenClass.leafKind?]
      · cases hcomment
      · cases hcontinue
  | @node m kind parts inner next ws vs made lastEnd rule inside among =>
      obtain rfl : kind = .stmt .assign := hkind
      cases rule
      obtain ⟨hgrounded, row, hrow, hbare⟩ := inside.assignment_alone among
      obtain ⟨u, hparse, herrors, hroot⟩ := hrow.exists_tree hbare
      have hfit : inner.Fit := inside.fit (by simp)
      obtain ⟨hstart, hstop⟩ := Forest.extent hfit hgrounded among.stand.2 made lastEnd
      have hspans := Forest.spans hfit hgrounded among.stand made lastEnd
        (n := .around (made + inner.count) (.stmt .assign)
          (Forest.emptyPlace (.stmt .assign) lastEnd) (inner.nodes made lastEnd))
        (by simp [Node.around, hstart]) (by simp [Node.around, hstop])
      refine ⟨_, u, hspans.text_eq, hparse, herrors, ?_⟩
      have hne : inner.nodes made lastEnd ≠ [] := by
        intro hnil
        simp [hnil] at hstart
      rw [hroot, Node.content_eq, Node.around, Forest.contentsOf_nodes among.stand made lastEnd]
      simp [hne]

/-! ### What takes the place of a construct -/

/-- The content of what takes the place of a construct. -/
inductive Construct.Gives (t : SyntaxTree) (n : Node) : Construct → Content → Prop
  | quotient {left mark right : Node} (children_eq : n.children = [left, mark, right]) :
      Construct.Gives t n .floorDivision
        (.quotient (left.content t.source) (right.content t.source))
  | assignment {target mark value : Node} (enclosed : Bool)
      (children_eq : n.children = [target, mark, value]) :
      Construct.Gives t n .compoundFloorDivision (.assignment (target.content t.source)
        (.quotient (target.content t.source) (.parensIf enclosed (value.content t.source))))
  | choice {condition value alternative : Node} (enclosed guarded : Bool)
      (short : SyntaxTree.shortConditional? n.children = some (condition, value, alternative)) :
      Construct.Gives t n .conditional (t.choiceOf enclosed guarded condition value alternative)
  | closure (long : SyntaxTree.shortConditional? n.children = none) :
      Construct.Gives t n .conditional (.closure (contentsOf t.source n.children))

/-- The lowered text of a construct by itself: a statement, or an expression. -/
def Construct.ReadAs (text : Text) (content : Content) : Construct → Prop
  | .compoundFloorDivision => ∃ u, parse text = .ok u ∧ u.errors = [] ∧
      contentsOf u.source u.root.children = [content]
  | .conditional | .floorDivision => ReadsAs text content

theorem ReadsAs.unique {content content' : Content} (h : ReadsAs text content)
    (h' : ReadsAs text content') : content = content' := by
  obtain ⟨e, he, rfl⟩ := h
  obtain ⟨e', he', rfl⟩ := h'
  rw [he, Option.some.injEq] at he'
  rw [he']

/-- A text is read in one way only. -/
theorem Construct.ReadAs.unique {c : Construct} {content content' : Content}
    (h : c.ReadAs text content) (h' : c.ReadAs text content') : content = content' := by
  cases c with
  | conditional | floorDivision => exact ReadsAs.unique h h'
  | compoundFloorDivision =>
      obtain ⟨u, hparse, -, hroot⟩ := h
      obtain ⟨u', hparse', -, hroot'⟩ := h'
      rw [hparse, Except.ok.injEq] at hparse'
      rw [← hparse', hroot, List.cons.injEq] at hroot'
      exact hroot'.1

/-- No condition is open that goes without parentheses. -/
def Node.ClosesCondition (n : Node) : Prop :=
  ∀ condition value alternative,
    SyntaxTree.shortConditional? n.children = some (condition, value, alternative) →
      ¬SyntaxTree.OpenCondition condition

instance (n : Node) : Decidable (SyntaxTree.OpenCondition n) :=
  decidable_of_iff ((SyntaxTree.bindsLoosely n).toOption = some false ∧
    ∃ m ∈ n.rightSpine, m.kind = .expr .conditional) <| by
    rw [SyntaxTree.OpenCondition]
    cases SyntaxTree.bindsLoosely n <;> simp [Except.toOption]

instance (n : Node) : Decidable n.ClosesCondition :=
  decidable_of_iff (∀ parts ∈ SyntaxTree.shortConditional? n.children,
    ¬SyntaxTree.OpenCondition parts.1) <| by
    simp [Node.ClosesCondition]

/-- A construct is a conditional, a floor division or one that assigns. -/
theorem Construct.of?_cases {n : Node} {c : Construct} (h : Construct.of? options n = some c) :
    (c = .conditional ∧ n.kind = .expr .conditional) ∨
      (c = .floorDivision ∧ n.kind = .expr .binary ∧ n.operator? = some .doubleSlash) ∨
      (c = .compoundFloorDivision ∧ n.kind = .stmt .compoundAssign ∧
        n.operator? = some .doubleSlashAssign) := by
  unfold Construct.of? at h
  split at h
  · rename_i hkind
    split at h <;> simp_all
  · rename_i hkind
    split at h <;> simp_all
  · rename_i hkind
    split at h <;> simp_all
  · cases h

/-- Every construct whose condition is not open has a lowered text, and it is known
how this text is read. -/
theorem exists_gives (hparse : parse source = .ok t) (herrors : t.errors = []) {n : Node}
    (hn : n ∈ t.root.preorder) {c : Construct} (hc : Construct.of? options n = some c)
    (hclosed : c = .conditional → n.ClosesCondition) (parent : Option Kind) :
    ∃ text content, t.lowered c parent n = .ok text ∧ c.Gives t n content ∧
      c.ReadAs text content := by
  rw [← Node.map_visits t.root t.rootVisit.parent t.rootVisit.previous, List.mem_map] at hn
  obtain ⟨v, hv, rfl⟩ := hn
  have hkeeps := lowering_keeps_operands hparse herrors v hv
  obtain ⟨rfl, hkind⟩ | ⟨rfl, hkind, hop⟩ | ⟨rfl, hkind, hop⟩ := Construct.of?_cases hc
  · obtain ⟨text, htext, hclosure, hchoice⟩ :=
      lowering_groups_choices hparse herrors v hv hkind parent
    cases hshort : SyntaxTree.shortConditional? v.node.children with
    | none => exact ⟨text, _, htext, .closure hshort, hclosure hshort⟩
    | some parts =>
        obtain ⟨condition, value, alternative⟩ := parts
        obtain ⟨loose, -, hreads⟩ := hchoice condition value alternative hshort
        exact ⟨text, _, htext, .choice _ loose hshort,
          hreads.mpr (hclosed rfl condition value alternative hshort)⟩
  · obtain ⟨left, mark, right, text, hchildren, htext, hreads⟩ := hkeeps.1 hkind hop
    exact ⟨text, _, htext, .quotient hchildren, hreads⟩
  · obtain ⟨target, mark, value, text, u, hchildren, htext, hparse', herrors', hroot⟩ :=
      hkeeps.2 hkind hop
    exact ⟨text, _, htext, .assignment (needsParens value.kind) hchildren, u, hparse', herrors',
      hroot⟩

/-- What can take the place of a construct is read by itself as it is read there. -/
theorem Node.Grown.readAs {n : Node} (h : n.Grown t) {c : Construct} (hc : c.givesWay n.kind) :
    ∃ text, t.text n = .ok text ∧ c.ReadAs text (n.content t.source) := by
  have hexpr : n.kind.isExpr → ∃ text, t.text n = .ok text ∧ ReadsAs text (n.content t.source) := by
    intro hkind
    obtain ⟨k, hk⟩ : ∃ k, n.kind = .expr k := by
      cases hk : n.kind <;> simp_all [Kind.isExpr, Kind.expr?]
    obtain ⟨row, hrow⟩ := h.exists_operand hk
    exact ⟨_, hrow.text_eq, hrow.readsAs⟩
  cases c with
  | conditional => exact hexpr hc
  | floorDivision => exact hexpr hc
  | compoundFloorDivision =>
      obtain ⟨text, u, htext, hparse, herrors, hroot⟩ := h.exists_tree (beq_iff_eq.mp hc)
      exact ⟨text, htext, u, hparse, herrors, hroot⟩

/-! ### Trees -/

/-- The text of a leaf. -/
def Node.leafText (source : Text) (n : Node) : Text :=
  if n.children.isEmpty then (source.slice? n.start n.stop).getD [] else []

mutual

/-- The content that a pass makes of a node: that of what takes the place of a
construct, and otherwise the same kind and text over what the pass makes of the
children. -/
inductive Node.Becomes (t : SyntaxTree) (options : LoweringOptions) : Node → Content → Prop
  | site {n : Node} {c : Construct} {content : Content}
      (construct : Construct.of? options n = some c) (gives : c.Gives t n content) :
      Node.Becomes t options n content
  | same {n : Node} {contents : List Content} (plain : Construct.of? options n = none)
      (children : AllBecome t options n.children contents) :
      Node.Becomes t options n ⟨n.kind, n.leafText t.source, contents⟩

/-- The contents that a pass makes of siblings. -/
inductive AllBecome (t : SyntaxTree) (options : LoweringOptions) :
    List Node → List Content → Prop
  | nil : AllBecome t options [] []
  | cons {n : Node} {rest : List Node} {content : Content} {contents : List Content}
      (head : Node.Becomes t options n content) (tail : AllBecome t options rest contents) :
      AllBecome t options (n :: rest) (content :: contents)

end

/-- Every construct below a node has a lowered text of which it is known how it is
read. -/
def Node.SitesGive (t : SyntaxTree) (options : LoweringOptions) (n : Node) : Prop :=
  ∀ x ∈ n.preorder, ∀ c, Construct.of? options x = some c → ∀ parent,
    ∃ text content, t.lowered c parent x = .ok text ∧ c.Gives t x content ∧ c.ReadAs text content

/-- What stands below a node is read by itself as it is read there. -/
def Node.ReadsAlone (t : SyntaxTree) (n : Node) : Prop :=
  ∀ x ∈ n.preorder, ∀ c : Construct, c.givesWay x.kind →
    ∃ text, t.text x = .ok text ∧ c.ReadAs text (x.content t.source)

/-- What stands for a construct is read as what takes the place of the construct. -/
theorem Node.gives_of_mirrored {n m : Node} {parent : Option Kind} {c : Construct}
    (h : n.mirrored t t' options parent m) (hc : Construct.of? options n = some c)
    (hn : ∃ text content, t.lowered c parent n = .ok text ∧ c.Gives t n content ∧
      c.ReadAs text content) (hm : m.ReadsAlone t') : c.Gives t n (m.content t'.source) := by
  obtain ⟨id, kind, start, stop, children⟩ := n
  obtain ⟨text, content, hlowered, hgives, hreads⟩ := hn
  have hgraft : t.loweredSite ⟨c, ⟨id, kind, start, stop, children⟩, parent⟩ = .ok text := hlowered
  simp only [Node.mirrored, hc, hgraft, Bool.and_eq_true, beq_iff_eq] at h
  obtain ⟨hway, hslice⟩ := h
  obtain ⟨text', htext', hreads'⟩ := hm m (by simp [Node.preorder_eq]) c hway
  rw [SyntaxTree.text, hslice, Except.ok.injEq] at htext'
  subst htext'
  rw [hreads'.unique hreads]
  exact hgives

mutual

/-- The content of what stands for a node. -/
theorem Node.becomes_of_mirrored {n m : Node} {parent : Option Kind}
    (h : n.mirrored t t' options parent m) (hn : n.SitesGive t options) (hm : m.ReadsAlone t') :
    n.Becomes t options (m.content t'.source) := by
  cases n with
  | mk id kind start stop children =>
      cases hc : Construct.of? options ⟨id, kind, start, stop, children⟩ with
      | some c =>
          exact .site hc (Node.gives_of_mirrored h hc (hn _ (by simp [Node.preorder]) c hc parent) hm)
      | none =>
          simp only [Node.mirrored, hc, Bool.and_eq_true, beq_iff_eq, Bool.or_eq_true] at h
          obtain ⟨⟨hkind, hchildren⟩, hleaf⟩ := h
          have hall := allBecome_of_mirrored hchildren
            (fun x hx => hn x (by simp [Node.preorder, hx]))
            fun x hx => hm x (by simp [Node.preorder_eq, hx])
          have hempty : m.children.isEmpty = children.isEmpty := by
            cases children <;> cases hm : m.children <;> simp_all [mirroredAll]
          have htext : m.leafText t'.source =
              Node.leafText t.source ⟨id, kind, start, stop, children⟩ := by
            rw [Node.leafText, Node.leafText, hempty]
            cases children with
            | nil =>
                have hslice : t'.source.slice? m.start m.stop = t.source.slice? start stop := by
                  simpa using hleaf
                simp [hslice]
            | cons => rfl
          have hcontent : m.content t'.source =
              ⟨kind, Node.leafText t.source ⟨id, kind, start, stop, children⟩,
                contentsOf t'.source m.children⟩ := by
            rw [Node.content_eq, hkind, ← htext]
            rfl
          rw [hcontent]
          exact .same hc hall

theorem allBecome_of_mirrored {nodes nodes' : List Node} {parent : Option Kind}
    (h : mirroredAll t t' options parent nodes nodes')
    (hnodes : ∀ x ∈ preorderOfAll nodes, ∀ c, Construct.of? options x = some c → ∀ parent,
      ∃ text content, t.lowered c parent x = .ok text ∧ c.Gives t x content ∧
        c.ReadAs text content)
    (hnodes' : ∀ x ∈ preorderOfAll nodes', ∀ c : Construct, c.givesWay x.kind →
      ∃ text, t'.text x = .ok text ∧ c.ReadAs text (x.content t'.source)) :
    AllBecome t options nodes (contentsOf t'.source nodes') := by
  cases nodes with
  | nil =>
      cases nodes' with
      | nil => exact .nil
      | cons => simp [mirroredAll] at h
  | cons n nodes =>
      cases nodes' with
      | nil => simp [mirroredAll] at h
      | cons m nodes' =>
          rw [mirroredAll, Bool.and_eq_true] at h
          exact .cons
            (Node.becomes_of_mirrored h.1 (fun x hx => hnodes x (by simp [preorderOfAll, hx]))
              fun x hx => hnodes' x (by simp [preorderOfAll, hx]))
            (allBecome_of_mirrored h.2 (fun x hx => hnodes x (by simp [preorderOfAll, hx]))
              fun x hx => hnodes' x (by simp [preorderOfAll, hx]))

end

/-- No conditional to be lowered has an open condition. -/
def SyntaxTree.ClosesConditions (t : SyntaxTree) (options : LoweringOptions) : Prop :=
  ∀ n ∈ t.root.preorder, Construct.of? options n = some .conditional → n.ClosesCondition

instance (t : SyntaxTree) : Decidable (t.ClosesConditions options) := by
  unfold SyntaxTree.ClosesConditions
  infer_instance

section Passes

variable (hparse : parse source = .ok t) (herrors : t.errors = [])
  (hclosed : t.ClosesConditions options)

include hparse herrors

include hclosed in
theorem sitesGive_root : t.root.SitesGive t options := by
  intro n hn c hc parent
  exact exists_gives hparse herrors hn hc (fun hconditional => hclosed n hn (hconditional ▸ hc)) parent

theorem readsAlone_root : t.root.ReadsAlone t := by
  intro n hn c hc
  obtain ⟨inner, gap, hparsed⟩ := parse_parsed hparse herrors
  refine (hparsed.grown n hn ?_).readAs hc
  intro hchunk
  rw [hchunk] at hc
  cases c <;> cases hc

/-- If a pass gives a text whose tree is that of the source outside of the constructs,
each node has become its counterpart. -/
theorem pass_becomes {options : LoweringOptions} (hclosed : t.ClosesConditions options)
    (hparse' : parse text = .ok t') (herrors' : t'.errors = []) {n m : Node}
    {parent : Option Kind} (hn : n ∈ t.root.preorder) (hm : m ∈ t'.root.preorder)
    (h : n.mirrored t t' options parent m) : n.Becomes t options (m.content t'.source) := by
  have hsites := sitesGive_root hparse herrors hclosed
  have hreads := readsAlone_root hparse' herrors'
  exact n.becomes_of_mirrored h
    (fun x hx => hsites x (Node.mem_preorder_trans t.root hn hx))
    fun x hx => hreads x (Node.mem_preorder_trans t'.root hm hx)

end Passes

end LuauTidy
