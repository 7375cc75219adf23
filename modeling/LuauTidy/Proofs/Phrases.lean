import LuauTidy.Proofs.Cutting
import LuauTidy.Proofs.Extents
import LuauTidy.Proofs.Tokens

/-!
# Expressions in a source

The row of an expression is a single leaf or node.  When its words stand in a
source, the node has the text of the words, without the blanks and comments
before the first one.

* `Word.Stand` — words stand in a source;
* `Forest.IsExpr`, `Derives.isExpr` — the row of an expression;
* `Node.Spans`, `Derives.spans` — the extent and the text of its node.
-/

namespace LuauTidy

/-- Words stand in a source behind some text. -/
def Word.Stand (source before : Text) (ws : List Word) : Prop :=
  (∃ rest, source = before ++ (flat ws ++ rest)) ∧ place before.byteLength ws = ws

namespace Word

/-- Words that stand one after the other. -/
theorem Stand.append {source before : Text} {a b : List Word}
    (h : Stand source before (a ++ b)) :
    Stand source before a ∧ Stand source (before ++ flat a) b := by
  obtain ⟨⟨rest, rfl⟩, hplace⟩ := h
  obtain ⟨ha, hb⟩ := placed_append.mp hplace
  exact ⟨⟨⟨flat b ++ rest, by simp⟩, ha⟩, ⟨rest, by simp⟩, by simpa using hb⟩

/-- What stands behind a word with the comments before it. -/
theorem Stand.tail {source before : Text} {passed ws : List Word} {w : Word}
    (h : Stand source before (passed ++ w :: ws)) :
    Stand source (before ++ flat (passed ++ [w])) ws := by
  rw [List.append_cons] at h
  exact h.append.2

/-- The text between where the first word starts and the last one stops. -/
theorem Stand.slice {source before : Text} {ws : List Word} (h : Stand source before ws) :
    source.slice? (before.byteLength + (lead ws).byteLength)
      (before.byteLength + (flat ws).byteLength) = some (body ws) := by
  obtain ⟨⟨rest, rfl⟩, -⟩ := h
  have h := Text.slice?_append (before ++ lead ws) (body ws) rest
  have hbody := lead_append_body ws
  rw [← hbody]
  simpa [Nat.add_assoc] using h

/-- The text of words that stand in a source is a part of the source. -/
theorem Stand.body_part {source before : Text} {ws : List Word} (h : Stand source before ws) :
    body ws <:+: source := by
  obtain ⟨⟨rest, rfl⟩, -⟩ := h
  exact ⟨before ++ lead ws, rest, by rw [← lead_append_body ws]; simp⟩

end Word

namespace Forest

/-- The row is a single leaf or node of an expression. -/
def IsExpr (f : Forest) : Prop :=
  (∃ k passed w, f = leaf (.expr k) passed w nil) ∨ ∃ k inner, f = node (.expr k) inner nil

/-- The row of an expression has one node. -/
theorem IsExpr.exists_node {f : Forest} (h : f.IsExpr) (made lastEnd : Nat) :
    ∃ n k, f.nodes made lastEnd = [n] ∧ n.kind = .expr k := by
  obtain ⟨k, passed, w, rfl⟩ | ⟨k, inner, rfl⟩ := h <;> exact ⟨_, k, rfl, rfl⟩

end Forest

/-- Phrases that are expressions. -/
def Nonterminal.isWholeExpr : Nonterminal → Bool
  | .operand _ | .climb _ | .simple | .suffixed | .chain | .variable | .table => true
  | _ => false

theorem Derives.isExpr {n : Nonterminal} {f : Forest} {next : Ahead}
    (h : Derives [.sub n] f next) (hn : n.isWholeExpr) : f.IsExpr := by
  refine h.phrase_induction (M := fun n f _ => n.isWholeExpr → f.IsExpr) ?_ ?_ hn
  · intro n parts f next rule _ holds hn
    cases rule with
    | operand | suffixed =>
        obtain ⟨g, _, rfl, -, hg, -, rfl⟩ := holds
        simpa using hg rfl
    | plain | simpleTable | simpleSuffixed | chainVariable =>
        obtain ⟨g, _, rfl, -, hg, rfl⟩ := holds
        simpa using hg rfl
    | literal k =>
        obtain ⟨passed, w, _, rfl, -, -, -, rfl⟩ := holds
        exact .inl ⟨k, _, _, rfl⟩
    | _ => simp [Nonterminal.isWholeExpr] at hn
  · intro n kind parts f next rule _ _ hn
    obtain ⟨k, rfl⟩ : ∃ k, kind = .expr k := by
      cases rule <;> first | exact ⟨_, rfl⟩ | simp [Nonterminal.isWholeExpr] at hn
    exact .inr ⟨k, f, rfl⟩

/-- The extent and the text of a node whose words stand in a source. -/
structure Node.Spans (t : SyntaxTree) (n : Node) (before : Text) (ws : List Word) : Prop where
  start_eq : n.start = (before ++ Word.lead ws).byteLength
  stop_eq : n.stop = (before ++ Word.flat ws).byteLength
  text_eq : t.text n = .ok (Word.body ws)

/-- A node from the first to the last of some siblings. -/
theorem Forest.spans {t : SyntaxTree} {before : Text} {f : Forest} (hfit : f.Fit)
    (hgrounded : f.Grounded) (hstand : Word.Stand t.source before f.words) (made lastEnd : Nat)
    {n : Node} (hstart : (f.nodes made lastEnd).head?.map Node.start = some n.start)
    (hstop : (f.nodes made lastEnd).getLast?.map Node.stop = some n.stop) :
    n.Spans t before f.words := by
  obtain ⟨h₁, h₂⟩ := extent hfit hgrounded hstand.2 made lastEnd
  have hs : n.start = before.byteLength + (Word.lead f.words).byteLength := by
    simpa [h₁] using hstart.symm
  have he : n.stop = before.byteLength + (Word.flat f.words).byteLength := by
    simpa [h₂] using hstop.symm
  refine ⟨by simp [hs], by simp [he], ?_⟩
  rw [SyntaxTree.text, hs, he, hstand.slice]

/-- The node of an expression. -/
theorem Derives.spans {n : Nonterminal} {f : Forest} {next : Ahead}
    (h : Derives [.sub n] f next) (hn : n.isWholeExpr) {t : SyntaxTree} {before : Text}
    (hstand : Word.Stand t.source before f.words) (made lastEnd : Nat) :
    ∃ node k, f.nodes made lastEnd = [node] ∧ node.kind = .expr k ∧
      node.Spans t before f.words := by
  obtain ⟨node, k, hnode, hkind⟩ := (h.isExpr hn).exists_node made lastEnd
  have hfirst : n.isExpr := by cases n <;> simp_all [Nonterminal.isWholeExpr, Nonterminal.isExpr]
  have hlast : n.endsExpr := by cases n <;> first | rfl | exact hfirst
  refine ⟨node, k, hnode, hkind, Forest.spans (h.fit (by simp)) (h.grounded hfirst hlast) hstand
    made lastEnd ?_ ?_⟩
  · simp [hnode]
  · simp [hnode]

/-- Among the words of an expression is one that is no comment. -/
theorem Derives.exists_word {n : Nonterminal} {f : Forest} {next : Ahead}
    (h : Derives [.sub n] f next) (hn : n.isWholeExpr) : ∃ w ∈ f.words, w.isComment = false := by
  have hfirst : n.isExpr := by cases n <;> simp_all [Nonterminal.isWholeExpr, Nonterminal.isExpr]
  have hlast : n.endsExpr := by cases n <;> first | rfl | exact hfirst
  obtain ⟨⟨kind, w, hw, hkind⟩, -⟩ := h.grounded hfirst hlast
  obtain ⟨⟨passed, rest, hwords, -⟩, hleaf, -⟩ := Forest.head_of_firstLeaf (h.fit (by simp)) hw 0 0
  exact ⟨w, by simp [hwords], hleaf.not_comment hkind⟩

/-- An operator between two expressions. -/
theorem Derives.spans_between {a b : Nonterminal} {op : TokenKind} {f : Forest}
    {next : Ahead} (h : Derives [.sub a, .mark op, .sub b] f next)
    (ha : a.isWholeExpr) (hb : b.isWholeExpr) {t : SyntaxTree} {before : Text}
    (hstand : Word.Stand t.source before f.words) (made lastEnd : Nat) :
    ∃ g passed w later left mark right k,
      f = g ++ .leaf (.token op) passed w later ∧ Derives [.sub a] g ⟨some w.cls, !passed.isEmpty⟩ ∧
      Derives [.sub b] later next ∧ (∀ p ∈ passed, p.isComment) ∧ w.cls = .token op ∧
      f.nodes made lastEnd = [left, mark, right] ∧ mark.kind = .token op ∧
      right.kind = .expr k ∧ left.Spans t before g.words ∧
      right.Spans t (before ++ Word.flat (g.words ++ (passed ++ [w]))) later.words := by
  obtain ⟨g, _, rfl, hg, -, passed, w, _, rfl, hpassed, -, hw, later, _, rfl, hlater, -, rfl⟩ :=
    h.parted
  have hcls : w.cls = .token op := hw
  have hcomment : w.isComment = false := by simp [Token.isComment, hcls]
  rw [Forest.append_nil] at hstand ⊢
  simp only [Forest.ahead] at hlater
  simp only [Forest.ahead, hcomment, Bool.false_eq_true, if_false] at hg
  simp only [Forest.words_append, Forest.words] at hstand
  obtain ⟨hleft, hright⟩ := hstand.append
  obtain ⟨left, -, hleftNode, -, hleft⟩ := hg.spans ha hleft made lastEnd
  obtain ⟨right, k, hrightNode, hkind, hright⟩ := hlater.spans hb hright.tail
    (made + g.count + 1) w.stop
  refine ⟨g, passed, w, later, left, ⟨made + g.count, .token op, w.start, w.stop, []⟩, right, k, rfl,
    hg, hlater, hpassed, hcls, ?_, rfl, hkind, hleft, by simpa using hright⟩
  simp [Forest.nodes, hcomment, hleftNode, hrightNode]

/-- A leaf with which an expression begins is no piece of a string. -/
theorem Kind.isPiece_of_beginsExpr {kind : Kind} (hkind : kind.beginsExpr) {t : Token}
    (hleaf : LeafFits kind t) : t.cls.isPiece = false := by
  cases hcls : t.cls with
  | literal | comment => rfl
  | error => simp [LeafFits, hcls, TokenClass.leafKind?] at hleaf
  | token k =>
      simp only [LeafFits, hcls, TokenClass.leafKind?, Option.some.injEq] at hleaf
      rcases hleaf with rfl | ⟨hcomment, -⟩ | ⟨hname, -⟩
      · cases k <;> first | rfl | exact absurd hkind (by decide)
      · cases hcomment
      · rw [hname]
        rfl

/-! ### Expressions that begin with `if` -/

/-- Behind an expression stands no operator that could belong to it. -/
theorem Derives.endsOperand {limit : Nat} {f : Forest} {next : Ahead}
    (h : Derives [.sub (.operand limit)] f next) : EndsOperand limit next := by
  obtain ⟨parts, rule, inside⟩ | ⟨kind, parts, inner, rfl, rule, -⟩ := h.phrase_cases
  · cases rule
    obtain ⟨g, later, -, -, -, hends, rfl⟩ := inside.parted
    exact hends
  · cases rule

/-- A phrase that begins with a name, a parenthesis or a brace. -/
def Nonterminal.isSuffixed : Nonterminal → Bool
  | .suffixed | .chain | .variable | .callParts | .table => true
  | _ => false

/-- No such phrase begins with `if`. -/
theorem Derives.not_if_of_isSuffixed {n : Nonterminal} {f : Forest} {next : Ahead}
    (h : Derives [.sub n] f next) (hn : n.isSuffixed) (w : Word) :
    f.firstLeaf ≠ some (.token .kwIf, w) := by
  intro hw
  have hrule : ∀ {n kind parts}, Production n kind parts → n.isSuffixed →
      Symbol.firstIs Nonterminal.isSuffixed
        (fun kind => kind ∈ [Kind.token .name, .token .lparen, .token .lbrace]) parts := by
    intro n kind parts rule hn
    cases rule <;> first | rfl | simp [Nonterminal.isSuffixed] at hn
  obtain ⟨kind, v, hv, hkind⟩ := h.firstLeaf hrule hn
  rw [hw, Option.some.injEq, Prod.mk.injEq] at hv
  rw [← hv.1] at hkind
  simp at hkind

/-- An expression that begins with `if` is a conditional, and nothing that
binds follows it. -/
theorem Derives.conditional_of_if {n : Nonterminal} {f : Forest} {next : Ahead}
    (h : Derives [.sub n] f next) (hn : n.isWholeExpr) {w : Word}
    (hw : f.firstLeaf = some (.token .kwIf, w)) :
    (∃ inner, f = .node (.expr .conditional) inner .nil) ∧ EndsOperand 0 next := by
  refine h.phrase_induction (M := fun n f next => n.isWholeExpr → ∀ w,
    f.firstLeaf = some (.token .kwIf, w) →
      (∃ inner, f = .node (.expr .conditional) inner .nil) ∧ EndsOperand 0 next) ?_ ?_ hn w hw
  · intro n parts f next rule inside holds hn w hw
    cases rule with
    | operand =>
        obtain ⟨g, _, rfl, -, hg, -, rfl⟩ := holds
        rw [Forest.append_nil] at hw
        simpa [Forest.ahead] using hg rfl w hw
    | plain =>
        obtain ⟨g, _, rfl, -, hg, rfl⟩ := holds
        rw [Forest.append_nil] at hw
        simpa [Forest.ahead] using hg rfl w hw
    | literal =>
        obtain ⟨passed, v, _, rfl, -⟩ := holds
        simp [Forest.firstLeaf] at hw
    | simpleTable | simpleSuffixed =>
        obtain ⟨g, _, rfl, hg, -, rfl⟩ := holds
        rw [Forest.append_nil] at hw
        exact absurd hw (hg.not_if_of_isSuffixed rfl w)
    | suffixed =>
        exact absurd hw ((Derives.ofFlat .suffixed inside).not_if_of_isSuffixed rfl w)
    | chainVariable =>
        exact absurd hw ((Derives.ofFlat .chainVariable inside).not_if_of_isSuffixed rfl w)
    | _ => simp [Nonterminal.isWholeExpr] at hn
  · intro n kind parts f next rule inside holds hn w hw
    have hnode := Derives.ofNode rule inside
    cases hsuffix : n.isSuffixed with
    | true => exact absurd hw (hnode.not_if_of_isSuffixed hsuffix w)
    | false =>
        cases rule with
        | unary limit op unary =>
            obtain ⟨passed, v, _, rfl, -⟩ := holds
            simp only [Forest.firstLeaf, Option.some.injEq, Prod.mk.injEq, Kind.token.injEq] at hw
            rw [hw.1] at unary
            exact absurd unary (by decide)
        | binary limit op left right powers tighter =>
            obtain ⟨g, _, rfl, hg, ih, passed, v, later, rfl, -, -, hv, -⟩ := holds
            have hv : v.cls = .token op := hv
            have hcomment : v.isComment = false := by simp [Token.isComment, hv]
            obtain ⟨⟨kind, u, hu, -⟩, -⟩ := hg.grounded rfl rfl
            rw [Forest.firstLeaf, Forest.firstLeaf_append hu] at hw
            obtain ⟨-, hends⟩ := ih rfl w (hu.trans hw)
            simp only [Forest.ahead, hcomment, Bool.false_eq_true, if_false] at hends
            have := hends op left right (by rw [hv]) powers
            omega
        | conditional =>
            obtain ⟨passed, v, _, rfl, -, -, -, -, _, rfl, -, -, -, -, _, rfl, -, -, -, -, _, rfl, -, -,
              _, _, rfl, -, -, -, _, _, rfl, -, -, -, last, _, rfl, hlast, -, rfl⟩ := holds
            exact ⟨⟨_, rfl⟩, hlast.endsOperand⟩
        | interpolation | anonymousFunction =>
            obtain ⟨passed, v, _, rfl, -⟩ := holds
            simp [Forest.firstLeaf] at hw
        | _ =>
            first
              | exact absurd hn Bool.false_ne_true
              | exact absurd hsuffix.symm Bool.false_ne_true

end LuauTidy
