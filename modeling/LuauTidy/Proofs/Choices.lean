import LuauTidy.Proofs.Branches

/-!
# Choices

A conditional whose value counts as true is lowered to `and` and `or`.  Its value
and its alternative become operands as they stand, and so does its condition,
unless it binds looser than `and`.  What an expression takes from its
surroundings is settled by the operators on its left and by its end on the
right.

* `Content.choice` — the operators for a conditional;
* `Forest.Joins`, `Derives.climb_induction` — operations in a row, from left to
  right;
* `Derives.climb_one`, `Derives.exists_orElse` — expressions that are no
  disjunctions, and what stands before an alternative;
* `Derives.tight_before`, `Node.endsOpen_content` — expressions that do not end in
  a conditional;
* `Rendition.choice` — the choice between a value and an alternative.
-/

namespace LuauTidy

open Lexeme

/-! ### Contents -/

namespace Content

/-- A disjunction. -/
def isOr : Content → Bool
  | ⟨.expr .binary, _, [_, ⟨.token .kwOr, _, _⟩, _]⟩ => true
  | _ => false

/-- A conditional ends the content on the right: it takes what follows it. -/
def endsOpen : Content → Bool
  | ⟨.expr .conditional, _, _⟩ => true
  | ⟨.expr .binary, _, [_, _, right]⟩ => right.endsOpen
  | ⟨.expr .unary, _, [_, value]⟩ => value.endsOpen
  | _ => false

/-- A head before an alternative.  The operands of an alternative that is itself
a disjunction join the head one by one. -/
def orElse (head : Content) : Content → Content
  | ⟨.expr .binary, text, [left, ⟨.token .kwOr, word, below⟩, right]⟩ =>
    ⟨.expr .binary, text, [orElse head left, ⟨.token .kwOr, word, below⟩, right]⟩
  | alternative => binary .kwOr head alternative

/-- The operators `and` and `or` for a conditional. -/
def choice (guard value alternative : Content) : Content :=
  orElse (binary .kwAnd guard value) alternative

theorem orElse_of_not_isOr {alternative : Content} (h : alternative.isOr = false) (head : Content) :
    orElse head alternative = binary .kwOr head alternative := by
  unfold orElse
  split
  · cases h
  · rfl

/-- A head before an alternative is a disjunction. -/
theorem orElse_eq_binary (head alternative : Content) :
    ∃ text children, head.orElse alternative = ⟨.expr .binary, text, children⟩ := by
  unfold orElse
  split
  · exact ⟨_, _, rfl⟩
  · exact ⟨_, _, rfl⟩

end Content

/-! ### Operations in a row -/

section Rows

variable {f : Forest} {next next' : Ahead} {n : Nonterminal} {limit : Nat} {c : Content}

/-- The row of an expression with children is a node. -/
theorem Forest.IsExpr.exists_inner (h : f.IsExpr) {kind : Kind} {text : Text} {cs : List Content}
    (hf : f.contents = [⟨kind, text, c :: cs⟩]) :
    ∃ inner, f = .node kind inner .nil ∧ inner.contents = c :: cs := by
  obtain ⟨k, passed, w, rfl⟩ | ⟨k, inner, rfl⟩ := h
  · simp [Forest.contents] at hf
  · simp only [Forest.contents, List.cons.injEq, Content.mk.injEq, and_true] at hf
    obtain ⟨rfl, -, hinner⟩ := hf
    exact ⟨inner, rfl, hinner⟩

/-- Expressions without an operator of their own. -/
def Nonterminal.isPrimary : Nonterminal → Bool
  | .simple | .suffixed | .chain | .variable | .table => true
  | _ => false

/-- The node of an expression without an operator is no operation. -/
theorem Derives.not_operation (h : Derives [.sub n] f next) (hn : n.isPrimary) {kind : Kind}
    {inner : Forest} (hf : f = .node kind inner .nil) : isOperation kind = false := by
  refine h.phrase_induction (M := fun n f _ => n.isPrimary → ∀ kind inner,
    f = .node kind inner .nil → isOperation kind = false) ?_ ?_ hn kind inner hf
  · intro n parts f next rule inside holds hn kind inner hf
    cases rule with
    | literal k =>
        obtain ⟨passed, w, _, rfl, -⟩ := holds
        cases hf
    | simpleTable | simpleSuffixed | chainVariable =>
        obtain ⟨g, _, rfl, -, hg, rfl⟩ := holds
        rw [Forest.append_nil] at hf
        exact hg rfl kind inner hf
    | suffixed =>
        obtain ⟨g, _, rfl, -, hg, -, rfl⟩ := holds
        rw [Forest.append_nil] at hf
        exact hg rfl kind inner hf
    | _ => exact absurd hn Bool.false_ne_true
  · intro n kind' parts f next rule inside holds hn kind inner hf
    cases hf
    cases rule <;> first
      | exact absurd hn Bool.false_ne_true
      | rfl

/-- The operands of a binary operation in a row. -/
structure Forest.Joins (limit : Nat) (next : Ahead) (op : TokenKind) (l r : Nat)
    (left later : Forest) (passed : List Word) (w : Word) : Prop where
  powers : op.bindingPowers? = some (l, r)
  tighter : limit < l
  before : Derives [.sub (.climb limit)] left ⟨some (.token op), !passed.isEmpty⟩
  comments : ∀ p ∈ passed, p.isComment
  cls_eq : w.cls = .token op
  behind : Derives [.sub (.operand r)] later next

/-- Induction along the left operands of an expression. -/
theorem Derives.climb_induction {M : Forest → Ahead → Prop}
    (h : Derives [.sub (.climb limit)] f next)
    (simple : ∀ f next, Derives [.sub .simple] f next → M f next)
    (unary : ∀ op passed w later next, op.isUnary → (∀ p ∈ passed, p.isComment) →
      w.cls = .token op → Derives [.sub (.operand unaryPower)] later next →
      M (.node (.expr .unary) (.leaf (.token op) passed w later) .nil) next)
    (binary : ∀ op l r left later passed w next,
      Forest.Joins limit next op l r left later passed w →
      M left ⟨some (.token op), !passed.isEmpty⟩ →
      M (.node (.expr .binary) (left ++ .leaf (.token op) passed w later) .nil) next) :
    M f next := by
  refine h.phrase_induction (M := fun n f next => n = .climb limit → M f next) ?_ ?_ rfl
  · intro n parts f next rule inside holds hn
    subst hn
    cases rule
    exact simple f next (by simpa using inside)
  · intro n kind parts f next rule inside holds hn
    subst hn
    cases rule with
    | unary _ op hop =>
        obtain ⟨passed, w, _, rfl, hpassed, -, hw, later, _, rfl, hlater, -, rfl⟩ := holds
        rw [Forest.append_nil]
        exact unary op passed w later next hop hpassed hw hlater
    | binary _ op l r powers tighter =>
        obtain ⟨left, _, rfl, hleft, ih, passed, w, _, rfl, hpassed, -, hw, later, _, rfl, hlater,
          -, rfl⟩ := holds
        have hw : w.cls = .token op := hw
        simp only [Forest.ahead, Token.isComment_of_mark hw, hw] at hleft ih
        rw [Forest.append_nil]
        exact binary op l r left later passed w next ⟨powers, tighter, hleft, hpassed, hw, hlater⟩
          (ih trivial)

/-- The operator of a binary operation between other operands. -/
theorem Forest.Joins.derives {low : Nat} {op : TokenKind} {l r : Nat} {left later : Forest}
    {passed : List Word} {w : Word} (h : Forest.Joins limit next op l r left later passed w)
    {before behind : Forest}
    (hbefore : Derives [.sub (.climb low)] before ⟨some (.token op), !passed.isEmpty⟩)
    (hbehind : Derives [.sub (.operand r)] behind next') (hlow : low < l) :
    Derives [.sub (.climb low)]
      (.node (.expr .binary) (before ++ .leaf (.token op) passed w behind) .nil) next' := by
  have hcomment : w.isComment = false := Token.isComment_of_mark h.cls_eq
  have hmark : Derives [.mark op, .sub (.operand r)] (.leaf (.token op) passed w behind) next' :=
    .leaf h.comments (by simp [hcomment]) h.cls_eq hbehind
  have hahead : (Forest.leaf (.token op) passed w behind).ahead next' =
      ⟨some (.token op), !passed.isEmpty⟩ := by
    simp [Forest.ahead, hcomment, h.cls_eq]
  rw [← hahead] at hbefore
  exact .ofNode (.binary low op l r h.powers hlow) (hbefore.append hmark)

/-- The content of a binary operation. -/
theorem Forest.Joins.exists_contents {op : TokenKind} {l r : Nat} {left later : Forest}
    {passed : List Word} {w : Word} (h : Forest.Joins limit next op l r left later passed w) :
    ∃ a b, left.contents = [a] ∧ later.contents = [b] ∧
      (Forest.node (.expr .binary) (left ++ .leaf (.token op) passed w later) .nil).contents =
        [⟨.expr .binary, [], [a, ⟨.token op, w.text, []⟩, b]⟩] := by
  obtain ⟨a, ha⟩ := (h.before.isExpr rfl).contents
  obtain ⟨b, hb⟩ := (h.behind.isExpr rfl).contents
  exact ⟨a, b, ha, hb, by simp [Forest.contents, ha, hb]⟩

end Rows

/-! ### Disjunctions -/

section Disjunctions

variable {f : Forest} {next : Ahead} {limit : Nat} {c : Content}

theorem TokenKind.powers_or {op : TokenKind} {l r : Nat} (h : op.bindingPowers? = some (l, r)) :
    op = .kwOr ∧ l = 1 ∧ r = 1 ∨ op ≠ .kwOr ∧ 2 ≤ l ∧ 2 ≤ r := by
  cases op <;> simp_all [TokenKind.bindingPowers?] <;> omega

theorem Content.isOr_iff {op : TokenKind} {text word : Text} {a b : Content}
    {below : List Content} : Content.isOr ⟨.expr .binary, text, [a, ⟨.token op, word, below⟩, b]⟩ = true ↔ op = .kwOr := by
  constructor
  · intro h
    unfold Content.isOr at h
    split at h
    · rename_i heq
      simp only [Content.mk.injEq, List.cons.injEq, Kind.token.injEq] at heq
      exact heq.2.2.2.1.1
    · cases h
  · rintro rfl
    rfl

/-- The content of an expression without an operator is no disjunction. -/
theorem Derives.isOr_of_simple (h : Derives [.sub .simple] f next) (hf : f.contents = [c]) :
    c.isOr = false := by
  cases hc : c.isOr with
  | false => rfl
  | true =>
      unfold Content.isOr at hc
      split at hc
      · obtain ⟨inner, rfl, -⟩ := (h.isExpr rfl).exists_inner hf
        cases h.not_operation rfl rfl
      · cases hc

/-- A disjunction ends before what binds as loosely. -/
theorem Derives.endsOperand_of_isOr (h : Derives [.sub (.climb limit)] f next)
    (hf : f.contents = [c]) (hc : c.isOr) : EndsOperand 1 next := by
  refine h.climb_induction (M := fun f next => ∀ c, f.contents = [c] → c.isOr → EndsOperand 1 next)
    ?_ ?_ ?_ c hf hc
  · intro f next hsimple c hf hc
    rw [hsimple.isOr_of_simple hf] at hc
    cases hc
  · intro op passed w later next _ _ _ _ c hf hc
    rw [Forest.contents, List.cons.injEq] at hf
    rw [← hf.1] at hc
    cases hc
  · intro op l r left later passed w next hjoins _ c hf hc
    obtain ⟨a, b, -, -, hcontents⟩ := hjoins.exists_contents
    rw [hcontents, List.cons.injEq] at hf
    rw [← hf.1, Content.isOr_iff] at hc
    rcases TokenKind.powers_or hjoins.powers with ⟨-, -, rfl⟩ | ⟨hop, -⟩
    · exact hjoins.behind.endsOperand
    · exact absurd hc hop

/-- An expression that is no disjunction binds tighter than one. -/
theorem Derives.climb_one (h : Derives [.sub (.climb 0)] f next) (hf : f.contents = [c])
    (hc : c.isOr = false) : Derives [.sub (.climb 1)] f next := by
  refine h.climb_induction (M := fun f next => ∀ c, f.contents = [c] → c.isOr = false →
    Derives [.sub (.climb 1)] f next) ?_ ?_ ?_ c hf hc
  · intro f next hsimple _ _ _
    exact .ofFlat (.plain 1) hsimple
  · intro op passed w later next hop hpassed hw hlater _ _ _
    exact .ofNode (.unary 1 op hop)
      (.leaf hpassed (by simp [Token.isComment_of_mark hw]) hw hlater)
  · intro op l r left later passed w next hjoins ih c hf hc
    obtain ⟨a, b, ha, -, hcontents⟩ := hjoins.exists_contents
    rw [hcontents, List.cons.injEq] at hf
    rw [← hf.1, Bool.eq_false_iff, ne_eq, Content.isOr_iff] at hc
    rcases TokenKind.powers_or hjoins.powers with ⟨hop, -⟩ | ⟨-, hl, -⟩
    · exact absurd hop hc
    · -- a disjunction to the left would take the operator
      have hleft : a.isOr = false := by
        by_contra hor
        have hends := hjoins.before.endsOperand_of_isOr ha (by simpa using hor)
        have := hends op l r rfl hjoins.powers
        omega
      exact hjoins.derives (ih a ha hleft) hjoins.behind (by omega)

/-- A head before an alternative that is no disjunction. -/
theorem Derives.joined (h : Derives [.sub (.climb 1)] f next) (hf : f.contents = [c])
    (hc : c.isOr = false) (hends : EndsOperand 1 next) {head : Forest} {a : Content} (mark : Word)
    (hhead : Derives [.sub (.climb 0)] head (.of .kwOr)) (ha : head.contents = [a])
    (hmark : mark.cls = .token .kwOr) (htext : mark.text = TokenKind.kwOr.grammarName.toList) :
    ∃ g, Derives [.sub (.climb 0)] g next ∧ g.words = head.words ++ mark :: f.words ∧
      g.contents = [a.orElse c] := by
  have hjoins : Forest.Joins 0 next .kwOr 1 1 head f [] mark :=
    ⟨rfl, Nat.zero_lt_one, hhead, by simp, hmark, h.operand hends⟩
  refine ⟨_, hjoins.derives hhead hjoins.behind Nat.zero_lt_one, ?_, ?_⟩
  · simp [Forest.words]
  · simp [Forest.contents, ha, hf, htext, Content.orElse_of_not_isOr hc, Content.binary,
      Content.mark]

/-- A head before an alternative. -/
theorem Derives.exists_orElse (h : Derives [.sub (.climb 0)] f next) (hf : f.contents = [c])
    (hends : EndsOperand 1 next) {head : Forest} {a : Content} (mark : Word)
    (hhead : Derives [.sub (.climb 0)] head (.of .kwOr)) (ha : head.contents = [a])
    (hmark : mark.cls = .token .kwOr) (htext : mark.text = TokenKind.kwOr.grammarName.toList) :
    ∃ g, Derives [.sub (.climb 0)] g next ∧ g.words = head.words ++ mark :: f.words ∧
      g.contents = [a.orElse c] := by
  have hjoined : ∀ {f next c}, Derives [.sub (.climb 0)] f next → f.contents = [c] →
      c.isOr = false → EndsOperand 1 next → ∃ g, Derives [.sub (.climb 0)] g next ∧
        g.words = head.words ++ mark :: f.words ∧ g.contents = [a.orElse c] :=
    fun h hf hc hends => (h.climb_one hf hc).joined hf hc hends mark hhead ha hmark htext
  refine h.climb_induction (M := fun f next => ∀ c, f.contents = [c] → EndsOperand 1 next →
    ∃ g, Derives [.sub (.climb 0)] g next ∧ g.words = head.words ++ mark :: f.words ∧
      g.contents = [a.orElse c]) ?_ ?_ ?_ c hf hends
  · intro f next hsimple c hf hends
    exact hjoined (.ofFlat (.plain 0) hsimple) hf (hsimple.isOr_of_simple hf) hends
  · intro op passed w later next hop hpassed hw hlater c hf hends
    have hunary : Derives [.sub (.climb 0)]
        (.node (.expr .unary) (.leaf (.token op) passed w later) .nil) next :=
      .ofNode (.unary 0 op hop) (.leaf hpassed (by simp [Token.isComment_of_mark hw]) hw hlater)
    have hc : c.isOr = false := by
      rw [Forest.contents, List.cons.injEq] at hf
      rw [← hf.1]
      rfl
    exact hjoined hunary hf hc hends
  · intro op l r left later passed w next hjoins ih c hf hends
    obtain ⟨x, y, hx, hy, hcontents⟩ := hjoins.exists_contents
    cases hc : c.isOr with
    | false =>
        exact hjoined (hjoins.derives hjoins.before hjoins.behind hjoins.tighter) hf hc hends
    | true =>
        -- the operands of the alternative join the head from the left
        rw [hcontents, List.cons.injEq] at hf
        obtain ⟨rfl, -⟩ := hf
        obtain rfl := Content.isOr_iff.mp hc
        obtain ⟨g, hg, hwords, hgContents⟩ := ih x hx fun k l r hk hpowers => by
          obtain rfl := TokenClass.token.inj (Option.some.inj hk)
          cases hpowers
          exact Nat.le_refl 1
        refine ⟨_, hjoins.derives hg hjoins.behind hjoins.tighter, ?_, ?_⟩
        · simp [Forest.words, hwords]
        · simp [Forest.contents, hgContents, hy, Content.orElse]

end Disjunctions

/-! ### Open ends -/

section Ends

variable {f : Forest} {next next' : Ahead} {limit : Nat} {c : Content} {n : Nonterminal}

/-- An expression without an operator stands before any token that is no suffix,
unless it is a conditional. -/
theorem Derives.simple_before (h : Derives [.sub .simple] f next)
    (hf : ∀ inner, f ≠ .node (.expr .conditional) inner .nil) (hchain : EndsChain next') :
    Derives [.sub .simple] f next' := by
  obtain ⟨parts, rule, inside⟩ | ⟨kind, parts, inner, rfl, rule, inside⟩ := h.phrase_cases
  · cases rule with
    | literal k =>
        obtain ⟨passed, w, _, rfl, hpassed, hw, hcls, rfl⟩ := inside.parted
        exact .ofFlat (.literal k) (.leaf hpassed hw hcls (.nil next'))
    | simpleTable =>
        obtain ⟨g, _, rfl, hg, -, rfl⟩ := inside.parted
        rw [Forest.append_nil]
        exact .ofFlat .simpleTable (hg.closed_before rfl next')
    | simpleSuffixed =>
        obtain ⟨g, _, rfl, hg, -, rfl⟩ := inside.parted
        rw [Forest.append_nil]
        obtain ⟨parts, rule, inside⟩ | ⟨kind, parts, inner, -, rule, -⟩ := hg.phrase_cases
        · cases rule
          obtain ⟨g, _, rfl, hg, -, -, rfl⟩ := inside.parted
          rw [Forest.append_nil]
          exact .ofFlat .simpleSuffixed ((hg.closed_before rfl next').suffixed_of_chain hchain)
        · cases rule
  · cases rule with
    | interpolation =>
        cases inside with
        | leaf comments right fitting tail =>
            exact .ofNode .interpolation
              (.leaf comments right fitting (tail.closed_before rfl next'))
    | anonymousFunction =>
        cases inside with
        | leaf comments right fitting tail =>
            exact .ofNode .anonymousFunction
              (.leaf comments right fitting (tail.closed_before rfl next'))
    | conditional => exact absurd rfl (hf inner)

/-- Expressions that bind tighter than a disjunction, and operands of an operator
that does. -/
def Nonterminal.IsTight : Nonterminal → Prop
  | .climb limit => 1 ≤ limit
  | .operand limit => 2 ≤ limit
  | _ => False

/-- The right operand of an operator that binds tighter than a disjunction. -/
theorem Nonterminal.IsTight.right {op : TokenKind} {l r : Nat} (h : (climb limit).IsTight)
    (powers : op.bindingPowers? = some (l, r)) (tighter : limit < l) : (operand r).IsTight := by
  have hlimit : 1 ≤ limit := h
  rcases TokenKind.powers_or powers with ⟨-, hl, -⟩ | ⟨-, -, hr⟩
  · omega
  · exact hr

/-- An expression that binds tighter than a disjunction and does not end in a
conditional stands before `and` and `or`. -/
theorem Derives.tight_before (h : Derives [.sub n] f next) (hn : n.IsTight)
    (hf : f.contents = [c]) (hc : c.endsOpen = false) (hoperand : EndsOperand 2 next')
    (hchain : EndsChain next') : Derives [.sub n] f next' := by
  refine h.phrase_induction (M := fun n f next => n.IsTight → ∀ c, f.contents = [c] →
    c.endsOpen = false → Derives [.sub n] f next') ?_ ?_ hn c hf hc
  · intro n parts f next rule inside holds hn c hf hc
    cases rule with
    | operand limit =>
        obtain ⟨g, _, rfl, -, ih, -, rfl⟩ := holds
        have hle : 2 ≤ limit := hn
        have hclimb : (Nonterminal.climb limit).IsTight := Nat.le_of_succ_le hle
        rw [Forest.append_nil] at hf ⊢
        exact (ih hclimb c hf hc).operand (hoperand.mono hle)
    | plain limit =>
        obtain ⟨g, _, rfl, hg, -, rfl⟩ := holds
        rw [Forest.append_nil] at hf ⊢
        refine .ofFlat (.plain limit) (hg.simple_before ?_ hchain)
        rintro inner rfl
        rw [Forest.contents, List.cons.injEq] at hf
        rw [← hf.1] at hc
        cases hc
    | _ => exact hn.elim
  · intro n kind parts inner next rule inside holds hn c hf hc
    cases rule with
    | unary limit op unary =>
        obtain ⟨passed, w, _, rfl, hpassed, hw, hcls, later, _, rfl, hlater, ih, rfl⟩ := holds
        rw [Forest.append_nil] at hf ⊢
        obtain ⟨b, hb⟩ := (hlater.isExpr rfl).contents
        have htight : (Nonterminal.operand unaryPower).IsTight := Nat.le_of_ble_eq_true rfl
        simp only [Forest.contents, hb, List.cons.injEq, and_true] at hf
        subst hf
        exact .ofNode (.unary limit op unary)
          (.leaf hpassed hw hcls (ih htight b hb hc))
    | binary limit op l r powers tighter =>
        obtain ⟨left, _, rfl, hleft, -, passed, w, _, rfl, hpassed, hw, hcls, later, _, rfl, hlater,
          ih, rfl⟩ := holds
        have hcls : w.cls = .token op := hcls
        simp only [Forest.ahead, Token.isComment_of_mark hcls, hcls] at hleft
        rw [Forest.append_nil] at hf ⊢
        have hjoins : Forest.Joins limit next op l r left later passed w :=
          ⟨powers, tighter, hleft, hpassed, hcls, hlater⟩
        obtain ⟨a, b, -, hb, hcontents⟩ := hjoins.exists_contents
        rw [hcontents, List.cons.injEq] at hf
        obtain ⟨rfl, -⟩ := hf
        exact hjoins.derives hleft (ih (hn.right powers tighter) b hb hc) tighter
    | _ => exact hn.elim

end Ends

/-- The content of a node is open if its right spine reaches a conditional. -/
theorem Node.endsOpen_content (source : Text) (n : Node) :
    (n.content source).endsOpen = n.rightSpine.any fun m => m.kind == .expr .conditional := by
  induction n using Node.rightSpine.induct with
  | case1 id start stop left mark right ih =>
      rw [Node.rightSpine, List.any_cons, ← ih]
      rfl
  | case2 id start stop mark value ih =>
      rw [Node.rightSpine, List.any_cons, ← ih]
      rfl
  | case3 n hbinary hunary =>
      have hspine : n.rightSpine = [n] := by
        rw [Node.rightSpine]
        · exact hbinary
        · exact hunary
      obtain ⟨id, kind, start, stop, children⟩ := n
      rw [hspine, List.any_cons, List.any_nil, Bool.or_false, Node.content_eq]
      unfold Content.endsOpen
      have hlength := length_contentsOf source children
      split
      · rename_i heq
        rw [Content.mk.injEq] at heq
        rw [heq.1]
        rfl
      · rename_i heq
        obtain ⟨rfl, -, hchildren⟩ := Content.mk.inj heq
        rw [hchildren] at hlength
        obtain ⟨left, mark, right, rfl⟩ := List.length_eq_three.mp hlength.symm
        exact absurd rfl (hbinary id start stop left mark right)
      · rename_i heq
        obtain ⟨rfl, -, hchildren⟩ := Content.mk.inj heq
        rw [hchildren] at hlength
        obtain ⟨mark, value, rfl⟩ := List.length_eq_two.mp hlength.symm
        exact absurd rfl (hunary id start stop mark value)
      · rename_i hconditional _ _
        have hkind : kind ≠ .expr .conditional := by
          rintro rfl
          exact hconditional _ _ rfl
        simpa using hkind

/-! ### The choice of a value -/

/-- A choice between a value and an alternative. -/
theorem Rendition.choice {next : Ahead} {guardText valueText alternativeText rest gap : Text}
    {guard value alternative : Content} {guardRow alternativeRow : Forest} {valueRow : Text → Forest}
    (hguard : ∀ later, Rendition [.sub (.climb 0)] (.of .kwAnd) guardText (' ' :: later) [guard]
      guardRow)
    (hopens : guardRow.OpensBehind gap)
    (hvalue : Excerpt (.operand 2) (.of .kwOr) valueText value valueRow)
    (halternative : Rendition [.sub (.climb 0)] next ([' '] ++ alternativeText) rest [alternative]
      alternativeRow)
    (hends : EndsOperand 1 next) :
    ∃ f, f.OpensBehind gap ∧ Rendition [.sub (.climb 0)] next
      (guardText ++ " and ".toList ++ valueText ++ " or ".toList ++ alternativeText) rest
      [.choice guard value alternative] f := by
  have hand : TokenKind.kwAnd.grammarName.toList = "and".toList := by decide
  have hor : TokenKind.kwOr.grammarName.toList = "or".toList := by decide
  have hvalueRow (later : Text) :=
    (hvalue.rendition [' '] rfl (Text.parts_blank later)).mark [' '] hand rfl rfl
  have hhead (later : Text) := ((hguard _).append (hvalueRow later)).node
    (.binary 0 .kwAnd 2 2 rfl (by decide))
  have hmark := halternative.mark [' '] hor rfl rfl
  obtain ⟨f, hf, hwords, hcontents⟩ :=
    halternative.derives.exists_orElse halternative.contents_eq hends
      ⟨⟨.token .kwOr, 0, TokenKind.kwOr.grammarName.toList⟩, [' ']⟩ (hhead []).derives
      (hhead []).contents_eq rfl rfl
  have hbefore := (hhead ("or".toList ++ ([' '] ++ alternativeText) ++ rest)).spells
  have hbehind := hmark.spells
  have hflat := hmark.flat_eq
  rw [Forest.mark, Forest.words, List.nil_append] at hbehind hflat
  refine ⟨f, ?_, hf, ?_, ?_, hcontents⟩
  · obtain ⟨w, hfirst, hgap, hcomment⟩ := hopens
    refine ⟨w, ?_, hgap, hcomment⟩
    simp [hwords, Forest.words, hfirst]
  · rw [hwords]
    refine Spells.append ?_ hbehind
    rw [hflat]
    exact hbefore
  · rw [hwords, Word.flat_append, (hhead []).flat_eq, hflat]
    simp

end LuauTidy
