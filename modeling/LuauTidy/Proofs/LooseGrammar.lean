import LuauTidy.Proofs.Passes
import LuauTidy.Proofs.Precedence

/-!
# The grammar without binding powers

Without binding powers an expression can be read in many ways: any operator can
take any operand.  The loose grammar has the productions of the grammar but for
the limits of operands.  Among the ways in which it reads a source, exactly one
has a tree whose nodes are all grouped, which is the tree that the parser makes.

* `LooseProduction`, `DerivesLoosely` — the loose grammar;
* `Derives.loosely` — the grammar is a part of it;
* `Production.spaced`, `DerivesLoosely.calm` — no operator stands behind an
  expression as a part of something else;
* `DerivesLoosely.regroups` — a loose row with grouped nodes matches the grammar;
* `parse_grouped` — the tree of a source is the one grouped way to read it.
-/

namespace LuauTidy

/-! ### Loose rows -/

/-- The limit of an operand is only a name. -/
def Nonterminal.isOperand : Nonterminal → Bool
  | .operand _ | .climb _ => true
  | _ => false

/-- A production that does not look at limits. -/
inductive LooseProduction : Nonterminal → Option Kind → List Symbol → Prop
  | operand (limit : Nat) : LooseProduction (.operand limit) none [.sub (.climb limit)]
  | plain (limit : Nat) : LooseProduction (.climb limit) none [.sub .simple]
  | unary (limit : Nat) (op : TokenKind) (unary : op.isUnary) :
      LooseProduction (.climb limit) (some (.expr .unary)) [.mark op, .sub (.operand unaryPower)]
  | binary (limit : Nat) (op : TokenKind) (left right : Nat)
      (powers : op.bindingPowers? = some (left, right)) :
      LooseProduction (.climb limit) (some (.expr .binary))
        [.sub (.climb limit), .mark op, .sub (.operand right)]
  | other {n : Nonterminal} {kind : Option Kind} {parts : List Symbol}
      (hn : n.isOperand = false) (rule : Production n kind parts) : LooseProduction n kind parts

/-- A row matches what is asked for, whatever the limits. -/
inductive DerivesLoosely : List Symbol → Forest → (next : Ahead) → Prop
  | nil (next : Ahead) : DerivesLoosely [] .nil next
  | leaf {kind : Kind} {fits : Token → Prop} {passed : List Word} {w : Word} {later : Forest}
      {symbols : List Symbol} {next : Ahead}
      (comments : ∀ p ∈ passed, p.isComment) (right : w.isComment → passed = [])
      (fitting : fits w.toToken) (tail : DerivesLoosely symbols later next) :
      DerivesLoosely (.leaf kind fits :: symbols) (.leaf kind passed w later) next
  | skip {k : TokenKind} {passed : List Word} {w : Word} {later : Forest}
      {symbols : List Symbol} {next : Ahead}
      (comments : ∀ p ∈ passed, p.isComment) (fitting : w.cls = .token k)
      (tail : DerivesLoosely symbols later next) :
      DerivesLoosely (.skip k :: symbols) (.skipped passed w later) next
  | look {fits : Ahead → Prop} {f : Forest} {symbols : List Symbol} {next : Ahead}
      (fitting : fits (f.ahead next)) (tail : DerivesLoosely symbols f next) :
      DerivesLoosely (.look fits :: symbols) f next
  | flat {n : Nonterminal} {parts symbols : List Symbol} {f later : Forest} {next : Ahead}
      (rule : LooseProduction n none parts) (inside : DerivesLoosely parts f (later.ahead next))
      (tail : DerivesLoosely symbols later next) :
      DerivesLoosely (.sub n :: symbols) (f ++ later) next
  | node {n : Nonterminal} {kind : Kind} {parts symbols : List Symbol} {inner later : Forest}
      {next : Ahead} (rule : LooseProduction n (some kind) parts)
      (inside : DerivesLoosely parts inner (later.ahead next))
      (tail : DerivesLoosely symbols later next) :
      DerivesLoosely (.sub n :: symbols) (.node kind inner later) next

/-- A row made of phrases with a property. -/
def Consists (M : Nonterminal → Forest → Ahead → Prop) : List Symbol → Forest → Ahead → Prop
  | [], f, _ => f = .nil
  | .leaf kind fits :: symbols, f, next => ∃ passed w later, f = .leaf kind passed w later ∧
      (∀ p ∈ passed, p.isComment) ∧ (w.isComment → passed = []) ∧ fits w.toToken ∧
      Consists M symbols later next
  | .skip k :: symbols, f, next => ∃ passed w later, f = .skipped passed w later ∧
      (∀ p ∈ passed, p.isComment) ∧ w.cls = .token k ∧ Consists M symbols later next
  | .look fits :: symbols, f, next => fits (f.ahead next) ∧ Consists M symbols f next
  | .sub n :: symbols, f, next => ∃ g later, f = g ++ later ∧ M n g (later.ahead next) ∧
      Consists M symbols later next

variable {M : Nonterminal → Forest → Ahead → Prop} {n : Nonterminal} {symbols parts : List Symbol}
  {f g : Forest} {next : Ahead}

/-- The phrases of a row that matches. -/
theorem Holds.consists (h : Holds M symbols f next) : Consists M symbols f next := by
  induction symbols generalizing f with
  | nil => exact h
  | cons s symbols ih =>
      cases s with
      | leaf kind fits =>
          obtain ⟨passed, w, later, rfl, hpassed, hw, hfits, hlater⟩ := h
          exact ⟨passed, w, later, rfl, hpassed, hw, hfits, ih hlater⟩
      | skip k =>
          obtain ⟨passed, w, later, rfl, hpassed, hw, hlater⟩ := h
          exact ⟨passed, w, later, rfl, hpassed, hw, ih hlater⟩
      | look fits => exact ⟨h.1, ih h.2⟩
      | sub n =>
          obtain ⟨g, later, rfl, -, hg, hlater⟩ := h
          exact ⟨g, later, rfl, hg, ih hlater⟩

/-- A row of phrases with a stronger property. -/
theorem Consists.mono {N : Nonterminal → Forest → Ahead → Prop} (h : Consists M symbols f next)
    (himp : ∀ {n f next}, M n f next → N n f next) : Consists N symbols f next := by
  induction symbols generalizing f with
  | nil => exact h
  | cons s symbols ih =>
      cases s with
      | leaf kind fits =>
          obtain ⟨passed, w, later, rfl, hpassed, hw, hfits, hlater⟩ := h
          exact ⟨passed, w, later, rfl, hpassed, hw, hfits, ih hlater⟩
      | skip k =>
          obtain ⟨passed, w, later, rfl, hpassed, hw, hlater⟩ := h
          exact ⟨passed, w, later, rfl, hpassed, hw, ih hlater⟩
      | look fits => exact ⟨h.1, ih h.2⟩
      | sub n =>
          obtain ⟨g, later, rfl, hg, hlater⟩ := h
          exact ⟨g, later, rfl, himp hg, ih hlater⟩

namespace DerivesLoosely

/-- A phrase by a production without a node. -/
theorem ofFlat (rule : LooseProduction n none parts) (inside : DerivesLoosely parts f next) :
    DerivesLoosely [.sub n] f next := by
  have h : DerivesLoosely [.sub n] (f ++ .nil) next := .flat rule inside (.nil next)
  rwa [Forest.append_nil] at h

/-- A phrase by a production with a node. -/
theorem ofNode {kind : Kind} (rule : LooseProduction n (some kind) parts)
    (inside : DerivesLoosely parts f next) : DerivesLoosely [.sub n] (.node kind f .nil) next :=
  .node rule inside (.nil next)

/-- A phrase before a row. -/
theorem cons (hf : DerivesLoosely [.sub n] f (g.ahead next)) (hg : DerivesLoosely symbols g next) :
    DerivesLoosely (.sub n :: symbols) (f ++ g) next := by
  cases hf with
  | flat rule inside tail =>
      cases tail
      rw [Forest.append_assoc]
      exact .flat rule inside hg
  | node rule inside tail =>
      cases tail
      exact .node rule inside hg

/-- Phrases put together. -/
theorem of_consists (h : Consists (fun n f next => DerivesLoosely [.sub n] f next) symbols f next) :
    DerivesLoosely symbols f next := by
  induction symbols generalizing f with
  | nil =>
      obtain rfl : f = .nil := h
      exact .nil next
  | cons s symbols ih =>
      cases s with
      | leaf kind fits =>
          obtain ⟨passed, w, later, rfl, hpassed, hw, hfits, hlater⟩ := h
          exact .leaf hpassed hw hfits (ih hlater)
      | skip k =>
          obtain ⟨passed, w, later, rfl, hpassed, hw, hlater⟩ := h
          exact .skip hpassed hw (ih hlater)
      | look fits => exact .look h.1 (ih h.2)
      | sub n =>
          obtain ⟨g, later, rfl, hg, hlater⟩ := h
          exact cons hg (ih hlater)

/-- What holds of a phrase by the loose productions holds of every phrase. -/
theorem consists
    (flat : ∀ n parts f next, LooseProduction n none parts → DerivesLoosely parts f next →
      Consists M parts f next → M n f next)
    (node : ∀ n kind parts f next, LooseProduction n (some kind) parts →
      DerivesLoosely parts f next → Consists M parts f next → M n (.node kind f .nil) next)
    (h : DerivesLoosely symbols f next) : Consists M symbols f next := by
  induction h with
  | nil => rfl
  | leaf comments right fitting _ ih => exact ⟨_, _, _, rfl, comments, right, fitting, ih⟩
  | skip comments fitting _ ih => exact ⟨_, _, _, rfl, comments, fitting, ih⟩
  | look fitting _ ih => exact ⟨fitting, ih⟩
  | flat rule inside _ ihInside ih => exact ⟨_, _, rfl, flat _ _ _ _ rule inside ihInside, ih⟩
  | node rule inside _ ihInside ih =>
      exact ⟨.node _ _ .nil, _, rfl, node _ _ _ _ _ rule inside ihInside, ih⟩

end DerivesLoosely

/-- The grammar is a part of the loose grammar. -/
theorem Derives.loosely (h : Derives symbols f next) : DerivesLoosely symbols f next := by
  refine .of_consists (h.holds (M := fun n f next => DerivesLoosely [.sub n] f next) ?_ ?_).consists
  · intro n parts f next rule _ holds
    have hparts := holds.consists
    cases rule with
    | operand limit =>
        obtain ⟨g, _, rfl, hg, -, rfl⟩ := hparts
        rw [Forest.append_nil]
        exact .ofFlat (.operand limit) hg
    | plain limit => exact .ofFlat (.plain limit) (.of_consists hparts)
    | _ => exact .ofFlat (.other rfl (by constructor <;> assumption)) (.of_consists hparts)
  · intro n kind parts f next rule _ holds
    have hparts := holds.consists
    cases rule with
    | unary limit op unary => exact .ofNode (.unary limit op unary) (.of_consists hparts)
    | binary limit op left right powers =>
        exact .ofNode (.binary limit op left right powers) (.of_consists hparts)
    | _ => exact .ofNode (.other rfl (by constructor <;> assumption)) (.of_consists hparts)

/-! ### Where operators cannot stand -/

/-- A phrase that does not begin with an operator. -/
def Nonterminal.startsCalmly : Nonterminal → Bool
  | .operand _ | .climb _ | .exprs | .exprList | .field | .fields | .fieldList => false
  | _ => true

/-- A row that does not begin with an operator, nor with what stands behind it,
unless that is no operator either. -/
def Symbol.startCalmly (closes : Bool) : List Symbol → Bool
  | [] => closes
  | .leaf (.token k) _ :: _ => k.bindingPowers?.isNone
  | .leaf (.expr _) _ :: _ => true
  | .leaf _ _ :: symbols => startCalmly closes symbols
  | .skip _ :: _ => true
  | .look _ :: symbols => startCalmly closes symbols
  | .sub n :: symbols => n.startsCalmly && startCalmly closes symbols

/-- A phrase that an operator behind it could be a part of. -/
def Nonterminal.isOpen : Nonterminal → Bool
  | .operand _ | .climb _ | .simple | .exprs | .exprList | .field | .fields | .fieldList | .elseifs
  | .elseifBlocks | .elseBlock | .statement | .returnStatement | .items | .block | .chunk => true
  | .more _ item => item.isOpen
  | _ => false

/-- A phrase that asks for whole expressions only. -/
def Nonterminal.isSettled : Nonterminal → Bool
  | .operand limit => limit == 0
  | .climb _ => false
  | .more _ item => item.isSettled
  | _ => true

/-- Behind every open phrase of the row stands no operator. -/
def Symbol.spaced (closes : Bool) : List Symbol → Bool
  | [] => true
  | .sub n :: symbols =>
    n.isSettled && (!n.isOpen || startCalmly closes symbols) && spaced closes symbols
  | _ :: symbols => spaced closes symbols

/-- A compound assignment is no binary operator. -/
theorem TokenKind.bindingPowers?_of_compound {k : TokenKind} (h : k.isCompoundAssign) :
    k.bindingPowers?.isNone := by
  cases k <;> first | rfl | exact absurd h (by decide)

theorem Production.startCalmly {kind : Option Kind} (rule : Production n kind parts)
    (hn : n.startsCalmly) : Symbol.startCalmly true parts := by
  cases rule with
  | more _ _ separates => obtain rfl | rfl := separates <;> rfl
  | compoundAssignment op compound =>
      simp [Symbol.startCalmly, Symbol.mark, Nonterminal.startsCalmly,
        TokenKind.bindingPowers?_of_compound compound]
  | _ => first | rfl | exact absurd hn Bool.false_ne_true

/-- What ends an operand depends on the next token only. -/
theorem EndsOperand.of_cls {limit : Nat} {next next' : Ahead} (h : EndsOperand limit next)
    (hcls : next'.cls = next.cls) : EndsOperand limit next' := by
  intro k l r hk hpowers
  exact h k l r (hcls ▸ hk) hpowers

/-- A token without binding powers is no operator. -/
theorem EndsOperand.of_isNone {limit : Nat} {next : Ahead}
    (h : ∀ k, next.cls = some (.token k) → k.bindingPowers?.isNone) : EndsOperand limit next := by
  intro k l r hk hpowers
  have := h k hk
  simp [hpowers] at this

/-- The loose productions ask for leaves that fit their tokens. -/
theorem LooseProduction.proper {kind : Option Kind} (rule : LooseProduction n kind parts) :
    ∀ s ∈ parts, s.Proper := by
  cases rule with
  | other _ rule => exact rule.proper
  | _ => simp

theorem LooseProduction.startCalmly {kind : Option Kind} (rule : LooseProduction n kind parts)
    (hn : n.startsCalmly) : Symbol.startCalmly true parts := by
  cases rule with
  | other _ rule => exact rule.startCalmly hn
  | _ => exact absurd hn Bool.false_ne_true

/-- No operator stands ahead of a row that starts calmly. -/
theorem DerivesLoosely.calm {closes : Bool} (h : DerivesLoosely symbols f next)
    (hproper : ∀ s ∈ symbols, s.Proper) (hcalm : Symbol.startCalmly closes symbols)
    (hnext : closes → EndsOperand 0 next) : EndsOperand 0 (f.ahead next) := by
  induction h generalizing closes with
  | nil => exact hnext hcalm
  | @leaf kind fits passed w later symbols next comments right fitting tail ih =>
      simp only [List.mem_cons, forall_eq_or_imp] at hproper
      have hleaf : LeafFits kind w.toToken := hproper.1 _ fitting
      cases hcomment : w.isComment with
      | true =>
          have hcls : w.cls = .comment := by simpa [Token.isComment] using hcomment
          obtain rfl : kind = .stmt .comment := by
            simpa [LeafFits, hcls, TokenClass.leafKind?] using hleaf
          refine (ih hproper.2 hcalm hnext).of_cls ?_
          simp [Forest.ahead, hcomment]
      | false =>
          refine .of_isNone fun k hk => ?_
          simp only [Forest.ahead, hcomment, Bool.false_eq_true, if_false, Option.some.injEq] at hk
          simp only [LeafFits, hk, TokenClass.leafKind?, Option.some.injEq] at hleaf
          obtain rfl | ⟨h, -⟩ | ⟨h, -⟩ := hleaf
          · exact hcalm
          · cases h
          · cases h
            rfl
  | skip comments fitting _ _ =>
      simp only [List.mem_cons, forall_eq_or_imp] at hproper
      obtain rfl := hproper.1
      refine .of_isNone fun k hk => ?_
      simp only [Forest.ahead, fitting, Option.some.injEq, TokenClass.token.injEq] at hk
      subst hk
      rfl
  | look _ _ ih =>
      simp only [List.mem_cons, forall_eq_or_imp] at hproper
      exact ih hproper.2 hcalm hnext
  | flat rule _ _ ihInside ih =>
      simp only [List.mem_cons, forall_eq_or_imp] at hproper
      simp only [Symbol.startCalmly, Bool.and_eq_true] at hcalm
      rw [Forest.ahead_append]
      exact ihInside rule.proper (rule.startCalmly hcalm.1) fun _ => ih hproper.2 hcalm.2 hnext
  | node rule _ _ ihInside ih =>
      simp only [List.mem_cons, forall_eq_or_imp] at hproper
      simp only [Symbol.startCalmly, Bool.and_eq_true] at hcalm
      exact ihInside rule.proper (rule.startCalmly hcalm.1) fun _ => ih hproper.2 hcalm.2 hnext

/-- Whether what stands behind a phrase by a production could be a part of it. -/
def Nonterminal.closes (n : Nonterminal) (kind : Option Kind) : Bool :=
  if n = .simple then kind == some (.expr .conditional) else n.isOpen

/-- Behind every open phrase in a production stands no operator. -/
theorem Production.spaced {kind : Option Kind} (rule : Production n kind parts)
    (hn : n.isOperand = false) (hsettled : n.isSettled) : Symbol.spaced (n.closes kind) parts := by
  cases rule with
  | operand | plain | unary | binary => exact absurd hn.symm Bool.false_ne_true
  | more separator item separates =>
      have hitem : item.isSettled := hsettled
      obtain rfl | rfl := separates <;>
        simp [Symbol.spaced, Symbol.mark, Nonterminal.isSettled, hitem, Nonterminal.closes,
          Nonterminal.isOpen, Symbol.startCalmly, Nonterminal.startsCalmly]
  | fieldList separator separates | fields separator separates =>
      obtain rfl | rfl := separates <;> rfl
  | _ => rfl

/-! ### Grouped rows -/

/-- The nodes of a row are grouped. -/
def Forest.Grouped (f : Forest) (made lastEnd : Nat) : Prop :=
  ∀ m ∈ preorderOfAll (f.nodes made lastEnd), m.IsGrouped

theorem Forest.grouped_append {made lastEnd : Nat} :
    (f ++ g).Grouped made lastEnd ↔
      f.Grouped made lastEnd ∧ g.Grouped (made + f.count) (f.endFrom lastEnd) := by
  simp only [Grouped, nodes_append, preorderOfAll_append, List.forall_mem_append]

/-- The nodes behind an operator are grouped. -/
theorem Forest.Grouped.behind {op : TokenKind} {passed : List Word} {w : Word} {made lastEnd : Nat}
    (h : (Forest.leaf (.token op) passed w f).Grouped made lastEnd) (hw : w.cls = .token op) :
    f.Grouped (made + 1) w.stop := by
  have hcomment : w.isComment = false := Token.isComment_of_mark hw
  simp only [Grouped, nodes, preorderOfAll, hcomment, Bool.false_eq_true, if_false,
    List.forall_mem_append] at h
  exact h.2

/-- The nodes of a row in a node are grouped, and so is the node. -/
theorem Forest.Grouped.inner {kind : Kind} {made lastEnd : Nat}
    (h : (Forest.node kind f .nil).Grouped made lastEnd) :
    (Node.around (made + f.count) kind (emptyPlace kind lastEnd) (f.nodes made lastEnd)).IsGrouped ∧
      f.Grouped made lastEnd := by
  simpa [Grouped, nodes, preorderOfAll, Node.preorder_eq, Node.around] using h

/-- The spines of a node lead to nodes below it. -/
theorem Node.mem_of_leftSpine (n : Node) : ∀ m ∈ n.leftSpine, m ∈ n.preorder := by
  induction n using Node.leftSpine.induct with
  | case1 id start stop left rest ih =>
      simp only [leftSpine, List.forall_mem_cons]
      refine ⟨by simp [preorder_eq], fun m hm => ?_⟩
      have hchild : left ∈ (Node.mk id (.expr .binary) start stop (left :: rest)).children :=
        List.mem_cons_self
      exact mem_preorder_of_child hchild (ih m hm)
  | case2 n hn =>
      rw [leftSpine.eq_2 n hn]
      simp [preorder_eq]

theorem Node.mem_of_rightSpine (n : Node) : ∀ m ∈ n.rightSpine, m ∈ n.preorder := by
  induction n using Node.rightSpine.induct with
  | case1 id start stop left mark right ih =>
      simp only [rightSpine, List.forall_mem_cons]
      refine ⟨by simp [preorder_eq], fun m hm => ?_⟩
      have hchild : right ∈ (Node.mk id (.expr .binary) start stop [left, mark, right]).children := by
        simp
      exact mem_preorder_of_child hchild (ih m hm)
  | case2 id start stop mark value ih =>
      simp only [rightSpine, List.forall_mem_cons]
      refine ⟨by simp [preorder_eq], fun m hm => ?_⟩
      have hchild : value ∈ (Node.mk id (.expr .unary) start stop [mark, value]).children := by simp
      exact mem_preorder_of_child hchild (ih m hm)
  | case3 n hbinary hunary =>
      rw [rightSpine.eq_3 n hbinary hunary]
      simp [preorder_eq]

theorem Node.self_mem_rightSpine (n : Node) : n ∈ n.rightSpine := by
  unfold rightSpine
  split <;> simp

/-- Where no operator stands ahead, a grouped expression keeps to any limit that
is none. -/
theorem Node.grouping_zero {node : Node} (hgrouped : ∀ m ∈ node.preorder, m.IsGrouped)
    (hnext : EndsOperand 0 next) : node.Grouping 0 next where
  left m hm hkind := by
    obtain ⟨_, _, _, l, r, -, hpowers, -⟩ := (hgrouped m (node.mem_of_leftSpine m hm)).binary hkind
    refine ⟨l, r, hpowers, ?_⟩
    obtain ⟨op, -, hop⟩ := Option.bind_eq_some_iff.mp hpowers
    exact TokenKind.bindingPowers?_pos hop
  right m hm := Node.endsBefore_of_endsOperand hnext (hgrouped m (node.mem_of_rightSpine m hm))

/-- What stands ahead is no part of a phrase with some nodes. -/
def Nonterminal.Ends (n : Nonterminal) (nodes : List Node) (next : Ahead) : Prop :=
  if n = .simple then ∀ node ∈ nodes, node.kind = .expr .conditional → EndsOperand 0 next
  else n.isOpen → EndsOperand 0 next

/-- An expression of a limit ends where no operator for it stands ahead. -/
theorem Derives.operand {limit : Nat} (h : Derives [.sub (.climb limit)] f next)
    (hnext : EndsOperand limit next) : Derives [.sub (.operand limit)] f next := by
  have hends : Derives [.look (EndsOperand limit)] .nil next := .look hnext (.nil next)
  have hrow := h.append (g := .nil) hends
  rw [Forest.append_nil] at hrow
  exact .ofFlat (.operand limit) hrow

/-- What is to be shown of a loose phrase whose nodes are grouped: it matches
the grammar, as an expression with any limit that its node keeps to. -/
structure Nonterminal.Regroups (n : Nonterminal) (f : Forest) (next : Ahead) : Prop where
  isExpr : n.isWholeExpr → f.IsExpr
  operand : n.isOperand → ∀ made lastEnd limit, f.Grouped made lastEnd →
    (∀ node ∈ f.nodes made lastEnd, node.Grouping limit next) → Derives [.sub (.climb limit)] f next
  other : n.isOperand = false → n.isSettled → ∀ made lastEnd, f.Grouped made lastEnd →
    n.Ends (f.nodes made lastEnd) next → Derives [.sub n] f next

/-- A settled phrase whose nodes are grouped matches the grammar if no operator
stands ahead of what it is open to. -/
theorem Nonterminal.Regroups.derives (h : n.Regroups f next) (hsettled : n.isSettled)
    {made lastEnd : Nat} (hgrouped : f.Grouped made lastEnd)
    (hnext : n.isOpen → EndsOperand 0 next) : Derives [.sub n] f next := by
  cases hn : n.isOperand with
  | false =>
      refine h.other hn hsettled made lastEnd hgrouped ?_
      unfold Nonterminal.Ends
      split
      · subst n
        exact fun _ _ _ => hnext rfl
      · exact hnext
  | true =>
      obtain ⟨limit, rfl⟩ : ∃ limit, n = .operand limit := by
        cases n with
        | operand limit => exact ⟨limit, rfl⟩
        | climb => exact absurd hsettled Bool.false_ne_true
        | _ => exact absurd hn Bool.false_ne_true
      obtain rfl : limit = 0 := by simpa [Nonterminal.isSettled] using hsettled
      have hclimb := h.operand rfl made lastEnd 0 hgrouped fun node hnode => by
        obtain ⟨node', -, hnodes, -⟩ := (h.isExpr rfl).exists_node made lastEnd
        rw [Forest.Grouped, hnodes] at hgrouped
        rw [hnodes, List.mem_singleton] at hnode
        subst hnode
        refine Node.grouping_zero (fun m hm => hgrouped m ?_) (hnext rfl)
        simpa [preorderOfAll] using hm
      exact hclimb.operand (hnext rfl)

/-- A row of such phrases matches the grammar if its nodes are grouped. -/
theorem Consists.regroups {closes : Bool}
    (h : Consists (fun n f next => DerivesLoosely [.sub n] f next ∧ n.Regroups f next)
      symbols f next)
    (hproper : ∀ s ∈ symbols, s.Proper) (hspaced : Symbol.spaced closes symbols)
    (hnext : closes → EndsOperand 0 next) {made lastEnd : Nat} (hgrouped : f.Grouped made lastEnd) :
    Derives symbols f next := by
  induction symbols generalizing f made lastEnd with
  | nil =>
      obtain rfl : f = .nil := h
      exact .nil next
  | cons s symbols ih =>
      rw [List.forall_mem_cons] at hproper
      cases s with
      | leaf kind fits =>
          obtain ⟨passed, w, later, rfl, hpassed, hw, hfits, hlater⟩ := h
          simp only [Forest.Grouped, Forest.nodes, preorderOfAll,
            List.forall_mem_append] at hgrouped
          exact .leaf hpassed hw hfits (ih hlater hproper.2 hspaced hgrouped.2)
      | skip k =>
          obtain ⟨passed, w, later, rfl, hpassed, hw, hlater⟩ := h
          exact .skip hpassed hw (ih hlater hproper.2 hspaced hgrouped)
      | look fits => exact .look h.1 (ih h.2 hproper.2 hspaced hgrouped)
      | sub n =>
          obtain ⟨g, later, rfl, ⟨-, hg⟩, hlater⟩ := h
          simp only [Symbol.spaced, Bool.and_eq_true, Bool.or_eq_true, Bool.not_eq_true'] at hspaced
          obtain ⟨⟨hsettled, hcalm⟩, hspaced⟩ := hspaced
          rw [Forest.grouped_append] at hgrouped
          have hphrase : Derives [.sub n] g (later.ahead next) := by
            refine hg.derives hsettled hgrouped.1 fun hopen => ?_
            have hrow : DerivesLoosely symbols later next := .of_consists (hlater.mono fun h => h.1)
            exact hrow.calm hproper.2 (hcalm.resolve_left (by simp [hopen])) hnext
          exact hphrase.append (ih hlater hproper.2 hspaced hgrouped.2)

/-- What stands ahead of a phrase is no part of it. -/
theorem Nonterminal.Ends.endsOperand {nodes : List Node} (h : n.Ends nodes next)
    (kind : Option Kind)
    (hkind : kind = some (.expr .conditional) → ∃ node ∈ nodes, node.kind = .expr .conditional)
    (hcloses : n.closes kind) : EndsOperand 0 next := by
  unfold Nonterminal.Ends at h
  unfold Nonterminal.closes at hcloses
  split at h
  · rename_i hsimple
    rw [if_pos hsimple, beq_iff_eq] at hcloses
    obtain ⟨node, hnode, hconditional⟩ := hkind hcloses
    exact h node hnode hconditional
  · rename_i hsimple
    rw [if_neg hsimple] at hcloses
    exact h hcloses

/-- The row of an expression that is no operand, as far as it has no node of its
own. -/
theorem Production.isExpr_of_flat (rule : Production n none parts) (hn : n.isOperand = false)
    (hwhole : n.isWholeExpr) (h : Consists (fun n f _ => n.isWholeExpr → f.IsExpr) parts f next) :
    f.IsExpr := by
  cases rule with
  | operand | plain => exact absurd hn.symm Bool.false_ne_true
  | suffixed =>
      obtain ⟨g, _, rfl, hg, -, rfl⟩ := h
      simpa using hg rfl
  | simpleTable | simpleSuffixed | chainVariable =>
      obtain ⟨g, _, rfl, hg, rfl⟩ := h
      simpa using hg rfl
  | literal k =>
      obtain ⟨passed, w, _, rfl, -, -, -, rfl⟩ := h
      exact .inl ⟨k, _, _, rfl⟩
  | _ => exact absurd hwhole Bool.false_ne_true

theorem Production.isExpr_of_node {kind : Kind} (rule : Production n (some kind) parts)
    (hwhole : n.isWholeExpr) : ∃ k, kind = .expr k := by
  cases rule <;> first | exact ⟨_, rfl⟩ | exact absurd hwhole Bool.false_ne_true

/-- A unary operation whose operand regroups. -/
theorem regroups_unary {op : TokenKind} (unary : op.isUnary)
    (h : Consists Nonterminal.Regroups [.mark op, .sub (.operand unaryPower)] f next)
    {made lastEnd limit : Nat} (hgrouped : (Forest.node (.expr .unary) f .nil).Grouped made lastEnd)
    (hnode : (Node.around (made + f.count) (.expr .unary) (Forest.emptyPlace (.expr .unary) lastEnd)
      (f.nodes made lastEnd)).Grouping limit next) :
    Derives [.sub (.climb limit)] (.node (.expr .unary) f .nil) next := by
  obtain ⟨passed, w, _, rfl, hpassed, hright, hw, later, _, rfl, hlater, rfl⟩ := h
  rw [Forest.append_nil] at hgrouped hnode ⊢
  obtain ⟨hself, hinner⟩ := hgrouped.inner
  obtain ⟨mark, value, hnodes, hvalue⟩ :=
    (hlater.isExpr rfl).nodes_behind hw passed made lastEnd
  have happlies : (Node.around (made + (Forest.leaf (.token op) passed w later).count)
      (.expr .unary) (Forest.emptyPlace (.expr .unary) lastEnd)
      ((Forest.leaf (.token op) passed w later).nodes made lastEnd)).Applies value :=
    ⟨rfl, mark, hnodes⟩
  obtain ⟨hends, hspine⟩ := happlies.grouping_iff.mp hnode
  have hclimb := hlater.operand rfl (made + 1) w.stop unaryPower (hinner.behind hw) (by
    rw [hvalue]
    simpa using ⟨happlies.isGrouped_iff.mp hself, hspine⟩)
  exact .ofNode (.unary limit op unary) (.leaf hpassed hright hw (hclimb.operand hends))

/-- A binary operation whose operands regroup. -/
theorem regroups_binary {op : TokenKind} {l r limit' : Nat}
    (powers : op.bindingPowers? = some (l, r))
    (h : Consists Nonterminal.Regroups [.sub (.climb limit'), .mark op, .sub (.operand r)] f next)
    {made lastEnd limit : Nat}
    (hgrouped : (Forest.node (.expr .binary) f .nil).Grouped made lastEnd)
    (hnode : (Node.around (made + f.count) (.expr .binary)
      (Forest.emptyPlace (.expr .binary) lastEnd) (f.nodes made lastEnd)).Grouping limit next) :
    Derives [.sub (.climb limit)] (.node (.expr .binary) f .nil) next := by
  obtain ⟨g, _, rfl, hg, passed, w, _, rfl, hpassed, hcomment, hw, later, _, rfl, hlater, rfl⟩ := h
  have hw : w.cls = .token op := hw
  rw [Forest.append_nil] at hgrouped hnode ⊢
  obtain ⟨hself, hinner⟩ := hgrouped.inner
  rw [Forest.grouped_append] at hinner
  obtain ⟨left, mark, right, hnodes, hmark, hleft, hright⟩ :=
    (hg.isExpr rfl).nodes_between (hlater.isExpr rfl) hw passed made lastEnd
  have hjoins : (Node.around (made + (g ++ .leaf (.token op) passed w later).count)
      (.expr .binary) (Forest.emptyPlace (.expr .binary) lastEnd)
      ((g ++ .leaf (.token op) passed w later).nodes made lastEnd)).Joins left right op :=
    ⟨rfl, mark, hnodes, hmark⟩
  obtain ⟨tighter, hends, hleftSpine, hrightSpine⟩ := (hjoins.grouping_iff powers).mp hnode
  obtain ⟨habove, hyields⟩ := (hjoins.isGrouped_iff powers).mp hself
  have hbefore := hg.operand rfl made lastEnd limit hinner.1 (by
    rw [hleft]
    -- the operator is the token behind the left operand
    have hop : ((Forest.leaf (.token op) passed w later).ahead next).cls = some (.token op) := by
      simp [Forest.ahead, Token.isComment_of_mark hw, hw]
    simpa using ⟨hleftSpine, fun m hm => (hyields m hm).endsBefore hop powers⟩)
  have hbehind := hlater.operand rfl _ _ r (hinner.2.behind hw) (by
    rw [hright]
    simpa using ⟨habove, hrightSpine⟩)
  have hrow : Derives [.mark op, .sub (.operand r)] (.leaf (.token op) passed w later) next :=
    .leaf hpassed hcomment hw (hbehind.operand hends)
  rw [Forest.append_nil] at hbefore
  exact .ofNode (.binary limit op l r powers tighter) (hbefore.append hrow)

/-- A phrase of the loose grammar regroups. -/
theorem DerivesLoosely.regroups (h : DerivesLoosely symbols f next) :
    Consists (fun n f next => DerivesLoosely [.sub n] f next ∧ n.Regroups f next)
      symbols f next := by
  refine h.consists ?_ ?_
  · intro n parts f next rule inside hparts
    refine ⟨.ofFlat rule inside, ?_⟩
    cases rule with
    | operand limit =>
        obtain ⟨g, _, rfl, ⟨-, hg⟩, rfl⟩ := hparts
        rw [Forest.append_nil]
        exact ⟨fun _ => hg.isExpr rfl, fun _ => hg.operand rfl, fun h => by cases h⟩
    | plain limit =>
        obtain ⟨g, _, rfl, ⟨-, hg⟩, rfl⟩ := hparts
        rw [Forest.append_nil]
        refine ⟨fun _ => hg.isExpr rfl, fun _ made lastEnd limit hgrouped hnodes => ?_,
          fun h => by cases h⟩
        refine .ofFlat (.plain limit) (hg.other rfl rfl made lastEnd hgrouped ?_)
        intro node hnode
        exact ((hnodes node hnode).right node node.self_mem_rightSpine).conditional
    | other hn rule =>
        refine ⟨fun hwhole => ?_, fun h => by simp [hn] at h,
          fun _ hsettled made lastEnd hgrouped hends => ?_⟩
        · exact rule.isExpr_of_flat hn hwhole (hparts.mono fun h => h.2.isExpr)
        · refine .ofFlat rule (hparts.regroups rule.proper (rule.spaced hn hsettled) ?_ hgrouped)
          exact hends.endsOperand none (fun h => by cases h)
  · intro n kind parts f next rule inside hparts
    refine ⟨.ofNode rule inside, ?_⟩
    have hregroups : Consists Nonterminal.Regroups parts f next := hparts.mono fun h => h.2
    cases rule with
    | unary limit op unary =>
        refine ⟨fun _ => .inr ⟨_, _, rfl⟩, fun _ made lastEnd limit hgrouped hnodes => ?_,
          fun h => by cases h⟩
        exact regroups_unary unary hregroups hgrouped (hnodes _ (List.mem_singleton.mpr rfl))
    | binary limit op l r powers =>
        refine ⟨fun _ => .inr ⟨_, _, rfl⟩, fun _ made lastEnd limit hgrouped hnodes => ?_,
          fun h => by cases h⟩
        exact regroups_binary powers hregroups hgrouped (hnodes _ (List.mem_singleton.mpr rfl))
    | other hn rule =>
        refine ⟨fun hwhole => ?_, fun h => by simp [hn] at h,
          fun _ hsettled made lastEnd hgrouped hends => ?_⟩
        · obtain ⟨k, rfl⟩ := rule.isExpr_of_node hwhole
          exact .inr ⟨k, f, rfl⟩
        · refine .ofNode rule
            (hparts.regroups rule.proper (rule.spaced hn hsettled) ?_ hgrouped.inner.2)
          refine hends.endsOperand (some kind) fun hkind => ?_
          exact ⟨_, List.mem_singleton.mpr rfl, Option.some.inj hkind⟩

/-! ### The one grouped reading -/

/-- A row over the tokens of a source that matches the loose grammar. -/
structure ReadsLoosely (source : Text) (f : Forest) : Prop where
  derives : DerivesLoosely [.sub .items] f (Word.ahead [])
  tokens : tokenize source = f.words.map Word.toToken

variable {source : Text} {t : SyntaxTree}

/-- A loose reading whose tree is grouped is the reading of the parser. -/
theorem ReadsLoosely.parse (h : ReadsLoosely source f)
    (hgrouped : (SyntaxTree.ofForest source f).IsGrouped) :
    parse source = .ok (.ofForest source f) := by
  obtain ⟨g, _, rfl, ⟨-, hg⟩, rfl⟩ := h.derives.regroups
  rw [Forest.append_nil] at h hgrouped ⊢
  refine parse_of_derives ?_ h.tokens
  refine hg.derives rfl ((SyntaxTree.isGrouped_iff rfl).mp hgrouped) fun _ => ?_
  simp [EndsOperand, Forest.ahead, Word.ahead]

/-- In the tree of a source that parses, every operator has the operands that the
binding powers give it.  Among all ways to read the tokens by the loose grammar,
the tree is the one for which this holds. -/
theorem parse_grouped (hparse : parse source = .ok t) (herrors : t.errors = []) :
    t.IsGrouped ∧ (∃ f, ReadsLoosely source f ∧ t = .ofForest source f) ∧
      ∀ g, ReadsLoosely source g → (SyntaxTree.ofForest source g).IsGrouped →
        SyntaxTree.ofForest source g = t := by
  obtain ⟨f, hderives, htokens, rfl⟩ := parse_eq_ok_iff.mp ⟨hparse, herrors⟩
  obtain ⟨g, gap, hparsed⟩ := parse_parsed hparse herrors
  refine ⟨?_, ⟨f, ⟨hderives.loosely, htokens⟩, rfl⟩, fun g hg hgrouped => ?_⟩
  · exact hparsed.isGrouped
  · have h := hg.parse hgrouped
    rw [hparse, Except.ok.injEq] at h
    exact h.symm

/-- A source with operators of either grouping, unary ones and a conditional. -/
theorem parse_grouped_mixed :
    ∃ t, parse "x = -a ^ b ^ -c .. d + e * if f then g else h or i".toList = .ok t ∧ t.errors = [] ∧
      t.IsGrouped ∧ ∀ g, ReadsLoosely t.source g → (SyntaxTree.ofForest t.source g).IsGrouped →
        SyntaxTree.ofForest t.source g = t := by
  obtain ⟨t, hparse, herrors⟩ :=
    exists_tree "x = -a ^ b ^ -c .. d + e * if f then g else h or i".toList (by decide +kernel)
  obtain ⟨hgrouped, ⟨f, -, hf⟩, hunique⟩ := parse_grouped hparse herrors
  have hsource : t.source = "x = -a ^ b ^ -c .. d + e * if f then g else h or i".toList := by
    rw [hf]
    rfl
  exact ⟨t, hparse, herrors, hgrouped, by rw [hsource]; exact hunique⟩

end LuauTidy
