import LuauTidy.Lowering.Construct
import LuauTidy.Proofs.Forms
import LuauTidy.Proofs.Phrases
import LuauTidy.Proofs.StmtAccepting

/-!
# Precedence

Which operator takes which operand is settled by the binding powers, and it
shows on the spines of the operands.  The left spine of a node goes down
through the left operands of binary operators: these are the operators that
another one on the left could take an operand from.  The right spine goes down
through the right operands of binary operators and the operands of unary ones:
these are the forms that could go on to the right.

* `Node.leftSpine`, `Node.rightSpine` — the spines of a node;
* `Node.BindsAbove`, `Node.Yields` — what a node on a spine has to do for the
  operator beside it;
* `Node.IsGrouped` — the operands of a node bind as the powers demand;
* `Derives.grouping` — what a limit and the next token do to the spines;
* `Parsed.grouped` — every node of a tree is grouped.
-/

namespace LuauTidy

/-! ### Spines -/

namespace Node

/-- The binding powers of the operator between two operands. -/
def powers? (n : Node) : Option (Nat × Nat) := n.operator?.bind TokenKind.bindingPowers?

/-- The node, and the left spine of its left operand if it is a binary operation. -/
def leftSpine : Node → List Node
  | n@⟨_, .expr .binary, _, _, left :: _⟩ => n :: left.leftSpine
  | n => [n]

/-- The node, and the right spine of its last operand if it is an operation. -/
def rightSpine : Node → List Node
  | n@⟨_, .expr .binary, _, _, [_, _, right]⟩ => n :: right.rightSpine
  | n@⟨_, .expr .unary, _, _, [_, value]⟩ => n :: value.rightSpine
  | n => [n]

theorem leftSpine_binary {n left : Node} {rest : List Node} (hkind : n.kind = .expr .binary)
    (hchildren : n.children = left :: rest) : n.leftSpine = n :: left.leftSpine := by
  obtain ⟨id, kind, start, stop, children⟩ := n
  obtain rfl : kind = .expr .binary := hkind
  obtain rfl : children = left :: rest := hchildren
  rw [leftSpine]

theorem leftSpine_of_ne {n : Node} (hkind : n.kind ≠ .expr .binary) : n.leftSpine = [n] := by
  unfold leftSpine
  split
  · exact absurd rfl hkind
  · rfl

theorem rightSpine_binary {n left mark right : Node} (hkind : n.kind = .expr .binary)
    (hchildren : n.children = [left, mark, right]) : n.rightSpine = n :: right.rightSpine := by
  obtain ⟨id, kind, start, stop, children⟩ := n
  obtain rfl : kind = .expr .binary := hkind
  obtain rfl : children = [left, mark, right] := hchildren
  rw [rightSpine]

theorem rightSpine_unary {n mark value : Node} (hkind : n.kind = .expr .unary)
    (hchildren : n.children = [mark, value]) : n.rightSpine = n :: value.rightSpine := by
  obtain ⟨id, kind, start, stop, children⟩ := n
  obtain rfl : kind = .expr .unary := hkind
  obtain rfl : children = [mark, value] := hchildren
  rw [rightSpine]

theorem rightSpine_of_not_operation {n : Node} (hkind : isOperation n.kind = false) :
    n.rightSpine = [n] := by
  unfold rightSpine
  split
  · exact absurd hkind (by simp [isOperation])
  · exact absurd hkind (by simp [isOperation])
  · rfl

/-! ### Grouping -/

/-- If the node is a binary operation, its operator takes its left operand from
whatever binds with a limit. -/
def BindsAbove (limit : Nat) (n : Node) : Prop :=
  n.kind = .expr .binary → ∃ l r, n.powers? = some (l, r) ∧ limit < l

/-- The node leaves what stands behind it to an operator with a left power: its
own operator binds as tight, and it is no conditional, which never leaves
anything. -/
structure Yields (power : Nat) (n : Node) : Prop where
  binary : n.kind = .expr .binary → ∃ l r, n.powers? = some (l, r) ∧ power ≤ r
  unary : n.kind = .expr .unary → power ≤ unaryPower
  not_conditional : n.kind ≠ .expr .conditional

/-- The operands of the node bind as its operator demands. -/
structure IsGrouped (n : Node) : Prop where
  binary : n.kind = .expr .binary → ∃ left mark right l r,
    n.children = [left, mark, right] ∧ n.powers? = some (l, r) ∧
      (∀ m ∈ right.leftSpine, m.BindsAbove r) ∧ ∀ m ∈ left.rightSpine, m.Yields l
  unary : n.kind = .expr .unary → ∃ mark value,
    n.children = [mark, value] ∧ ∀ m ∈ value.leftSpine, m.BindsAbove unaryPower

/-- What is no operation is grouped. -/
theorem isGrouped_of_not_operation {n : Node} (h : isOperation n.kind = false) : n.IsGrouped where
  binary hkind := by simp [hkind, isOperation] at h
  unary hkind := by simp [hkind, isOperation] at h

end Node

/-- Every node of the tree is grouped. -/
def SyntaxTree.IsGrouped (t : SyntaxTree) : Prop := ∀ v ∈ t.visits, v.node.IsGrouped

/-! ### Limits and spines -/

/-- No binding power is zero. -/
theorem TokenKind.bindingPowers?_pos {k : TokenKind} {l r : Nat}
    (h : k.bindingPowers? = some (l, r)) : 0 < l := by
  cases k <;> simp_all [TokenKind.bindingPowers?] <;> omega

/-- What ends an operand ends one of a higher limit. -/
theorem EndsOperand.mono {low high : Nat} {next : Ahead} (h : EndsOperand low next)
    (hle : low ≤ high) : EndsOperand high next :=
  fun k l r hk hpowers => (h k l r hk hpowers).trans hle

/-- Nothing that stands ahead belongs to the node: it is no operator that the
last operand of the node could take. -/
structure Node.EndsBefore (next : Ahead) (n : Node) : Prop where
  binary : n.kind = .expr .binary → ∃ l r, n.powers? = some (l, r) ∧ EndsOperand r next
  unary : n.kind = .expr .unary → EndsOperand unaryPower next
  conditional : n.kind = .expr .conditional → EndsOperand 0 next

/-- A node that ends before an operator yields to it. -/
theorem Node.EndsBefore.yields {n : Node} {next : Ahead} (h : n.EndsBefore next) {op : TokenKind}
    {l r : Nat} (hop : next.cls = some (.token op)) (hpowers : op.bindingPowers? = some (l, r)) :
    n.Yields l where
  binary hkind := by
    obtain ⟨l', r', hn, hends⟩ := h.binary hkind
    exact ⟨l', r', hn, hends op l r hop hpowers⟩
  unary hkind := h.unary hkind op l r hop hpowers
  not_conditional hkind := by
    have := h.conditional hkind op l r hop hpowers
    have := TokenKind.bindingPowers?_pos hpowers
    omega

/-- A node that yields to an operator ends before it. -/
theorem Node.Yields.endsBefore {n : Node} {next : Ahead} {op : TokenKind} {l r : Nat}
    (h : n.Yields l) (hop : next.cls = some (.token op))
    (hpowers : op.bindingPowers? = some (l, r)) : n.EndsBefore next where
  binary hkind := by
    obtain ⟨l', r', hn, hle⟩ := h.binary hkind
    refine ⟨l', r', hn, fun k a b hk hab => ?_⟩
    simp_all
  unary hkind k a b hk hab := by
    have hle := h.unary hkind
    simp_all
  conditional hkind := absurd hkind h.not_conditional

/-- Where no operator stands ahead, every node ends that has powers. -/
theorem Node.endsBefore_of_endsOperand {n : Node} {next : Ahead} (h : EndsOperand 0 next)
    (hn : n.IsGrouped) : n.EndsBefore next where
  binary hkind := by
    obtain ⟨_, _, _, l, r, -, hpowers, -⟩ := hn.binary hkind
    exact ⟨l, r, hpowers, h.mono (Nat.zero_le r)⟩
  unary _ := h.mono (Nat.zero_le _)
  conditional _ := h

/-- What the limit of an operand and the token behind it do to its spines. -/
structure Node.Grouping (limit : Nat) (next : Ahead) (n : Node) : Prop where
  left : ∀ m ∈ n.leftSpine, m.BindsAbove limit
  right : ∀ m ∈ n.rightSpine, m.EndsBefore next

/-- A node that is no operation has short spines. -/
theorem Node.grouping_of_not_operation {n : Node} {next : Ahead} (limit : Nat)
    (hn : isOperation n.kind = false) (hnext : n.kind = .expr .conditional → EndsOperand 0 next) :
    n.Grouping limit next := by
  have hbinary : n.kind ≠ .expr .binary := fun hkind => by simp [hkind, isOperation] at hn
  have hunary : n.kind ≠ .expr .unary := fun hkind => by simp [hkind, isOperation] at hn
  constructor
  · rw [Node.leftSpine_of_ne hbinary]
    simpa [Node.BindsAbove] using fun hkind => absurd hkind hbinary
  · rw [Node.rightSpine_of_not_operation hn]
    simpa using ⟨fun hkind => absurd hkind hbinary, fun hkind => absurd hkind hunary, hnext⟩

/-- What is known about the node of an expression. -/
def Nonterminal.Groups (n : Nonterminal) (next : Ahead) (node : Node) : Prop :=
  match n with
  | .operand limit | .climb limit => node.Grouping limit next
  | _ => isOperation node.kind = false ∧ (node.kind = .expr .conditional → EndsOperand 0 next)

/-! ### Operations -/

/-- The node of a binary operation with its operands. -/
structure Node.Joins (n left right : Node) (op : TokenKind) : Prop where
  kind_eq : n.kind = .expr .binary
  children_eq : ∃ mark : Node, n.children = [left, mark, right] ∧ mark.kind = .token op

namespace Node.Joins

variable {n left right : Node} {op : TokenKind} {l r limit : Nat} {next : Ahead}

theorem powers_eq (h : n.Joins left right op) : n.powers? = op.bindingPowers? := by
  obtain ⟨mark, hchildren, hmark⟩ := h.children_eq
  simp [Node.powers?, Node.operator?, Node.child?, hchildren, hmark, Kind.token?]

theorem leftSpine_eq (h : n.Joins left right op) : n.leftSpine = n :: left.leftSpine := by
  obtain ⟨mark, hchildren, -⟩ := h.children_eq
  exact Node.leftSpine_binary h.kind_eq hchildren

theorem rightSpine_eq (h : n.Joins left right op) : n.rightSpine = n :: right.rightSpine := by
  obtain ⟨mark, hchildren, -⟩ := h.children_eq
  exact Node.rightSpine_binary h.kind_eq hchildren

/-- The operands of a grouped operation bind as its operator demands. -/
theorem isGrouped_iff (h : n.Joins left right op) (hpowers : op.bindingPowers? = some (l, r)) :
    n.IsGrouped ↔ (∀ m ∈ right.leftSpine, m.BindsAbove r) ∧ ∀ m ∈ left.rightSpine, m.Yields l := by
  obtain ⟨mark, hchildren, -⟩ := h.children_eq
  constructor
  · intro hn
    obtain ⟨left', mark', right', l', r', hchildren', hpowers', hright, hleft⟩ :=
      hn.binary h.kind_eq
    rw [hchildren] at hchildren'
    rw [h.powers_eq, hpowers] at hpowers'
    cases hchildren'
    cases hpowers'
    exact ⟨hright, hleft⟩
  · rintro ⟨hright, hleft⟩
    refine ⟨fun _ => ⟨left, mark, right, l, r, hchildren, h.powers_eq.trans hpowers, hright, hleft⟩,
      fun hkind => ?_⟩
    rw [h.kind_eq] at hkind
    cases hkind

/-- What a limit and the next token do to an operation, from what they do to its
operands. -/
theorem grouping_iff (h : n.Joins left right op) (hpowers : op.bindingPowers? = some (l, r)) :
    n.Grouping limit next ↔ limit < l ∧ EndsOperand r next ∧
      (∀ m ∈ left.leftSpine, m.BindsAbove limit) ∧ ∀ m ∈ right.rightSpine, m.EndsBefore next := by
  have hn : n.powers? = some (l, r) := h.powers_eq.trans hpowers
  have hkind := h.kind_eq
  constructor
  · intro hg
    have hleft := hg.left
    have hright := hg.right
    rw [h.leftSpine_eq, List.forall_mem_cons] at hleft
    rw [h.rightSpine_eq, List.forall_mem_cons] at hright
    obtain ⟨l', r', hn', hlimit⟩ := hleft.1 hkind
    obtain ⟨l'', r'', hn'', hends⟩ := hright.1.binary hkind
    rw [hn] at hn' hn''
    cases hn'
    cases hn''
    exact ⟨hlimit, hends, hleft.2, hright.2⟩
  · rintro ⟨hlimit, hends, hleft, hright⟩
    constructor
    · rw [h.leftSpine_eq, List.forall_mem_cons]
      exact ⟨fun _ => ⟨l, r, hn, hlimit⟩, hleft⟩
    · rw [h.rightSpine_eq, List.forall_mem_cons]
      refine ⟨⟨fun _ => ⟨l, r, hn, hends⟩, fun h => ?_, fun h => ?_⟩, hright⟩ <;>
        (rw [hkind] at h; cases h)

end Node.Joins

/-- The node of a unary operation with its operand. -/
structure Node.Applies (n value : Node) : Prop where
  kind_eq : n.kind = .expr .unary
  children_eq : ∃ mark, n.children = [mark, value]

namespace Node.Applies

variable {n value : Node} {limit : Nat} {next : Ahead}

theorem isGrouped_iff (h : n.Applies value) :
    n.IsGrouped ↔ ∀ m ∈ value.leftSpine, m.BindsAbove unaryPower := by
  obtain ⟨mark, hchildren⟩ := h.children_eq
  constructor
  · intro hn
    obtain ⟨mark', value', hchildren', hvalue⟩ := hn.unary h.kind_eq
    rw [hchildren] at hchildren'
    cases hchildren'
    exact hvalue
  · refine fun hvalue => ⟨fun hkind => ?_, fun _ => ⟨mark, value, hchildren, hvalue⟩⟩
    rw [h.kind_eq] at hkind
    cases hkind

theorem grouping_iff (h : n.Applies value) :
    n.Grouping limit next ↔
      EndsOperand unaryPower next ∧ ∀ m ∈ value.rightSpine, m.EndsBefore next := by
  obtain ⟨mark, hchildren⟩ := h.children_eq
  have hkind := h.kind_eq
  have hright : n.rightSpine = n :: value.rightSpine := Node.rightSpine_unary hkind hchildren
  have hleft : n.leftSpine = [n] := Node.leftSpine_of_ne (by simp [hkind])
  constructor
  · intro hg
    have hspine := hg.right
    rw [hright, List.forall_mem_cons] at hspine
    exact ⟨hspine.1.unary hkind, hspine.2⟩
  · rintro ⟨hends, hvalue⟩
    constructor
    · simp [hleft, Node.BindsAbove, hkind]
    · rw [hright, List.forall_mem_cons]
      exact ⟨⟨by simp [hkind], fun _ => hends, by simp [hkind]⟩, hvalue⟩

end Node.Applies

namespace Forest

variable {g later : Forest} {op : TokenKind} {w : Word}

/-- The nodes of two operands and the operator between them. -/
theorem IsExpr.nodes_between (hg : g.IsExpr) (hlater : later.IsExpr) (hw : w.cls = .token op)
    (passed : List Word) (made lastEnd : Nat) :
    ∃ left mark right, (g ++ leaf (.token op) passed w later).nodes made lastEnd =
        [left, mark, right] ∧ mark.kind = .token op ∧ g.nodes made lastEnd = [left] ∧
      later.nodes (made + g.count + 1) w.stop = [right] := by
  have hcomment : w.isComment = false := Token.isComment_of_mark hw
  obtain ⟨left, -, hleft, -⟩ := hg.exists_node made lastEnd
  obtain ⟨right, -, hright, -⟩ := hlater.exists_node (made + g.count + 1) w.stop
  refine ⟨left, ⟨made + g.count, .token op, w.start, w.stop, []⟩, right, ?_, rfl, hleft, hright⟩
  simp [nodes, hleft, hright, hcomment]

/-- The nodes of an operator and the operand behind it. -/
theorem IsExpr.nodes_behind (hlater : later.IsExpr) (hw : w.cls = .token op) (passed : List Word)
    (made lastEnd : Nat) :
    ∃ mark value, (leaf (.token op) passed w later).nodes made lastEnd = [mark, value] ∧
      later.nodes (made + 1) w.stop = [value] := by
  have hcomment : w.isComment = false := Token.isComment_of_mark hw
  obtain ⟨value, -, hvalue, -⟩ := hlater.exists_node (made + 1) w.stop
  refine ⟨⟨made, .token op, w.start, w.stop, []⟩, value, ?_, hvalue⟩
  simp [nodes, hvalue, hcomment]

end Forest

/-! ### Trees -/

/-- The node of an expression keeps to its limit, and nothing ahead belongs to
it. -/
theorem Derives.grouping {n : Nonterminal} {f : Forest} {next : Ahead}
    (h : Derives [.sub n] f next) (hn : n.isWholeExpr)
    (hliteral : ∀ w ∈ f.words, ∀ k, w.cls = .literal k → k.isLiteral) {made lastEnd : Nat}
    {node : Node} (hnode : f.nodes made lastEnd = [node]) : n.Groups next node := by
  refine h.phrase_induction (M := fun n f next => n.isWholeExpr →
    (∀ w ∈ f.words, ∀ k, w.cls = .literal k → k.isLiteral) → ∀ made lastEnd node,
      f.nodes made lastEnd = [node] → n.Groups next node) ?_ ?_ hn hliteral made lastEnd node hnode
  · intro n parts f next rule inside holds hn hliteral made lastEnd node hnode
    cases rule with
    | operand =>
        obtain ⟨g, _, rfl, -, hg, -, rfl⟩ := holds
        rw [Forest.append_nil] at hnode hliteral
        exact hg rfl hliteral made lastEnd node hnode
    | plain limit =>
        obtain ⟨g, _, rfl, -, hg, rfl⟩ := holds
        rw [Forest.append_nil] at hnode hliteral
        obtain ⟨hkind, hnext⟩ := hg rfl hliteral made lastEnd node hnode
        exact Node.grouping_of_not_operation limit hkind hnext
    | simpleTable | simpleSuffixed | chainVariable =>
        obtain ⟨g, _, rfl, -, hg, rfl⟩ := holds
        rw [Forest.append_nil] at hnode hliteral
        exact hg rfl hliteral made lastEnd node hnode
    | suffixed =>
        obtain ⟨g, _, rfl, -, hg, -, rfl⟩ := holds
        rw [Forest.append_nil] at hnode hliteral
        exact hg rfl hliteral made lastEnd node hnode
    | literal k =>
        obtain ⟨passed, w, _, rfl, -, -, hw, rfl⟩ := holds
        have hk := hliteral w (by simp [Forest.words]) k hw
        simp only [Forest.nodes, List.cons.injEq, and_true] at hnode
        subst hnode
        cases k <;> first | exact absurd hk (by decide) | exact ⟨rfl, fun h => by cases h⟩
    | _ => simp [Nonterminal.isWholeExpr] at hn
  · intro n kind parts f next rule inside holds hn hliteral made lastEnd node hnode
    simp only [Forest.nodes, List.cons.injEq, and_true] at hnode
    subst hnode
    simp only [Forest.words, List.append_nil] at hliteral
    cases rule with
    | unary limit op unary =>
        obtain ⟨passed, w, _, rfl, -, -, hw, later, _, rfl, hlater, ih, rfl⟩ := holds
        rw [Forest.append_nil] at hliteral ⊢
        simp only [Forest.words, List.forall_mem_append, List.forall_mem_cons] at hliteral
        obtain ⟨mark, value, hnodes, hvalue⟩ :=
          (hlater.isExpr rfl).nodes_behind hw passed made lastEnd
        have hgroups : value.Grouping unaryPower next := ih rfl hliteral.2.2 _ _ _ hvalue
        have happlies : (Node.around (made + (Forest.leaf (.token op) passed w later).count)
            (.expr .unary) (Forest.emptyPlace (.expr .unary) lastEnd)
            ((Forest.leaf (.token op) passed w later).nodes made lastEnd)).Applies value :=
          ⟨rfl, mark, hnodes⟩
        exact happlies.grouping_iff.mpr ⟨hlater.endsOperand, hgroups.right⟩
    | binary limit op l r powers tighter =>
        obtain ⟨g, _, rfl, hg, ihLeft, passed, w, _, rfl, -, -, hw, later, _, rfl, hlater, ihRight,
          rfl⟩ := holds
        rw [Forest.append_nil] at hliteral ⊢
        simp only [Forest.words_append, Forest.words, List.forall_mem_append,
          List.forall_mem_cons] at hliteral
        obtain ⟨left, mark, right, hnodes, hmark, hleft, hright⟩ :=
          (hg.isExpr rfl).nodes_between (hlater.isExpr rfl) hw passed made lastEnd
        have hleftGroups : left.Grouping limit _ := ihLeft rfl hliteral.1 _ _ _ hleft
        have hrightGroups : right.Grouping r next := ihRight rfl hliteral.2.2.2 _ _ _ hright
        have hjoins : (Node.around (made + (g ++ .leaf (.token op) passed w later).count)
            (.expr .binary) (Forest.emptyPlace (.expr .binary) lastEnd)
            ((g ++ .leaf (.token op) passed w later).nodes made lastEnd)).Joins left right op :=
          ⟨rfl, mark, hnodes, hmark⟩
        exact (hjoins.grouping_iff powers).mpr
          ⟨tighter, hlater.endsOperand, hleftGroups.left, hrightGroups.right⟩
    | conditional =>
        obtain ⟨passed, v, _, rfl, -, -, -, -, _, rfl, -, -, -, -, _, rfl, -, -, -, -, _, rfl, -, -,
          _, _, rfl, -, -, -, _, _, rfl, -, -, -, last, _, rfl, hlast, -, rfl⟩ := holds
        exact ⟨rfl, fun _ => hlast.endsOperand⟩
    | _ => exact ⟨rfl, fun h => by cases h⟩

/-- A node that a production builds is grouped. -/
theorem Production.isGrouped {n : Nonterminal} {kind : Kind} {parts : List Symbol} {inner : Forest}
    {next : Ahead} (rule : Production n (some kind) parts) (inside : Derives parts inner next)
    (hliteral : ∀ w ∈ inner.words, ∀ k, w.cls = .literal k → k.isLiteral)
    (made lastEnd id position : Nat) :
    (Node.around id kind position (inner.nodes made lastEnd)).IsGrouped := by
  cases rule with
  | unary limit op unary =>
      obtain ⟨passed, w, _, rfl, -, -, hw, later, _, rfl, hlater, -, rfl⟩ := inside.parted
      rw [Forest.append_nil] at hliteral ⊢
      simp only [Forest.words, List.forall_mem_append, List.forall_mem_cons] at hliteral
      obtain ⟨mark, value, hnodes, hvalue⟩ :=
        (hlater.isExpr rfl).nodes_behind hw passed made lastEnd
      have happlies : (Node.around id (.expr .unary) position
          ((Forest.leaf (.token op) passed w later).nodes made lastEnd)).Applies value :=
        ⟨rfl, mark, hnodes⟩
      have hgroups : value.Grouping unaryPower next := hlater.grouping rfl hliteral.2.2 hvalue
      exact happlies.isGrouped_iff.mpr hgroups.left
  | binary limit op l r powers tighter =>
      obtain ⟨g, _, rfl, hg, -, passed, w, _, rfl, -, -, hw, later, _, rfl, hlater, -, rfl⟩ :=
        inside.parted
      have hw : w.cls = .token op := hw
      rw [Forest.append_nil] at hliteral ⊢
      simp only [Forest.words_append, Forest.words, List.forall_mem_append,
        List.forall_mem_cons] at hliteral
      obtain ⟨left, mark, right, hnodes, hmark, hleft, hright⟩ :=
        (hg.isExpr rfl).nodes_between (hlater.isExpr rfl) hw passed made lastEnd
      have hjoins : (Node.around id (.expr .binary) position
          ((g ++ .leaf (.token op) passed w later).nodes made lastEnd)).Joins left right op :=
        ⟨rfl, mark, hnodes, hmark⟩
      have hleftGroups : left.Grouping limit _ := hg.grouping rfl hliteral.1 hleft
      have hrightGroups : right.Grouping r next := hlater.grouping rfl hliteral.2.2.2 hright
      refine (hjoins.isGrouped_iff powers).mpr ⟨hrightGroups.left, fun m hm => ?_⟩
      -- the operator is the token behind the left operand
      have hop : ((Forest.leaf (.token op) passed w (later ++ .nil)).ahead next).cls =
          some (.token op) := by
        simp [Forest.ahead, Token.isComment_of_mark hw, hw]
      exact (hleftGroups.right m hm).yields hop powers
  | _ => exact Node.isGrouped_of_not_operation rfl

/-- A leaf is no operation. -/
theorem LeafFits.not_operation {kind : Kind} {t : Token} (h : LeafFits kind t)
    (hliteral : ∀ k, t.cls = .literal k → k.isLiteral) : isOperation kind = false := by
  cases kind with
  | expr k =>
      have hcls : t.cls = .literal k := by
        cases hcls : t.cls <;> simp_all [LeafFits, TokenClass.leafKind?]
      have hk := hliteral k hcls
      cases k <;> first | rfl | exact absurd hk (by decide)
  | _ => rfl

/-- Every node of a row is grouped. -/
theorem Forest.grouped {f : Forest} {next : Ahead} (hfit : f.Fit) (hruled : f.Ruled next)
    (hliteral : ∀ w ∈ f.words, ∀ k, w.cls = .literal k → k.isLiteral) (made lastEnd : Nat) :
    ∀ m ∈ preorderOfAll (f.nodes made lastEnd), m.IsGrouped := by
  induction f generalizing next made lastEnd with
  | nil => simp [nodes, preorderOfAll]
  | leaf kind passed w later ih =>
      simp only [words, List.forall_mem_append, List.forall_mem_cons] at hliteral
      refine List.forall_mem_cons.mpr
        ⟨Node.isGrouped_of_not_operation (hfit.2.1.not_operation hliteral.2.1), ?_⟩
      exact ih hfit.2.2 hruled hliteral.2.2 _ _
  | skipped passed w later ih =>
      simp only [words, List.forall_mem_append, List.forall_mem_cons] at hliteral
      exact ih hfit.2.2 hruled hliteral.2.2 made w.stop
  | node kind inner later ihInner ih =>
      obtain ⟨⟨n, parts, rule, inside⟩, hlater⟩ := hruled
      simp only [words, List.forall_mem_append] at hliteral
      simp only [nodes, preorderOfAll, Node.preorder_eq, List.mem_append, List.mem_cons]
      rintro m ((rfl | hm) | hm)
      · exact rule.isGrouped inside hliteral.1 ..
      · exact ihInner hfit.1 inside.ruled hliteral.1 made lastEnd m hm
      · exact ih hfit.2 hlater hliteral.2 _ _ m hm

/-- The nodes of a tree are grouped as soon as those below the root are. -/
theorem SyntaxTree.isGrouped_iff {t : SyntaxTree} (hroot : isOperation t.root.kind = false) :
    t.IsGrouped ↔ ∀ m ∈ preorderOfAll t.root.children, m.IsGrouped := by
  rw [SyntaxTree.IsGrouped, SyntaxTree.visits, ← List.forall_mem_map (P := Node.IsGrouped),
    Node.map_visits, Node.preorder_eq, List.forall_mem_cons]
  exact and_iff_right (Node.isGrouped_of_not_operation hroot)

/-- Every node of a tree is grouped. -/
theorem Parsed.isGrouped {source : Text} {t : SyntaxTree} {inner : Forest} {gap : Text}
    (h : Parsed source t inner gap) : t.IsGrouped := by
  rw [SyntaxTree.isGrouped_iff (by rw [h.root_eq]; rfl), h.root_eq]
  exact Forest.grouped (h.derives.fit (by simp)) h.derives.ruled h.among.isLiteral 0 0

end LuauTidy
