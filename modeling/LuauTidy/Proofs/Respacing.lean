import LuauTidy.Proofs.Layouts
import LuauTidy.Proofs.Spacings
import LuauTidy.Proofs.StmtAccepting

/-!
# Layout without a look at the spacing

The layout copies words, and it asks whether a line breaks only in front of
comments.  So the walks over the trees of two sources that differ in their
blanks do the same, step by step, if there are no comments or if lines break
between the same tokens; and what they write is the same.

* `Layout.Agrees` — two steps do the same, unless one of them raises a fault;
* `Rule.CopiesWords`, `Form.words`, `Form.operator` — what is copied is a word;
* `Node.LaidAlike`, `Node.laidAlike` — every step of the layout does the same
  for two nodes that are set with other blanks;
* `lineBreaks` — where lines break between the tokens of a source;
* `format_canonical` — sources with the same tokens have the same layout.
-/

namespace LuauTidy

namespace Layout

variable {α β : Type}

/-! ### Steps -/

/-- Two steps do the same on every page, unless one of them raises a fault. -/
def Agrees (l l' : Layout α) : Prop :=
  ∀ p, (∃ e, l.run p = .error e) ∨ (∃ e, l'.run p = .error e) ∨ l.run p = l'.run p

namespace Agrees

theorem refl (l : Layout α) : Agrees l l := fun _ => .inr (.inr rfl)

theorem broken {cause : Fault} {l : Layout α} : Agrees (broken cause) l :=
  fun _ => .inl ⟨cause, rfl⟩

theorem bind {l l' : Layout α} {k k' : α → Layout β} (hl : Agrees l l')
    (hk : ∀ a, Agrees (k a) (k' a)) : Agrees (l >>= k) (l' >>= k') := by
  intro p
  simp only [StateT.run_bind]
  obtain ⟨e, he⟩ | ⟨e, he⟩ | hsame := hl p
  · exact .inl ⟨e, by rw [he]; rfl⟩
  · exact .inr (.inl ⟨e, by rw [he]; rfl⟩)
  · rw [hsame]
    cases hrun : l'.run p with
    | error e => exact .inl ⟨e, rfl⟩
    | ok r => exact hk r.1 r.2

/-- A step and then another. -/
theorem seq {l l' : Layout Unit} {k k' : Layout β} (hl : Agrees l l') (hk : Agrees k k') :
    Agrees (do l; k) (do l'; k') :=
  hl.bind fun _ => hk

theorem ite {c : Prop} [Decidable c] {l l' k k' : Layout α} (hl : Agrees l l') (hk : Agrees k k') :
    Agrees (if c then l else k) (if c then l' else k') := by
  split
  · exact hl
  · exact hk

/-- The same step first. -/
theorem andThen {l : Layout Unit} {k k' : Layout β} (hk : Agrees k k') :
    Agrees (do l; k) (do l; k') :=
  (refl l).seq hk

/-- A look at the page first. -/
theorem read {k k' : Page → Layout β} (hk : ∀ p, Agrees (k p) (k' p)) :
    Agrees (do k (← get)) (do k' (← get)) :=
  (refl get).bind hk

end Agrees

end Layout

open Layout

/-! ### Words -/

variable {z : Spacings} {options : LayoutOptions} {n n' : Node} {nodes nodes' : List Node}

/-- The source with its choices. -/
abbrev Spacings.leftSetting (z : Spacings) (options : LayoutOptions) : Setting :=
  ⟨z.leftSource, options⟩

/-- The other source with the same choices. -/
abbrev Spacings.rightSetting (z : Spacings) (options : LayoutOptions) : Setting :=
  ⟨z.rightSource, options⟩

namespace Layout.Agrees

/-- The text of a word. -/
theorem sourceText (h : z.Extents n n') :
    Agrees (Layout.sourceText (z.leftSetting options) n.start n.stop)
      (Layout.sourceText (z.rightSetting options) n'.start n'.stop) := by
  obtain ⟨w, w', hpair, hstart, hstop, hstart', hstop'⟩ := h
  obtain ⟨hslice, hslice'⟩ := Spacings.slice_word hpair
  rw [Layout.sourceText, Layout.sourceText, hstart, hstop, hstart', hstop']
  simp only [hslice, hslice']
  exact .refl _

theorem copy (h : z.Extents n n') :
    Agrees (Layout.copy (z.leftSetting options) n) (Layout.copy (z.rightSetting options) n') :=
  (sourceText h).bind fun text => .refl (put text)

theorem copyAll (h : List.Forall₂ (Node.Respaced z) nodes nodes')
    (hwords : ∀ n ∈ nodes, n.kind.isWord) :
    Agrees (Layout.copyAll (z.leftSetting options) nodes)
      (Layout.copyAll (z.rightSetting options) nodes') := by
  induction h with
  | nil => exact .refl _
  | cons hn _ ih =>
      rw [List.forall_mem_cons] at hwords
      exact (copy (hn.word hwords.1)).seq (ih hwords.2)

theorem copyParameters (h : List.Forall₂ (Node.Respaced z) nodes nodes')
    (hwords : ∀ n ∈ nodes, n.kind.isWord) (first : Bool) :
    Agrees (Layout.copyParameters (z.leftSetting options) first nodes)
      (Layout.copyParameters (z.rightSetting options) first nodes') := by
  induction h generalizing first with
  | nil => exact .refl _
  | @cons n n' _ _ hn _ ih =>
      rw [List.forall_mem_cons] at hwords
      have hcomma : n.isToken .comma = n'.isToken .comma := by
        rw [Node.isToken, Node.isToken, hn.kind]
      have hword := hn.word hwords.1
      have hrest := ih hwords.2 false
      rw [Layout.copyParameters, Layout.copyParameters, hcomma]
      refine .ite (ih hwords.2 first) (.ite (.andThen ?_) ?_)
      · exact (copy hword).seq hrest
      · exact (copy hword).seq hrest

/-- Whether a comment shares a line with what stands before it. -/
theorem sameLine (hcomment : ∃ w ∈ z.left, w.isComment) {stop stop' : Nat}
    (hstop : z.Stops stop stop') (h : z.Extents n n') :
    Agrees (Layout.sameLine (z.leftSetting options) stop n.start)
      (Layout.sameLine (z.rightSetting options) stop' n'.start) := by
  obtain ⟨w, w', hpair, rfl, rfl⟩ := hstop
  obtain ⟨v, v', hpair', hstart, -, hstart', -⟩ := h
  rw [Layout.sameLine, Layout.sameLine, Layout.sourceText, Layout.sourceText, hstart, hstart']
  cases hslice : z.leftSource.slice? w.stop v.start with
  | none => exact fun _ => .inl ⟨_, rfl⟩
  | some part =>
      cases hslice' : z.rightSource.slice? w'.stop v'.start with
      | none => exact fun _ => .inr (.inl ⟨_, rfl⟩)
      | some part' =>
          have hsame := Spacings.contains_between hcomment hpair hpair' hslice hslice'
          simp only [pure_bind, hsame]
          exact .refl _

theorem trailingComment (h : z.Extents n n') :
    Agrees (Layout.trailingComment (z.leftSetting options) n)
      (Layout.trailingComment (z.rightSetting options) n') :=
  .andThen (.andThen ((copy h).seq (.refl newline)))

theorem ownLineComment (h : z.Extents n n') :
    Agrees (Layout.ownLineComment (z.leftSetting options) n)
      (Layout.ownLineComment (z.rightSetting options) n') :=
  .andThen ((copy h).seq (.refl newline))

/-- Strokes of which only words are copied. -/
theorem strokes (h : n.Respaced z n') {l : List Stroke} (hsource : .source ∈ l → n.kind.isWord)
    (hparameters : .parameters ∈ l → ∀ c ∈ n.children, c.kind.isWord) :
    Agrees (Layout.strokes (z.leftSetting options) n l)
      (Layout.strokes (z.rightSetting options) n' l) := by
  induction l with
  | nil => exact .refl _
  | cons one rest ih =>
      have hrest := ih (fun hmem => hsource (.tail _ hmem)) fun hmem => hparameters (.tail _ hmem)
      refine .seq ?_ hrest
      cases one with
      | source => exact copy (h.word (hsource (.head _)))
      | parameters => exact copyParameters h.children (hparameters (.head _)) true
      | text | tabs | deeper | shallower => exact .refl _

end Layout.Agrees

/-! ### Rules -/

/-- A rule copies words only, and the parameters of parameter lists. -/
def Rule.CopiesWords (rule : Rule) : Prop :=
  ∀ first k l, rule first k = some (.strokes l) →
    (.source ∈ l → k.isWord) ∧ (.parameters ∈ l → k = .aux .paramList)

theorem Kind.copiesWords_of_rule {kind : Kind} {rule : Rule} (h : kind.rule? = some rule) :
    rule.CopiesWords := by
  intro first k l hpiece
  cases kind with
  | token => cases h
  | expr e =>
      cases e <;> cases h <;>
        dsimp only [Rule.interpolation, Rule.var, Rule.call, Rule.conditional] at hpiece <;>
        split at hpiece <;> cases hpiece <;> simp [Kind.isWord]
  | stmt e =>
      cases e <;> cases h <;>
        dsimp only [Rule.localVar, Rule.call, Rule.blockStatement] at hpiece <;>
        split at hpiece <;> cases hpiece <;> simp [Kind.isWord]
  | aux e =>
      cases e <;> cases h <;> dsimp only [Rule.functionBody, Rule.field] at hpiece <;>
        split at hpiece <;> cases hpiece <;> simp [Kind.isWord]

/-- The parts of names and of parameter lists are words. -/
theorem Form.words {kind : Kind} {ks : List Kind} (h : Form kind ks)
    (hkind : kind = .aux .paramList ∨ kind = .aux .funcName) : ∀ k ∈ ks, k.isWord := by
  have hseries : ∀ {separator : TokenKind} {names : List Kind},
      Series separator (· = .token .name) names → ∀ k ∈ names, k.isWord := by
    intro separator names hnames
    refine hnames.all ?_ rfl
    rintro k rfl
    rfl
  cases h with
  | params hnames | functionName hnames => exact hseries hnames
  | vararg => simp [Kind.isWord, ExprKind.isLiteral]
  | paramsVararg hnames | methodName hnames =>
      exact List.forall_mem_append.mpr ⟨hseries hnames, by simp [Kind.isWord, ExprKind.isLiteral]⟩
  | _ => simp at hkind

/-- An operator between two expressions is a word. -/
theorem Form.operator {kind : Kind} {ks : List Kind} (h : Form kind ks)
    (hkind : kind = .expr .binary ∨ kind = .stmt .compoundAssign) : ∀ k ∈ ks[1]?, k.isWord := by
  cases h with
  | literal hliteral =>
      simp only [Kind.expr.injEq, reduceCtorEq, or_false] at hkind
      subst hkind
      cases hliteral
  | binary | compoundAssignment => simp [Kind.isWord]
  | _ => simp at hkind

theorem Form.localName {ks : List Kind} (h : Form (.stmt .localFn) ks) :
    ∀ k ∈ ks[2]?, k.isWord := by
  cases h
  simp [Kind.isWord]

theorem Form.functionName_eq {ks : List Kind} (h : Form (.stmt .fn) ks) :
    ∀ k ∈ ks[1]?, k = .aux .funcName := by
  cases h
  simp

/-! ### Nodes -/

/-- Every step of the layout does the same for two nodes. -/
structure Node.LaidAlike (z : Spacings) (options : LayoutOptions) (n n' : Node) : Prop where
  respaced : n.Respaced z n'
  formed : n.IsFormed
  expr : Agrees (Layout.expr (z.leftSetting options) n) (Layout.expr (z.rightSetting options) n')
  expressions : Agrees (expressionsIn (z.leftSetting options) n)
    (expressionsIn (z.rightSetting options) n')
  arguments : Agrees (Layout.arguments (z.leftSetting options) n)
    (Layout.arguments (z.rightSetting options) n')
  interpolated : Agrees (Layout.interpolated (z.leftSetting options) n)
    (Layout.interpolated (z.rightSetting options) n')
  functionBody : Agrees (Layout.functionBody (z.leftSetting options) n)
    (Layout.functionBody (z.rightSetting options) n')
  fieldList : Agrees (Layout.fieldList (z.leftSetting options) n)
    (Layout.fieldList (z.rightSetting options) n')
  field : Agrees (Layout.field (z.leftSetting options) n)
    (Layout.field (z.rightSetting options) n')
  block : ∀ opener opener', Option.Rel z.Stops opener opener' →
    Agrees (Layout.block (z.leftSetting options) opener n)
      (Layout.block (z.rightSetting options) opener' n')
  statement : Agrees (Layout.statement (z.leftSetting options) n)
    (Layout.statement (z.rightSetting options) n')

namespace Node.Respaced

/-- A minus before the nodes would begin a comment in both layouts or in neither. -/
theorem startsWithMinus_eq (h : n.Respaced z n') : startsWithMinus n = startsWithMinus n' := by
  have hfirst : ∀ {nodes nodes' : List Node}, List.Forall₂ (Node.Respaced z) nodes nodes' →
      nodes[0]?.any (·.isToken .minus) = nodes'[0]?.any (·.isToken .minus) := by
    intro nodes nodes' h
    cases h with
    | nil => rfl
    | cons hn _ => simp [Node.isToken, hn.kind]
  rw [startsWithMinus, startsWithMinus, h.kind, Node.child?, Node.child?, hfirst h.children]

/-- Rows that are set with other blanks have the same kinds. -/
theorem kinds_eq (h : List.Forall₂ (Node.Respaced z) nodes nodes') :
    nodes.map Node.kind = nodes'.map Node.kind := by
  induction h with
  | nil => rfl
  | cons hn _ ih => rw [List.map_cons, List.map_cons, hn.kind, ih]

theorem mayBeInline_eq (h : List.Forall₂ (Node.Respaced z) nodes nodes') :
    mayBeInline nodes = mayBeInline nodes' := by
  have hkinds : ∀ nodes : List Node, mayBeInline nodes =
      ((nodes.map Node.kind).countP (· == .aux .field) ≤ 1 &&
        !(nodes.map Node.kind).any (· == .stmt .comment)) := by
    intro nodes
    simp [mayBeInline, List.countP_map, Function.comp_def]
  rw [hkinds, hkinds, kinds_eq h]

theorem isSugar_eq (h : List.Forall₂ (Node.Respaced z) nodes nodes') :
    isSugar nodes = isSugar nodes' := by
  cases h with
  | nil => rfl
  | cons hn hrest =>
      cases hrest with
      | nil => simp only [isSugar, hn.kind]
      | cons => rfl

theorem expressions (h : List.Forall₂ (Node.Respaced z) nodes nodes') :
    List.Forall₂ (Node.Respaced z) (nodes.filter (·.isExpr)) (nodes'.filter (·.isExpr)) :=
  List.rel_filter (fun n n' hn => by simp only [Node.isExpr, hn.kind]) h

end Node.Respaced

namespace Layout.Agrees

theorem commaSeparated (h : List.Forall₂ (Node.LaidAlike z options) nodes nodes') (first : Bool) :
    Agrees (Layout.commaSeparated (z.leftSetting options) first nodes)
      (Layout.commaSeparated (z.rightSetting options) first nodes') := by
  induction h generalizing first with
  | nil =>
      rw [Layout.commaSeparated, Layout.commaSeparated]
      exact .refl _
  | @cons n n' _ _ hn _ ih =>
      have hexpr : n.isExpr = n'.isExpr := by rw [Node.isExpr, Node.isExpr, hn.respaced.kind]
      have hrest := hn.expr.seq (ih false)
      rw [Layout.commaSeparated, Layout.commaSeparated, hexpr]
      exact .ite (.ite (.andThen hrest) hrest) (ih first)

/-- Children that are laid out by a rule. -/
theorem sequence {rule : Rule} (hrule : rule.CopiesWords) (parent parent' : Node)
    (h : List.Forall₂ (Node.LaidAlike z options) nodes nodes') (first : Bool)
    {previous previous' : Option Nat} (hprevious : Option.Rel z.Stops previous previous') :
    Agrees (Layout.sequence (z.leftSetting options) rule parent first previous nodes)
      (Layout.sequence (z.rightSetting options) rule parent' first previous' nodes') := by
  induction h generalizing first previous previous' with
  | nil =>
      rw [Layout.sequence, Layout.sequence]
      exact .refl _
  | @cons n n' _ _ hn _ ih =>
      have hnext := ih false (.some hn.respaced.stop)
      rw [Layout.sequence, Layout.sequence, ← hn.respaced.kind]
      cases hpiece : rule first n.kind with
      | none => exact .seq .broken hnext
      | some piece =>
          cases piece with
          | strokes l =>
              obtain ⟨hsource, hparameters⟩ := hrule first n.kind l hpiece
              refine (strokes hn.respaced hsource fun hmem => ?_).seq hnext
              exact List.forall_mem_map.mp (hn.formed.words (.inl (hparameters hmem)))
          | expression => exact hn.expr.seq hnext
          | arguments => exact hn.arguments.seq hnext
          | block => exact (hn.block _ _ hprevious).seq hnext
          | interpolated => exact hn.interpolated.seq hnext

/-- The first field among some nodes. -/
theorem firstField (h : List.Forall₂ (Node.LaidAlike z options) nodes nodes') :
    Agrees (Layout.firstField (z.leftSetting options) nodes)
      (Layout.firstField (z.rightSetting options) nodes') := by
  induction h with
  | nil =>
      rw [Layout.firstField, Layout.firstField]
      exact .refl _
  | cons hn _ ih =>
      rw [Layout.firstField, Layout.firstField, hn.respaced.kind]
      exact .ite hn.field ih

/-- The field list among the children of a table. -/
theorem table (h : List.Forall₂ (Node.LaidAlike z options) nodes nodes') :
    Agrees (Layout.table (z.leftSetting options) nodes)
      (Layout.table (z.rightSetting options) nodes') := by
  induction h with
  | nil =>
      rw [Layout.table, Layout.table]
      exact .refl _
  | cons hn _ ih =>
      rw [Layout.table, Layout.table, hn.respaced.kind]
      exact .ite hn.fieldList ih

/-- The items of a field list. -/
theorem fieldLine (parent parent' : Node)
    (h : List.Forall₂ (Node.LaidAlike z options) nodes nodes') {previous previous' : Option Nat}
    (hprevious : Option.Rel z.Stops previous previous') :
    Agrees (Layout.fieldLine (z.leftSetting options) parent previous nodes)
      (Layout.fieldLine (z.rightSetting options) parent' previous' nodes') := by
  induction h generalizing previous previous' with
  | nil =>
      rw [Layout.fieldLine, Layout.fieldLine]
      exact .refl _
  | @cons n n' rest rest' hn _ ih =>
      have hnext := ih (.some hn.respaced.stop)
      rw [Layout.fieldLine, Layout.fieldLine, ← hn.respaced.kind]
      split
      · exact .andThen (hn.field.seq (.andThen hnext))
      · exact hnext
      · exact hnext
      · rename_i hkind
        have hword := hn.respaced.word (by rw [hkind]; rfl)
        have hcomment := hn.respaced.comment hkind
        cases hprevious with
        | none =>
            refine (refl (pure false)).bind fun _ => ?_
            exact .ite ((trailingComment hword).seq hnext) ((ownLineComment hword).seq hnext)
        | some hstop =>
            refine (sameLine hcomment hstop hword).bind fun _ => ?_
            exact .ite ((trailingComment hword).seq hnext) ((ownLineComment hword).seq hnext)
      · exact .seq .broken hnext

/-- The statements of a block. -/
theorem statements (parent parent' : Node)
    (h : List.Forall₂ (Node.LaidAlike z options) nodes nodes') {lineEnd lineEnd' : Option Nat}
    (hlineEnd : Option.Rel z.Stops lineEnd lineEnd') (previous lineKind : Option StmtKind) :
    Agrees (Layout.statements (z.leftSetting options) parent lineEnd previous lineKind nodes)
      (Layout.statements (z.rightSetting options) parent' lineEnd' previous lineKind nodes') := by
  induction h generalizing lineEnd lineEnd' previous lineKind with
  | nil =>
      rw [Layout.statements, Layout.statements]
      exact .refl _
  | @cons n n' rest rest' hn _ ih =>
      have hnext := ih (.some hn.respaced.stop)
      rw [Layout.statements, Layout.statements, ← hn.respaced.kind]
      split
      · rename_i kind hkind
        have hstatement := hn.statement.seq (hnext (some kind) (some kind))
        have hown := ite (c := needsBlankLine previous lineKind kind)
          (andThen (l := Layout.newline) hstatement) hstatement
        cases hlineEnd with
        | none =>
            simp only [pure_bind, Bool.false_eq_true, if_false]
            exact hown
        | some hstop =>
            -- the source is looked at before a comment only
            obtain rfl | hcomment := eq_or_ne kind .comment
            · have hword := hn.respaced.word (by rw [hkind]; rfl)
              have hcomments := hn.respaced.comment hkind
              simp only [beq_self_eq_true, if_true]
              refine (sameLine hcomments hstop hword).bind fun _ => ?_
              exact .ite ((trailingComment hword).seq (hnext _ _)) hown
            · simp only [beq_iff_eq, hcomment, pure_bind, Bool.false_eq_true, if_false]
              exact hown
      · exact .broken

/-- An operator between two expressions. -/
theorem infixed (h : List.Forall₂ (Node.LaidAlike z options) nodes nodes')
    (hoperator : ∀ k ∈ (nodes.map Node.kind)[1]?, k.isWord) (parent parent' : Node) :
    Agrees (Layout.infixed (z.leftSetting options) parent nodes)
      (Layout.infixed (z.rightSetting options) parent' nodes') := by
  match h with
  | .nil => exact .broken
  | .cons hleft .nil => exact hleft.expr.seq .broken
  | .cons hleft (.cons hop .nil) =>
      have hword := hop.respaced.word (hoperator _ rfl)
      exact hleft.expr.seq ((copy hword).seq .broken)
  | .cons hleft (.cons hop (.cons hright _)) =>
      have hword := hop.respaced.word (hoperator _ rfl)
      rw [Layout.infixed, Layout.infixed]
      exact hleft.expr.seq (.andThen ((copy hword).seq (.andThen hright.expr)))

/-- A function without a name. -/
theorem anonymousFunction (h : List.Forall₂ (Node.LaidAlike z options) nodes nodes')
    (parent parent' : Node) :
    Agrees (Layout.anonymousFunction (z.leftSetting options) parent nodes)
      (Layout.anonymousFunction (z.rightSetting options) parent' nodes') := by
  match h with
  | .nil | .cons _ .nil => exact .broken
  | .cons _ (.cons hbody _) =>
      rw [Layout.anonymousFunction, Layout.anonymousFunction]
      exact .andThen hbody.functionBody

theorem parens (h : List.Forall₂ (Node.LaidAlike z options) nodes nodes')
    (parent parent' : Node) :
    Agrees (Layout.parens (z.leftSetting options) parent nodes)
      (Layout.parens (z.rightSetting options) parent' nodes') := by
  match h with
  | .nil | .cons _ .nil => exact .broken
  | .cons _ (.cons hvalue _) =>
      rw [Layout.parens, Layout.parens]
      exact .andThen (hvalue.expr.seq (.refl _))

/-- An operator before an expression. -/
theorem prefixed (h : List.Forall₂ (Node.LaidAlike z options) nodes nodes')
    (parent parent' : Node) :
    Agrees (Layout.prefixed (z.leftSetting options) parent nodes)
      (Layout.prefixed (z.rightSetting options) parent' nodes') := by
  match h with
  | .nil | .cons _ .nil => exact .broken
  | .cons hop (.cons hvalue _) =>
      rw [Layout.prefixed, Layout.prefixed, ← hop.respaced.kind, hvalue.respaced.startsWithMinus_eq]
      split
      · exact .andThen hvalue.expr
      · exact .andThen hvalue.expr
      · exact .andThen hvalue.expr
      · exact .seq .broken hvalue.expr

theorem localFunction (h : List.Forall₂ (Node.LaidAlike z options) nodes nodes')
    (hname : ∀ k ∈ (nodes.map Node.kind)[2]?, k.isWord) (parent parent' : Node) :
    Agrees (Layout.localFunction (z.leftSetting options) parent nodes)
      (Layout.localFunction (z.rightSetting options) parent' nodes') := by
  match h with
  | .nil | .cons _ .nil | .cons _ (.cons _ .nil) => exact .broken
  | .cons _ (.cons _ (.cons hn .nil)) =>
      exact (copy (hn.respaced.word (hname _ rfl))).seq .broken
  | .cons _ (.cons _ (.cons hn (.cons hbody _))) =>
      rw [Layout.localFunction, Layout.localFunction]
      exact .andThen ((copy (hn.respaced.word (hname _ rfl))).seq hbody.functionBody)

theorem namedFunction (h : List.Forall₂ (Node.LaidAlike z options) nodes nodes')
    (hname : ∀ k ∈ (nodes.map Node.kind)[1]?, k = .aux .funcName) (parent parent' : Node) :
    Agrees (Layout.namedFunction (z.leftSetting options) parent nodes)
      (Layout.namedFunction (z.rightSetting options) parent' nodes') := by
  match h with
  | .nil | .cons _ .nil => exact .broken
  | .cons _ (.cons hn hrest) =>
      have hwords := List.forall_mem_map.mp (hn.formed.words (.inr (hname _ rfl)))
      cases hrest with
      | nil => exact (copyAll hn.respaced.children hwords).seq .broken
      | cons hbody _ =>
          rw [Layout.namedFunction, Layout.namedFunction]
          exact .andThen ((copyAll hn.respaced.children hwords).seq hbody.functionBody)

theorem assignment (h : List.Forall₂ (Node.LaidAlike z options) nodes nodes')
    (parent parent' : Node) :
    Agrees (Layout.assignment (z.leftSetting options) parent nodes)
      (Layout.assignment (z.rightSetting options) parent' nodes') := by
  match h with
  | .nil => exact .broken
  | .cons htargets .nil | .cons htargets (.cons _ .nil) => exact htargets.expressions.seq .broken
  | .cons htargets (.cons _ (.cons hvalues _)) =>
      rw [Layout.assignment, Layout.assignment]
      exact htargets.expressions.seq (.andThen hvalues.expressions)

/-- A piece of code in an interpolated string. -/
theorem interpolated (h : List.Forall₂ (Node.LaidAlike z options) n.children n'.children) :
    Agrees (Layout.interpolated (z.leftSetting options) n)
      (Layout.interpolated (z.rightSetting options) n') := by
  obtain ⟨id, kind, start, stop, children⟩ := n
  obtain ⟨id', kind', start', stop', children'⟩ := n'
  match children, children', h with
  | _, _, .nil | _, _, .cons _ .nil => exact .broken
  | _, _, .cons _ (.cons hvalue _) =>
      rw [Layout.interpolated, Layout.interpolated]
      exact .andThen (read fun _ => hvalue.expr.seq (.refl _))

theorem fieldList (h : List.Forall₂ (Node.LaidAlike z options) n.children n'.children) :
    Agrees (Layout.fieldList (z.leftSetting options) n)
      (Layout.fieldList (z.rightSetting options) n') := by
  have hinline := Node.Respaced.mayBeInline_eq (h.imp fun _ _ hn => hn.respaced)
  have hfirst := firstField h
  have hline := fieldLine n n' h .none
  obtain ⟨id, kind, start, stop, children⟩ := n
  obtain ⟨id', kind', start', stop', children'⟩ := n'
  rw [Layout.fieldList, Layout.fieldList, hinline]
  refine read fun p => .ite (.andThen (hfirst.seq (.andThen (read fun q => ?_)))) (read fun q => ?_)
  · exact .ite (.andThen (.andThen (.andThen (hline.seq (.refl _))))) (.refl _)
  · exact .ite (.andThen (.andThen (.andThen (hline.seq (.refl _))))) (.refl _)

/-- The arguments of a call. -/
theorem arguments (h : List.Forall₂ (Node.LaidAlike z options) n.children n'.children) :
    Agrees (Layout.arguments (z.leftSetting options) n)
      (Layout.arguments (z.rightSetting options) n') := by
  have hexpressions := Node.Respaced.expressions (h.imp fun _ _ hn => hn.respaced)
  have hsugar := Node.Respaced.isSugar_eq hexpressions
  have hvalues := commaSeparated h true
  obtain ⟨id, kind, start, stop, children⟩ := n
  obtain ⟨id', kind', start', stop', children'⟩ := n'
  rw [Layout.arguments, Layout.arguments, hsugar]
  exact .ite hvalues.andThen (.andThen (hvalues.seq (.refl _)))

/-- A node whose children are laid out by the rule of its kind. -/
theorem byRule (h : List.Forall₂ (Node.LaidAlike z options) n.children n'.children) {rule : Rule}
    (hrule : n.kind.rule? = some rule) :
    Agrees (Layout.sequence (z.leftSetting options) rule n true none n.children)
      (Layout.sequence (z.rightSetting options) rule n' true none n'.children) :=
  sequence (Kind.copiesWords_of_rule hrule) n n' h true .none

end Layout.Agrees

/-! ### A node with its children -/

namespace Layout.Agrees

variable (h : n.Respaced z n') (hformed : n.IsFormed)
  (hbelow : List.Forall₂ (Node.LaidAlike z options) n.children n'.children)

include h hformed hbelow

theorem expr : Agrees (Layout.expr (z.leftSetting options) n)
    (Layout.expr (z.rightSetting options) n') := by
  have hword := h.word
  have hrule := @byRule z options n n' hbelow
  obtain ⟨id, kind, start, stop, children⟩ := n
  obtain ⟨id', kind', start', stop', children'⟩ := n'
  obtain rfl : kind = kind' := h.kind
  cases kind with
  | expr k =>
      cases k with
      | nil | true | false | number | vararg =>
          rw [Layout.expr, Layout.expr]
          exact copy (hword rfl)
      | string =>
          rw [Layout.expr, Layout.expr]
          exact (sourceText (hword rfl)).bind fun _ => .refl _
      | interpolation | var | call | conditional =>
          rw [Layout.expr, Layout.expr]
          exact hrule rfl
      | table =>
          rw [Layout.expr, Layout.expr]
          exact table hbelow
      | function =>
          rw [Layout.expr, Layout.expr]
          exact anonymousFunction hbelow _ _
      | parens =>
          rw [Layout.expr, Layout.expr]
          exact parens hbelow _ _
      | binary =>
          rw [Layout.expr, Layout.expr]
          exact infixed hbelow (hformed.operator (.inl rfl)) _ _
      | unary =>
          rw [Layout.expr, Layout.expr]
          exact prefixed hbelow _ _
  | token | aux | stmt => exact .broken

theorem statement : Agrees (Layout.statement (z.leftSetting options) n)
    (Layout.statement (z.rightSetting options) n') := by
  have hword := h.word
  have hrule := @byRule z options n n' hbelow
  have hvalues := commaSeparated hbelow true
  obtain ⟨id, kind, start, stop, children⟩ := n
  obtain ⟨id', kind', start', stop', children'⟩ := n'
  obtain rfl : kind = kind' := h.kind
  have hblock : Rule.blockStatement.CopiesWords :=
    Kind.copiesWords_of_rule (rfl : (Kind.stmt .doStmt).rule? = some Rule.blockStatement)
  have hlength : children.length = children'.length := hbelow.length_eq
  cases kind with
  | stmt k =>
      cases k with
      | localVar | call =>
          rw [Layout.statement, Layout.statement]
          exact .andThen ((hrule rfl).seq (.refl _))
      | localFn =>
          rw [Layout.statement, Layout.statement]
          exact .andThen ((localFunction hbelow hformed.localName _ _).seq (.refl _))
      | fn =>
          rw [Layout.statement, Layout.statement]
          exact .andThen ((namedFunction hbelow hformed.functionName_eq _ _).seq (.refl _))
      | assign =>
          rw [Layout.statement, Layout.statement]
          exact .andThen ((assignment hbelow _ _).seq (.refl _))
      | compoundAssign =>
          rw [Layout.statement, Layout.statement]
          exact .andThen ((infixed hbelow (hformed.operator (.inr rfl)) _ _).seq (.refl _))
      | ifStmt | whileStmt | repeatStmt | forRange | forIn | doStmt =>
          rw [Layout.statement, Layout.statement]
          · exact (hrule rfl).seq (.refl _)
          all_goals
            intro hother
            cases hother
      | returnStmt =>
          rw [Layout.statement, Layout.statement, hlength]
          exact .andThen (.andThen (.ite (.andThen (hvalues.seq (.refl _))) (.refl _)))
      | breakStmt | continueStmt =>
          rw [Layout.statement, Layout.statement]
          exact .refl _
      | comment =>
          rw [Layout.statement, Layout.statement]
          exact ownLineComment (hword rfl)
  | token | expr | aux =>
      -- what is no statement is taken for one of keywords and blocks
      rw [Layout.statement, Layout.statement]
      · exact (sequence hblock _ _ hbelow true .none).seq (.refl _)
      all_goals
        intro hother
        cases hother

end Layout.Agrees

/-- A node is laid out alike if what is below it is. -/
theorem Node.Respaced.laidAlike (h : n.Respaced z n') (hformed : n.IsFormed)
    (hbelow : List.Forall₂ (Node.LaidAlike z options) n.children n'.children) :
    n.LaidAlike z options n' where
  respaced := h
  formed := hformed
  expr := .expr h hformed hbelow
  expressions := by
    have hvalues := Agrees.commaSeparated hbelow true
    obtain ⟨id, kind, start, stop, children⟩ := n
    obtain ⟨id', kind', start', stop', children'⟩ := n'
    rw [Layout.expressionsIn, Layout.expressionsIn]
    exact hvalues
  arguments := .arguments hbelow
  interpolated := .interpolated hbelow
  functionBody := by
    have hrule : Rule.functionBody.CopiesWords :=
      Kind.copiesWords_of_rule (rfl : (Kind.aux .funcBody).rule? = some Rule.functionBody)
    have hsequence := Agrees.sequence hrule n n' hbelow true .none
    obtain ⟨id, kind, start, stop, children⟩ := n
    obtain ⟨id', kind', start', stop', children'⟩ := n'
    rw [Layout.functionBody, Layout.functionBody]
    exact hsequence
  fieldList := .fieldList hbelow
  field := by
    have hrule : Rule.field.CopiesWords :=
      Kind.copiesWords_of_rule (rfl : (Kind.aux .field).rule? = some Rule.field)
    have hsequence := Agrees.sequence hrule n n' hbelow true .none
    obtain ⟨id, kind, start, stop, children⟩ := n
    obtain ⟨id', kind', start', stop', children'⟩ := n'
    rw [Layout.field, Layout.field]
    exact hsequence
  block := fun opener opener' hopener => by
    have hstatements := Agrees.statements n n' hbelow hopener none none
    obtain ⟨id, kind, start, stop, children⟩ := n
    obtain ⟨id', kind', start', stop', children'⟩ := n'
    rw [Layout.block, Layout.block]
    exact hstatements
  statement := .statement h hformed hbelow

mutual

/-- Nodes that are set with other blanks are laid out alike. -/
theorem Node.laidAlike (options : LayoutOptions) (n n' : Node) (h : n.Respaced z n')
    (hformed : ∀ m ∈ n.preorder, m.IsFormed) : n.LaidAlike z options n' := by
  cases n with
  | mk id kind start stop children =>
      rw [Node.preorder_eq] at hformed
      simp only [List.forall_mem_cons] at hformed
      exact h.laidAlike hformed.1 (areLaidAlike options children n'.children h.children hformed.2)

/-- Rows of nodes that are set with other blanks are laid out alike. -/
theorem areLaidAlike (options : LayoutOptions) (nodes nodes' : List Node)
    (h : List.Forall₂ (Node.Respaced z) nodes nodes')
    (hformed : ∀ m ∈ preorderOfAll nodes, m.IsFormed) :
    List.Forall₂ (Node.LaidAlike z options) nodes nodes' := by
  cases nodes with
  | nil =>
      cases h
      exact .nil
  | cons n rest =>
      rw [preorderOfAll, List.forall_mem_append] at hformed
      cases h with
      | cons hn hrest =>
          exact .cons (Node.laidAlike options n _ hn hformed.1)
            (areLaidAlike options rest _ hrest hformed.2)

end

/-! ### Sources -/

variable {source other : Text} {t u : SyntaxTree} {inner f : Forest} {gap gap' : Text}

/-- The words of a source make up one row, and its tree is made of it. -/
theorem Parsed.of_words (h : Parsed source t inner gap) (hparse : parse source = .ok t)
    (hf : Derives [.sub .items] f (Word.ahead [])) (hwords : f.words = inner.words) :
    Parsed source t f gap := by
  have htokens : tokenize source = f.words.map Word.toToken := by rw [h.tokenize_eq, hwords]
  obtain rfl : SyntaxTree.ofForest source f = t :=
    Except.ok.inj ((parse_of_derives hf htokens).symm.trans hparse)
  exact ⟨hf, hwords ▸ h.spells, h.gap_blank, hwords ▸ h.flat, hwords ▸ h.placed, rfl, rfl, rfl, rfl,
    rfl, rfl⟩

/-- A source with the same tokens has the same row with other blanks. -/
theorem Parsed.respaced (h : Parsed source t inner gap)
    (htokens : (tokenize source).map Token.content = (tokenize other).map Token.content) :
    ∃ u f gap', parse other = .ok u ∧ Parsed other u f gap' ∧ inner.Respaced f := by
  have hwords : SameWords inner.words ((tokenize other).map fun token => ⟨token, []⟩) := by
    rw [h.tokenize_eq, List.map_map] at htokens
    rw [SameWords, List.map_map]
    exact htokens
  -- a row of words without gaps is enough to see that the other source parses
  obtain ⟨g, hg, hgwords⟩ := inner.exists_respaced hwords
  have hgtokens : tokenize other = g.words.map Word.toToken := by
    rw [hgwords, List.map_map]
    exact (List.map_id _).symm
  have hparse := parse_of_derives (h.derives.respaced (by simp) hg) hgtokens
  obtain ⟨inner', gap', h'⟩ := parse_parsed hparse rfl
  have hwords' : SameWords inner.words inner'.words := by
    rw [h.tokenize_eq, h'.tokenize_eq, List.map_map, List.map_map] at htokens
    exact htokens
  obtain ⟨f, hf, hfwords⟩ := inner.exists_respaced hwords'
  exact ⟨_, f, gap', hparse, h'.of_words hparse (h.derives.respaced (by simp) hf) hfwords, hf⟩

/-- Whether a line breaks before a token, for each token of a source but the first. -/
def lineBreaks (source : Text) : List Bool :=
  List.zipWith (fun t u => (source.slice? t.stop u.start).any (·.contains '\n'))
    (tokenize source) (tokenize source).tail

/-- What lies between two adjacent words is the gap of the second one. -/
theorem Word.zipWith_breaksLine {before ws : List Word}
    (h : place 0 (before ++ ws) = before ++ ws) (gap : Text) :
    List.zipWith
        (fun t u => (Text.slice? (flat (before ++ ws) ++ gap) t.stop u.start).any (·.contains '\n'))
        (ws.map Word.toToken) (ws.map Word.toToken).tail = ws.tail.map breaksLine := by
  induction ws generalizing before with
  | nil => rfl
  | cons w ws ih =>
      cases ws with
      | nil => rfl
      | cons v ws =>
          have hplaced : place 0 ((before ++ [w]) ++ v :: ws) = (before ++ [w]) ++ v :: ws := by
            simpa using h
          have hnext : place 0 (before ++ w :: ([] ++ v :: ws)) =
              before ++ w :: ([] ++ v :: ws) := h
          have hslice := slice_between hnext gap
          have hrest := ih hplaced
          rw [List.append_assoc, List.singleton_append] at hrest
          simp only [List.map_cons, List.tail_cons, List.zipWith_cons_cons, List.nil_append] at *
          rw [hslice, hrest]
          simp [breaksLine]

theorem Parsed.lineBreaks_eq (h : Parsed source t inner gap) :
    lineBreaks source = inner.words.tail.map Word.breaksLine := by
  have hplaced : Word.place 0 ([] ++ inner.words) = [] ++ inner.words := h.placed
  have hbreaks := Word.zipWith_breaksLine hplaced gap
  rw [List.nil_append, h.flat] at hbreaks
  rw [lineBreaks, h.tokenize_eq, hbreaks]

/-- The statements of two sources that differ in their blanks. -/
theorem Parsed.block_agrees (h : Parsed source t inner gap) (h' : Parsed other u f gap')
    (hf : inner.Respaced f)
    (hbreaks : (∃ c ∈ tokenize source, c.isComment) → lineBreaks source = lineBreaks other)
    (options : LayoutOptions) :
    Agrees (Layout.block ⟨t.source, options⟩ none t.root)
      (Layout.block ⟨u.source, options⟩ none u.root) := by
  let z : Spacings :=
    { left := inner.words, right := f.words, leftGap := gap, rightGap := gap', same := hf.words,
      leftPlaced := h.placed, rightPlaced := h'.placed,
      breaks := by
        rintro ⟨w, hw, hcomment⟩
        rw [← h.lineBreaks_eq, ← h'.lineBreaks_eq]
        refine hbreaks ⟨w.toToken, ?_, hcomment⟩
        rw [h.tokenize_eq]
        exact List.mem_map_of_mem hw }
  have hleft : t.source = z.leftSource := h.source_eq.trans h.flat.symm
  have hright : u.source = z.rightSource := h'.source_eq.trans h'.flat.symm
  have hblocks : Symbol.blocksBehindTokens false [.sub .items] := rfl
  have hamong : z.Among inner.words f.words := ⟨[], [], [], [], by simp [z], by simp [z], rfl⟩
  have hchildren : List.Forall₂ (Node.Respaced z) t.root.children u.root.children := by
    rw [h.children_eq, h'.children_eq]
    exact h.derives.nodes_respaced (h.derives.fit (by simp)) hblocks hf hamong 0 0 (by simp)
  have hformed : ∀ m ∈ preorderOfAll t.root.children, m.IsFormed := by
    have hformed := h.formed
    rw [Node.preorder_eq, List.forall_mem_cons] at hformed
    exact hformed.2
  have hlaid := areLaidAlike options _ _ hchildren hformed
  have hstatements := Agrees.statements t.root u.root hlaid .none none none
  rw [hleft, hright]
  generalize t.root = n at *
  generalize u.root = n' at *
  obtain ⟨id, kind, start, stop, children⟩ := n
  obtain ⟨id', kind', start', stop', children'⟩ := n'
  rw [Layout.block, Layout.block]
  exact hstatements

/-- The layout of a source depends on its tokens alone, and, if there are
comments, on whether lines break between adjacent tokens. -/
theorem format_canonical {source other text : Text} {options : LayoutOptions}
    (htokens : (tokenize source).map Token.content = (tokenize other).map Token.content)
    (hbreaks : (∃ c ∈ tokenize source, c.isComment) → lineBreaks source = lineBreaks other)
    (hformat : format source options = .ok (.produced text)) :
    format other options = .ok (.produced text) := by
  cases hparse : parse source with
  | error => simp [format, hparse, bind, Except.bind] at hformat
  | ok t =>
      have htree : t.format options = .ok (.produced text) := by
        simpa [format, hparse, bind, Except.bind] using hformat
      have herrors : t.errors = [] := by
        by_contra hne
        simp [SyntaxTree.format, SyntaxTree.hasError, hne] at htree
      obtain ⟨inner, gap, h⟩ := parse_parsed hparse herrors
      obtain ⟨u, f, gap', hparse', h', hf⟩ := h.respaced htokens
      have hstrays : t.strayComments = [] := by
        by_contra hne
        simp [(h.format_eq options).2 hne] at htree
      have hstrays' : u.strayComments = [] := by
        have hlength := hf.strays.length_eq
        rw [h.strays_eq, List.map_eq_nil_iff] at hstrays
        rw [hstrays] at hlength
        rw [h'.strays_eq, List.length_eq_zero_iff.mp hlength.symm, List.map_nil]
      have hrun : (Layout.block ⟨t.source, options⟩ none t.root).run Page.blank =
          (Layout.block ⟨u.source, options⟩ none u.root).run Page.blank := by
        obtain ⟨_, _, hleft⟩ := h.block_succeeds options Page.blank
        obtain ⟨_, _, hright⟩ := h'.block_succeeds options Page.blank
        obtain ⟨e, he⟩ | ⟨e, he⟩ | hsame := h.block_agrees h' hf hbreaks options Page.blank
        · cases he.symm.trans hleft
        · cases he.symm.trans hright
        · exact hsame
      rw [h.format_layout options hstrays, hrun, ← h'.format_layout options hstrays'] at htree
      simpa [format, hparse', bind, Except.bind] using htree

/-- A comment stays on the line of its statement, with or without blanks before it. -/
theorem format_canonical_comment :
    format "local  x=1   --one\n\n\n  return x".toList .standard =
        .ok (.produced "local x = 1 --one\nreturn x\n".toList) ∧
      format "local x = 1--one\nreturn\tx\n".toList .standard =
        .ok (.produced "local x = 1 --one\nreturn x\n".toList) := by
  have hformat : format "local  x=1   --one\n\n\n  return x".toList .standard =
      .ok (.produced "local x = 1 --one\nreturn x\n".toList) := by decide +kernel
  refine ⟨hformat, format_canonical ?_ (fun _ => ?_) hformat⟩
  · decide +kernel
  · decide +kernel

end LuauTidy
