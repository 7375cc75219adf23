import LuauTidy.Proofs.Layouts
import LuauTidy.Proofs.Records

/-!
# What a rule does to the indentation

A rule tells child by child what is written, so from the kinds of the children
alone it can be said where a line starts and how many levels are open: `then`
and the like end a line and open one, `end` and the like close it, a block is
written at the start of a line with one level open, and expressions where none
is.  For every form that is laid out by a rule this comes out even.

* `Phase` — what is known of the page among the children of a node;
* `Stroke.turn`, `Piece.turn` — what a child changes of it;
* `Rule.Turns`, `Piece.Begins`, `Rule.Lays` — the children of a node;
* `Form.lays` — the forms.
-/

namespace LuauTidy

/-! ### Phases -/

/-- What is known of a page among the children of a node: whether a line starts
there, and how many levels are open that were not before. -/
structure Phase where
  fresh : Bool
  extra : Nat
  deriving DecidableEq

/-- The page is in a phase, and it begins with a text. -/
def Phase.Holds : Phase → Text → (depth : Nat) → Page → Prop
  | ⟨true, extra⟩, b, d => Page.StartsLine b (d + extra)
  | ⟨false, extra⟩, b, d => Page.Keeps b (d + extra)

theorem Phase.Holds.keeps {phase : Phase} {b : Text} {d : Nat} {p : Page}
    (h : phase.Holds b d p) : p.Keeps b (d + phase.extra) := by
  obtain ⟨_ | _, extra⟩ := phase
  · exact h
  · exact Page.StartsLine.keeps h

/-- What a stroke changes of the phase. -/
def Stroke.turn : Stroke → Phase → Option Phase
  | .text t, ⟨_, extra⟩ => some ⟨t.toList.getLast? == some '\n', extra⟩
  | .source, ⟨_, extra⟩ | .parameters, ⟨_, extra⟩ | .tabs, ⟨_, extra⟩ => some ⟨false, extra⟩
  | .deeper, ⟨fresh, extra⟩ => some ⟨fresh, extra + 1⟩
  | .shallower, ⟨fresh, extra + 1⟩ => some ⟨fresh, extra⟩
  | .shallower, ⟨_, 0⟩ => none

/-- What strokes change of the phase. -/
def Stroke.turnAll : List Stroke → Phase → Option Phase
  | [], phase => some phase
  | one :: rest, phase => (one.turn phase).bind (turnAll rest)

/-- What a child changes of the phase.  Only a block is written where a level is
open, and only at the start of a line. -/
def Piece.turn : Piece → Phase → Option Phase
  | .strokes l, phase => Stroke.turnAll l phase
  | .block, phase => if phase = ⟨true, 1⟩ then some phase else none
  | _, phase => if phase.extra = 0 then some ⟨false, 0⟩ else none

/-! ### Children -/

/-- A word of the kind, which is no piece of an interpolated string, begins with
ink. -/
def Kind.isInked : Kind → Bool
  | .token k => !(TokenClass.token k).isPiece
  | .expr k => k.isLiteral
  | .stmt .comment => true
  | _ => false

/-- Children, none of which is the first one, lead from a phase to one where no
level is open. -/
inductive Rule.Turns (rule : Rule) : Phase → List Kind → Prop
  | nil (fresh : Bool) : rule.Turns ⟨fresh, 0⟩ []
  | cons {phase next : Phase} {k : Kind} {piece : Piece} {later : List Kind}
      (fits : rule false k = some piece) (suits : piece.Suits k)
      (turn : piece.turn phase = some next) (tail : rule.Turns next later) :
      rule.Turns phase (k :: later)

/-- The phase after the first child, which begins with ink, if it begins with
tabs then behind these. -/
inductive Piece.Begins (k : Kind) : (tabbed : Bool) → Piece → Phase → Prop
  | text {t : String} {l : List Stroke} {next : Phase} (ink : Text.IsInked t.toList)
      (turn : Stroke.turnAll (.text t :: l) ⟨false, 0⟩ = some next) :
      Begins k false (.strokes (.text t :: l)) next
  | source {l : List Stroke} {next : Phase} (ink : k.isInked)
      (turn : Stroke.turnAll (.source :: l) ⟨false, 0⟩ = some next) :
      Begins k false (.strokes (.source :: l)) next
  | expression (h : k.isExpr) : Begins k false .expression ⟨false, 0⟩
  | tabs {l : List Stroke} {next : Phase} (h : Begins k false (.strokes l) next) :
      Begins k true (.strokes (.tabs :: l)) next

/-- A rule lays out the children of a node, of the given kinds: the first one
begins with ink, and behind the last one no level is open. -/
inductive Rule.Lays (rule : Rule) (tabbed : Bool) : List Kind → Prop
  | mk {k : Kind} {piece : Piece} {next : Phase} {later : List Kind}
      (fits : rule true k = some piece) (begins : piece.Begins k tabbed next)
      (turns : rule.Turns next later) : rule.Lays tabbed (k :: later)

namespace Rule.Turns

variable {rule : Rule} {phase next : Phase} {k : Kind} {later ks : List Kind} {l : List Stroke}
  {fresh : Bool}

/-- A child that becomes strokes. -/
theorem strokes (fits : rule false k = some (.strokes l))
    (turn : Stroke.turnAll l phase = some next) (tail : rule.Turns next later) :
    rule.Turns phase (k :: later) :=
  .cons fits trivial turn tail

theorem expression (fits : ∀ e, rule false (.expr e) = some .expression) (h : k.isExpr)
    (tail : rule.Turns ⟨false, 0⟩ later) : rule.Turns ⟨fresh, 0⟩ (k :: later) := by
  cases k with
  | expr e => exact .cons (fits e) rfl rfl tail
  | _ => cases h

theorem block (fits : rule false (.aux .block) = some .block)
    (tail : rule.Turns ⟨true, 1⟩ later) : rule.Turns ⟨true, 1⟩ (.aux .block :: later) :=
  .cons fits rfl rfl tail

/-- Items with separators between them. -/
theorem series {separator : TokenKind} {item : Kind → Prop} (h : Series separator item ks)
    (hitem : ∀ k later, item k → rule.Turns ⟨false, 0⟩ later → rule.Turns ⟨false, 0⟩ (k :: later))
    (fits : rule false (.token separator) = some (.strokes l))
    (turn : Stroke.turnAll l ⟨false, 0⟩ = some ⟨false, 0⟩) (tail : rule.Turns ⟨false, 0⟩ later) :
    rule.Turns ⟨false, 0⟩ (ks ++ later) := by
  induction h with
  | one hk => exact hitem _ _ hk tail
  | cons hk _ ih => exact hitem _ _ hk (strokes fits turn ih)

/-- Names that are declared, with commas. -/
theorem bindings (fits : rule false (.aux .binding) = Rule.verbatim)
    (comma : rule false (.token .comma) = Rule.fixed ", ")
    (h : Series .comma (· = .aux .binding) ks) (tail : rule.Turns ⟨false, 0⟩ later) :
    rule.Turns ⟨false, 0⟩ (ks ++ later) := by
  refine series h (fun k later hk hlater => ?_) comma rfl tail
  subst hk
  exact strokes fits rfl hlater

/-- Expressions with commas. -/
theorem expressions (fits : ∀ e, rule false (.expr e) = some .expression)
    (comma : rule false (.token .comma) = Rule.fixed ", ") (h : Series .comma (·.isExpr) ks)
    (tail : rule.Turns ⟨false, 0⟩ later) : rule.Turns ⟨false, 0⟩ (ks ++ later) :=
  series h (fun _ _ hk => expression fits hk) comma rfl tail

/-- Branches behind the first one. -/
theorem branches {value : Kind → Prop} (h : Branches value ks)
    (hbranch : ∀ c v later, c.isExpr → value v → rule.Turns phase later →
      rule.Turns phase (.token .kwElseif :: c :: .token .kwThen :: v :: later))
    (tail : rule.Turns phase later) : rule.Turns phase (ks ++ later) := by
  induction h with
  | nil => exact tail
  | cons hc hv _ ih => exact hbranch _ _ _ hc hv ih

/-- Blocks of further branches.  The level of each is closed by what comes next. -/
theorem branchBlocks (h : Branches (· = .aux .block) ks)
    (tail : Rule.blockStatement.Turns ⟨true, 1⟩ later) :
    Rule.blockStatement.Turns ⟨true, 1⟩ (ks ++ later) := by
  refine branches h (fun c v later hc hv hlater => ?_) tail
  subst hv
  exact strokes rfl rfl (expression (fun _ => rfl) hc (strokes rfl rfl (block rfl hlater)))

/-- A block and the `end` behind it. -/
theorem lastBlock : Rule.blockStatement.Turns ⟨true, 1⟩ [.aux .block, .token .kwEnd] :=
  block rfl (strokes rfl rfl (.nil _))

/-- Pieces of an interpolated string, up to its end. -/
theorem pieces (h : ∀ k ∈ ks, k = .token .interpContent ∨ k = .aux .interpExpr) :
    Rule.interpolation.Turns ⟨false, 0⟩ (ks ++ [.token .interpEnd]) := by
  induction ks with
  | nil => exact .strokes rfl rfl (.nil _)
  | cons k ks ih =>
      rw [List.forall_mem_cons] at h
      rcases h.1 with rfl | rfl
      · exact .strokes rfl rfl (ih h.2)
      · exact .cons rfl rfl rfl (ih h.2)

end Rule.Turns

/-! ### Forms -/

/-- A node of the kind starts its line itself. -/
def Kind.startsLine : Kind → Bool
  | .stmt .ifStmt | .stmt .whileStmt | .stmt .repeatStmt | .stmt .forRange | .stmt .forIn
  | .stmt .doStmt => true
  | _ => false

/-- The first child is an expression. -/
theorem Rule.Lays.ofExpr {rule : Rule} {k : Kind} {later : List Kind}
    (fits : ∀ e, rule true (.expr e) = some .expression) (h : k.isExpr)
    (turns : rule.Turns ⟨false, 0⟩ later) : rule.Lays false (k :: later) := by
  cases k with
  | expr e => exact .mk (fits e) (.expression rfl) turns
  | _ => cases h

/-- What can be called is an expression. -/
theorem Kind.isExpr_of_isCallee {k : Kind} (h : k.isCallee) : k.isExpr := by
  cases k with
  | expr e => rfl
  | _ => cases h

/-- What is called comes first. -/
theorem CallForm.lays {ks : List Kind} (h : CallForm ks) : Rule.call.Lays false ks := by
  cases h with
  | call hk =>
      exact .ofExpr (fun _ => rfl) (Kind.isExpr_of_isCallee hk) (.cons rfl rfl rfl (.nil _))
  | method hk =>
      exact .ofExpr (fun _ => rfl) (Kind.isExpr_of_isCallee hk)
        (.strokes rfl rfl (.strokes rfl rfl (.cons rfl rfl rfl (.nil _))))

/-- The rule of a kind lays out the children that its forms allow. -/
theorem Form.lays {kind : Kind} {ks : List Kind} {rule : Rule} (h : Form kind ks)
    (hrule : kind.rule? = some rule) : rule.Lays kind.startsLine ks := by
  cases h with
  | interpolation hpieces =>
      cases hrule
      exact .mk rfl (.text ⟨_, _, rfl, rfl⟩ rfl) (.pieces hpieces)
  | variableName =>
      cases hrule
      exact .mk rfl (.source rfl rfl) (.nil _)
  | access hk =>
      cases hrule
      exact .ofExpr (fun _ => rfl) (Kind.isExpr_of_isCallee hk)
        (.strokes rfl rfl (.strokes rfl rfl (.nil _)))
  | index hk hkey =>
      cases hrule
      exact .ofExpr (fun _ => rfl) (Kind.isExpr_of_isCallee hk)
        (.strokes rfl rfl (.expression (fun _ => rfl) hkey (.strokes rfl rfl (.nil _))))
  | call hcall | callStatement hcall =>
      cases hrule
      exact hcall.lays
  | conditional hc hv hbranches hlast =>
      cases hrule
      have hend : Rule.conditional.Turns ⟨false, 0⟩ [.token .kwElse, _] :=
        .strokes rfl rfl (.expression (fun _ => rfl) hlast (.nil _))
      refine .mk rfl (.text ⟨_, _, rfl, rfl⟩ rfl) (.expression (fun _ => rfl) hc
        (.strokes rfl rfl (.expression (fun _ => rfl) hv (.branches hbranches ?_ hend))))
      intro c v later hc hv hlater
      exact .strokes rfl rfl (.expression (fun _ => rfl) hc
        (.strokes rfl rfl (.expression (fun _ => rfl) hv hlater)))
  | functionBody =>
      cases hrule
      exact .mk rfl (.text ⟨_, _, rfl, rfl⟩ rfl)
        (.strokes rfl rfl (.block rfl (.strokes rfl rfl (.nil _))))
  | functionBodyParams =>
      cases hrule
      exact .mk rfl (.text ⟨_, _, rfl, rfl⟩ rfl)
        (.strokes rfl rfl (.strokes rfl rfl (.block rfl (.strokes rfl rfl (.nil _)))))
  | keyedField hkey hv =>
      cases hrule
      exact .mk rfl (.text ⟨_, _, rfl, rfl⟩ rfl) (.expression (fun _ => rfl) hkey
        (.strokes rfl rfl (.strokes rfl rfl (.expression (fun _ => rfl) hv (.nil _)))))
  | namedField hv =>
      cases hrule
      exact .mk rfl (.source rfl rfl)
        (.strokes rfl rfl (.expression (fun _ => rfl) hv (.nil _)))
  | itemField hv =>
      cases hrule
      exact .ofExpr (fun _ => rfl) hv (.nil _)
  | declaration hnames =>
      cases hrule
      have hturns : Rule.localVar.Turns ⟨false, 0⟩ (_ ++ []) :=
        .bindings rfl rfl hnames (.nil false)
      rw [List.append_nil] at hturns
      exact .mk rfl (.text ⟨_, _, rfl, rfl⟩ rfl) hturns
  | definition hnames hvalues =>
      cases hrule
      have hturns : Rule.localVar.Turns ⟨false, 0⟩ (_ ++ []) :=
        .expressions (fun _ => rfl) rfl hvalues (.nil false)
      rw [List.append_nil] at hturns
      exact .mk rfl (.text ⟨_, _, rfl, rfl⟩ rfl)
        (.bindings rfl rfl hnames (.strokes rfl rfl hturns))
  | ifStatement hc hbranches =>
      cases hrule
      exact .mk rfl (.tabs (.source rfl rfl)) (.expression (fun _ => rfl) hc
        (.strokes rfl rfl (.block rfl (.branchBlocks hbranches (.strokes rfl rfl (.nil _))))))
  | ifElseStatement hc hbranches =>
      cases hrule
      exact .mk rfl (.tabs (.source rfl rfl)) (.expression (fun _ => rfl) hc
        (.strokes rfl rfl (.block rfl (.branchBlocks hbranches (.strokes rfl rfl .lastBlock)))))
  | whileStatement hc =>
      cases hrule
      exact .mk rfl (.tabs (.source rfl rfl)) (.expression (fun _ => rfl) hc
        (.strokes rfl rfl .lastBlock))
  | doStatement =>
      cases hrule
      exact .mk rfl (.tabs (.text ⟨_, _, rfl, rfl⟩ rfl)) .lastBlock
  | repeatStatement hc =>
      cases hrule
      exact .mk rfl (.tabs (.text ⟨_, _, rfl, rfl⟩ rfl))
        (.block rfl (.strokes rfl rfl (.expression (fun _ => rfl) hc (.nil _))))
  | forRange hfirst hlast =>
      cases hrule
      exact .mk rfl (.tabs (.source rfl rfl)) (.strokes rfl rfl (.strokes rfl rfl
        (.expression (fun _ => rfl) hfirst (.strokes rfl rfl
          (.expression (fun _ => rfl) hlast (.strokes rfl rfl .lastBlock))))))
  | forRangeStep hfirst hlast hstep =>
      cases hrule
      exact .mk rfl (.tabs (.source rfl rfl)) (.strokes rfl rfl (.strokes rfl rfl
        (.expression (fun _ => rfl) hfirst (.strokes rfl rfl (.expression (fun _ => rfl) hlast
          (.strokes rfl rfl (.expression (fun _ => rfl) hstep (.strokes rfl rfl .lastBlock))))))))
  | forIn hnames hvalues =>
      cases hrule
      exact .mk rfl (.tabs (.source rfl rfl)) (.bindings rfl rfl hnames (.strokes rfl rfl
        (.expressions (fun _ => rfl) rfl hvalues (.strokes rfl rfl .lastBlock))))
  | @literal k hk => cases k <;> first | (cases hrule; done) | cases hk
  | _ => cases hrule

end LuauTidy
