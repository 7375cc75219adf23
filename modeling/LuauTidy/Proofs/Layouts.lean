import LuauTidy.Layout.Render
import LuauTidy.Proofs.Cuts
import LuauTidy.Proofs.Forms
import LuauTidy.Proofs.Frames

/-!
# Layouts

The layout of a tree raises no fault if the tree comes from a source.  It meets
only children that it has a rule for, since every node has a form; and it cuts
the source only at the ends of nodes, of which the former stops before the
latter starts.

* `Layout.Succeeds` — a step that raises no fault, whatever the page;
* `Node.IsSound` — what a node of a source is known for;
* `Node.IsWritten` — every step of the layout that takes the node succeeds;
* `Node.isWritten` — a node of which all nodes below are sound is written;
* `parse_formed` — the nodes of a source that parses have their forms, it is laid
  out and it is lowered.
-/

namespace LuauTidy

namespace Layout

variable {α β : Type} {s : Setting}

/-! ### Steps -/

/-- A step raises no fault. -/
def Succeeds (l : Layout α) : Prop := ∀ p, ∃ a q, l.run p = .ok (a, q)

theorem Succeeds.pure (a : α) : Succeeds (pure a : Layout α) := fun p => ⟨a, p, rfl⟩

theorem Succeeds.bind {l : Layout α} {k : α → Layout β} (hl : Succeeds l)
    (hk : ∀ a, Succeeds (k a)) : Succeeds (l >>= k) := by
  intro p
  obtain ⟨a, q, hl⟩ := hl p
  obtain ⟨b, r, hk⟩ := hk a q
  refine ⟨b, r, ?_⟩
  rw [StateT.run_bind, hl]
  exact hk

theorem Succeeds.get : Succeeds (get : Layout Page) := fun p => ⟨p, p, rfl⟩

theorem Succeeds.modify (f : Page → Page) : Succeeds (modify f : Layout Unit) :=
  fun p => ⟨(), f p, rfl⟩

theorem Succeeds.ite {c : Prop} [Decidable c] {l l' : Layout α} (hl : Succeeds l)
    (hl' : Succeeds l') : Succeeds (if c then l else l') := by
  split
  · exact hl
  · exact hl'

theorem Succeeds.put (t : Text) : Succeeds (put t) := .modify _

theorem Succeeds.write (t : String) : Succeeds (write t) := .put _

theorem Succeeds.newline : Succeeds newline := .put _

theorem Succeeds.tabs : Succeeds tabs := .bind .get fun _ => .put _

theorem Succeeds.deeper : Succeeds deeper := .modify _

theorem Succeeds.shallower : Succeeds shallower := .modify _

theorem Succeeds.endLine : Succeeds endLine := .bind .get fun _ => .ite .newline (.pure _)

theorem Succeeds.rejoinLine : Succeeds rejoinLine := .bind .get fun _ => .ite (.modify _) (.pure _)

/-- A step and then another. -/
theorem Succeeds.seq {l : Layout Unit} {l' : Layout β} (hl : Succeeds l) (hl' : Succeeds l') :
    Succeeds (do l; l') :=
  hl.bind fun _ => hl'

/-! ### Reading the source -/

theorem Succeeds.sourceText {start stop : Nat} (hstart : s.source.IsCut start)
    (hstop : s.source.IsCut stop) (hle : start ≤ stop) : Succeeds (sourceText s start stop) := by
  obtain ⟨part, hpart⟩ := hstart.slice hstop hle
  rw [Layout.sourceText, hpart]
  exact .pure part

theorem Succeeds.sameLine {start stop : Nat} (hstart : s.source.IsCut start)
    (hstop : s.source.IsCut stop) (hle : start ≤ stop) : Succeeds (sameLine s start stop) :=
  (Succeeds.sourceText hstart hstop hle).bind fun _ => .pure _

theorem Succeeds.copyAll {nodes : List Node} (h : ∀ n ∈ nodes, Succeeds (copy s n)) :
    Succeeds (copyAll s nodes) := by
  induction nodes with
  | nil => exact .pure _
  | cons n rest ih =>
      simp only [List.mem_cons, forall_eq_or_imp] at h
      exact h.1.seq (ih h.2)

theorem Succeeds.copyParameters {nodes : List Node} (h : ∀ n ∈ nodes, Succeeds (copy s n))
    (first : Bool) : Succeeds (copyParameters s first nodes) := by
  induction nodes generalizing first with
  | nil => exact .pure _
  | cons n rest ih =>
      simp only [List.mem_cons, forall_eq_or_imp] at h
      rw [Layout.copyParameters]
      refine .ite (ih h.2 first) ?_
      have hrest : Succeeds (do copy s n; Layout.copyParameters s false rest) := h.1.seq (ih h.2 false)
      exact .ite (.seq (.write _) hrest) hrest

theorem Succeeds.trailingComment {n : Node} (h : Succeeds (copy s n)) :
    Succeeds (trailingComment s n) :=
  .seq .rejoinLine (.seq (.write _) (.seq h .newline))

theorem Succeeds.ownLineComment {n : Node} (h : Succeeds (copy s n)) :
    Succeeds (ownLineComment s n) :=
  .seq .tabs (.seq h .newline)

theorem Succeeds.strokes {child : Node} (h : Succeeds (copy s child))
    (hchildren : ∀ n ∈ child.children, Succeeds (copy s n)) (l : List Stroke) :
    Succeeds (strokes s child l) := by
  induction l with
  | nil => exact .pure _
  | cons one rest ih =>
      refine .seq ?_ ih
      cases one with
      | text t => exact .write t
      | source => exact h
      | parameters => exact .copyParameters hchildren true
      | tabs => exact .tabs
      | deeper => exact .deeper
      | shallower => exact .shallower

end Layout

/-! ### Rules -/

/-- A piece that the layout of a kind gives. -/
def Piece.Suits : Piece → Kind → Prop
  | .strokes _, _ => True
  | .expression, k => k.isExpr
  | .arguments, k => k = .aux .argList
  | .block, k => k = .aux .block
  | .interpolated, k => k = .aux .interpExpr

/-- A rule has a piece that suits for a kind. -/
def Rule.Covers (rule : Rule) (k : Kind) : Prop :=
  ∀ first, ∃ piece, rule first k = some piece ∧ piece.Suits k

/-- The rule by which the children of a node are laid out, if it is by one. -/
def Kind.rule? : Kind → Option Rule
  | .expr .interpolation => some Rule.interpolation
  | .expr .var => some Rule.var
  | .expr .call | .stmt .call => some Rule.call
  | .expr .conditional => some Rule.conditional
  | .aux .funcBody => some Rule.functionBody
  | .aux .field => some Rule.field
  | .stmt .localVar => some Rule.localVar
  | .stmt .ifStmt | .stmt .whileStmt | .stmt .repeatStmt | .stmt .forRange | .stmt .forIn
  | .stmt .doStmt => some Rule.blockStatement
  | _ => none

theorem Series.all {P item : Kind → Prop} {separator : TokenKind} {ks : List Kind}
    (h : Series separator item ks) (hitem : ∀ k, item k → P k) (hseparator : P (.token separator)) :
    ∀ k ∈ ks, P k := by
  induction h with
  | one hk => simpa using hitem _ hk
  | cons hk _ ih => simpa using ⟨hitem _ hk, hseparator, ih⟩

theorem Branches.all {P value : Kind → Prop} {ks : List Kind} (h : Branches value ks)
    (hexpr : ∀ k : Kind, k.isExpr → P k) (hvalue : ∀ k, value k → P k)
    (helseif : P (.token .kwElseif)) (hthen : P (.token .kwThen)) : ∀ k ∈ ks, P k := by
  induction h with
  | nil => simp
  | cons hc hv _ ih => simpa using ⟨helseif, hexpr _ hc, hthen, hvalue _ hv, ih⟩

theorem CallForm.all {P : Kind → Prop} {ks : List Kind} (h : CallForm ks)
    (hexpr : ∀ k : Kind, k.isExpr → P k) (hcolon : P (.token .colon)) (hname : P (.token .name))
    (harguments : P (.aux .argList)) : ∀ k ∈ ks, P k := by
  have hcallee : ∀ k : Kind, k.isCallee → P k := fun k hk => hexpr k (by
    cases k <;> first | rfl | cases hk)
  cases h with
  | call hk => simpa using ⟨hcallee _ hk, harguments⟩
  | method hk => simpa using ⟨hcallee _ hk, hcolon, hname, harguments⟩

/-- A rule that takes expressions covers them. -/
theorem Rule.covers_of_isExpr {rule : Rule} (h : ∀ first e, rule first (.expr e) = some .expression)
    {k : Kind} (hk : k.isExpr) : rule.Covers k := by
  intro first
  cases k with
  | expr e => exact ⟨.expression, h first e, rfl⟩
  | _ => cases hk

/-- A child that becomes strokes. -/
theorem Rule.covers_strokes {rule : Rule} {k : Kind} {l : List Stroke}
    (h : ∀ first, rule first k = some (.strokes l)) : rule.Covers k :=
  fun first => ⟨_, h first, trivial⟩

/-- The rule of a kind covers the children that its forms allow. -/
theorem Form.covers {kind : Kind} {ks : List Kind} {rule : Rule} (h : Form kind ks)
    (hrule : kind.rule? = some rule) : ∀ k ∈ ks, rule.Covers k := by
  have hstrokes := @Rule.covers_strokes rule
  have hexpr := @Rule.covers_of_isExpr rule
  have hcallee : (∀ first e, rule first (.expr e) = some .expression) →
      ∀ k : Kind, k.isCallee → rule.Covers k := fun hrule k hk => hexpr hrule (by
    cases k <;> first | rfl | cases hk)
  have hblock : (∀ first, rule first (.aux .block) = some .block) → rule.Covers (.aux .block) :=
    fun h first => ⟨_, h first, rfl⟩
  -- the only keyword whose strokes depend on whether it is the first child
  have hdo : Rule.Covers Rule.blockStatement (.token .kwDo) := fun first => by
    cases first <;> exact ⟨_, rfl, trivial⟩
  cases h with
  | interpolation hpieces =>
      cases hrule
      simp only [List.forall_mem_cons, List.forall_mem_append]
      refine ⟨hstrokes fun _ => rfl, ?_, hstrokes fun _ => rfl, List.forall_mem_nil _⟩
      intro k hk
      obtain rfl | rfl := hpieces k hk
      · exact hstrokes fun _ => rfl
      · exact fun _ => ⟨_, rfl, rfl⟩
  | variableName =>
      cases hrule
      simpa using hstrokes fun _ => rfl
  | access hk =>
      cases hrule
      simpa using ⟨hcallee (fun _ _ => rfl) _ hk, hstrokes fun _ => rfl, hstrokes fun _ => rfl⟩
  | index hk hkey =>
      cases hrule
      simpa using ⟨hcallee (fun _ _ => rfl) _ hk, hstrokes fun _ => rfl, hexpr (fun _ _ => rfl) hkey,
        hstrokes fun _ => rfl⟩
  | call hcall | callStatement hcall =>
      cases hrule
      exact hcall.all (fun _ => hexpr fun _ _ => rfl) (hstrokes fun _ => rfl) (hstrokes fun _ => rfl)
        fun _ => ⟨_, rfl, rfl⟩
  | conditional hc hv hbranches hlast =>
      cases hrule
      have hall : ∀ k : Kind, k.isExpr → Rule.Covers Rule.conditional k :=
        fun _ => hexpr fun _ _ => rfl
      simp only [List.forall_mem_cons, List.forall_mem_append]
      exact ⟨hstrokes fun _ => rfl, hall _ hc, hstrokes fun _ => rfl, hall _ hv,
        hbranches.all hall hall (hstrokes fun _ => rfl) (hstrokes fun _ => rfl),
        hstrokes fun _ => rfl, hall _ hlast, List.forall_mem_nil _⟩
  | functionBody =>
      cases hrule
      simpa using ⟨hstrokes fun _ => rfl, hstrokes fun _ => rfl, hblock fun _ => rfl,
        hstrokes fun _ => rfl⟩
  | functionBodyParams =>
      cases hrule
      simpa using ⟨hstrokes fun _ => rfl, hstrokes fun _ => rfl, hstrokes fun _ => rfl,
        hblock fun _ => rfl, hstrokes fun _ => rfl⟩
  | keyedField hkey hv =>
      cases hrule
      simpa using ⟨hstrokes fun _ => rfl, hexpr (fun _ _ => rfl) hkey, hstrokes fun _ => rfl,
        hstrokes fun _ => rfl, hexpr (fun _ _ => rfl) hv⟩
  | namedField hv =>
      cases hrule
      simpa using ⟨hstrokes fun _ => rfl, hstrokes fun _ => rfl, hexpr (fun _ _ => rfl) hv⟩
  | itemField hv =>
      cases hrule
      simpa using hexpr (fun _ _ => rfl) hv
  | declaration hnames =>
      cases hrule
      refine List.forall_mem_cons.mpr ⟨hstrokes fun _ => rfl, hnames.all ?_ (hstrokes fun _ => rfl)⟩
      rintro k rfl
      exact hstrokes fun _ => rfl
  | definition hnames hvalues =>
      cases hrule
      simp only [List.forall_mem_cons, List.forall_mem_append]
      refine ⟨hstrokes fun _ => rfl, hnames.all ?_ (hstrokes fun _ => rfl), hstrokes fun _ => rfl,
        hvalues.all (fun _ => hexpr fun _ _ => rfl) (hstrokes fun _ => rfl)⟩
      rintro k rfl
      exact hstrokes fun _ => rfl
  | ifStatement hc hbranches =>
      cases hrule
      have hall : ∀ k : Kind, k.isExpr → Rule.Covers Rule.blockStatement k :=
        fun _ => hexpr fun _ _ => rfl
      simp only [List.forall_mem_cons, List.forall_mem_append]
      refine ⟨hstrokes fun _ => rfl, hall _ hc, hstrokes fun _ => rfl, hblock fun _ => rfl,
        hbranches.all hall ?_ (hstrokes fun _ => rfl) (hstrokes fun _ => rfl),
        hstrokes fun _ => rfl, List.forall_mem_nil _⟩
      rintro k rfl
      exact hblock fun _ => rfl
  | ifElseStatement hc hbranches =>
      cases hrule
      have hall : ∀ k : Kind, k.isExpr → Rule.Covers Rule.blockStatement k :=
        fun _ => hexpr fun _ _ => rfl
      simp only [List.forall_mem_cons, List.forall_mem_append]
      refine ⟨hstrokes fun _ => rfl, hall _ hc, hstrokes fun _ => rfl, hblock fun _ => rfl,
        hbranches.all hall ?_ (hstrokes fun _ => rfl) (hstrokes fun _ => rfl),
        hstrokes fun _ => rfl, hblock fun _ => rfl, hstrokes fun _ => rfl, List.forall_mem_nil _⟩
      rintro k rfl
      exact hblock fun _ => rfl
  | whileStatement hc =>
      cases hrule
      simpa using ⟨hstrokes fun _ => rfl, hexpr (fun _ _ => rfl) hc, hdo, hblock fun _ => rfl,
        hstrokes fun _ => rfl⟩
  | doStatement =>
      cases hrule
      simpa using ⟨hdo, hblock fun _ => rfl, hstrokes fun _ => rfl⟩
  | repeatStatement hc =>
      cases hrule
      simpa using ⟨hstrokes fun _ => rfl, hblock fun _ => rfl, hstrokes fun _ => rfl,
        hexpr (fun _ _ => rfl) hc⟩
  | forRange hfirst hlast =>
      cases hrule
      simpa using ⟨hstrokes fun _ => rfl, hstrokes fun _ => rfl, hstrokes fun _ => rfl,
        hexpr (fun _ _ => rfl) hfirst, hstrokes fun _ => rfl, hexpr (fun _ _ => rfl) hlast, hdo,
        hblock fun _ => rfl, hstrokes fun _ => rfl⟩
  | forRangeStep hfirst hlast hstep =>
      cases hrule
      simpa using ⟨hstrokes fun _ => rfl, hstrokes fun _ => rfl, hstrokes fun _ => rfl,
        hexpr (fun _ _ => rfl) hfirst, hstrokes fun _ => rfl, hexpr (fun _ _ => rfl) hlast,
        hstrokes fun _ => rfl, hexpr (fun _ _ => rfl) hstep, hdo, hblock fun _ => rfl, hstrokes fun _ => rfl⟩
  | forIn hnames hvalues =>
      cases hrule
      simp only [List.forall_mem_cons, List.forall_mem_append]
      refine ⟨hstrokes fun _ => rfl, hnames.all ?_ (hstrokes fun _ => rfl), hstrokes fun _ => rfl,
        hvalues.all (fun _ => hexpr fun _ _ => rfl) (hstrokes fun _ => rfl), hdo,
        hblock fun _ => rfl, hstrokes fun _ => rfl, List.forall_mem_nil _⟩
      rintro k rfl
      exact hstrokes fun _ => rfl
  | @literal k hk => cases k <;> first | (cases hrule; done) | cases hk
  | _ => cases hrule

/-! ### Nodes -/

/-- What a node of a source is known for: its children follow its kind, it lies
around them between characters of the source, and a string can be delimited
anew. -/
structure Node.IsSound (source : Text) (n : Node) : Prop where
  formed : n.IsFormed
  frame : n.IsFrame
  cut : n.IsCut source

open Layout

/-- Every step of the layout that takes a node of the kind succeeds. -/
structure Node.IsWritten (s : Setting) (n : Node) : Prop where
  copy : Succeeds (copy s n)
  copyChildren : ∀ c ∈ n.children, Succeeds (Layout.copy s c)
  expr : n.kind.isExpr → Succeeds (Layout.expr s n)
  expressions : Succeeds (expressionsIn s n)
  arguments : Succeeds (Layout.arguments s n)
  interpolated : n.kind = .aux .interpExpr → Succeeds (Layout.interpolated s n)
  functionBody : n.kind = .aux .funcBody → Succeeds (Layout.functionBody s n)
  fieldList : n.kind = .aux .fieldList → Succeeds (Layout.fieldList s n)
  field : n.kind = .aux .field → Succeeds (Layout.field s n)
  block : n.kind = .aux .block → ∀ opener, (∀ o ∈ opener, s.source.IsCut o ∧ o ≤ n.start) →
    Succeeds (Layout.block s opener n)
  statement : n.kind.isStmt → Succeeds (Layout.statement s n)

variable {s : Setting} {n : Node} {nodes : List Node}

/-- The offset where what stands before some siblings ends. -/
def Setting.Precedes (s : Setting) (previous : Option Nat) (low : Nat) : Prop :=
  ∀ o ∈ previous, s.source.IsCut o ∧ o ≤ low

theorem Layout.Succeeds.commaSeparated (h : ∀ n ∈ nodes, n.IsWritten s) (first : Bool) :
    Succeeds (commaSeparated s first nodes) := by
  induction nodes generalizing first with
  | nil =>
      rw [Layout.commaSeparated]
      exact .pure _
  | cons n rest ih =>
      simp only [List.mem_cons, forall_eq_or_imp] at h
      rw [Layout.commaSeparated]
      split
      · rename_i hexpr
        have hrest : Succeeds (do Layout.expr s n; Layout.commaSeparated s false rest) :=
          (h.1.expr hexpr).seq (ih h.2 false)
        exact .ite (.seq (.write _) hrest) hrest
      · exact ih h.2 first

/-- Children that a rule covers are written by it. -/
theorem Layout.Succeeds.sequence {rule : Rule} (parent : Node) (h : ∀ n ∈ nodes, n.IsWritten s)
    (hrule : ∀ n ∈ nodes, rule.Covers n.kind) (hcut : ∀ n ∈ nodes, s.source.IsCut n.stop)
    {low high : Nat} (hlined : Lined low nodes high) (first : Bool) {previous : Option Nat}
    (hprevious : s.Precedes previous low) :
    Succeeds (sequence s rule parent first previous nodes) := by
  induction nodes generalizing low first previous with
  | nil =>
      rw [Layout.sequence]
      exact .pure _
  | cons n rest ih =>
      simp only [List.mem_cons, forall_eq_or_imp] at h hrule hcut
      obtain ⟨hlow, hle, hrest⟩ := hlined
      obtain ⟨piece, hpiece, hsuits⟩ := hrule.1 first
      have hnext : Succeeds (Layout.sequence s rule parent false (some n.stop) rest) :=
        ih h.2 hrule.2 hcut.2 hrest false (by simp [Setting.Precedes, hcut.1])
      rw [Layout.sequence, hpiece]
      cases piece with
      | strokes l => exact (Succeeds.strokes h.1.copy h.1.copyChildren l).seq hnext
      | expression => exact (h.1.expr hsuits).seq hnext
      | arguments => exact h.1.arguments.seq hnext
      | interpolated => exact (h.1.interpolated hsuits).seq hnext
      | block =>
          refine (h.1.block hsuits previous ?_).seq hnext
          exact fun o ho => ⟨(hprevious o ho).1, Nat.le_trans (hprevious o ho).2 hlow⟩

/-- The first field among some nodes. -/
theorem Layout.Succeeds.firstField (h : ∀ n ∈ nodes, n.IsWritten s) :
    Succeeds (firstField s nodes) := by
  induction nodes with
  | nil =>
      rw [Layout.firstField]
      exact .pure _
  | cons n rest ih =>
      simp only [List.mem_cons, forall_eq_or_imp] at h
      rw [Layout.firstField]
      split
      · rename_i hfield
        exact h.1.field (by simpa using hfield)
      · exact ih h.2

/-- What stands in a field list. -/
def Kind.IsItem (k : Kind) : Prop :=
  k = .aux .field ∨ k = .token .comma ∨ k = .token .semi ∨ k = .stmt .comment

theorem FieldsForm.all_isItem {ks : List Kind} (h : FieldsForm ks) : ∀ k ∈ ks, k.IsItem := by
  have hcomments : ∀ {ks : List Kind}, (∀ k ∈ ks, k = .stmt .comment) → ∀ k ∈ ks, k.IsItem :=
    fun h k hk => .inr (.inr (.inr (h k hk)))
  induction h with
  | comments h => exact hcomments h
  | last hbefore hafter =>
      exact List.forall_mem_append.mpr ⟨hcomments hbefore,
        List.forall_mem_cons.mpr ⟨.inl rfl, hcomments hafter⟩⟩
  | more hbefore hafter separates _ ih =>
      refine List.forall_mem_append.mpr ⟨hcomments hbefore, List.forall_mem_cons.mpr ⟨.inl rfl,
        List.forall_mem_append.mpr ⟨hcomments hafter, List.forall_mem_cons.mpr ⟨?_, ih⟩⟩⟩⟩
      obtain rfl | rfl := separates
      · exact .inr (.inl rfl)
      · exact .inr (.inr (.inl rfl))

/-- The items of a field list. -/
theorem Layout.Succeeds.fieldLine (parent : Node) (h : ∀ n ∈ nodes, n.IsWritten s)
    (hitem : ∀ n ∈ nodes, n.kind.IsItem)
    (hcut : ∀ n ∈ nodes, s.source.IsCut n.start ∧ s.source.IsCut n.stop)
    {low high : Nat} (hlined : Lined low nodes high) {previous : Option Nat}
    (hprevious : s.Precedes previous low) : Succeeds (fieldLine s parent previous nodes) := by
  induction nodes generalizing low previous with
  | nil =>
      rw [Layout.fieldLine]
      exact .pure _
  | cons n rest ih =>
      simp only [List.mem_cons, forall_eq_or_imp] at h hitem hcut
      obtain ⟨hlow, hle, hrest⟩ := hlined
      have hnext : Succeeds (Layout.fieldLine s parent (some n.stop) rest) :=
        ih h.2 hitem.2 hcut.2 hrest (by simp [Setting.Precedes, hcut.1.2])
      rw [Layout.fieldLine]
      obtain hk | hk | hk | hk := hitem.1 <;> simp only [hk]
      · exact .seq .tabs (.seq (h.1.field hk) (.seq (.write _) hnext))
      · exact hnext
      · exact hnext
      · have hjoin : ∀ trailing : Bool, Succeeds (if trailing then do
            Layout.trailingComment s n
            Layout.fieldLine s parent (some n.stop) rest
          else do
            Layout.ownLineComment s n
            Layout.fieldLine s parent (some n.stop) rest) := fun trailing =>
          .ite (.seq (.trailingComment h.1.copy) hnext) (.seq (.ownLineComment h.1.copy) hnext)
        cases previous with
        | none => exact (Succeeds.pure false).bind hjoin
        | some stop =>
            obtain ⟨hstop, hbefore⟩ := hprevious stop rfl
            exact (Succeeds.sameLine hstop hcut.1.1 (Nat.le_trans hbefore hlow)).bind hjoin

/-- The statements of a block. -/
theorem Layout.Succeeds.statements (parent : Node) (h : ∀ n ∈ nodes, n.IsWritten s)
    (hstmt : ∀ n ∈ nodes, n.kind.isStmt)
    (hcut : ∀ n ∈ nodes, s.source.IsCut n.start ∧ s.source.IsCut n.stop)
    {low high : Nat} (hlined : Lined low nodes high) {lineEnd : Option Nat}
    (hlineEnd : s.Precedes lineEnd low) (previous lineKind : Option StmtKind) :
    Succeeds (statements s parent lineEnd previous lineKind nodes) := by
  induction nodes generalizing low lineEnd previous lineKind with
  | nil =>
      rw [Layout.statements]
      exact .pure _
  | cons n rest ih =>
      simp only [List.mem_cons, forall_eq_or_imp] at h hstmt hcut
      obtain ⟨hlow, hle, hrest⟩ := hlined
      have hnext : ∀ previous lineKind,
          Succeeds (Layout.statements s parent (some n.stop) previous lineKind rest) :=
        ih h.2 hstmt.2 hcut.2 hrest (by simp [Setting.Precedes, hcut.1.2])
      obtain ⟨kind, hkind⟩ : ∃ kind, n.kind = .stmt kind := by
        cases hk : n.kind <;> first | exact ⟨_, rfl⟩ | simp [hk, Kind.isStmt, Kind.stmt?] at hstmt
      have hstatement : Succeeds (do
          Layout.statement s n
          Layout.statements s parent (some n.stop) (some kind) (some kind) rest) :=
        (h.1.statement hstmt.1).seq (hnext _ _)
      have hjoin : ∀ trailing : Bool, Succeeds (if trailing then do
            Layout.trailingComment s n
            Layout.statements s parent (some n.stop) (some kind) lineKind rest
          else if needsBlankLine previous lineKind kind then do
            Layout.newline
            Layout.statement s n
            Layout.statements s parent (some n.stop) (some kind) (some kind) rest
          else do
            Layout.statement s n
            Layout.statements s parent (some n.stop) (some kind) (some kind) rest) := fun trailing =>
        .ite (.seq (.trailingComment h.1.copy) (hnext _ _)) (.ite (.seq .newline hstatement) hstatement)
      rw [Layout.statements]
      simp only [hkind]
      cases lineEnd with
      | none => exact (Succeeds.pure false).bind hjoin
      | some stop =>
          obtain ⟨hstop, hbefore⟩ := hlineEnd stop rfl
          exact .ite ((Succeeds.sameLine hstop hcut.1.1 (Nat.le_trans hbefore hlow)).bind hjoin)
            ((Succeeds.pure false).bind hjoin)

/-- The field list among the children of a table. -/
theorem Layout.Succeeds.table (h : ∀ n ∈ nodes, n.IsWritten s) : Succeeds (table s nodes) := by
  induction nodes with
  | nil =>
      rw [Layout.table]
      exact .write _
  | cons n rest ih =>
      simp only [List.mem_cons, forall_eq_or_imp] at h
      rw [Layout.table]
      split
      · rename_i hlist
        exact h.1.fieldList (by simpa using hlist)
      · exact ih h.2

/-! ### A node with its children -/

namespace Node

/-- The children of a node that is written are sound and written. -/
structure Below (s : Setting) (n : Node) : Prop where
  sound : ∀ c ∈ n.children, c.IsSound s.source
  written : ∀ c ∈ n.children, c.IsWritten s

theorem IsSound.succeeds_copy (h : n.IsSound s.source) : Succeeds (Layout.copy s n) :=
  (Succeeds.sourceText h.cut.start h.cut.stop h.frame.le).bind fun _ => .put _

/-- The children of a sound node follow its kind. -/
theorem IsSound.form {source : Text} (h : n.IsSound source) {kind : Kind} (hkind : n.kind = kind) :
    ∃ ks, n.children.map Node.kind = ks ∧ Form kind ks :=
  ⟨_, rfl, hkind ▸ h.formed⟩

/-- The children of a sound node lie behind its start. -/
theorem IsSound.lined (h : n.IsSound s.source) : ∃ high, Lined n.start n.children high := by
  by_cases hnil : n.children = []
  · rw [hnil]
    exact ⟨n.start, Nat.le_refl _⟩
  · exact ⟨_, h.frame.lined hnil⟩

/-- A node whose children are laid out by the rule of its kind. -/
theorem IsSound.sequence (h : n.IsSound s.source) (hbelow : n.Below s) {rule : Rule}
    (hrule : n.kind.rule? = some rule) :
    Succeeds (Layout.sequence s rule n true none n.children) := by
  obtain ⟨high, hlined⟩ := h.lined
  refine .sequence n hbelow.written ?_ (fun c hc => (hbelow.sound c hc).cut.stop) hlined true
    (by simp [Setting.Precedes])
  exact fun c hc => h.formed.covers hrule c.kind (List.mem_map_of_mem hc)

/-! Nodes whose children are taken one by one. -/

variable (h : n.IsSound s.source) (hbelow : n.Below s)

include h hbelow

theorem IsSound.parens (hkind : n.kind = .expr .parens) :
    Succeeds (Layout.parens s n n.children) := by
  obtain ⟨ks, hks, hform⟩ := h.form hkind
  cases hform with
  | literal hliteral => cases hliteral
  | parens hvalue =>
      simp only [List.map_eq_cons_iff, List.map_eq_nil_iff] at hks
      obtain ⟨_, _, hchildren, -, value, _, rfl, rfl, _, _, rfl, -, rfl⟩ := hks
      rw [hchildren, Layout.parens]
      have hwritten := hbelow.written value (by simp [hchildren])
      exact .seq (.write _) (.seq (hwritten.expr hvalue) (.write _))

theorem IsSound.anonymousFunction (hkind : n.kind = .expr .function) :
    Succeeds (Layout.anonymousFunction s n n.children) := by
  obtain ⟨ks, hks, hform⟩ := h.form hkind
  cases hform with
  | literal hliteral => cases hliteral
  | anonymousFunction =>
      simp only [List.map_eq_cons_iff, List.map_eq_nil_iff] at hks
      obtain ⟨_, _, hchildren, -, body, _, rfl, hbody, rfl⟩ := hks
      rw [hchildren, Layout.anonymousFunction]
      exact .seq (.write _) ((hbelow.written body (by simp [hchildren])).functionBody hbody)

theorem IsSound.prefixed (hkind : n.kind = .expr .unary) :
    Succeeds (Layout.prefixed s n n.children) := by
  obtain ⟨ks, hks, hform⟩ := h.form hkind
  cases hform with
  | literal hliteral => cases hliteral
  | @unary op _ unary hvalue =>
      simp only [List.map_eq_cons_iff, List.map_eq_nil_iff] at hks
      obtain ⟨mark, _, hchildren, hmark, value, _, rfl, rfl, rfl⟩ := hks
      have hwritten := hbelow.written value (by simp [hchildren])
      rw [hchildren, Layout.prefixed]
      simp only [hmark]
      cases op <;> first
        | exact .seq (.write _) (hwritten.expr hvalue)
        | cases unary

omit h in
/-- An operator between a first and a last child. -/
theorem Below.infixed {left mark right : Node} (hchildren : n.children = [left, mark, right])
    (hleft : left.kind.isExpr) (hright : right.kind.isExpr) :
    Succeeds (Layout.infixed s n n.children) := by
  have hwritten := hbelow.written
  rw [hchildren] at hwritten
  simp only [List.forall_mem_cons] at hwritten
  rw [hchildren, Layout.infixed]
  exact .seq (hwritten.1.expr hleft) (.seq (.write _) (.seq hwritten.2.1.copy (.seq (.write _)
    (hwritten.2.2.1.expr hright))))

theorem IsSound.binary (hkind : n.kind = .expr .binary) :
    Succeeds (Layout.infixed s n n.children) := by
  obtain ⟨ks, hks, hform⟩ := h.form hkind
  cases hform with
  | literal hliteral => cases hliteral
  | binary hleft _ hright =>
      simp only [List.map_eq_cons_iff, List.map_eq_nil_iff] at hks
      obtain ⟨_, _, hchildren, rfl, _, _, rfl, -, _, _, rfl, rfl, rfl⟩ := hks
      exact hbelow.infixed hchildren hleft hright

theorem IsSound.compoundAssignment (hkind : n.kind = .stmt .compoundAssign) :
    Succeeds (Layout.infixed s n n.children) := by
  obtain ⟨ks, hks, hform⟩ := h.form hkind
  cases hform with
  | compoundAssignment _ hright =>
      simp only [List.map_eq_cons_iff, List.map_eq_nil_iff] at hks
      obtain ⟨_, _, hchildren, hleft, _, _, rfl, -, _, _, rfl, rfl, rfl⟩ := hks
      exact hbelow.infixed hchildren (by rw [hleft]; rfl) hright

theorem IsSound.interpolated (hkind : n.kind = .aux .interpExpr) :
    Succeeds (Layout.interpolated s n) := by
  obtain ⟨ks, hks, hform⟩ := h.form hkind
  cases hform with
  | interpolated hvalue =>
      simp only [List.map_eq_cons_iff, List.map_eq_nil_iff] at hks
      obtain ⟨_, _, hchildren, -, value, _, rfl, rfl, _, _, rfl, -, rfl⟩ := hks
      have hwritten := hbelow.written value (by simp [hchildren])
      obtain ⟨id, kind, start, stop, children⟩ := n
      dsimp only at hchildren
      subst hchildren
      rw [Layout.interpolated]
      have hend : Succeeds (do
          if (← get).endsWith '}' then Layout.write " "
          Layout.write "\x7d") :=
        .bind .get fun _ => .ite (.seq (.write _) (.write _)) (.write _)
      exact .seq (.write _) (.bind .get fun _ => .seq (hwritten.expr hvalue) (.bind .get fun _ =>
        .ite (.seq (.modify _) hend) hend))

omit hbelow in
/-- What stands in a field list. -/
theorem IsSound.isItem (hkind : n.kind = .aux .fieldList) : ∀ c ∈ n.children, c.kind.IsItem := by
  obtain ⟨ks, rfl, hform⟩ := h.form hkind
  cases hform with
  | fieldList hfields _ => exact fun c hc => hfields.all_isItem c.kind (List.mem_map_of_mem hc)

theorem IsSound.fieldLine (hkind : n.kind = .aux .fieldList) :
    Succeeds (Layout.fieldLine s n none n.children) := by
  obtain ⟨high, hlined⟩ := h.lined
  exact .fieldLine n hbelow.written (h.isItem hkind)
    (fun c hc => ⟨(hbelow.sound c hc).cut.start, (hbelow.sound c hc).cut.stop⟩) hlined
    (by simp [Setting.Precedes])

theorem IsSound.fieldList (hkind : n.kind = .aux .fieldList) :
    Succeeds (Layout.fieldList s n) := by
  have hline := h.fieldLine hbelow hkind
  have hfirst : Succeeds (Layout.firstField s n.children) := .firstField hbelow.written
  obtain ⟨id, kind, start, stop, children⟩ := n
  rw [Layout.fieldList]
  refine .bind .get fun p => ?_
  have hlines := Succeeds.bind .get fun q => Succeeds.ite
    (c := !mayBeInline children || (q.since p.length).contains '\n')
    (.seq (.modify fun q => q.truncate p.length) (.seq (.write "\x7b\n") (.seq .deeper
      (.seq hline (.seq .shallower (.seq .tabs (.write "\x7d"))))))) (.pure ())
  exact .ite (.seq (.write _) (.seq hfirst (.seq (.write _) hlines))) hlines

omit h in
/-- The statements of a block, or of a whole source. -/
theorem Below.statements (hstmt : ∀ c ∈ n.children, c.kind.isStmt) {low high : Nat}
    (hlined : Lined low n.children high) {opener : Option Nat} (hopener : s.Precedes opener low) :
    Succeeds (Layout.block s opener n) := by
  have hstatements : Succeeds (Layout.statements s n opener none none n.children) :=
    .statements n hbelow.written hstmt
      (fun c hc => ⟨(hbelow.sound c hc).cut.start, (hbelow.sound c hc).cut.stop⟩) hlined hopener
      none none
  obtain ⟨id, kind, start, stop, children⟩ := n
  rw [Layout.block]
  exact hstatements

theorem IsSound.block (hkind : n.kind = .aux .block) {opener : Option Nat}
    (hopener : s.Precedes opener n.start) : Succeeds (Layout.block s opener n) := by
  obtain ⟨high, hlined⟩ := h.lined
  refine hbelow.statements ?_ hlined hopener
  obtain ⟨ks, rfl, hform⟩ := h.form hkind
  cases hform with
  | block hstmt => exact fun c hc => hstmt c.kind (List.mem_map_of_mem hc)

theorem IsSound.localFunction (hkind : n.kind = .stmt .localFn) :
    Succeeds (Layout.localFunction s n n.children) := by
  obtain ⟨ks, hks, hform⟩ := h.form hkind
  cases hform with
  | localFunction =>
      simp only [List.map_eq_cons_iff, List.map_eq_nil_iff] at hks
      obtain ⟨_, _, hchildren, -, _, _, rfl, -, name, _, rfl, -, body, _, rfl, hbody, rfl⟩ := hks
      have hname := (hbelow.written name (by simp [hchildren])).copy
      rw [hchildren, Layout.localFunction]
      exact .seq (.write _) (.seq hname ((hbelow.written body (by simp [hchildren])).functionBody hbody))

theorem IsSound.namedFunction (hkind : n.kind = .stmt .fn) :
    Succeeds (Layout.namedFunction s n n.children) := by
  obtain ⟨ks, hks, hform⟩ := h.form hkind
  cases hform with
  | function =>
      simp only [List.map_eq_cons_iff, List.map_eq_nil_iff] at hks
      obtain ⟨_, _, hchildren, -, name, _, rfl, -, body, _, rfl, hbody, rfl⟩ := hks
      have hname := (hbelow.written name (by simp [hchildren])).copyChildren
      rw [hchildren, Layout.namedFunction]
      exact .seq (.write _) (.seq (.copyAll hname)
        ((hbelow.written body (by simp [hchildren])).functionBody hbody))

theorem IsSound.assignment (hkind : n.kind = .stmt .assign) :
    Succeeds (Layout.assignment s n n.children) := by
  obtain ⟨ks, hks, hform⟩ := h.form hkind
  cases hform with
  | assignment =>
      simp only [List.map_eq_cons_iff, List.map_eq_nil_iff] at hks
      obtain ⟨targets, _, hchildren, -, _, _, rfl, -, values, _, rfl, -, rfl⟩ := hks
      rw [hchildren, Layout.assignment]
      exact .seq (hbelow.written targets (by simp [hchildren])).expressions
        (.seq (.write _) (hbelow.written values (by simp [hchildren])).expressions)

/-- A literal is copied, or delimited anew. -/
theorem IsSound.string (hkind : n.kind = .expr .string) : Succeeds (Layout.expr s n) := by
  obtain ⟨text, htext⟩ := h.cut.start.slice h.cut.stop h.frame.le
  obtain ⟨quoted, hquoted⟩ := h.cut.literal hkind text htext
  obtain ⟨id, kind, start, stop, children⟩ := n
  obtain rfl : kind = .expr .string := hkind
  rw [Layout.expr]
  simp only [Layout.sourceText, htext, pure_bind, hquoted]
  exact .put quoted

theorem IsSound.expr (hkind : n.kind.isExpr) : Succeeds (Layout.expr s n) := by
  have hcopy := h.succeeds_copy
  have hparens := h.parens hbelow
  have hfunction := h.anonymousFunction hbelow
  have hprefixed := h.prefixed hbelow
  have hbinary := h.binary hbelow
  have hstring := h.string hbelow
  have hsequence := @IsSound.sequence s n h hbelow
  have htable := Layout.Succeeds.table hbelow.written
  obtain ⟨id, kind, start, stop, children⟩ := n
  cases kind with
  | expr k =>
      cases k with
      | nil | true | false | number | vararg =>
          rw [Layout.expr]
          exact hcopy
      | string => exact hstring rfl
      | interpolation | var | call | conditional =>
          rw [Layout.expr]
          exact hsequence rfl
      | table =>
          rw [Layout.expr]
          exact htable
      | function =>
          rw [Layout.expr]
          exact hfunction rfl
      | parens =>
          rw [Layout.expr]
          exact hparens rfl
      | binary =>
          rw [Layout.expr]
          exact hbinary rfl
      | unary =>
          rw [Layout.expr]
          exact hprefixed rfl
  | _ => cases hkind

theorem IsSound.statement (hkind : n.kind.isStmt) : Succeeds (Layout.statement s n) := by
  have hcopy := h.succeeds_copy
  have hlocal := h.localFunction hbelow
  have hnamed := h.namedFunction hbelow
  have hassignment := h.assignment hbelow
  have hcompound := h.compoundAssignment hbelow
  have hsequence := @IsSound.sequence s n h hbelow
  have hvalues := Layout.Succeeds.commaSeparated hbelow.written true
  obtain ⟨id, kind, start, stop, children⟩ := n
  cases kind with
  | stmt k =>
      cases k with
      | localVar | call =>
          rw [Layout.statement]
          exact .seq .tabs (.seq (hsequence rfl) .newline)
      | localFn =>
          rw [Layout.statement]
          exact .seq .tabs (.seq (hlocal rfl) .newline)
      | fn =>
          rw [Layout.statement]
          exact .seq .tabs (.seq (hnamed rfl) .newline)
      | assign =>
          rw [Layout.statement]
          exact .seq .tabs (.seq (hassignment rfl) .newline)
      | compoundAssign =>
          rw [Layout.statement]
          exact .seq .tabs (.seq (hcompound rfl) .newline)
      | ifStmt | whileStmt | repeatStmt | forRange | forIn | doStmt =>
          rw [Layout.statement]
          · exact .seq (hsequence rfl) .endLine
          all_goals exact nofun
      | returnStmt =>
          rw [Layout.statement]
          exact .seq .tabs (.seq (.write _)
            (.ite (.seq (.write _) (.seq hvalues .newline)) .newline))
      | breakStmt | continueStmt =>
          rw [Layout.statement]
          exact .seq .tabs (.write _)
      | comment =>
          rw [Layout.statement]
          exact .ownLineComment hcopy
  | _ => cases hkind

/-- A node is written if what is below it is. -/
theorem IsSound.isWritten : n.IsWritten s where
  copy := h.succeeds_copy
  copyChildren := fun c hc => (hbelow.sound c hc).succeeds_copy
  expr := h.expr hbelow
  expressions := by
    have hvalues := Layout.Succeeds.commaSeparated hbelow.written true
    obtain ⟨id, kind, start, stop, children⟩ := n
    rw [Layout.expressionsIn]
    exact hvalues
  arguments := by
    have hvalues := Layout.Succeeds.commaSeparated hbelow.written true
    obtain ⟨id, kind, start, stop, children⟩ := n
    rw [Layout.arguments]
    exact .ite (.seq (.write _) hvalues) (.seq (.write _) (.seq hvalues (.write _)))
  interpolated := h.interpolated hbelow
  functionBody := fun hkind => by
    have hsequence := @IsSound.sequence s n h hbelow Rule.functionBody (by rw [hkind]; rfl)
    obtain ⟨id, kind, start, stop, children⟩ := n
    rw [Layout.functionBody]
    exact hsequence
  fieldList := h.fieldList hbelow
  field := fun hkind => by
    have hsequence := @IsSound.sequence s n h hbelow Rule.field (by rw [hkind]; rfl)
    obtain ⟨id, kind, start, stop, children⟩ := n
    rw [Layout.field]
    exact hsequence
  block := fun hkind _ hopener => h.block hbelow hkind hopener
  statement := h.statement hbelow

end Node

mutual

/-- A node of which all nodes below are sound is written. -/
theorem Node.isWritten (s : Setting) (n : Node) (h : ∀ m ∈ n.preorder, m.IsSound s.source) :
    n.IsWritten s := by
  cases n with
  | mk id kind start stop children =>
      rw [Node.preorder_eq] at h
      simp only [List.forall_mem_cons] at h
      obtain ⟨hsound, hwritten⟩ := areWritten s children h.2
      exact h.1.isWritten ⟨hsound, hwritten⟩

/-- Nodes of which all nodes below are sound are written. -/
theorem areWritten (s : Setting) (nodes : List Node)
    (h : ∀ m ∈ preorderOfAll nodes, m.IsSound s.source) :
    (∀ c ∈ nodes, c.IsSound s.source) ∧ ∀ c ∈ nodes, c.IsWritten s := by
  cases nodes with
  | nil => exact ⟨List.forall_mem_nil _, List.forall_mem_nil _⟩
  | cons n rest =>
      rw [preorderOfAll, List.forall_mem_append] at h
      obtain ⟨hsound, hwritten⟩ := areWritten s rest h.2
      have hn : n.IsSound s.source := h.1 n (by simp [Node.preorder_eq])
      exact ⟨List.forall_mem_cons.mpr ⟨hn, hsound⟩,
        List.forall_mem_cons.mpr ⟨Node.isWritten s n h.1, hwritten⟩⟩

end

/-! ### The tree of a source -/

variable {t : SyntaxTree} {source : Text} {inner : Forest} {gap : Text}

/-- The nodes below the root are sound. -/
theorem Parsed.sound (h : Parsed source t inner gap) :
    ∀ m ∈ preorderOfAll t.root.children, m.IsSound t.source := by
  intro m hm
  have hmem : m ∈ t.root.preorder := by
    rw [Node.preorder_eq]
    exact List.mem_cons_of_mem _ hm
  have hcut : m.IsCut t.source := by
    rw [h.children_eq] at hm
    exact Forest.cuts (h.derives.fit (by simp)) h.derives.ruled h.among 0
      ⟨[], t.source, rfl, rfl⟩ m hm
  exact ⟨h.formed m hmem, h.frames.2 m hm, hcut⟩

theorem Parsed.root_kind (h : Parsed source t inner gap) : t.root.kind = .aux .chunk := by
  rw [h.root_eq]
  rfl

/-- A source is a row of statements. -/
theorem Parsed.areStmts (h : Parsed source t inner gap) :
    ∀ c ∈ t.root.children, c.kind.isStmt := by
  have hformed : t.root.IsFormed := h.formed t.root (by simp [Node.preorder_eq])
  rw [Node.IsFormed, h.root_kind] at hformed
  cases hformed with
  | chunk hstmt => exact fun c hc => hstmt c.kind (List.mem_map_of_mem hc)

/-- The statements of a source are laid out. -/
theorem Parsed.block_succeeds (h : Parsed source t inner gap) (options : LayoutOptions) :
    Succeeds (Layout.block ⟨t.source, options⟩ none t.root) := by
  obtain ⟨hsound, hwritten⟩ := areWritten ⟨t.source, options⟩ t.root.children h.sound
  have hbelow : t.root.Below ⟨t.source, options⟩ := ⟨hsound, hwritten⟩
  exact hbelow.statements h.areStmts h.frames.1 (by simp [Setting.Precedes])

/-- The layout of a source that parses and has no stray comment. -/
theorem Parsed.format_layout (h : Parsed source t inner gap) (options : LayoutOptions)
    (hstrays : t.strayComments = []) :
    t.format options = ((Layout.block ⟨t.source, options⟩ none t.root).run Page.blank).map
      fun done => .produced done.2.text.withSingleTrailingNewline := by
  have hno : t.hasError = false := by simp [SyntaxTree.hasError, h.errors_eq]
  have hopener : t.rootVisit.previous = none := by simp [SyntaxTree.rootVisit, h.enclosing_eq]
  rw [SyntaxTree.format, hno, hstrays, hopener]
  rfl

/-- A source that parses is laid out if it has no stray comment, and else left
as it is. -/
theorem Parsed.format_eq (h : Parsed source t inner gap) (options : LayoutOptions) :
    (t.strayComments = [] → ∃ text, t.format options = .ok (.produced text)) ∧
      (t.strayComments ≠ [] → t.format options = .ok (.untouched .strayComment t.source)) := by
  constructor
  · intro hstrays
    obtain ⟨⟨⟩, page, hrun⟩ := h.block_succeeds options Page.blank
    refine ⟨page.text.withSingleTrailingNewline, ?_⟩
    rw [h.format_layout options hstrays, hrun]
    rfl
  · intro hstrays
    have hno : t.hasError = false := by simp [SyntaxTree.hasError, h.errors_eq]
    simp [SyntaxTree.format, hno, hstrays]

/-- The children of every node of a source that parses follow its kind, and so
neither the layout nor a lowering pass raises a fault. -/
theorem parse_formed (hparse : parse source = .ok t) (herrors : t.errors = []) :
    (∀ v ∈ t.visits, v.node.IsFormed) ∧
      (∀ options, t.strayComments = [] → ∃ text, t.format options = .ok (.produced text)) ∧
      (∀ options, t.strayComments ≠ [] →
        t.format options = .ok (.untouched .strayComment t.source)) ∧
      ∀ options, (∃ text, t.lowerOnce options = .ok (.produced text)) ∧
        ∀ fillers, fillers.length = (t.sites options).length →
          Filler.areFree t.source [] ((t.sites options).zip fillers) →
            ∃ text, t.lowerOnceWith options fillers = .ok (.produced text) := by
  obtain ⟨inner, gap, h⟩ := parse_parsed hparse herrors
  refine ⟨?_, fun options => (h.format_eq options).1, fun options => (h.format_eq options).2, ?_⟩
  · intro v hv
    refine h.formed v.node ?_
    rw [← Node.map_visits t.root t.rootVisit.parent t.rootVisit.previous]
    exact List.mem_map_of_mem hv
  · intro options
    obtain ⟨-, grafts, spliced, hsplices⟩ := exists_spliced options hparse herrors
    exact ⟨⟨_, hsplices.byMarks⟩, fun fillers hlength hfree =>
      ⟨_, hsplices.byFillers fillers hlength hfree⟩⟩

/-- A source with every sort of construct and a comment on the way. -/
theorem parse_formed_mixed :
    ∃ t, parse "for i = 1, n do --a\n t.x //= if c then `\x7bi // 2\x7d` else f'' end".toList = .ok t ∧
      t.errors = [] ∧ (∀ v ∈ t.visits, v.node.IsFormed) ∧
      (∃ text, t.format .standard = .ok (.produced text)) ∧
      ∃ text, t.lowerOnce .standard = .ok (.produced text) := by
  obtain ⟨t, hparse, herrors, hstrays⟩ := exists_tree_with
    "for i = 1, n do --a\n t.x //= if c then `\x7bi // 2\x7d` else f'' end".toList
    (p := fun t => t.errors = [] ∧ t.strayComments = []) (by decide +kernel)
  obtain ⟨hforms, hformat, -, hlower⟩ := parse_formed hparse herrors
  exact ⟨t, hparse, herrors, hforms, hformat .standard hstrays, (hlower .standard).1⟩

end LuauTidy
