import LuauTidy.Proofs.Endings

/-!
# The layout writes its texts

Every step of the layout puts a text at the end of the page and leaves the rest as it
was, and the text is the one that `Typeset` gives: what was on the page before plays no
part in it.  So a table that is tried on one line and taken back, a blank that is put
behind a brace, and a newline that is taken back for a comment come to the same as if
it had been known before.

* `Layout.Writes`, `Layout.Extends` — steps that put a text at the end of a page;
* `Clauses`, `BlockForm` — where blocks are among the children of a statement;
* `Node.IsTypeset` — every step of the layout that takes the node;
* `Node.isTypeset` — a node of which all nodes below are known;
* `Layout.foreseenFieldList`, `Layout.foreseenInterpolated` — tables and interpolated
  strings laid out without a look at the page;
* `parse_appends` — the expressions and tables of a source.
-/

namespace LuauTidy

open Typeset (word lineStart)

/-! ### Pages -/

namespace Page

variable {r t : Text} {d : Nat}

theorem append_eq (p : Page) (t : Text) : p.append t = ⟨t.reverse ++ p.reversed, p.indent⟩ := by
  rw [append, List.reverseAux_eq]

theorem since_append : (⟨t.reverse ++ r, d⟩ : Page).since r.length = t := by
  simp [since, length]

theorem truncate_append : (⟨t.reverse ++ r, d⟩ : Page).truncate r.length = ⟨r, d⟩ := by
  simp [truncate, length]

theorem insert_append (c : Char) :
    (⟨t.reverse ++ r, d⟩ : Page).insert r.length c = ⟨t.reverse ++ c :: r, d⟩ := by
  simp [insert, length]

end Page

/-! ### Steps -/

namespace Layout

/-- A step that ends, if it ends, with a text put at the end of the page. -/
def Writes (d : Nat) (l : Layout Unit) (t : Text) : Prop :=
  ∀ r, Meets (· = ⟨r, d⟩) l fun _ => (· = ⟨t.reverse ++ r, d⟩)

/-- A step that goes on where a line starts, and ends where one does.  The text has
the newlines before its lines and not behind them. -/
def Extends (d : Nat) (l : Layout Unit) (t : Text) : Prop :=
  ∀ r, Meets (· = ⟨'\n' :: r, d⟩) l fun _ => (· = ⟨'\n' :: (t.reverse ++ r), d⟩)

variable {s : Setting} {d : Nat} {l l' : Layout Unit} {t t' : Text} {nodes : List Node}

theorem Writes.seq (h : Writes d l t) (h' : Writes d l' t') : Writes d (do l; l') (t ++ t') := by
  intro r
  refine (h r).bind fun _ => (h' _).mono (fun _ hp => hp) fun _ p hp => ?_
  rw [hp, List.reverse_append, List.append_assoc]

theorem Writes.skip : Writes d (pure ()) [] := fun _ => .pure fun _ hp => hp

theorem Writes.put (t : Text) : Writes d (Layout.put t) t := fun r => .modify fun p hp => by
  rw [Page.append_eq, hp]

theorem Writes.write (t : String) : Writes d (Layout.write t) t.toList := .put _

theorem Writes.tabs : Writes d Layout.tabs (List.replicate d '\t') := fun r =>
  Meets.tabsAt.mono (fun _ hp => hp) fun _ _ hp => by rw [hp, List.reverse_replicate]

theorem Writes.copy (n : Node) : Writes d (Layout.copy s n) (word s n) := by
  refine fun r => Meets.sourceText.bind fun text p hp => ?_
  rw [word, hp.2]
  exact Writes.put text r p hp.1

theorem Writes.ite {c : Prop} [Decidable c] (hthen : Writes d l t) (helse : Writes d l' t') :
    Writes d (if c then l else l') (if c then t else t') := by
  split
  · exact hthen
  · exact helse

/-- A text that is written under a condition. -/
theorem Writes.when {c : Prop} [Decidable c] (x : String) (h : Writes d l t) :
    Writes d (if c then do Layout.write x; l else l) ((if c then x.toList else []) ++ t) := by
  split
  · exact (Writes.write x).seq h
  · exact h

theorem Writes.broken {cause : Fault} : Writes d (Layout.broken cause) t := fun _ => .broken

theorem Writes.copyAll (nodes : List Node) :
    Writes d (Layout.copyAll s nodes) (nodes.flatMap (word s)) := by
  induction nodes with
  | nil => exact .skip
  | cons n rest ih => exact (Writes.copy n).seq ih

theorem Writes.copyParameters (first : Bool) (nodes : List Node) :
    Writes d (Layout.copyParameters s first nodes) (Typeset.parameters s first nodes) := by
  induction nodes generalizing first with
  | nil => exact .skip
  | cons n rest ih =>
      rw [Layout.copyParameters, Typeset.parameters]
      refine .ite (ih first) ?_
      have hrest := (Writes.copy (s := s) n).seq (ih false)
      cases first with
      | true => exact hrest
      | false =>
          have hcomma := (Writes.write ", ").seq hrest
          rwa [← List.append_assoc] at hcomma

theorem Extends.seq (h : Extends d l t) (h' : Extends d l' t') :
    Extends d (do l; l') (t ++ t') := by
  intro r
  refine (h r).bind fun _ => (h' _).mono (fun _ hp => hp) fun _ p hp => ?_
  rw [hp, List.reverse_append, List.append_assoc]

theorem Extends.skip : Extends d (pure ()) [] := fun _ => .pure fun _ hp => hp

theorem Extends.ite {c : Prop} [Decidable c] (hthen : Extends d l t) (helse : Extends d l' t') :
    Extends d (if c then l else l') (if c then t else t') := by
  split
  · exact hthen
  · exact helse

/-- A line that ends itself starts another one. -/
theorem Writes.line (h : Writes d l (t ++ ['\n'])) : Extends d l ('\n' :: t) := fun r =>
  (h _).mono (fun _ hp => hp) fun _ p hp => by simp [hp]

theorem Extends.newline : Extends d Layout.newline ['\n'] := (Writes.put ['\n']).line

/-- A comment is put on the line that was written last. -/
theorem Extends.trailingComment (n : Node) :
    Extends d (Layout.trailingComment s n) (" ".toList ++ word s n) := by
  intro r
  have hrejoin : Meets (· = ⟨'\n' :: r, d⟩) rejoinLine fun _ => (· = ⟨r, d⟩) := by
    refine .read fun p hp => ?_
    have hend : p.endsWith '\n' = true := by simp [hp, Page.endsWith]
    rw [if_pos hend]
    exact .modify fun q hq => by rw [hq, hp]; rfl
  refine hrejoin.bind fun _ => (Writes.write " " _).bind fun _ => (Writes.copy n _).bind fun _ => ?_
  refine (Writes.put ['\n'] _).mono (fun _ hp => hp) fun _ p hp => ?_
  simp [hp]

/-- A comment has a line of its own. -/
theorem Writes.ownLineComment (n : Node) :
    Writes d (Layout.ownLineComment s n) (List.replicate d '\t' ++ (word s n ++ ['\n'])) :=
  Writes.tabs.seq ((Writes.copy n).seq (.put _))

theorem Meets.deeperAt {r : Text} :
    Meets (· = ⟨r, d⟩) deeper fun _ => (· = ⟨r, d + 1⟩) :=
  .modify fun p hp => by rw [hp]

theorem Meets.shallowerAt {r : Text} :
    Meets (· = ⟨r, d + 1⟩) shallower fun _ => (· = ⟨r, d⟩) :=
  .modify fun p hp => by rw [hp]; rfl

end Layout

/-! ### Nodes -/

open Layout

/-- Every step of the layout that takes a node of the kind writes the text of the
node. -/
structure Node.IsTypeset (s : Setting) (n : Node) : Prop where
  closed : n.kind.isExpr → ∀ d, (Typeset.node s d n).IsClosed
  expr : n.kind.isExpr → ∀ d, Writes d (Layout.expr s n) (Typeset.node s d n)
  expressions : n.kind = .aux .varList ∨ n.kind = .aux .exprList →
    ∀ d, Writes d (expressionsIn s n) (Typeset.node s d n)
  arguments : n.kind = .aux .argList → ∀ d, Writes d (Layout.arguments s n) (Typeset.node s d n)
  interpolated : n.kind = .aux .interpExpr →
    ∀ d, Writes d (Layout.interpolated s n) (Typeset.node s d n)
  functionBody : n.kind = .aux .funcBody →
    ∀ d, Writes d (Layout.functionBody s n) (Typeset.node s d n)
  fieldList : n.kind = .aux .fieldList →
    ∀ d, Writes d (Layout.fieldList s n) (Typeset.node s d n)
  field : n.kind = .aux .field → ∀ d, Writes d (Layout.field s n) (Typeset.node s d n)
  block : n.kind = .aux .block →
    ∀ d opener, Extends d (Layout.block s opener n) (Typeset.block s d opener n)
  statement : n.kind.isStmt → ∀ d,
    Writes d (Layout.statement s n) (List.replicate d '\t' ++ (Typeset.node s d n ++ ['\n']))

variable {s : Setting} {d : Nat} {n : Node} {nodes : List Node} {l l' : Layout Unit} {t : Text}

/-! ### Rows of nodes -/

theorem Layout.Writes.commaSeparated (h : ∀ n ∈ nodes, n.IsTypeset s) (first : Bool) :
    Writes d (commaSeparated s first nodes) (Typeset.series s d first nodes) := by
  induction nodes generalizing first with
  | nil =>
      rw [Layout.commaSeparated, Typeset.series]
      exact .skip
  | cons n rest ih =>
      rw [List.forall_mem_cons] at h
      rw [Layout.commaSeparated, Typeset.series]
      by_cases hexpr : n.isExpr
      · rw [if_pos hexpr, if_pos hexpr]
        have hrest : Writes d _ _ := (h.1.expr hexpr d).seq (ih h.2 false)
        cases first with
        | true => exact hrest
        | false =>
            have hcomma : Writes d _ _ := (Writes.write ", ").seq hrest
            rwa [← List.append_assoc] at hcomma
      · rw [if_neg hexpr, if_neg hexpr]
        exact ih h.2 first

theorem Layout.Writes.firstField (h : ∀ n ∈ nodes, n.IsTypeset s) :
    Writes d (firstField s nodes) (Typeset.firstField s d nodes) := by
  induction nodes with
  | nil =>
      rw [Layout.firstField, Typeset.firstField]
      exact .skip
  | cons n rest ih =>
      rw [List.forall_mem_cons] at h
      rw [Layout.firstField, Typeset.firstField]
      by_cases hfield : n.kind = .aux .field
      · rw [if_pos (by simpa using hfield), if_pos hfield]
        exact h.1.field hfield d
      · rw [if_neg (by simpa using hfield), if_neg hfield]
        exact ih h.2

theorem Layout.Writes.table (h : ∀ n ∈ nodes, n.IsTypeset s) :
    Writes d (table s nodes) (Typeset.table s d nodes) := by
  induction nodes with
  | nil =>
      rw [Layout.table, Typeset.table]
      exact .write _
  | cons n rest ih =>
      rw [List.forall_mem_cons] at h
      rw [Layout.table, Typeset.table]
      by_cases hlist : n.kind = .aux .fieldList
      · rw [if_pos (by simpa using hlist), if_pos hlist]
        exact h.1.fieldList hlist d
      · rw [if_neg (by simpa using hlist), if_neg hlist]
        exact ih h.2

/-- Whether a node shares the line of what is before it is looked up in the source. -/
theorem Layout.Extends.sameLine {k : Bool → Layout Unit} {text : Bool → Text} {n : Node}
    (h : ∀ shared, Extends d (k shared) (text shared)) (stop : Nat) :
    Extends d (Layout.sameLine s stop n.start >>= k)
      (text (Typeset.sharesLine s (some stop) n)) := by
  intro r
  have hshared : Meets (· = ⟨'\n' :: r, d⟩) (Layout.sameLine s stop n.start) fun shared p =>
      p = ⟨'\n' :: r, d⟩ ∧ shared = Typeset.sharesLine s (some stop) n := by
    refine Meets.sourceText.bind fun text => .pure fun p hp => ⟨hp.1, ?_⟩
    simp [Typeset.sharesLine, hp.2]
  refine hshared.bind fun shared p hp => ?_
  rw [← hp.2]
  exact h shared r p hp.1

/-- A comment on a line of its own, or not. -/
theorem Layout.Extends.comment (n : Node) (h : Extends d l t) (shared : Bool) :
    Extends d
      (if shared then do Layout.trailingComment s n; l else do Layout.ownLineComment s n; l)
      ((if shared then " ".toList else lineStart d) ++ word s n ++ t) := by
  cases shared with
  | true => exact (Extends.trailingComment n).seq h
  | false =>
      have hown : Extends d (Layout.ownLineComment s n) (lineStart d ++ word s n) :=
        Writes.line (by simpa using Writes.ownLineComment n)
      exact hown.seq h

/-- The items of a field list, each on its line. -/
theorem Layout.Extends.fieldLine (h : ∀ n ∈ nodes, n.IsTypeset s)
    (hitem : ∀ n ∈ nodes, n.kind.IsItem) (parent : Node) (previous : Option Nat) :
    Extends d (fieldLine s parent previous nodes) (Typeset.items s d previous nodes) := by
  induction nodes generalizing previous with
  | nil =>
      rw [Layout.fieldLine, Typeset.items]
      exact .skip
  | cons n rest ih =>
      rw [List.forall_mem_cons] at h hitem
      have hrest := ih h.2 hitem.2 (some n.stop)
      rw [Layout.fieldLine, Typeset.items]
      rcases hitem.1 with hk | hk | hk | hk <;> simp only [hk]
      · intro r
        refine (Writes.tabs _).bind fun _ => (h.1.field hk d _).bind fun _ =>
          (Writes.put [',', '\n'] _).bind fun _ => (hrest _).mono (fun _ hp => hp) fun _ p hp => ?_
        simp [hp, lineStart]
      · exact hrest
      · exact hrest
      · cases previous with
        | none => exact hrest.comment n false
        | some stop => exact .sameLine (fun shared => hrest.comment n shared) stop

/-- The lines of a table, which are one level deeper. -/
theorem Layout.Extends.braced (h : Extends (d + 1) l t) :
    Writes d
      (do
        Layout.write "\x7b\n"
        Layout.deeper
        l
        Layout.shallower
        Layout.tabs
        Layout.write "\x7d") ("\x7b".toList ++ t ++ lineStart d ++ "\x7d".toList) := by
  intro r
  refine (Writes.put ['\x7b', '\n'] _).bind fun _ => Meets.deeperAt.bind fun _ =>
    (h _).bind fun _ =>
    Meets.shallowerAt.bind fun _ => (Writes.tabs _).bind fun _ =>
      (Writes.put ['\x7d'] _).mono (fun _ hp => hp) fun _ p hp => ?_
  rw [hp]
  simp [lineStart]

/-- A statement on lines of its own, and what comes after it. -/
theorem Layout.Extends.ownLines {t' : Text}
    (h : Writes d l (List.replicate d '\t' ++ (t ++ ['\n']))) (h' : Extends d l' t') :
    Extends d (do l; l') (lineStart d ++ t ++ t') := by
  have hline : Extends d l (lineStart d ++ t) := Writes.line (by simpa using h)
  exact hline.seq h'

/-- The statements of a block. -/
theorem Layout.Extends.statements (h : ∀ n ∈ nodes, n.IsTypeset s)
    (hstmt : ∀ n ∈ nodes, n.kind.isStmt) (parent : Node) (lineEnd : Option Nat)
    (previous lineKind : Option StmtKind) :
    Extends d (Layout.statements s parent lineEnd previous lineKind nodes)
      (Typeset.statements s d lineEnd previous lineKind nodes) := by
  induction nodes generalizing lineEnd previous lineKind with
  | nil =>
      rw [Layout.statements, Typeset.statements]
      exact .skip
  | cons n rest ih =>
      rw [List.forall_mem_cons] at h hstmt
      have hrest := ih h.2 hstmt.2 (some n.stop)
      obtain ⟨kind, hkind⟩ : ∃ kind, n.kind = .stmt kind := by
        cases hk : n.kind <;> first | exact ⟨_, rfl⟩ | simp [hk, Kind.isStmt, Kind.stmt?] at hstmt
      rw [Layout.statements, Typeset.statements]
      simp only [hkind]
      have hown := (hrest (some kind) (some kind)).ownLines (h.1.statement hstmt.1 d)
      have hblank : Extends d
          (if needsBlankLine previous lineKind kind then do
            Layout.newline
            Layout.statement s n
            Layout.statements s parent (some n.stop) (some kind) (some kind) rest
          else do
            Layout.statement s n
            Layout.statements s parent (some n.stop) (some kind) (some kind) rest)
          ((if needsBlankLine previous lineKind kind then "\n".toList else []) ++ lineStart d ++
            Typeset.node s d n ++
            Typeset.statements s d (some n.stop) (some kind) (some kind) rest) := by
        split
        · simpa using Extends.newline.seq hown
        · simpa using hown
      have hjoin : ∀ shared : Bool, Extends d
          (if shared then do
            Layout.trailingComment s n
            Layout.statements s parent (some n.stop) (some kind) lineKind rest
          else if needsBlankLine previous lineKind kind then do
            Layout.newline
            Layout.statement s n
            Layout.statements s parent (some n.stop) (some kind) (some kind) rest
          else do
            Layout.statement s n
            Layout.statements s parent (some n.stop) (some kind) (some kind) rest)
          (if shared then " ".toList ++ word s n ++
            Typeset.statements s d (some n.stop) (some kind) lineKind rest
          else (if needsBlankLine previous lineKind kind then "\n".toList else []) ++ lineStart d ++
            Typeset.node s d n ++
            Typeset.statements s d (some n.stop) (some kind) (some kind) rest) := fun shared =>
        .ite ((Extends.trailingComment n).seq (hrest _ _)) hblank
      cases lineEnd with
      | none =>
          have hnone : Typeset.sharesLine s none n = false := rfl
          rw [hnone, Bool.and_false]
          exact hjoin false
      | some stop =>
          cases kind == .comment with
          | true =>
              rw [Bool.true_and]
              exact .sameLine hjoin stop
          | false =>
              rw [Bool.false_and]
              exact hjoin false

theorem Layout.Extends.block (h : ∀ c ∈ n.children, c.IsTypeset s)
    (hstmt : ∀ c ∈ n.children, c.kind.isStmt) (opener : Option Nat) :
    Extends d (Layout.block s opener n) (Typeset.block s d opener n) := by
  obtain ⟨id, kind, start, stop, children⟩ := n
  rw [Layout.block, Typeset.block]
  exact .statements h hstmt _ opener none none

/-! ### Children that stay on their line -/

/-- A rule that keeps children on their line: tokens become fixed texts and source
texts, and names that are declared become source texts. -/
structure Rule.StaysOnLine (rule : Rule) : Prop where
  block : ∀ first k, rule first k ≠ some .block
  strokes : ∀ first k l, rule first k = some (.strokes l) →
    (∃ token, k = .token token) ∧ (∀ one ∈ l, one = .source ∨ ∃ t, one = .text t) ∨
      k = .aux .binding ∧ l = [.source]

/-- Nodes that keep their children on their line. -/
theorem Kind.staysOnLine {k : Kind} {rule : Rule} (h : k.rule? = some rule) (hrow : k.isRow) :
    rule.StaysOnLine := by
  have hrule : rule = Rule.interpolation ∨ rule = Rule.var ∨ rule = Rule.call ∨
      rule = Rule.conditional ∨ rule = Rule.field ∨ rule = Rule.localVar := by
    cases k with
    | expr k | stmt k | aux k =>
        cases k <;> first | (cases hrow; done) | (cases h; done) | (cases h; simp)
    | token k => cases h
  constructor
  · intro first k h
    rcases hrule with rfl | rfl | rfl | rfl | rfl | rfl <;>
      simp only [Rule.interpolation, Rule.var, Rule.call, Rule.conditional, Rule.field,
        Rule.localVar] at h <;> split at h <;> cases h
  · intro first k l h
    rcases hrule with rfl | rfl | rfl | rfl | rfl | rfl <;>
      simp only [Rule.interpolation, Rule.var, Rule.call, Rule.conditional, Rule.field,
        Rule.localVar] at h <;> split at h <;> cases h <;>
      first
        | exact .inl ⟨⟨_, rfl⟩, by simp⟩
        | exact .inr ⟨rfl, rfl⟩

/-- Strokes that write the source text or fixed texts. -/
theorem Layout.Writes.strokes {strokes : List Stroke}
    (h : ∀ one ∈ strokes, one = .source ∨ ∃ t, one = .text t) :
    Writes d (Layout.strokes s n strokes) (strokes.flatMap fun
      | .text t => t.toList
      | .source => word s n
      | _ => []) := by
  induction strokes with
  | nil => exact .skip
  | cons one rest ih =>
      rw [List.forall_mem_cons] at h
      rw [List.flatMap_cons]
      refine .seq ?_ (ih h.2)
      obtain rfl | ⟨t, rfl⟩ := h.1
      · exact .copy n
      · exact .write t

/-- A single stroke. -/
theorem Layout.Writes.stroke (one : Stroke) (h : Writes d (Layout.stroke s n one) t) :
    Writes d (Layout.strokes s n [one]) t := by
  have hstroke := h.seq (.skip)
  rwa [List.append_nil] at hstroke

/-- Children that a rule keeps on their line. -/
theorem Layout.Writes.sequence {rule : Rule} {parent : Kind} (h : ∀ c ∈ nodes, c.IsTypeset s)
    (hrule : parent.rule? = some rule) (hstays : rule.StaysOnLine)
    (hcovers : ∀ c ∈ nodes, rule.Covers c.kind) (above : Node) (first : Bool)
    (previous : Option Nat) :
    Writes d (Layout.sequence s rule above first previous nodes)
      (Typeset.row s d parent first nodes) := by
  induction nodes generalizing first previous with
  | nil =>
      rw [Layout.sequence, Typeset.row]
      exact .skip
  | cons n rest ih =>
      rw [List.forall_mem_cons] at h hcovers
      have hrest := ih h.2 hcovers.2 false (some n.stop)
      obtain ⟨piece, hpiece, hsuits⟩ := hcovers.1 first
      rw [Layout.sequence, hpiece]
      cases piece with
      | strokes l =>
          rcases hstays.strokes first n.kind l hpiece with ⟨⟨token, htoken⟩, hplain⟩ | ⟨hkind, rfl⟩
          · rw [Typeset.row_token htoken, Typeset.sign_of_rule hrule, Typeset.ruled, hpiece]
            exact (Writes.strokes hplain).seq hrest
          · have hword : Writes d (Layout.strokes s n [.source]) (word s n) := .stroke _ (.copy n)
            rw [Typeset.row_node (by simp [hkind]), Typeset.node_word (.inr hkind)]
            exact hword.seq hrest
      | expression =>
          rw [Typeset.row_node (Kind.ne_token_of_isExpr hsuits)]
          exact (h.1.expr hsuits d).seq hrest
      | arguments =>
          have hkind : n.kind = .aux .argList := hsuits
          rw [Typeset.row_node (by simp [hkind])]
          exact (h.1.arguments hkind d).seq hrest
      | interpolated =>
          have hkind : n.kind = .aux .interpExpr := hsuits
          rw [Typeset.row_node (by simp [hkind])]
          exact (h.1.interpolated hkind d).seq hrest
      | block => exact absurd hpiece (hstays.block first n.kind)

/-! ### Children with blocks among them -/

/-- Children behind the first one, of a statement with blocks; `inside` tells that a
block stands before them.  A block stands behind the keyword that opens it and before
the one that closes it. -/
inductive Clauses : (inside : Bool) → List Kind → Prop
  | last : Clauses true [.token .kwEnd]
  | condition {k : Kind} (h : k.isExpr) : Clauses false [k]
  | value {k : Kind} {later : List Kind} (h : k.isExpr ∨ k = .aux .binding)
      (tail : Clauses false later) : Clauses false (k :: later)
  | mark {k : TokenKind} {later : List Kind} (h : k = .assign ∨ k = .comma ∨ k = .kwIn)
      (tail : Clauses false later) : Clauses false (.token k :: later)
  | opens {k : TokenKind} {later : List Kind} (h : k = .kwThen ∨ k = .kwDo)
      (tail : Clauses true later) : Clauses false (.token k :: .aux .block :: later)
  | closes {k : TokenKind} {later : List Kind} (h : k = .kwElseif ∨ k = .kwUntil)
      (tail : Clauses false later) : Clauses true (.token k :: later)
  | otherwise {later : List Kind} (tail : Clauses true later) :
      Clauses true (.token .kwElse :: .aux .block :: later)

/-- The children of a statement with blocks. -/
inductive BlockForm : List Kind → Prop
  | condition {k : TokenKind} {later : List Kind} (h : k = .kwIf ∨ k = .kwWhile ∨ k = .kwFor)
      (tail : Clauses false later) : BlockForm (.token k :: later)
  | block {k : TokenKind} {later : List Kind} (h : k = .kwRepeat ∨ k = .kwDo)
      (tail : Clauses true later) : BlockForm (.token k :: .aux .block :: later)

namespace Clauses

variable {ks later : List Kind}

/-- Items with commas between them. -/
theorem series {item : Kind → Prop} (h : Series .comma item ks)
    (hitem : ∀ k, item k → k.isExpr ∨ k = .aux .binding) (tail : Clauses false later) :
    Clauses false (ks ++ later) := by
  induction h with
  | one hk => exact .value (hitem _ hk) tail
  | cons hk _ ih => exact .value (hitem _ hk) (.mark (.inr (.inl rfl)) ih)

/-- Further branches, each with its block. -/
theorem branches (h : Branches (· = .aux .block) ks) (tail : Clauses true later) :
    Clauses true (ks ++ later) := by
  induction h with
  | nil => exact tail
  | cons hc hv _ ih =>
      subst hv
      exact .closes (.inl rfl) (.value (.inl hc) (.opens (.inl rfl) ih))

/-- The last block of a loop. -/
theorem body : Clauses false [.token .kwDo, .aux .block, .token .kwEnd] := .opens (.inr rfl) .last

end Clauses

/-- Statements that start their lines themselves have blocks. -/
theorem Form.blockForm {kind : Kind} {ks : List Kind} (h : Form kind ks)
    (hkind : kind.startsLine) : BlockForm ks := by
  cases h with
  | ifStatement hc hbranches =>
      exact .condition (.inl rfl)
        (.value (.inl hc) (.opens (.inl rfl) (.branches hbranches .last)))
  | ifElseStatement hc hbranches =>
      exact .condition (.inl rfl)
        (.value (.inl hc) (.opens (.inl rfl) (.branches hbranches (.otherwise .last))))
  | whileStatement hc => exact .condition (.inr (.inl rfl)) (.value (.inl hc) .body)
  | doStatement => exact .block (.inr rfl) .last
  | repeatStatement hc => exact .block (.inl rfl) (.closes (.inr rfl) (.condition hc))
  | forRange hfirst hlast =>
      exact .condition (.inr (.inr rfl)) (.value (.inr rfl) (.mark (.inl rfl) (.value (.inl hfirst)
        (.mark (.inr (.inl rfl)) (.value (.inl hlast) .body)))))
  | forRangeStep hfirst hlast hstep =>
      exact .condition (.inr (.inr rfl)) (.value (.inr rfl) (.mark (.inl rfl) (.value (.inl hfirst)
        (.mark (.inr (.inl rfl)) (.value (.inl hlast)
          (.mark (.inr (.inl rfl)) (.value (.inl hstep) .body)))))))
  | forIn hnames hvalues =>
      exact .condition (.inr (.inr rfl)) (.series hnames (fun _ hk => .inr hk)
        (.mark (.inr (.inr rfl)) (.series hvalues (fun _ hk => .inl hk) .body)))
  | @literal k hk => cases k <;> cases hkind
  | _ => cases hkind

/-- What is on the page among the children: a line that goes on, or behind a keyword
that opens a block the start of a line that is one level deeper. -/
def Layout.Stage : (inside : Bool) → Text → Nat → Page → Prop
  | false, v, d, p => p = ⟨v, d⟩
  | true, v, d, p => p = ⟨'\n' :: v, d + 1⟩

/-- What is on the page behind all children: a text that ends its line, or is closed. -/
def Layout.Ended (v : Text) (d : Nat) (p : Page) : Prop :=
  p = ⟨'\n' :: v, d⟩ ∨ p = ⟨v, d⟩ ∧ v.head? ≠ some '\n'

theorem Rule.blockStatement_of_isExpr {k : Kind} (h : k.isExpr) (first : Bool) :
    Rule.blockStatement first k = some .expression := by
  cases k with
  | expr e => cases first <;> rfl
  | _ => cases h

namespace Layout.Meets

variable {v : Text} {x : String}

theorem endLineAt : Meets (Ended v d) Layout.endLine fun _ => (· = ⟨'\n' :: v, d⟩) := by
  refine .read fun p hp => ?_
  obtain rfl | ⟨rfl, hv⟩ := hp
  · exact .pure fun _ hq => hq
  · have hend : (⟨v, d⟩ : Page).endsWith '\n' = false := by simpa [Page.endsWith] using hv
    rw [hend]
    exact .modify fun q hq => by rw [hq]; rfl

/-- A keyword that opens a block. -/
theorem opening (hx : x.toList = t ++ ['\n']) :
    Meets (Stage false v d) (strokes s n [.text x, .deeper])
      fun _ => Stage true (t.reverse ++ v) d := by
  refine (Writes.write x v).bind fun _ => Meets.deeperAt.bind fun _ => .pure fun p hp => ?_
  rw [hp, hx]
  simp [Stage]

/-- A keyword that closes a block. -/
theorem closing (hx : x.toList = t) :
    Meets (Stage true v d) (strokes s n [.shallower, .tabs, .text x]) fun _ =>
      (· = ⟨(lineStart d ++ t).reverse ++ v, d⟩) := by
  refine Meets.shallowerAt.bind fun _ => (Writes.tabs _).bind fun _ => (Writes.write x _).bind
    fun _ => .pure fun p hp => ?_
  rw [hp, hx]
  simp [lineStart]

/-- A keyword that closes a block and opens another one. -/
theorem reopening (hx : x.toList = t ++ ['\n']) :
    Meets (Stage true v d) (strokes s n [.shallower, .tabs, .text x, .deeper]) fun _ =>
      Stage true ((lineStart d ++ t).reverse ++ v) d := by
  refine Meets.shallowerAt.bind fun _ => (Writes.tabs _).bind fun _ => opening hx |>.mono
    (fun _ hp => hp) fun _ p hp => ?_
  simpa [lineStart] using hp

/-- A token, with the children behind it. -/
theorem token {A : Page → Prop} {inside first : Bool} {k : TokenKind} {l : List Stroke}
    (hn : n.kind = .token k) (hrule : Rule.blockStatement first n.kind = some (.strokes l))
    (hkeyword : Meets A (strokes s n l) fun _ =>
      Stage inside ((Typeset.keyword s d first n).reverse ++ v) d)
    (hlater : ∀ v, Meets (Stage inside v d)
      (sequence s Rule.blockStatement above false (some n.stop) nodes) fun _ =>
        Ended ((Typeset.clauses s d false (some n.stop) nodes).reverse ++ v) d)
    (previous : Option Nat) :
    Meets A (sequence s Rule.blockStatement above first previous (n :: nodes)) fun _ =>
      Ended ((Typeset.clauses s d first previous (n :: nodes)).reverse ++ v) d := by
  rw [Layout.sequence, hrule, Typeset.clauses_token hn, List.reverse_append, List.append_assoc]
  exact hkeyword.bind fun _ => hlater _

/-- A block, with the children behind it. -/
theorem block (hb : n.kind = .aux .block) (h : n.IsTypeset s)
    (hlater : ∀ v, Meets (Stage true v d)
      (sequence s Rule.blockStatement above false (some n.stop) nodes) fun _ =>
        Ended ((Typeset.clauses s d false (some n.stop) nodes).reverse ++ v) d)
    (previous : Option Nat) (v : Text) :
    Meets (Stage true v d) (sequence s Rule.blockStatement above false previous (n :: nodes))
      fun _ => Ended ((Typeset.clauses s d false previous (n :: nodes)).reverse ++ v) d := by
  rw [Layout.sequence, hb, Typeset.clauses_block hb, List.reverse_append, List.append_assoc]
  exact (h.block hb (d + 1) previous v).bind fun _ => hlater _

/-- Children behind the first one, of a statement with blocks. -/
theorem clauses {inside : Bool} (hkinds : Clauses inside (nodes.map Node.kind))
    (h : ∀ c ∈ nodes, c.IsTypeset s) (above : Node) (previous : Option Nat) (v : Text) :
    Meets (Stage inside v d) (sequence s Rule.blockStatement above false previous nodes) fun _ =>
      Ended ((Typeset.clauses s d false previous nodes).reverse ++ v) d := by
  generalize hks : nodes.map Node.kind = ks at hkinds
  induction hkinds generalizing nodes previous v with
  | last =>
      obtain ⟨n, rfl, hk⟩ := List.map_eq_singleton_iff.mp hks
      have hrule : Rule.blockStatement false n.kind =
          some (.strokes [.shallower, .tabs, .text "end\n"]) := by rw [hk]; rfl
      rw [Layout.sequence, hrule, Typeset.clauses_token hk, Typeset.keyword, hk, Layout.sequence,
        Typeset.clauses]
      have hend : "end\n".toList = "end".toList ++ ['\n'] := rfl
      refine (closing hend).bind fun _ => .pure fun p hp => .inl ?_
      simp [hp]
  | condition hexpr =>
      obtain ⟨n, rfl, rfl⟩ := List.map_eq_singleton_iff.mp hks
      rw [List.forall_mem_singleton] at h
      rw [Layout.sequence, Rule.blockStatement_of_isExpr hexpr, Typeset.clauses_node
        (Kind.ne_token_of_isExpr hexpr) (Kind.ne_aux_of_isExpr hexpr _), Layout.sequence,
        Typeset.clauses, List.append_nil]
      exact (h.expr hexpr d v).bind fun _ => .pure fun p hp =>
        .inr ⟨hp, (h.closed hexpr d).head?_reverse v⟩
  | value hk _ ih =>
      obtain ⟨n, rest, rfl, rfl, hrest⟩ := List.map_eq_cons_iff.mp hks
      rw [List.forall_mem_cons] at h
      have hlater := ih h.2 (some n.stop) ((Typeset.node s d n).reverse ++ v) hrest
      have hnode : (∀ k, n.kind ≠ .token k) ∧ n.kind ≠ .aux .block := by
        rcases hk with hexpr | hbinding
        · exact ⟨Kind.ne_token_of_isExpr hexpr, Kind.ne_aux_of_isExpr hexpr _⟩
        · rw [hbinding]
          exact ⟨by simp, by simp⟩
      rw [Layout.sequence, Typeset.clauses_node hnode.1 hnode.2, List.reverse_append,
        List.append_assoc]
      rcases hk with hexpr | hbinding
      · rw [Rule.blockStatement_of_isExpr hexpr]
        exact (h.1.expr hexpr d v).bind fun _ => hlater
      · have hrule : Rule.blockStatement false n.kind = some (.strokes [.source]) := by
          rw [hbinding]
          rfl
        rw [hrule]
        rw [Typeset.node_word (.inr hbinding)] at hlater ⊢
        exact (Writes.stroke .source (.copy n) v).bind fun _ => hlater
  | @mark k _ hk _ ih =>
      obtain ⟨n, rest, rfl, hn, hrest⟩ := List.map_eq_cons_iff.mp hks
      rw [List.forall_mem_cons] at h
      obtain ⟨x, hrule, hkeyword⟩ : ∃ x, Rule.blockStatement false n.kind =
          some (.strokes [.text x]) ∧ Typeset.keyword s d false n = x.toList := by
        rw [Typeset.keyword, hn]
        rcases hk with rfl | rfl | rfl <;> exact ⟨_, rfl, rfl⟩
      refine token hn hrule ?_ (fun v => ih h.2 (some n.stop) v hrest) previous
      rw [hkeyword]
      exact Writes.stroke (.text x) (.write x) v
  | @opens k _ hk _ ih =>
      obtain ⟨n, _, rfl, hn, hkinds⟩ := List.map_eq_cons_iff.mp hks
      obtain ⟨b, rest, rfl, hb, hrest⟩ := List.map_eq_cons_iff.mp hkinds
      simp only [List.forall_mem_cons] at h
      obtain ⟨x, t, hrule, hx, hkeyword⟩ : ∃ x t, Rule.blockStatement false n.kind =
          some (.strokes [.text x, .deeper]) ∧ x.toList = t ++ ['\n'] ∧
            Typeset.keyword s d false n = t := by
        rw [Typeset.keyword, hn]
        rcases hk with rfl | rfl <;> exact ⟨_, _, rfl, rfl, rfl⟩
      have hlater := block hb h.2.1 (fun v => ih h.2.2 (some b.stop) v hrest) (some n.stop)
      exact token hn hrule (hkeyword ▸ opening hx) hlater previous
  | @closes k _ hk _ ih =>
      obtain ⟨n, rest, rfl, hn, hrest⟩ := List.map_eq_cons_iff.mp hks
      rw [List.forall_mem_cons] at h
      obtain ⟨x, hrule, hkeyword⟩ : ∃ x, Rule.blockStatement false n.kind =
          some (.strokes [.shallower, .tabs, .text x]) ∧
            Typeset.keyword s d false n = lineStart d ++ x.toList := by
        rw [Typeset.keyword, hn]
        rcases hk with rfl | rfl <;> exact ⟨_, rfl, rfl⟩
      refine token hn hrule ?_ (fun v => ih h.2 (some n.stop) v hrest) previous
      rw [hkeyword]
      exact closing rfl
  | @otherwise _ _ ih =>
      obtain ⟨n, _, rfl, hn, hkinds⟩ := List.map_eq_cons_iff.mp hks
      obtain ⟨b, rest, rfl, hb, hrest⟩ := List.map_eq_cons_iff.mp hkinds
      simp only [List.forall_mem_cons] at h
      have hrule : Rule.blockStatement false n.kind =
          some (.strokes [.shallower, .tabs, .text "else\n", .deeper]) := by rw [hn]; rfl
      have hx : "else\n".toList = "else".toList ++ ['\n'] := rfl
      have hkeyword : Typeset.keyword s d false n = lineStart d ++ "else".toList := by
        rw [Typeset.keyword, hn]
      have hlater := block hb h.2.1 (fun v => ih h.2.2 (some b.stop) v hrest) (some n.stop)
      exact token hn hrule (hkeyword ▸ reopening hx) hlater previous

/-- All children of a statement with blocks. -/
theorem blockForm (hkinds : BlockForm (nodes.map Node.kind)) (h : ∀ c ∈ nodes, c.IsTypeset s)
    (above : Node) (r : Text) :
    Meets (· = ⟨r, d⟩) (sequence s Rule.blockStatement above true none nodes) fun _ =>
      Ended ((Typeset.clauses s d true none nodes).reverse ++
        ((List.replicate d '\t').reverse ++ r)) d := by
  generalize hks : nodes.map Node.kind = ks at hkinds
  cases hkinds with
  | @condition k _ hk tail =>
      obtain ⟨n, rest, rfl, hn, rfl⟩ := List.map_eq_cons_iff.mp hks
      rw [List.forall_mem_cons] at h
      obtain ⟨hrule, hkeyword⟩ : Rule.blockStatement true n.kind =
          some (.strokes [.tabs, .source, .text " "]) ∧
            Typeset.keyword s d true n = word s n ++ " ".toList := by
        rw [Typeset.keyword, hn]
        rcases hk with rfl | rfl | rfl <;> exact ⟨rfl, rfl⟩
      have hfirst : Meets (· = ⟨r, d⟩) (strokes s n [.tabs, .source, .text " "]) fun _ =>
          Stage false ((word s n ++ " ".toList).reverse ++
            ((List.replicate d '\t').reverse ++ r)) d :=
        (Writes.tabs r).bind fun _ => (Writes.copy n _).bind fun _ => (Writes.write " " _).bind
          fun _ => .pure fun p hp => by rw [hp, List.reverse_append, List.append_assoc]; rfl
      exact token hn hrule (hkeyword ▸ hfirst) (clauses tail h.2 above _) none
  | @block k _ hk tail =>
      obtain ⟨n, _, rfl, hn, hkinds⟩ := List.map_eq_cons_iff.mp hks
      obtain ⟨b, rest, rfl, hb, rfl⟩ := List.map_eq_cons_iff.mp hkinds
      simp only [List.forall_mem_cons] at h
      obtain ⟨x, t, hrule, hx, hkeyword⟩ : ∃ x t, Rule.blockStatement true n.kind =
          some (.strokes [.tabs, .text x, .deeper]) ∧ x.toList = t ++ ['\n'] ∧
            Typeset.keyword s d true n = t := by
        rw [Typeset.keyword, hn]
        rcases hk with rfl | rfl <;> exact ⟨_, _, rfl, rfl, rfl⟩
      have hfirst : Meets (· = ⟨r, d⟩) (strokes s n [.tabs, .text x, .deeper]) fun _ =>
          Stage true (t.reverse ++ ((List.replicate d '\t').reverse ++ r)) d :=
        (Writes.tabs r).bind fun _ => opening hx
      exact token hn hrule (hkeyword ▸ hfirst)
        (block hb h.2.1 (clauses tail h.2.2 above _) (some n.stop)) none

end Layout.Meets

/-- A brace behind a value, with a blank before it if the value ends in a brace. -/
theorem Layout.Meets.closingBrace (ht : t ≠ []) (v : Text) :
    Meets (· = ⟨t.reverse ++ v, d⟩)
      (do
        if (← get).endsWith '\x7d' then Layout.write " "
        Layout.write "\x7d") fun _ =>
      (· = ⟨"\x7d".toList.reverse ++
        ((if t.getLast? = some '\x7d' then " ".toList else []).reverse ++
          (t.reverse ++ v)), d⟩) := by
  refine .read fun p hp => ?_
  have hend : p.endsWith '\x7d' = (t.getLast? == some '\x7d') := by
    rw [hp, Page.endsWith, List.head?_append_of_ne_nil _ (by simpa using ht), List.head?_reverse]
  subst hp
  rw [hend]
  by_cases hlast : t.getLast? = some '\x7d'
  · rw [if_pos hlast, if_pos (by simp [hlast])]
    exact (Writes.write " " _).bind fun _ => Writes.write "\x7d" _
  · rw [if_neg hlast, if_neg (by simpa using hlast)]
    exact Writes.write "\x7d" _

/-- The rest of a function body, from the parenthesis behind its parameters. -/
theorem Layout.Writes.functionEnd {close body last : Node} (hclose : close.kind = .token .rparen)
    (hbody : body.kind = .aux .block) (hlast : last.kind = .token .kwEnd) (h : body.IsTypeset s)
    (above : Node) (previous : Option Nat) :
    Writes d (Layout.sequence s Rule.functionBody above false previous [close, body, last])
      (Typeset.clauses s d false previous [close, body, last]) := by
  intro v
  have hopens : Rule.functionBody false close.kind =
      some (.strokes [.text ")\n", .deeper]) := by rw [hclose]; rfl
  have hblock : Rule.functionBody false body.kind = some .block := by rw [hbody]; rfl
  have hcloses : Rule.functionBody false last.kind =
      some (.strokes [.shallower, .tabs, .text "end"]) := by rw [hlast]; rfl
  have hx : ")\n".toList = ")".toList ++ ['\n'] := rfl
  have hopening : Typeset.keyword s d false close = ")".toList := by rw [Typeset.keyword, hclose]
  have hclosing : Typeset.keyword s d false last = lineStart d ++ "end".toList := by
    rw [Typeset.keyword, hlast]
  rw [Typeset.clauses_token hclose, Typeset.clauses_block hbody, Typeset.clauses_token hlast,
    Typeset.clauses, hopening, hclosing, List.append_nil]
  rw [Layout.sequence, hopens, Layout.sequence, hblock, Layout.sequence, hcloses, Layout.sequence]
  refine (Meets.opening hx).bind fun _ => (h.block hbody (d + 1) _ _).bind fun _ => ?_
  refine (Meets.closing rfl).bind fun _ => .pure fun p hp => ?_
  rw [hp]
  simp

/-! ### A node with its children -/

namespace Node

variable (h : n.IsSound s.source) (hbelow : ∀ c ∈ n.children, c.IsTypeset s)

include h hbelow

/-- A statement with blocks. -/
theorem IsSound.writes_blocks (hkind : n.kind.startsLine) (d : Nat) :
    Writes d
      (do
        Layout.sequence s Rule.blockStatement n true none n.children
        Layout.endLine)
      (List.replicate d '\t' ++ (Typeset.node s d n ++ ['\n'])) := by
  intro r
  rw [Typeset.node_of_hasClauses (by rw [Kind.hasClauses, hkind, Bool.true_or])]
  refine (Meets.blockForm (h.formed.blockForm hkind) hbelow n r).bind fun _ =>
    Meets.endLineAt.mono (fun _ hp => hp) fun _ p hp => ?_
  rw [hp]
  simp

theorem IsSound.writes_functionBody (hkind : n.kind = .aux .funcBody) (d : Nat) :
    Writes d (Layout.sequence s Rule.functionBody n true none n.children)
      (Typeset.node s d n) := by
  rw [Typeset.node_of_hasClauses (by rw [hkind]; rfl)]
  have hopening : ∀ {left : Node}, left.kind = .token .lparen →
      Rule.functionBody true left.kind = some (.strokes [.text "("]) ∧
        Typeset.keyword s d true left = "(".toList := by
    intro left hleft
    rw [Typeset.keyword, hleft]
    exact ⟨rfl, rfl⟩
  obtain ⟨ks, hks, hform⟩ := h.form hkind
  cases hform with
  | functionBody =>
      simp only [List.map_eq_cons_iff, List.map_eq_nil_iff] at hks
      obtain ⟨left, _, hchildren, hleft, right, _, rfl, hright, body, _, rfl, hbody, last, _, rfl,
        hlast, rfl⟩ := hks
      obtain ⟨hrule, hkeyword⟩ := hopening hleft
      rw [hchildren, Typeset.clauses_token hleft, hkeyword, Layout.sequence, hrule]
      have htail := Writes.functionEnd (d := d) hright hbody hlast
        (hbelow body (by simp [hchildren])) n (some left.stop)
      exact (Writes.stroke (.text "(") (.write "(")).seq htail
  | functionBodyParams =>
      simp only [List.map_eq_cons_iff, List.map_eq_nil_iff] at hks
      obtain ⟨left, _, hchildren, hleft, params, _, rfl, hparams, right, _, rfl, hright, body, _,
        rfl, hbody, last, _, rfl, hlast, rfl⟩ := hks
      obtain ⟨hrule, hkeyword⟩ := hopening hleft
      have hsecond : Rule.functionBody false params.kind = some (.strokes [.parameters]) := by
        rw [hparams]
        rfl
      rw [hchildren, Typeset.clauses_token hleft, hkeyword,
        Typeset.clauses_node (by simp [hparams]) (by simp [hparams]),
        Typeset.node_paramList hparams, Layout.sequence, hrule, Layout.sequence, hsecond]
      have htail := Writes.functionEnd (d := d) hright hbody hlast
        (hbelow body (by simp [hchildren])) n (some params.stop)
      have hnames : Writes d (Layout.strokes s params [.parameters]) _ :=
        .stroke _ (.copyParameters true params.children)
      exact (Writes.stroke (.text "(") (.write "(")).seq (hnames.seq htail)

theorem IsSound.writes_parens (hkind : n.kind = .expr .parens) (d : Nat) :
    Writes d (Layout.parens s n n.children) (Typeset.node s d n) := by
  obtain ⟨ks, hks, hform⟩ := h.form hkind
  cases hform with
  | literal hliteral => cases hliteral
  | parens hvalue =>
      simp only [List.map_eq_cons_iff, List.map_eq_nil_iff] at hks
      obtain ⟨left, _, hchildren, hleft, value, _, rfl, rfl, right, _, rfl, hright, rfl⟩ := hks
      rw [Typeset.node_parens hkind, hchildren, Layout.parens,
        Typeset.series_between hleft hvalue hright]
      have hwrites := (hbelow value (by simp [hchildren])).expr hvalue d
      exact ((Writes.write "(").seq hwrites).seq (Writes.write ")")

theorem IsSound.writes_anonymousFunction (hkind : n.kind = .expr .function) (d : Nat) :
    Writes d (Layout.anonymousFunction s n n.children) (Typeset.node s d n) := by
  obtain ⟨ks, hks, hform⟩ := h.form hkind
  cases hform with
  | literal hliteral => cases hliteral
  | anonymousFunction =>
      simp only [List.map_eq_cons_iff, List.map_eq_nil_iff] at hks
      obtain ⟨mark, _, hchildren, hmark, body, _, rfl, hbody, rfl⟩ := hks
      have hwrites := (hbelow body (by simp [hchildren])).functionBody hbody d
      have hsign : Typeset.sign s (.expr .function) true mark [body] = "function".toList := rfl
      rw [Typeset.node_of_isRow (by rw [hkind]; rfl), hkind, hchildren, Layout.anonymousFunction,
        Typeset.row_token hmark, hsign, Typeset.row_node (by simp [hbody]), Typeset.row,
        List.append_nil]
      exact (Writes.write "function").seq hwrites

theorem IsSound.writes_prefixed (hkind : n.kind = .expr .unary) (d : Nat) :
    Writes d (Layout.prefixed s n n.children) (Typeset.node s d n) := by
  obtain ⟨ks, hks, hform⟩ := h.form hkind
  cases hform with
  | literal hliteral => cases hliteral
  | @unary op _ unary hvalue =>
      simp only [List.map_eq_cons_iff, List.map_eq_nil_iff] at hks
      obtain ⟨mark, _, hchildren, hmark, value, _, rfl, rfl, rfl⟩ := hks
      have hoperand := (hbelow value (by simp [hchildren])).expr hvalue d
      rw [Typeset.node_of_isRow (by rw [hkind]; rfl), hkind, hchildren, Layout.prefixed,
        Typeset.row_token hmark, Typeset.row_node (Kind.ne_token_of_isExpr hvalue), Typeset.row,
        List.append_nil, Typeset.sign_unary, hmark]
      cases op with
      | kwNot | hash => exact (Writes.write _).seq hoperand
      | minus =>
          refine Writes.seq ?_ hoperand
          cases hminus : Layout.startsWithMinus value with
          | true => simpa [hminus] using Writes.write "- "
          | false => simpa [hminus] using Writes.write "-"
      | _ => cases unary

omit h in
/-- An operator between a first and a last child. -/
theorem writes_infixed {left mark right : Node} {op : TokenKind}
    (hchildren : n.children = [left, mark, right]) (hleft : left.kind.isExpr)
    (hmark : mark.kind = .token op) (hright : right.kind.isExpr)
    (hkind : n.kind = .expr .binary ∨ n.kind = .stmt .compoundAssign) (d : Nat) :
    Writes d (Layout.infixed s n n.children) (Typeset.node s d n) := by
  have hrow : n.kind.isRow := by rcases hkind with hk | hk <;> rw [hk] <;> rfl
  have hsign : Typeset.sign s n.kind false mark [right] =
      " ".toList ++ word s mark ++ " ".toList := by
    rcases hkind with hk | hk <;> rw [hk] <;> rfl
  rw [hchildren] at hbelow
  simp only [List.forall_mem_cons] at hbelow
  rw [Typeset.node_of_isRow hrow, hchildren, Layout.infixed,
    Typeset.row_node (Kind.ne_token_of_isExpr hleft), Typeset.row_token hmark, hsign,
    Typeset.row_node (Kind.ne_token_of_isExpr hright), Typeset.row, List.append_nil,
    List.append_assoc, List.append_assoc]
  exact (hbelow.1.expr hleft d).seq ((Writes.write " ").seq ((Writes.copy mark).seq
    ((Writes.write " ").seq (hbelow.2.2.1.expr hright d))))

theorem IsSound.writes_binary (hkind : n.kind = .expr .binary) (d : Nat) :
    Writes d (Layout.infixed s n n.children) (Typeset.node s d n) := by
  obtain ⟨ks, hks, hform⟩ := h.form hkind
  cases hform with
  | literal hliteral => cases hliteral
  | binary hleft _ hright =>
      simp only [List.map_eq_cons_iff, List.map_eq_nil_iff] at hks
      obtain ⟨_, _, hchildren, rfl, _, _, rfl, hmark, _, _, rfl, rfl, rfl⟩ := hks
      exact writes_infixed hbelow hchildren hleft hmark hright (.inl hkind) d

theorem IsSound.writes_compoundAssignment (hkind : n.kind = .stmt .compoundAssign) (d : Nat) :
    Writes d (Layout.infixed s n n.children) (Typeset.node s d n) := by
  obtain ⟨ks, hks, hform⟩ := h.form hkind
  cases hform with
  | compoundAssignment _ hright =>
      simp only [List.map_eq_cons_iff, List.map_eq_nil_iff] at hks
      obtain ⟨_, _, hchildren, hleft, _, _, rfl, hmark, _, _, rfl, rfl, rfl⟩ := hks
      exact writes_infixed hbelow hchildren (by rw [hleft]; rfl) hmark hright (.inr hkind) d

theorem IsSound.writes_localFunction (hkind : n.kind = .stmt .localFn) (d : Nat) :
    Writes d (Layout.localFunction s n n.children) (Typeset.node s d n) := by
  obtain ⟨ks, hks, hform⟩ := h.form hkind
  cases hform with
  | localFunction =>
      simp only [List.map_eq_cons_iff, List.map_eq_nil_iff] at hks
      obtain ⟨first, _, hchildren, hfirst, second, _, rfl, hsecond, name, _, rfl, hname, body, _,
        rfl, hbody, rfl⟩ := hks
      have hwrites := (hbelow body (by simp [hchildren])).functionBody hbody d
      have hwords : Typeset.row s d (.stmt .localFn) true [first, second, name, body] =
          "local function ".toList ++ (word s name ++ Typeset.node s d body) := by
        rw [Typeset.row_token hfirst, Typeset.row_token hsecond, Typeset.row_token hname,
          Typeset.row_node (by simp [hbody]), Typeset.row, List.append_nil, Typeset.sign_localFn,
          Typeset.sign_localFn, Typeset.sign_localFn, hfirst, hsecond, hname]
        rfl
      rw [Typeset.node_of_isRow (by rw [hkind]; rfl), hkind, hchildren, hwords,
        Layout.localFunction]
      exact (Writes.write "local function ").seq ((Writes.copy name).seq hwrites)

theorem IsSound.writes_namedFunction (hkind : n.kind = .stmt .fn) (d : Nat) :
    Writes d (Layout.namedFunction s n n.children) (Typeset.node s d n) := by
  obtain ⟨ks, hks, hform⟩ := h.form hkind
  cases hform with
  | function =>
      simp only [List.map_eq_cons_iff, List.map_eq_nil_iff] at hks
      obtain ⟨mark, _, hchildren, hmark, name, _, rfl, hname, body, _, rfl, hbody, rfl⟩ := hks
      have hwrites := (hbelow body (by simp [hchildren])).functionBody hbody d
      have hsign : Typeset.sign s (.stmt .fn) true mark [name, body] = "function ".toList := rfl
      rw [Typeset.node_of_isRow (by rw [hkind]; rfl), hkind, hchildren, Layout.namedFunction,
        Typeset.row_token hmark, hsign, Typeset.row_node (by simp [hname]),
        Typeset.node_funcName hname, Typeset.row_node (by simp [hbody]), Typeset.row,
        List.append_nil]
      exact (Writes.write "function ").seq ((Writes.copyAll name.children).seq hwrites)

theorem IsSound.writes_assignment (hkind : n.kind = .stmt .assign) (d : Nat) :
    Writes d (Layout.assignment s n n.children) (Typeset.node s d n) := by
  obtain ⟨ks, hks, hform⟩ := h.form hkind
  cases hform with
  | assignment =>
      simp only [List.map_eq_cons_iff, List.map_eq_nil_iff] at hks
      obtain ⟨targets, _, hchildren, htargets, mark, _, rfl, hmark, values, _, rfl, hvalues, rfl⟩ :=
        hks
      have hsign : Typeset.sign s (.stmt .assign) false mark [values] = " = ".toList := rfl
      rw [Typeset.node_of_isRow (by rw [hkind]; rfl), hkind, hchildren, Layout.assignment,
        Typeset.row_node (by simp [htargets]), Typeset.row_token hmark, hsign,
        Typeset.row_node (by simp [hvalues]), Typeset.row, List.append_nil]
      exact ((hbelow targets (by simp [hchildren])).expressions (.inl htargets) d).seq
        ((Writes.write " = ").seq
          ((hbelow values (by simp [hchildren])).expressions (.inr hvalues) d))

/-- The blank behind a brace is put there afterwards, but it is no other than if it had
been written before the value. -/
theorem IsSound.writes_interpolated (hkind : n.kind = .aux .interpExpr) (d : Nat) :
    Writes d (Layout.interpolated s n) (Typeset.node s d n) := by
  obtain ⟨ks, hks, hform⟩ := h.form hkind
  cases hform with
  | interpolated hvalue =>
      simp only [List.map_eq_cons_iff, List.map_eq_nil_iff] at hks
      obtain ⟨left, _, hchildren, hleft, value, _, rfl, rfl, right, _, rfl, hright, rfl⟩ := hks
      have hwrites := (hbelow value (by simp [hchildren])).expr hvalue d
      have hclosed := (hbelow value (by simp [hchildren])).closed hvalue d
      rw [Typeset.node_interpExpr hkind, hchildren, Typeset.series_between hleft hvalue hright]
      generalize Typeset.node s d value = text at hwrites hclosed
      obtain ⟨id, kind, start, stop, children⟩ := n
      dsimp only at hchildren
      subst hchildren
      rw [Layout.interpolated]
      intro r
      refine (Writes.write "\x7b" r).bind fun _ => .read fun p hp => ?_
      subst hp
      refine (hwrites _).bind fun _ => .read fun q hq => ?_
      subst hq
      have hsince : Page.since ⟨text.reverse ++ ("\x7b".toList.reverse ++ r), d⟩
          (Page.length ⟨"\x7b".toList.reverse ++ r, d⟩) = text := Page.since_append
      rw [hsince, Typeset.braced]
      by_cases hhead : text.head? = some '{'
      · rw [if_pos (by simp [hhead]), if_pos hhead]
        have hinsert := Page.insert_append (t := text) (r := "\x7b".toList.reverse ++ r)
          (d := d) ' '
        refine Meets.bind (.modify fun p hp => by rw [hp]; exact hinsert) fun _ =>
          (Meets.closingBrace hclosed.ne_nil _).mono (fun _ hp => hp) fun _ p hp => ?_
        rw [hp]
        simp
      · rw [if_neg (by simpa using hhead), if_neg hhead]
        refine (Meets.closingBrace hclosed.ne_nil _).mono (fun _ hp => hp) fun _ p hp => ?_
        rw [hp]
        simp

/-- A table is tried on one line, but what is on the page in the end is no other than
if it had been known whether it fits. -/
theorem IsSound.writes_fieldList (hkind : n.kind = .aux .fieldList) (d : Nat) :
    Writes d (Layout.fieldList s n) (Typeset.node s d n) := by
  have hlines : Extends (d + 1) _ _ := .fieldLine hbelow (h.isItem hkind) n none
  have hfirst : Writes d _ _ := .firstField hbelow
  rw [Typeset.node_fieldList hkind]
  generalize Typeset.firstField s d n.children = inside at hfirst
  generalize Typeset.items s (d + 1) none n.children = lines at hlines
  obtain ⟨id, kind, start, stop, children⟩ := n
  rw [Layout.fieldList]
  refine fun r => .read fun p hp => ?_
  subst hp
  have htruncate : ∀ tried : Text, Meets (· = ⟨tried.reverse ++ r, d⟩)
      (modify fun p => p.truncate r.length : Layout Unit) fun _ => (· = ⟨r, d⟩) :=
    fun tried => .modify fun p hp => by rw [hp, Page.truncate_append]
  by_cases hinline : Layout.mayBeInline children = true
  · rw [if_pos hinline]
    refine (Writes.write "\x7b" r).bind fun _ => (hfirst _).bind fun _ =>
      (Writes.write "\x7d" _).bind fun _ => .read fun q hq => ?_
    have hline : q = ⟨("\x7b".toList ++ inside ++ "\x7d".toList).reverse ++ r, d⟩ := by
      rw [hq]
      simp
    have hcontains : ("\x7b".toList ++ inside ++ "\x7d".toList).contains '\n' =
        inside.contains '\n' := by
      simp
    have hlength : (⟨r, d⟩ : Page).length = r.length := rfl
    subst hline
    rw [hlength, Page.since_append, hcontains, hinline]
    cases hbreaks : inside.contains '\n' with
    | true => exact (htruncate _).bind fun _ => hlines.braced r
    | false => exact .pure fun _ hp => hp
  · have hno : Layout.mayBeInline children = false := by simpa using hinline
    rw [if_neg hinline, hno, Bool.false_and, if_neg Bool.false_ne_true]
    refine .read fun q hq => ?_
    rw [Bool.not_false, Bool.true_or, if_pos rfl]
    subst hq
    exact (htruncate []).bind fun _ => hlines.braced r

omit hbelow in
/-- A literal is copied, or delimited anew. -/
theorem IsSound.writes_string (hkind : n.kind = .expr .string) (d : Nat) :
    Writes d (Layout.expr s n) (Typeset.node s d n) := by
  rw [Typeset.node_string hkind]
  obtain ⟨id, kind, start, stop, children⟩ := n
  obtain rfl : kind = .expr .string := hkind
  rw [Layout.expr]
  refine fun r => Meets.sourceText.bind fun literal p hp => ?_
  rw [word, hp.2, Option.getD_some]
  cases hquotes : normalizeQuotes literal with
  | error f => exact Writes.broken r p hp.1
  | ok t => exact Writes.put t r p hp.1

/-- A node whose children stay on their line. -/
theorem IsSound.writes_sequence {rule : Rule} (hrule : n.kind.rule? = some rule)
    (hrow : n.kind.isRow) (d : Nat) :
    Writes d (Layout.sequence s rule n true none n.children) (Typeset.node s d n) := by
  rw [Typeset.node_of_isRow hrow]
  exact .sequence hbelow hrule (Kind.staysOnLine hrule hrow)
    (fun c hc => h.formed.covers hrule c.kind (List.mem_map_of_mem hc)) n true none

theorem IsSound.writes_expr (hkind : n.kind.isExpr) (d : Nat) :
    Writes d (Layout.expr s n) (Typeset.node s d n) := by
  have hcopy : n.kind.isInked → n.kind ≠ .expr .string →
      Writes d (Layout.copy s n) (Typeset.node s d n) := fun hink hstring => by
    rw [Typeset.node_word (.inl ⟨hink, hstring⟩)]
    exact .copy n
  have htable : n.kind = .expr .table →
      Writes d (Layout.table s n.children) (Typeset.node s d n) := fun hkind => by
    rw [Typeset.node_table hkind]
    exact .table hbelow
  have hstring := h.writes_string (d := d)
  have hparens := h.writes_parens hbelow (d := d)
  have hfunction := h.writes_anonymousFunction hbelow (d := d)
  have hprefixed := h.writes_prefixed hbelow (d := d)
  have hbinary := h.writes_binary hbelow (d := d)
  have hsequence := @IsSound.writes_sequence s n h hbelow
  obtain ⟨id, kind, start, stop, children⟩ := n
  cases kind with
  | expr k =>
      cases k with
      | nil | true | false | number | vararg =>
          rw [Layout.expr]
          exact hcopy rfl (by simp)
      | string => exact hstring rfl
      | interpolation | var | call | conditional =>
          rw [Layout.expr]
          exact hsequence rfl rfl d
      | table =>
          rw [Layout.expr]
          exact htable rfl
      | function =>
          rw [Layout.expr]
          exact hfunction rfl
      | parens =>
          rw [Layout.expr]
          exact hparens rfl
      | binary =>
          rw [Layout.expr]
          exact hbinary rfl
      | unary =>
          rw [Layout.expr]
          exact hprefixed rfl
  | _ => cases hkind

omit h in
/-- Values that are returned, if there are any. -/
theorem writes_return (hkind : n.kind = .stmt .returnStmt) (d : Nat) :
    Writes d
      (do
        Layout.write "return"
        if n.children.length > 1 then
          Layout.write " "
          Layout.commaSeparated s true n.children
        Layout.newline) (Typeset.node s d n ++ ['\n']) := by
  have hvalues : Writes d _ _ := .commaSeparated hbelow true
  rw [Typeset.node_returnStmt hkind, List.append_assoc]
  refine (Writes.write "return").seq ?_
  split
  · rw [List.append_assoc]
    exact (Writes.write " ").seq (hvalues.seq (.put ['\n']))
  · exact .put ['\n']

theorem IsSound.writes_statement (hkind : n.kind.isStmt) (d : Nat) :
    Writes d (Layout.statement s n)
      (List.replicate d '\t' ++ (Typeset.node s d n ++ ['\n'])) := by
  have hline : ∀ {l : Layout Unit}, Writes d l (Typeset.node s d n) →
      Writes d (do Layout.tabs; l; Layout.newline)
        (List.replicate d '\t' ++ (Typeset.node s d n ++ ['\n'])) := fun hl =>
    Writes.tabs.seq (hl.seq (.put ['\n']))
  have hcomment : n.kind = .stmt .comment → Typeset.node s d n = word s n := fun hkind =>
    Typeset.node_word (.inl (by rw [hkind]; exact ⟨rfl, by simp⟩))
  have hown : Writes d (Layout.ownLineComment s n) _ := .ownLineComment n
  have hreturn := writes_return hbelow (d := d)
  have hbreak : n.kind = .stmt .breakStmt → Typeset.node s d n = "break".toList :=
    Typeset.node_breakStmt
  have hcontinue : n.kind = .stmt .continueStmt → Typeset.node s d n = "continue".toList :=
    Typeset.node_continueStmt
  have hlocal := h.writes_localFunction hbelow (d := d)
  have hnamed := h.writes_namedFunction hbelow (d := d)
  have hassignment := h.writes_assignment hbelow (d := d)
  have hcompound := h.writes_compoundAssignment hbelow (d := d)
  have hsequence := @IsSound.writes_sequence s n h hbelow
  have hblocks := h.writes_blocks hbelow (d := d)
  obtain ⟨id, kind, start, stop, children⟩ := n
  cases kind with
  | stmt k =>
      cases k with
      | localVar | call =>
          rw [Layout.statement]
          exact hline (hsequence rfl rfl d)
      | localFn =>
          rw [Layout.statement]
          exact hline (hlocal rfl)
      | fn =>
          rw [Layout.statement]
          exact hline (hnamed rfl)
      | assign =>
          rw [Layout.statement]
          exact hline (hassignment rfl)
      | compoundAssign =>
          rw [Layout.statement]
          exact hline (hcompound rfl)
      | ifStmt | whileStmt | repeatStmt | forRange | forIn | doStmt =>
          rw [Layout.statement]
          · exact hblocks rfl
          all_goals
            intros
            contradiction
      | returnStmt =>
          rw [Layout.statement]
          exact Writes.tabs.seq (hreturn rfl)
      | breakStmt =>
          rw [Layout.statement, hbreak rfl]
          exact Writes.tabs.seq (.write "break\n")
      | continueStmt =>
          rw [Layout.statement, hcontinue rfl]
          exact Writes.tabs.seq (.write "continue\n")
      | comment =>
          rw [Layout.statement, hcomment rfl]
          exact hown
  | _ => cases hkind

end Node

/-! ### Nodes with what is below them -/

/-- A node is laid out as its text if what is below it is. -/
theorem Node.IsSpelled.isTypeset (h : n.IsSpelled s.source)
    (hclosed : n.kind.isWhole → ∀ d, (Typeset.node s d n).IsClosed)
    (hbelow : ∀ c ∈ n.children, c.IsTypeset s) : n.IsTypeset s where
  closed := fun hkind => hclosed (Kind.isWhole_of_isExpr hkind)
  expr := h.sound.writes_expr hbelow
  expressions := fun hkind d => by
    have hvalues : Writes d _ _ := .commaSeparated hbelow true
    rw [Typeset.node_expressions hkind]
    obtain ⟨id, kind, start, stop, children⟩ := n
    rw [Layout.expressionsIn]
    exact hvalues
  arguments := fun hkind d => by
    have hvalues : Writes d _ _ := .commaSeparated hbelow true
    rw [Typeset.node_argList hkind, List.append_assoc]
    obtain ⟨id, kind, start, stop, children⟩ := n
    rw [Layout.arguments]
    exact .ite ((Writes.write " ").seq hvalues)
      ((Writes.write "(").seq (hvalues.seq (.write ")")))
  interpolated := h.sound.writes_interpolated hbelow
  functionBody := fun hkind d => by
    have hsequence := h.sound.writes_functionBody hbelow hkind d
    obtain ⟨id, kind, start, stop, children⟩ := n
    rw [Layout.functionBody]
    exact hsequence
  fieldList := h.sound.writes_fieldList hbelow
  field := fun hkind d => by
    have hsequence := h.sound.writes_sequence hbelow (by rw [hkind]; rfl) (by rw [hkind]; rfl) d
    obtain ⟨id, kind, start, stop, children⟩ := n
    rw [Layout.field]
    exact hsequence
  block := fun hkind d opener => by
    obtain ⟨ks, rfl, hform⟩ := h.sound.form hkind
    cases hform with
    | block hstmt => exact .block hbelow (fun c hc => hstmt c.kind (List.mem_map_of_mem hc)) opener
  statement := h.sound.writes_statement hbelow

mutual

/-- A node of which all nodes below are known is laid out as its text. -/
theorem Node.isTypeset (s : Setting) (n : Node) (h : ∀ m ∈ n.preorder, m.IsSpelled s.source) :
    n.IsTypeset s := by
  have hclosed := n.isClosed s h
  cases n with
  | mk id kind start stop children =>
      rw [Node.preorder_eq, List.forall_mem_cons] at h
      exact h.1.isTypeset hclosed (areTypeset s children h.2)

/-- So are its siblings. -/
theorem areTypeset (s : Setting) (nodes : List Node)
    (h : ∀ m ∈ preorderOfAll nodes, m.IsSpelled s.source) : ∀ c ∈ nodes, c.IsTypeset s := by
  cases nodes with
  | nil => exact List.forall_mem_nil _
  | cons n rest =>
      rw [preorderOfAll, List.forall_mem_append] at h
      exact List.forall_mem_cons.mpr ⟨Node.isTypeset s n h.1, areTypeset s rest h.2⟩

end

/-! ### Without a look at the page -/

namespace Layout

/-- A step that ends with a text put behind what was on the page before, whatever that
is, and with the indentation that it found. -/
def Appends (d : Nat) (l : Layout Unit) (t : Text) : Prop :=
  ∀ p : Page, p.indent = d →
    ∃ q, l.run p = .ok ((), q) ∧ q.text = p.text ++ t ∧ q.indent = p.indent

theorem Writes.appends (h : Writes d l t) (hsucceeds : Succeeds l) : Appends d l t := by
  rintro ⟨r, _⟩ rfl
  obtain ⟨⟨⟩, q, hrun⟩ := hsucceeds ⟨r, _⟩
  have hq := h r ⟨r, _⟩ rfl () q hrun
  refine ⟨q, hrun, ?_, ?_⟩ <;> simp [hq, Page.text]

/-- The fields of a table in their braces, where the text of the first one tells
beforehand whether they are on one line. -/
def foreseenFieldList (s : Setting) (d : Nat) (n : Node) : Layout Unit :=
  if mayBeInline n.children && !(Typeset.firstField s d n.children).contains '\n' then do
    write "\x7b"
    firstField s n.children
    write "\x7d"
  else do
    write "\x7b\n"
    deeper
    fieldLine s n none n.children
    shallower
    tabs
    write "\x7d"

/-- A piece of code in an interpolated string, where the text of the value tells
beforehand whether braces have to be kept apart. -/
def foreseenInterpolated (s : Setting) (d : Nat) (value : Node) : Layout Unit := do
  write "\x7b"
  if (Typeset.node s d value).head? = some '{' then write " "
  expr s value
  if (Typeset.node s d value).getLast? = some '\x7d' then write " "
  write "\x7d"

theorem Succeeds.foreseenInterpolated {value : Node} (h : Succeeds (expr s value)) (d : Nat) :
    Succeeds (foreseenInterpolated s d value) := by
  have hlast := Succeeds.ite (c := (Typeset.node s d value).getLast? = some '\x7d')
    (.seq (.write " ") (.write "\x7d")) (.write "\x7d")
  exact .seq (.write _) (.ite (.seq (.write _) (h.seq hlast)) (h.seq hlast))

end Layout

namespace Node

theorem IsSound.succeeds_foreseenFieldList (h : n.IsSound s.source) (hbelow : n.Below s)
    (hkind : n.kind = .aux .fieldList) (d : Nat) : Succeeds (foreseenFieldList s d n) :=
  .ite (.seq (.write _) (.seq (.firstField hbelow.written) (.write _)))
    (.seq (.write _) (.seq .deeper (.seq (h.fieldLine hbelow hkind) (.seq .shallower
      (.seq .tabs (.write _))))))

variable (h : n.IsSound s.source) (hbelow : ∀ c ∈ n.children, c.IsTypeset s)

include h

/-- The value of a piece of code in an interpolated string. -/
theorem IsSound.exists_value (hkind : n.kind = .aux .interpExpr) :
    ∃ value, n.children[1]? = some value ∧ value.kind.isExpr := by
  obtain ⟨ks, hks, hform⟩ := h.form hkind
  cases hform with
  | interpolated hvalue =>
      obtain ⟨_, _, hchildren, -, hrest⟩ := List.map_eq_cons_iff.mp hks
      obtain ⟨value, _, rfl, rfl, -⟩ := List.map_eq_cons_iff.mp hrest
      exact ⟨value, by simp [hchildren], hvalue⟩

include hbelow

theorem IsSound.writes_foreseenFieldList (hkind : n.kind = .aux .fieldList) (d : Nat) :
    Writes d (foreseenFieldList s d n) (Typeset.node s d n) := by
  have hfirst : Writes d _ _ := .firstField hbelow
  have hlines : Extends (d + 1) _ _ := .fieldLine hbelow (h.isItem hkind) n none
  rw [Typeset.node_fieldList hkind, List.append_assoc]
  exact .ite ((Writes.write "\x7b").seq (hfirst.seq (.write "\x7d"))) hlines.braced

theorem IsSound.writes_foreseenInterpolated (hkind : n.kind = .aux .interpExpr) {value : Node}
    (hvalue : n.children[1]? = some value) (d : Nat) :
    Writes d (foreseenInterpolated s d value) (Typeset.node s d n) := by
  obtain ⟨ks, hks, hform⟩ := h.form hkind
  cases hform with
  | interpolated hexpr =>
      simp only [List.map_eq_cons_iff, List.map_eq_nil_iff] at hks
      obtain ⟨left, _, hchildren, hleft, value, _, rfl, rfl, right, _, rfl, hright, rfl⟩ := hks
      rw [hchildren] at hvalue
      cases hvalue
      have hwrites := (hbelow value (by simp [hchildren])).expr hexpr d
      rw [Typeset.node_interpExpr hkind, hchildren, Typeset.series_between hleft hexpr hright,
        Typeset.braced, List.append_assoc, List.append_assoc, List.append_assoc]
      exact (Writes.write "\x7b").seq (.when " " (hwrites.seq (.when " " (.write "\x7d"))))

end Node

/-! ### The tree of a source -/

variable {source : Text} {tree : SyntaxTree}

/-- What is known of the layout of the nodes of a source. -/
theorem Parsed.isTypeset {inner : Forest} {gap : Text} (h : Parsed source tree inner gap)
    (options : LayoutOptions) : ∀ n ∈ preorderOfAll tree.root.children,
      n.IsTypeset ⟨tree.source, options⟩ ∧ n.IsWritten ⟨tree.source, options⟩ := by
  intro n hn
  have hbelow : ∀ m ∈ n.preorder, m ∈ preorderOfAll tree.root.children := fun m hm =>
    mem_preorderOfAll_trans _ hn hm
  exact ⟨n.isTypeset _ fun m hm => h.isSpelled m (hbelow m hm),
    n.isWritten _ fun m hm => h.sound m (hbelow m hm)⟩

/-- An expression of a source is put behind what was on the page before, as a text that
the node, the indentation and the options tell, and that ends in no line feed.  A table
that was tried on one line, and an interpolated string whose braces had to be kept
apart, are on the page as if that had been known beforehand. -/
theorem parse_appends (hparse : parse source = .ok tree) (herrors : tree.errors = [])
    (options : LayoutOptions) : ∀ n ∈ tree.root.preorder, ∀ d : Nat,
      let s : Setting := ⟨tree.source, options⟩
      (n.kind.isExpr → (Typeset.node s d n).IsClosed ∧
        Appends d (Layout.expr s n) (Typeset.node s d n)) ∧
      (n.kind = .aux .fieldList →
        Appends d (Layout.fieldList s n) (Typeset.node s d n) ∧
        Appends d (foreseenFieldList s d n) (Typeset.node s d n)) ∧
      (n.kind = .aux .interpExpr → ∃ value, n.children[1]? = some value ∧
        Appends d (Layout.interpolated s n) (Typeset.node s d n) ∧
        Appends d (foreseenInterpolated s d value) (Typeset.node s d n)) := by
  obtain ⟨inner, gap, h⟩ := parse_parsed hparse herrors
  intro n hn d s
  rw [Node.preorder_eq, List.mem_cons] at hn
  obtain rfl | hn := hn
  · simp [h.root_kind, Kind.isExpr, Kind.expr?]
  have hsound : n.IsSound s.source := h.sound n hn
  obtain ⟨htypeset, hwritten⟩ := h.isTypeset options n hn
  have hchildren : ∀ c ∈ n.children, c ∈ preorderOfAll tree.root.children := fun c hc =>
    mem_preorderOfAll_trans _ hn (n.mem_preorder_of_child hc (by simp [Node.preorder_eq]))
  have htypesets := fun c hc => (h.isTypeset options c (hchildren c hc)).1
  have hbelow : n.Below s := ⟨fun c hc => h.sound c (hchildren c hc),
    fun c hc => (h.isTypeset options c (hchildren c hc)).2⟩
  refine ⟨fun hkind => ⟨htypeset.closed hkind d,
    (htypeset.expr hkind d).appends (hwritten.expr hkind)⟩, fun hkind => ?_, fun hkind => ?_⟩
  · exact ⟨(htypeset.fieldList hkind d).appends (hwritten.fieldList hkind),
      (hsound.writes_foreseenFieldList htypesets hkind d).appends
        (hsound.succeeds_foreseenFieldList hbelow hkind d)⟩
  · obtain ⟨value, hvalue, hexpr⟩ := hsound.exists_value hkind
    refine ⟨value, hvalue, (htypeset.interpolated hkind d).appends (hwritten.interpolated hkind),
      (hsound.writes_foreseenInterpolated htypesets hkind hvalue d).appends ?_⟩
    have hmem : value ∈ n.children := List.mem_of_getElem? hvalue
    exact .foreseenInterpolated ((hbelow.written value hmem).expr hexpr) d

/-- A table that breaks after it was tried on one line, and in it a string with two
braces that have to be kept apart. -/
theorem parse_appends_broken :
    ∃ t list piece, parse "x = \x7bfunction() return `\x7b \x7b1\x7d\x7d` end\x7d".toList = .ok t ∧
      t.errors = [] ∧ list ∈ t.root.preorder ∧ piece ∈ t.root.preorder ∧
      Appends 0 (Layout.fieldList ⟨t.source, .standard⟩ list)
        "\x7b\n\tfunction()\n\t\treturn `\x7b \x7b1\x7d \x7d`\n\tend,\n\x7d".toList ∧
      Appends 2 (Layout.interpolated ⟨t.source, .standard⟩ piece) "\x7b \x7b1\x7d \x7d".toList := by
  obtain ⟨t, hparse, herrors, ⟨list, hlist, hlistKind, hbroken⟩, piece, hpiece, hpieceKind,
      hapart⟩ :=
    exists_tree_with "x = \x7bfunction() return `\x7b \x7b1\x7d\x7d` end\x7d".toList
      (p := fun t => t.errors = [] ∧
        (∃ n ∈ t.root.preorder, n.kind = .aux .fieldList ∧
          Typeset.node ⟨t.source, .standard⟩ 0 n =
            "\x7b\n\tfunction()\n\t\treturn `\x7b \x7b1\x7d \x7d`\n\tend,\n\x7d".toList) ∧
        ∃ n ∈ t.root.preorder, n.kind = .aux .interpExpr ∧
          Typeset.node ⟨t.source, .standard⟩ 2 n = "\x7b \x7b1\x7d \x7d".toList)
      (by decide +kernel)
  have hbreaks := ((parse_appends hparse herrors .standard list hlist 0).2.1 hlistKind).1
  obtain ⟨_, -, hkept, -⟩ :=
    (parse_appends hparse herrors .standard piece hpiece 2).2.2 hpieceKind
  exact ⟨t, list, piece, hparse, herrors, hlist, hpiece, hbroken ▸ hbreaks, hapart ▸ hkept⟩

end LuauTidy
