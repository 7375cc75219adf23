import LuauTidy.Proofs.Turns

/-!
# Lines

What the steps of the layout do to a page, told together with their notes: a step
adds to a line, begins one with ink, writes whole lines, or goes on where a line
starts.  Of the steps that take a node it is said once, for its kind; and then
rows of nodes are put together from them.

* `Adds`, `Inks`, `FillsLines`, `KeepsLines` — what steps do to a page;
* `Records.strokes`, `Records.begins` — strokes;
* `Node.IsRecorded` — every step of the layout that takes the node;
* `Inks.sequence`, `KeepsLines.fieldLine`, `KeepsLines.statements`, … — rows of nodes.
-/

namespace LuauTidy

open Layout (Meets)
open Enclosure (levels)

/-! ### Steps that write -/

/-- A step that adds to what is on the page. -/
def Adds (root : Node) (d : Nat) (l : Layout Unit) (w : Journaled Unit) : Prop :=
  ∀ b, Records root (Page.Keeps b d) l w fun _ => Page.Keeps b d

/-- A step that adds something that begins with ink. -/
def Inks (root : Node) (d : Nat) (l : Layout Unit) (w : Journaled Unit) : Prop :=
  ∀ r, Records root (· = ⟨r, d⟩) l w fun _ => Page.Opens r d

variable {root : Node} {d : Nat} {b r : Text} {s : Setting} {l l' : Layout Unit}
  {w w' : Journaled Unit}

theorem Inks.adds (h : Inks root d l w) : Adds root d l w := by
  intro b
  refine .exactly fun p hp => ?_
  obtain ⟨hkept, rfl⟩ := hp
  exact (h p.reversed).mono (fun _ hq => hq) fun _ _ hq => hq.keeps.weaken hkept

/-- What is opened stays so. -/
theorem Adds.opens (h : Adds root d l w) (r : Text) :
    Records root (Page.Opens r d) l w fun _ => Page.Opens r d := by
  refine .ofExists fun c hc => ?_
  exact (h (c :: r)).mono (fun _ hp => hp) fun _ q hq => ⟨c, hc, hq⟩

theorem Adds.seq (h : Adds root d l w) (h' : Adds root d l' w') :
    Adds root d (do l; l') (do w; w') :=
  fun b => (h b).bind fun _ => h' b

theorem Inks.seq (h : Inks root d l w) (h' : Adds root d l' w') :
    Inks root d (do l; l') (do w; w') :=
  fun r => (h r).bind fun _ => h'.opens r

theorem Adds.ite {c : Prop} [Decidable c] (hthen : c → Adds root d l w)
    (helse : ¬c → Adds root d l' w') : Adds root d (if c then l else l') (if c then w else w') :=
  fun b => .ite (fun h => hthen h b) fun h => helse h b

theorem Adds.look {k : Page → Layout Unit} {v : Page → Journaled Unit}
    (h : ∀ p, Adds root d (k p) (v p)) : Adds root d (get >>= k) (Journaled.page >>= v) :=
  fun b => .look fun p => h p b

theorem Adds.skip : Adds root d (pure ()) (pure ()) := fun _ => .pure fun _ hp => hp

theorem Adds.write (t : String) : Adds root d (Layout.write t) (liftM (Layout.write t)) :=
  fun _ => .lift (.put _)

theorem Adds.copy (n : Node) : Adds root d (Layout.copy s n) (liftM (Layout.copy s n)) :=
  fun _ => .lift .copy

theorem Adds.copyAll (nodes : List Node) :
    Adds root d (Layout.copyAll s nodes) (liftM (Layout.copyAll s nodes)) :=
  fun _ => .lift (.copyAll nodes)

theorem Adds.tabs : Adds root d Layout.tabs (liftM Layout.tabs) := fun _ => .lift .tabs

theorem Inks.write {t : String} (ht : Text.IsInked t.toList) :
    Inks root d (Layout.write t) (liftM (Layout.write t)) :=
  fun _ => .lift (.putInk ht)

/-! ### Strokes -/

variable {phase next : Phase} {child : Node}

theorem Records.stroke {one : Stroke} (h : one.turn phase = some next) :
    Records root (phase.Holds b d) (Layout.stroke s child one) (Journaled.stroke s child one)
      fun _ => next.Holds b d := by
  obtain ⟨fresh, extra⟩ := phase
  have hkeeps : ∀ p, Phase.Holds ⟨fresh, extra⟩ b d p → p.Keeps b (d + extra) :=
    fun _ hp => hp.keeps
  cases one with
  | text t =>
      obtain rfl := Option.some.inj h
      refine .lift ?_
      cases ht : t.toList.getLast? == some '\n' with
      | true => exact (Meets.putLine (by simpa using ht)).mono hkeeps fun _ _ hq => hq
      | false => exact (Meets.put _).mono hkeeps fun _ _ hq => hq
  | source =>
      obtain rfl := Option.some.inj h
      exact .lift (Meets.copy.mono hkeeps fun _ _ hq => hq)
  | parameters =>
      obtain rfl := Option.some.inj h
      exact .lift ((Meets.copyParameters _ _).mono hkeeps fun _ _ hq => hq)
  | tabs =>
      obtain rfl := Option.some.inj h
      exact .lift (Meets.tabs.mono hkeeps fun _ _ hq => hq)
  | deeper =>
      obtain rfl := Option.some.inj h
      refine .lift (.modify fun p hp => ?_)
      cases fresh with
      | true => exact ⟨hp.ended, hp.kept, by rw [hp.indent, Nat.add_assoc]⟩
      | false => exact ⟨hp.kept, by rw [hp.indent, Nat.add_assoc]⟩
  | shallower =>
      cases extra with
      | zero => cases h
      | succ extra =>
          obtain rfl := Option.some.inj h
          refine .shallower (fun p hp => (hkeeps p hp).indent) fun p hp => ?_
          cases fresh with
          | true => exact ⟨hp.ended, hp.kept, rfl⟩
          | false => exact ⟨hp.kept, rfl⟩

theorem Records.strokes {strokes : List Stroke} (h : Stroke.turnAll strokes phase = some next) :
    Records root (phase.Holds b d) (Layout.strokes s child strokes)
      (Journaled.strokes s child strokes)
      fun _ => next.Holds b d := by
  induction strokes generalizing phase with
  | nil =>
      obtain rfl := Option.some.inj h
      exact .pure fun _ hp => hp
  | cons one rest ih =>
      obtain ⟨middle, hone, hrest⟩ := Option.bind_eq_some_iff.mp h
      exact (Records.stroke hone).bind fun _ => ih hrest

/-- The strokes of the first child: behind the ink that they begin with the page
is in their phase. -/
theorem Records.begins {strokes : List Stroke} {k : Kind}
    (h : Piece.Begins k false (.strokes strokes) next)
    (hink : k.isInked → ∀ text, s.source.slice? child.start child.stop = some text → text.IsInked) :
    Records root (· = ⟨r, d⟩) (Layout.strokes s child strokes) (Journaled.strokes s child strokes)
      fun _ p => ∃ c, Lexeme.isBlank c = false ∧ next.Holds (c :: r) d p := by
  -- the rest of the strokes, once the first one has opened the page
  have hrest : ∀ {c : Char} {rest : List Stroke} {middle : Phase}, Lexeme.isBlank c = false →
      Stroke.turnAll rest middle = some next →
      Records root (middle.Holds (c :: r) d) (Layout.strokes s child rest)
        (Journaled.strokes s child rest)
        fun _ p => ∃ c, Lexeme.isBlank c = false ∧ next.Holds (c :: r) d p := by
    intro c rest middle hc hturn
    exact (Records.strokes hturn).mono (fun _ hp => hp) fun _ p hp => ⟨c, hc, hp⟩
  cases h with
  | @text t l _ ink turn =>
      have hfirst : Records root (· = ⟨r, d⟩) (Layout.stroke s child (.text t))
          (Journaled.stroke s child (.text t)) fun _ p =>
            ∃ c, Lexeme.isBlank c = false ∧
              Phase.Holds ⟨t.toList.getLast? == some '\n', 0⟩ (c :: r) d p := by
        refine .lift ?_
        cases hend : t.toList.getLast? == some '\n' with
        | true => exact .putInkLine ink (beq_iff_eq.mp hend)
        | false => exact .putInk ink
      exact hfirst.bind fun _ => .ofExists fun c hc => hrest hc turn
  | @source l _ ink turn =>
      have hturn : Stroke.turnAll l ⟨false, 0⟩ = some next := turn
      have hfirst : Records root (· = ⟨r, d⟩) (Layout.stroke s child .source)
          (Journaled.stroke s child .source) fun _ => Page.Opens r d := .lift (.copyInk (hink ink))
      exact hfirst.bind fun _ => .ofExists fun c hc => hrest hc hturn

/-! ### Nodes -/

/-- A word of a node begins with ink. -/
def Node.HasInk (source : Text) (n : Node) : Prop :=
  n.kind.isInked → ∀ text, source.slice? n.start n.stop = some text → text.IsInked

/-- Behind tabs there are lines that begin with ink, and then a line starts. -/
def Page.HasLines (r : Text) (d : Nat) (p : Page) : Prop :=
  ∃ c, Lexeme.isBlank c = false ∧ p.StartsLine (c :: (List.replicate d '\t' ++ r)) d

/-- A step that writes lines, the first of which is indented. -/
def FillsLines (root : Node) (d : Nat) (l : Layout Unit) (w : Journaled Unit) : Prop :=
  ∀ r, Records root (· = ⟨r, d⟩) l w fun _ => Page.HasLines r d

/-- A step that goes on at the start of a line. -/
def KeepsLines (root : Node) (d : Nat) (l : Layout Unit) (w : Journaled Unit) : Prop :=
  ∀ b, Records root (Page.StartsLine b d) l w fun _ => Page.StartsLine b d

/-- What is around a node, and what every step of the layout does that takes a node
of the kind. -/
structure Node.IsRecorded (n root : Node) (s : Setting) (around : List Enclosure) (d : Nat) :
    Prop where
  enclosed : root.Encloses around n
  level : levels around = d
  ink : n.HasInk s.source
  expr : n.kind.isExpr → Inks root d (Layout.expr s n) (Journaled.expr s around n)
  targets : n.kind = .aux .varList →
    Inks root d (Layout.expressionsIn s n) (Journaled.expressionsIn s around n)
  expressions : n.kind = .aux .exprList →
    Adds root d (Layout.expressionsIn s n) (Journaled.expressionsIn s around n)
  arguments : n.kind = .aux .argList →
    Adds root d (Layout.arguments s n) (Journaled.arguments s around n)
  interpolated : n.kind = .aux .interpExpr →
    Adds root d (Layout.interpolated s n) (Journaled.interpolated s around n)
  functionBody : n.kind = .aux .funcBody →
    Adds root d (Layout.functionBody s n) (Journaled.functionBody s around n)
  fieldList : n.kind = .aux .fieldList →
    Inks root d (Layout.fieldList s n) (Journaled.fieldList s around n)
  field : n.kind = .aux .field → Adds root d (Layout.field s n) (Journaled.field s around n)
  block : n.kind = .aux .block → ∀ opener,
    KeepsLines root (d + 1) (Layout.block s opener n) (Journaled.block s around opener n)
  statement : n.kind.isStmt →
    FillsLines root d (Layout.statement s n) (Journaled.statement s around n)

variable {nodes : List Node} {around : List Enclosure} {rule : Rule}

/-- What is written without a level open. -/
theorem Adds.inline (h : Adds root d l w)
    (turn : (if phase.extra = 0 then some ⟨false, 0⟩ else none) = some next) :
    Records root (phase.Holds b d) l w fun _ => next.Holds b d := by
  split at turn
  · rename_i hextra
    obtain rfl := Option.some.inj turn
    refine (h b).mono (fun p hp => ?_) fun _ _ hq => hq
    have hkeeps := hp.keeps
    rwa [hextra] at hkeeps
  · cases turn

/-- Children behind the first one. -/
theorem Records.sequence (h : ∀ n ∈ nodes, n.IsRecorded root s around d)
    (hturns : rule.Turns phase (nodes.map Node.kind)) (parent : Node) (previous : Option Nat) :
    Records root (phase.Holds b d) (Layout.sequence s rule parent false previous nodes)
      (Journaled.sequence s around rule parent false previous nodes) fun _ => Page.Keeps b d := by
  induction nodes generalizing phase previous with
  | nil =>
      rw [Layout.sequence, Journaled.sequence]
      cases hturns
      exact .pure fun p hp => hp.keeps
  | cons n rest ih =>
      rw [List.forall_mem_cons] at h
      rw [Layout.sequence, Journaled.sequence]
      cases hturns with
      | @cons _ next _ piece _ fits suits turn tail =>
          have hrest := ih h.2 tail (some n.stop)
          simp only [fits]
          cases piece with
          | strokes l => exact (Records.strokes turn).bind fun _ => hrest
          | expression => exact ((h.1.expr suits).adds.inline turn).bind fun _ => hrest
          | arguments => exact ((h.1.arguments suits).inline turn).bind fun _ => hrest
          | interpolated => exact ((h.1.interpolated suits).inline turn).bind fun _ => hrest
          | block =>
              have hblock := h.1.block suits previous b
              rw [Piece.turn] at turn
              split at turn
              · rename_i hphase
                subst hphase
                obtain rfl := Option.some.inj turn
                exact hblock.bind fun _ => hrest
              · cases turn

/-- All children, where the first one begins with ink. -/
theorem Inks.sequence (h : ∀ n ∈ nodes, n.IsRecorded root s around d)
    (hlays : rule.Lays false (nodes.map Node.kind)) (parent : Node) (previous : Option Nat) :
    Inks root d (Layout.sequence s rule parent true previous nodes)
      (Journaled.sequence s around rule parent true previous nodes) := by
  intro r
  cases nodes with
  | nil => cases hlays
  | cons n rest =>
      rw [List.forall_mem_cons] at h
      rw [Layout.sequence, Journaled.sequence]
      cases hlays with
      | @mk _ piece next _ fits begins turns =>
          have hrest : ∀ c, Lexeme.isBlank c = false → Records root (next.Holds (c :: r) d)
              (Layout.sequence s rule parent false (some n.stop) rest)
              (Journaled.sequence s around rule parent false (some n.stop) rest)
              fun _ => Page.Opens r d := by
            intro c hc
            exact (Records.sequence h.2 turns parent _).mono (fun _ hp => hp)
              fun _ q hq => ⟨c, hc, hq⟩
          simp only [fits]
          cases piece with
          | strokes l =>
              exact (Records.begins begins h.1.ink).bind fun _ => .ofExists hrest
          | expression =>
              cases begins with
              | expression hexpr => exact (h.1.expr hexpr r).bind fun _ => .ofExists hrest
          | _ => cases begins

/-- All children, where the first one starts its line itself. -/
theorem Records.sequenceTabbed (h : ∀ n ∈ nodes, n.IsRecorded root s around d)
    (hlays : rule.Lays true (nodes.map Node.kind)) (parent : Node) (previous : Option Nat) :
    Records root (· = ⟨r, d⟩) (Layout.sequence s rule parent true previous nodes)
      (Journaled.sequence s around rule parent true previous nodes)
      fun _ => Page.Opens (List.replicate d '\t' ++ r) d := by
  cases nodes with
  | nil => cases hlays
  | cons n rest =>
      rw [List.forall_mem_cons] at h
      rw [Layout.sequence, Journaled.sequence]
      cases hlays with
      | @mk _ piece next _ fits begins turns =>
          simp only [fits]
          cases begins with
          | @tabs l _ begins =>
              have htabs : Records root (· = ⟨r, d⟩) (Layout.stroke s n .tabs)
                  (Journaled.stroke s n .tabs)
                  fun _ => (· = ⟨List.replicate d '\t' ++ r, d⟩) := .lift .tabsAt
              have hfirst := htabs.bind fun _ => Records.begins begins h.1.ink
              refine hfirst.bind fun _ => .ofExists fun c hc => ?_
              exact (Records.sequence h.2 turns parent _).mono (fun _ hp => hp)
                fun _ q hq => ⟨c, hc, hq⟩

/-! ### Rows of nodes -/

theorem Adds.commaSeparated (h : ∀ n ∈ nodes, n.IsRecorded root s around d) (first : Bool) :
    Adds root d (Layout.commaSeparated s first nodes)
      (Journaled.commaSeparated s around first nodes) := by
  induction nodes generalizing first with
  | nil =>
      rw [Layout.commaSeparated, Journaled.commaSeparated]
      exact .skip
  | cons n rest ih =>
      rw [List.forall_mem_cons] at h
      rw [Layout.commaSeparated, Journaled.commaSeparated]
      refine .ite (fun hexpr => ?_) fun _ => ih h.2 first
      have hrest : Adds root d (do Layout.expr s n; Layout.commaSeparated s false rest)
          (do Journaled.expr s around n; Journaled.commaSeparated s around false rest) :=
        (h.1.expr hexpr).adds.seq (ih h.2 false)
      exact .ite (fun _ => (Adds.write _).seq hrest) fun _ => hrest

/-- The first of some expressions begins with ink. -/
theorem Inks.commaSeparated {n : Node} (h : ∀ m ∈ n :: nodes, m.IsRecorded root s around d)
    (hexpr : n.kind.isExpr) :
    Inks root d (Layout.commaSeparated s true (n :: nodes))
      (Journaled.commaSeparated s around true (n :: nodes)) := by
  rw [List.forall_mem_cons] at h
  have hn : n.isExpr = true := hexpr
  rw [Layout.commaSeparated, Journaled.commaSeparated]
  simp only [hn, if_true, Bool.not_true, Bool.false_eq_true, if_false]
  exact (h.1.expr hexpr).seq (.commaSeparated h.2 false)

theorem Adds.firstField (h : ∀ n ∈ nodes, n.IsRecorded root s around d) :
    Adds root d (Layout.firstField s nodes) (Journaled.firstField s around nodes) := by
  induction nodes with
  | nil =>
      rw [Layout.firstField, Journaled.firstField]
      exact .skip
  | cons n rest ih =>
      rw [List.forall_mem_cons] at h
      rw [Layout.firstField, Journaled.firstField]
      exact .ite (fun hfield => h.1.field (by simpa using hfield)) fun _ => ih h.2

theorem Inks.table (h : ∀ n ∈ nodes, n.IsRecorded root s around d) :
    Inks root d (Layout.table s nodes) (Journaled.table s around nodes) := by
  induction nodes with
  | nil =>
      rw [Layout.table, Journaled.table]
      exact .write ⟨_, _, rfl, rfl⟩
  | cons n rest ih =>
      rw [List.forall_mem_cons] at h
      rw [Layout.table, Journaled.table]
      by_cases hlist : (n.kind == .aux .fieldList) = true
      · rw [if_pos hlist, if_pos hlist]
        exact h.1.fieldList (by simpa using hlist)
      · rw [if_neg hlist, if_neg hlist]
        exact ih h.2

theorem KeepsLines.seq (h : KeepsLines root d l w) (h' : KeepsLines root d l' w') :
    KeepsLines root d (do l; l') (do w; w') :=
  fun b => (h b).bind fun _ => h' b

theorem KeepsLines.ite {c : Prop} [Decidable c] (hthen : c → KeepsLines root d l w)
    (helse : ¬c → KeepsLines root d l' w') :
    KeepsLines root d (if c then l else l') (if c then w else w') :=
  fun b => .ite (fun h => hthen h b) fun h => helse h b

theorem KeepsLines.skip : KeepsLines root d (pure ()) (pure ()) := fun _ => .pure fun _ hp => hp

/-- A comment goes on the line that was written last. -/
theorem KeepsLines.trailingComment (n : Node) :
    KeepsLines root d (Layout.trailingComment s n) (liftM (Layout.trailingComment s n)) :=
  fun _ => .lift .trailingComment

/-- A comment goes on the line that was written last, or on its own. -/
theorem KeepsLines.comment (n : Node) (trailing : Bool) (h : KeepsLines root d l w) :
    KeepsLines root d
      (if trailing then do Layout.trailingComment s n; l else do Layout.ownLineComment s n; l)
      (if trailing then do Layout.trailingComment s n; w else do Layout.ownLineComment s n; w) := by
  have hown : KeepsLines root d (Layout.ownLineComment s n) (liftM (Layout.ownLineComment s n)) :=
    fun _ => .lift (Meets.ownLineComment.mono (fun _ hp => hp.keeps) fun _ _ hq => hq)
  exact .ite (fun _ => (KeepsLines.trailingComment n).seq h) fun _ => hown.seq h

/-- The items of a field list, each on its line. -/
theorem KeepsLines.fieldLine (h : ∀ n ∈ nodes, n.IsRecorded root s around d)
    (hitem : ∀ n ∈ nodes, n.kind.IsItem) (parent : Node) (previous : Option Nat) :
    KeepsLines root d (Layout.fieldLine s parent previous nodes)
      (Journaled.fieldLine s around parent previous nodes) := by
  induction nodes generalizing previous with
  | nil =>
      rw [Layout.fieldLine, Journaled.fieldLine]
      exact .skip
  | cons n rest ih =>
      rw [List.forall_mem_cons] at h hitem
      have hrest := ih h.2 hitem.2 (some n.stop)
      rw [Layout.fieldLine, Journaled.fieldLine]
      rcases hitem.1 with hk | hk | hk | hk <;> simp only [hk]
      · intro b
        have htabs : Records root (Page.StartsLine b d) Layout.tabs (liftM Layout.tabs)
            fun _ => Page.Keeps b d :=
          .lift (Meets.tabs.mono (fun _ hp => hp.keeps) fun _ _ hq => hq)
        refine htabs.bind fun _ => (h.1.field hk b).bind fun _ => ?_
        exact Records.bind (.lift (.putLine rfl)) fun _ => hrest b
      · exact hrest
      · exact hrest
      · have hcomment := fun trailing => KeepsLines.comment (s := s) n trailing hrest
        cases previous with
        | none =>
            exact fun b => (Records.pure fun _ hp => hp).bind fun trailing => hcomment trailing b
        | some stop =>
            intro b
            exact Records.bind (.lift .sameLine) fun trailing => hcomment trailing b

/-- The lines of a table that is broken: what was tried is taken back, and the
lines are one level deeper. -/
theorem KeepsLines.brokenTable (h : KeepsLines root (d + 1) l w) (r : Text) :
    Records root (Page.Keeps r d)
      (do
        (modify fun p => p.truncate r.length : Layout Unit)
        Layout.write "\x7b\n"
        Layout.deeper
        l
        Layout.shallower
        Layout.tabs
        Layout.write "\x7d")
      (do
        (modify fun p => p.truncate r.length : Layout Unit)
        Layout.write "\x7b\n"
        Layout.deeper
        w
        Journaled.shallower
        Layout.tabs
        Layout.write "\x7d") fun _ => Page.Opens r d := by
  have htruncate : Meets (Page.Keeps r d) (modify fun p => p.truncate r.length : Layout Unit)
      fun _ => (· = ⟨r, d⟩) := .modify fun p hp => hp.truncate
  refine Records.bind (.lift htruncate) fun _ => ?_
  refine Records.bind (.lift (.putInkLine ⟨_, _, rfl, rfl⟩ rfl)) fun _ => .ofExists fun c hc => ?_
  have hdeeper : Meets (Page.StartsLine (c :: r) d) Layout.deeper
      fun _ => Page.StartsLine (c :: r) (d + 1) :=
    .modify fun p hp => ⟨hp.ended, hp.kept, congrArg (· + 1) hp.indent⟩
  refine Records.bind (.lift hdeeper) fun _ => (h (c :: r)).bind fun _ => ?_
  have hshallower : Records root (Page.StartsLine (c :: r) (d + 1)) Layout.shallower
      Journaled.shallower fun _ => Page.Keeps (c :: r) d :=
    .shallower (fun p hp => hp.indent) fun p hp => ⟨hp.keeps.kept, rfl⟩
  have hlast :
      Adds root d (do Layout.tabs; Layout.write "\x7d") (do Layout.tabs; Layout.write "\x7d") :=
    Adds.tabs.seq (.write _)
  exact hshallower.bind fun _ => (hlast (c :: r)).mono (fun _ hp => hp) fun _ _ hq => ⟨c, hc, hq⟩

/-- A statement that starts a line, and what comes after it. -/
theorem KeepsLines.ownLines {n : Node} {around : List Enclosure} (hn : root.Encloses around n)
    (hd : levels around = d) (h : FillsLines root d l w) (h' : KeepsLines root d l' w') :
    KeepsLines root d (do l; l') (do Journaled.ownLines n around w; w') := by
  intro b
  refine Records.bind (.exactly fun p hp => ?_) fun _ => h' b
  obtain ⟨hended, hkept, rfl⟩ := hp
  have hnoted : Records root (· = p) l (Journaled.ownLines n around w)
      fun _ => Page.HasLines p.reversed p.indent := by
    refine .ownLines (h p.reversed) fun q hq => ?_
    obtain ⟨c, hc, hlines⟩ := hq
    exact Note.isInOrder_statement hn hd hended hc hlines
  refine hnoted.mono (fun _ hq => hq) fun _ q hq => ?_
  obtain ⟨c, -, hlines⟩ := hq
  refine hlines.weaken ?_
  have htabs : p.reversed <:+ c :: (List.replicate p.indent '\t' ++ p.reversed) :=
    (List.suffix_append _ _).trans (List.suffix_cons c _)
  exact (hkept.trans (List.tail_suffix _)).trans htabs

/-- The statements of a block. -/
theorem KeepsLines.statements (h : ∀ n ∈ nodes, n.IsRecorded root s around d)
    (hstmt : ∀ n ∈ nodes, n.kind.isStmt) (parent : Node) (lineEnd : Option Nat)
    (previous lineKind : Option StmtKind) :
    KeepsLines root d (Layout.statements s parent lineEnd previous lineKind nodes)
      (Journaled.statements s around parent lineEnd previous lineKind nodes) := by
  induction nodes generalizing lineEnd previous lineKind with
  | nil =>
      rw [Layout.statements, Journaled.statements]
      exact .skip
  | cons n rest ih =>
      rw [List.forall_mem_cons] at h hstmt
      have hrest := ih h.2 hstmt.2 (some n.stop)
      obtain ⟨kind, hkind⟩ : ∃ kind, n.kind = .stmt kind := by
        cases hk : n.kind <;> first | exact ⟨_, rfl⟩ | simp [hk, Kind.isStmt, Kind.stmt?] at hstmt
      rw [Layout.statements, Journaled.statements]
      simp only [hkind]
      have hnewline : KeepsLines root d Layout.newline (liftM Layout.newline) :=
        fun _ => .lift (Meets.newline.mono (fun _ hp => hp.keeps) fun _ _ hq => hq)
      have hown := KeepsLines.ownLines h.1.enclosed h.1.level (h.1.statement hstmt.1)
        (hrest (some kind) (some kind))
      have hjoin : ∀ trailing : Bool, KeepsLines root d
          (if trailing then do
            Layout.trailingComment s n
            Layout.statements s parent (some n.stop) (some kind) lineKind rest
          else if Layout.needsBlankLine previous lineKind kind then do
            Layout.newline
            Layout.statement s n
            Layout.statements s parent (some n.stop) (some kind) (some kind) rest
          else do
            Layout.statement s n
            Layout.statements s parent (some n.stop) (some kind) (some kind) rest)
          (if trailing then do
            Layout.trailingComment s n
            Journaled.statements s around parent (some n.stop) (some kind) lineKind rest
          else if Layout.needsBlankLine previous lineKind kind then do
            Layout.newline
            Journaled.ownLines n around (Journaled.statement s around n)
            Journaled.statements s around parent (some n.stop) (some kind) (some kind) rest
          else do
            Journaled.ownLines n around (Journaled.statement s around n)
            Journaled.statements s around parent (some n.stop) (some kind) (some kind) rest) := by
        intro trailing
        exact .ite (fun _ => (KeepsLines.trailingComment n).seq (hrest _ _)) fun _ =>
          .ite (fun _ => hnewline.seq hown) fun _ => hown
      have hpure : ∀ b, Records root (Page.StartsLine b d) (pure false : Layout Bool) (pure false)
          fun _ => Page.StartsLine b d := fun _ => .pure fun _ hp => hp
      cases lineEnd with
      | none => exact fun b => (hpure b).bind fun trailing => hjoin trailing b
      | some stop =>
          intro b
          refine .ite (fun _ => ?_) fun _ => (hpure b).bind fun trailing => hjoin trailing b
          exact Records.bind (.lift .sameLine) fun trailing => hjoin trailing b

/-! ### Indented lines -/

/-- An indented line. -/
theorem FillsLines.line (h : Inks root d l w) :
    FillsLines root d (do Layout.tabs; l; Layout.newline) (do Layout.tabs; w; Layout.newline) := by
  intro r
  exact Records.bind (.lift .tabsAt) fun _ => (h _).bind fun _ => .lift .newlineBehind

/-- An indented line with a fixed text, which ends it. -/
theorem FillsLines.fixed {t : String} (ht : Text.IsInked t.toList)
    (hend : t.toList.getLast? = some '\n') :
    FillsLines root d (do Layout.tabs; Layout.write t)
      (liftM (do Layout.tabs; Layout.write t)) := by
  intro r
  exact .lift (Meets.tabsAt.bind fun _ => .putInkLine ht hend)

end LuauTidy
