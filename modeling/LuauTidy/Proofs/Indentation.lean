import LuauTidy.Proofs.Lines
import LuauTidy.Proofs.Quotes

/-!
# Indentation

Wherever the layout starts a line, it is indented by a tab for each block and
broken table around it: every form opens a level before it writes a block and
closes it again, and a table that is broken does the same for its fields.

* `Node.isRecorded` — a node of which all nodes below are sound and inked;
* `Parsed.keepsLines` — the statements of a source;
* `parse_keepsLines` — the journal of a source that is laid out.
-/

namespace LuauTidy

open Layout (Meets)
open Enclosure (levels)

variable {root : Node} {d : Nat} {s : Setting} {around : List Enclosure}

/-! ### A node with its children -/

namespace Node

variable {n : Node} (h : n.IsSound s.source)
  (hbelow : ∀ c ∈ n.children, c.IsRecorded root s around d)

include h hbelow

theorem IsSound.inks_parens (hkind : n.kind = .expr .parens) :
    Inks root d (Layout.parens s n n.children) (Journaled.parens s around n n.children) := by
  obtain ⟨ks, hks, hform⟩ := h.form hkind
  cases hform with
  | literal hliteral => cases hliteral
  | parens hvalue =>
      simp only [List.map_eq_cons_iff, List.map_eq_nil_iff] at hks
      obtain ⟨_, _, hchildren, -, value, _, rfl, rfl, _, _, rfl, -, rfl⟩ := hks
      have hrecorded := hbelow value (by simp [hchildren])
      rw [hchildren, Layout.parens, Journaled.parens]
      exact (Inks.write ⟨_, _, rfl, rfl⟩).seq ((hrecorded.expr hvalue).adds.seq (.write _))

theorem IsSound.inks_anonymousFunction (hkind : n.kind = .expr .function) :
    Inks root d (Layout.anonymousFunction s n n.children)
      (Journaled.anonymousFunction s around n n.children) := by
  obtain ⟨ks, hks, hform⟩ := h.form hkind
  cases hform with
  | literal hliteral => cases hliteral
  | anonymousFunction =>
      simp only [List.map_eq_cons_iff, List.map_eq_nil_iff] at hks
      obtain ⟨_, _, hchildren, -, body, _, rfl, hbody, rfl⟩ := hks
      have hrecorded := hbelow body (by simp [hchildren])
      rw [hchildren, Layout.anonymousFunction, Journaled.anonymousFunction]
      exact (Inks.write ⟨_, _, rfl, rfl⟩).seq (hrecorded.functionBody hbody)

theorem IsSound.inks_prefixed (hkind : n.kind = .expr .unary) :
    Inks root d (Layout.prefixed s n n.children) (Journaled.prefixed s around n n.children) := by
  obtain ⟨ks, hks, hform⟩ := h.form hkind
  cases hform with
  | literal hliteral => cases hliteral
  | @unary op _ unary hvalue =>
      simp only [List.map_eq_cons_iff, List.map_eq_nil_iff] at hks
      obtain ⟨mark, _, hchildren, hmark, value, _, rfl, rfl, rfl⟩ := hks
      have hoperand := ((hbelow value (by simp [hchildren])).expr hvalue).adds
      rw [hchildren, Layout.prefixed, Journaled.prefixed]
      simp only [hmark]
      cases op with
      | kwNot | hash => exact (Inks.write ⟨_, _, rfl, rfl⟩).seq hoperand
      | minus =>
          refine Inks.seq (.write ?_) hoperand
          split <;> exact ⟨_, _, rfl, rfl⟩
      | _ => cases unary

omit h in
/-- An operator between a first and a last child. -/
theorem inks_infixed {left mark right : Node} (hchildren : n.children = [left, mark, right])
    (hleft : left.kind.isExpr) (hright : right.kind.isExpr) :
    Inks root d (Layout.infixed s n n.children) (Journaled.infixed s around n n.children) := by
  rw [hchildren] at hbelow
  simp only [List.forall_mem_cons] at hbelow
  rw [hchildren, Layout.infixed, Journaled.infixed]
  exact (hbelow.1.expr hleft).seq ((Adds.write _).seq ((Adds.copy mark).seq ((Adds.write _).seq
    (hbelow.2.2.1.expr hright).adds)))

theorem IsSound.inks_binary (hkind : n.kind = .expr .binary) :
    Inks root d (Layout.infixed s n n.children) (Journaled.infixed s around n n.children) := by
  obtain ⟨ks, hks, hform⟩ := h.form hkind
  cases hform with
  | literal hliteral => cases hliteral
  | binary hleft _ hright =>
      simp only [List.map_eq_cons_iff, List.map_eq_nil_iff] at hks
      obtain ⟨_, _, hchildren, rfl, _, _, rfl, -, _, _, rfl, rfl, rfl⟩ := hks
      exact inks_infixed hbelow hchildren hleft hright

theorem IsSound.inks_compoundAssignment (hkind : n.kind = .stmt .compoundAssign) :
    Inks root d (Layout.infixed s n n.children) (Journaled.infixed s around n n.children) := by
  obtain ⟨ks, hks, hform⟩ := h.form hkind
  cases hform with
  | compoundAssignment _ hright =>
      simp only [List.map_eq_cons_iff, List.map_eq_nil_iff] at hks
      obtain ⟨_, _, hchildren, hleft, _, _, rfl, -, _, _, rfl, rfl, rfl⟩ := hks
      exact inks_infixed hbelow hchildren (by rw [hleft]; rfl) hright

/-- A node whose children are laid out by the rule of its kind. -/
theorem IsSound.inks_sequence {rule : Rule} (hrule : n.kind.rule? = some rule)
    (hplain : n.kind.startsLine = false) :
    Inks root d (Layout.sequence s rule n true none n.children)
      (Journaled.sequence s around rule n true none n.children) := by
  have hlays := h.formed.lays hrule
  rw [hplain] at hlays
  exact .sequence hbelow hlays n none

theorem IsSound.inks_localFunction (hkind : n.kind = .stmt .localFn) :
    Inks root d (Layout.localFunction s n n.children)
      (Journaled.localFunction s around n n.children) := by
  obtain ⟨ks, hks, hform⟩ := h.form hkind
  cases hform with
  | localFunction =>
      simp only [List.map_eq_cons_iff, List.map_eq_nil_iff] at hks
      obtain ⟨_, _, hchildren, -, _, _, rfl, -, name, _, rfl, -, body, _, rfl, hbody, rfl⟩ := hks
      have hrecorded := hbelow body (by simp [hchildren])
      rw [hchildren, Layout.localFunction, Journaled.localFunction]
      exact (Inks.write ⟨_, _, rfl, rfl⟩).seq
        ((Adds.copy name).seq (hrecorded.functionBody hbody))

theorem IsSound.inks_namedFunction (hkind : n.kind = .stmt .fn) :
    Inks root d (Layout.namedFunction s n n.children)
      (Journaled.namedFunction s around n n.children) := by
  obtain ⟨ks, hks, hform⟩ := h.form hkind
  cases hform with
  | function =>
      simp only [List.map_eq_cons_iff, List.map_eq_nil_iff] at hks
      obtain ⟨_, _, hchildren, -, name, _, rfl, -, body, _, rfl, hbody, rfl⟩ := hks
      have hrecorded := hbelow body (by simp [hchildren])
      rw [hchildren, Layout.namedFunction, Journaled.namedFunction]
      exact (Inks.write ⟨_, _, rfl, rfl⟩).seq
        ((Adds.copyAll name.children).seq (hrecorded.functionBody hbody))

theorem IsSound.inks_assignment (hkind : n.kind = .stmt .assign) :
    Inks root d (Layout.assignment s n n.children)
      (Journaled.assignment s around n n.children) := by
  obtain ⟨ks, hks, hform⟩ := h.form hkind
  cases hform with
  | assignment =>
      simp only [List.map_eq_cons_iff, List.map_eq_nil_iff] at hks
      obtain ⟨targets, _, hchildren, htargets, _, _, rfl, -, values, _, rfl, hvalues, rfl⟩ := hks
      have hrecorded := hbelow targets (by simp [hchildren])
      rw [hchildren, Layout.assignment, Journaled.assignment]
      exact (hrecorded.targets htargets).seq
        ((Adds.write _).seq ((hbelow values (by simp [hchildren])).expressions hvalues))

end Node

/-! ### A node with what is in it -/

namespace Node

variable {n : Node} (h : n.IsSound s.source)
  (hinside : ∀ c ∈ n.children, c.IsRecorded root s (.node n :: around) d)

include h hinside

/-- The variables that are assigned to. -/
theorem IsSound.inks_targets (hkind : n.kind = .aux .varList) :
    Inks root d (Layout.expressionsIn s n) (Journaled.expressionsIn s around n) := by
  obtain ⟨ks, hks, hform⟩ := h.form hkind
  obtain ⟨id, kind, start, stop, children⟩ := n
  have hfirst : ∃ first rest, children = first :: rest ∧ first.kind.isExpr := by
    cases hform with
    | varList hvars =>
        cases hvars with
        | one hk =>
            obtain ⟨first, rest, rfl, hfirst, -⟩ := List.map_eq_cons_iff.mp hks
            exact ⟨first, rest, rfl, by rw [hfirst, hk]; rfl⟩
        | cons hk =>
            obtain ⟨first, rest, rfl, hfirst, -⟩ := List.map_eq_cons_iff.mp hks
            exact ⟨first, rest, rfl, by rw [hfirst, hk]; rfl⟩
  obtain ⟨first, rest, rfl, hfirst⟩ := hfirst
  rw [Layout.expressionsIn, Journaled.expressionsIn]
  exact .commaSeparated hinside hfirst

theorem IsSound.adds_interpolated (hkind : n.kind = .aux .interpExpr) :
    Adds root d (Layout.interpolated s n) (Journaled.interpolated s around n) := by
  obtain ⟨ks, hks, hform⟩ := h.form hkind
  cases hform with
  | interpolated hvalue =>
      simp only [List.map_eq_cons_iff, List.map_eq_nil_iff] at hks
      obtain ⟨_, _, hchildren, -, value, _, rfl, rfl, _, _, rfl, -, rfl⟩ := hks
      have hexpr := (hinside value (by simp [hchildren])).expr hvalue
      obtain ⟨id, kind, start, stop, children⟩ := n
      dsimp only at hchildren
      subst hchildren
      rw [Layout.interpolated, Journaled.interpolated]
      intro b
      refine (Adds.write _ b).bind fun _ => .read fun p hp => ?_
      obtain ⟨hkept, rfl⟩ := hp
      have hend : Adds root p.indent
          (do if (← get).endsWith '\x7d' then Layout.write " "
              Layout.write "\x7d")
          (do if (← Journaled.page).endsWith '\x7d' then Layout.write " "
              Layout.write "\x7d") :=
        .look fun _ => .ite (fun _ => (Adds.write _).seq (.write _)) fun _ => .write _
      -- a blank may be put right behind the brace, which is at the end of `p`
      have hblank : Records root (Page.Keeps p.reversed p.indent)
          (modify fun q => q.insert p.length ' ' : Layout Unit)
          (liftM (modify fun q => q.insert p.length ' ' : Layout Unit))
          fun _ => Page.Keeps p.reversed p.indent := .lift (.modify fun _ hq => hq.insert ' ')
      refine ((hexpr p.reversed).bind fun _ => ?_).mono (fun _ hq => hq)
        (B := fun _ => Page.Keeps p.reversed p.indent) fun _ q hq => hq.weaken hkept
      refine Records.mono (A := Page.Keeps p.reversed p.indent) ?_ (fun _ hq => hq.keeps)
        fun _ _ hr => hr
      exact .look fun _ => .ite (fun _ => hblank.bind fun _ => hend _) fun _ => hend _

/-- A table on one line or more. -/
theorem IsSound.inks_fieldList
    (hbroken : ∀ c ∈ n.children, c.IsRecorded root s (.brokenTable n :: around) (d + 1))
    (hkind : n.kind = .aux .fieldList) :
    Inks root d (Layout.fieldList s n) (Journaled.fieldList s around n) := by
  have hlines := (KeepsLines.fieldLine hbroken (h.isItem hkind) n none).brokenTable
  have hfirst : Adds root d (Layout.firstField s n.children)
      (Journaled.firstField s (.node n :: around) n.children) := .firstField hinside
  obtain ⟨id, kind, start, stop, children⟩ := n
  rw [Layout.fieldList, Journaled.fieldList]
  intro r
  refine .read fun p hp => ?_
  subst hp
  by_cases hinline : Layout.mayBeInline children = true
  · rw [if_pos hinline, if_pos hinline]
    refine (Inks.write ⟨_, _, rfl, rfl⟩ r).bind fun _ => (hfirst.opens r).bind fun _ => ?_
    refine ((Adds.write _).opens r).bind fun _ => .look fun q => ?_
    exact .ite (fun _ => (hlines r).mono (fun _ hp => hp.keeps) fun _ _ hq => hq)
      fun _ => .pure fun _ hp => hp
  · rw [if_neg hinline, if_neg hinline]
    refine .look fun q => .ite (fun _ => ?_) fun hno => ?_
    · refine (hlines r).mono (fun p hp => ?_) fun _ _ hq => hq
      subst hp
      exact ⟨List.suffix_rfl, rfl⟩
    · exact absurd (by simp [hinline]) hno

omit h in
/-- The statements of a block, or of a whole source. -/
theorem keepsLines_block (hstmt : ∀ c ∈ n.children, c.kind.isStmt) (opener : Option Nat) :
    KeepsLines root d (Layout.block s opener n) (Journaled.block s around opener n) := by
  obtain ⟨id, kind, start, stop, children⟩ := n
  rw [Layout.block, Journaled.block]
  exact .statements hinside hstmt _ opener none none

end Node

/-- Delimiting a literal anew leaves ink at its beginning. -/
theorem normalizeQuotes_isInked {literal t : Text} (h : literal.IsInked)
    (hquotes : normalizeQuotes literal = .ok t) : t.IsInked := by
  obtain ⟨current, rest, rfl, hcurrent⟩ := h
  rw [normalizeQuotes] at hquotes
  split at hquotes
  · rename_i hquote
    split at hquotes
    · cases hquotes
    · rename_i body _
      dsimp only at hquotes
      split at hquotes
      · cases hquotes
        exact ⟨current, rest, rfl, hcurrent⟩
      · cases hquotes
        refine ⟨_, _, rfl, ?_⟩
        have hpreferred := isQuote_preferredQuote hquote (StringPiece.ofBody body)
        simp only [isQuote, Bool.or_eq_true, beq_iff_eq] at hpreferred
        rcases hpreferred with heq | heq <;> rw [heq] <;> rfl
  · cases hquotes
    exact ⟨current, rest, rfl, hcurrent⟩

namespace Node

variable {n : Node}

/-- A literal is copied, or delimited anew. -/
theorem HasInk.inks_string (h : n.HasInk s.source) (hkind : n.kind = .expr .string) :
    Inks root d (Layout.expr s n) (liftM (Layout.expr s n)) := by
  have hink := h (by rw [hkind]; rfl)
  obtain ⟨id, kind, start, stop, children⟩ := n
  obtain rfl : kind = .expr .string := hkind
  rw [Layout.expr]
  refine fun r => .lift (Meets.sourceText.bind fun literal => ?_)
  cases hquotes : normalizeQuotes literal with
  | error f => exact .broken
  | ok t =>
      intro p hp
      obtain ⟨hpage, hliteral⟩ := hp
      exact Meets.putInk (normalizeQuotes_isInked (hink literal hliteral) hquotes) p hpage

/-- A word is copied. -/
theorem HasInk.inks_copy (h : n.HasInk s.source) (hkind : n.kind.isInked) :
    Inks root d (Layout.copy s n) (liftM (Layout.copy s n)) :=
  fun _ => .lift (.copyInk (h hkind))

variable (h : n.IsSound s.source) (hink : n.HasInk s.source)
  (hinside : ∀ c ∈ n.children, c.IsRecorded root s (.node n :: around) d)

include h hink hinside

theorem IsSound.inks_expr (hkind : n.kind.isExpr) :
    Inks root d (Layout.expr s n) (Journaled.expr s around n) := by
  have hcopy : n.kind.isInked → Inks root d (Layout.copy s n) (liftM (Layout.copy s n)) :=
    hink.inks_copy
  have hstring : n.kind = .expr .string → Inks root d (Layout.expr s n) (liftM (Layout.expr s n)) :=
    hink.inks_string
  have hparens := h.inks_parens hinside
  have hfunction := h.inks_anonymousFunction hinside
  have hprefixed := h.inks_prefixed hinside
  have hbinary := h.inks_binary hinside
  have hsequence := @IsSound.inks_sequence root d s _ n h hinside
  have htable : Inks root d (Layout.table s n.children)
      (Journaled.table s (.node n :: around) n.children) := .table hinside
  obtain ⟨id, kind, start, stop, children⟩ := n
  cases kind with
  | expr k =>
      cases k with
      | nil | true | false | number | vararg =>
          rw [Journaled.expr, Layout.expr]
          · exact hcopy rfl
          all_goals exact fun heq => by cases heq
      | string =>
          rw [Journaled.expr]
          · exact hstring rfl
          all_goals exact fun heq => by cases heq
      | interpolation | var | call | conditional =>
          rw [Layout.expr, Journaled.expr]
          exact hsequence rfl rfl
      | table =>
          rw [Layout.expr, Journaled.expr]
          exact htable
      | function =>
          rw [Layout.expr, Journaled.expr]
          exact hfunction rfl
      | parens =>
          rw [Layout.expr, Journaled.expr]
          exact hparens rfl
      | binary =>
          rw [Layout.expr, Journaled.expr]
          exact hbinary rfl
      | unary =>
          rw [Layout.expr, Journaled.expr]
          exact hprefixed rfl
  | _ => cases hkind

theorem IsSound.fills_statement (hkind : n.kind.isStmt) :
    FillsLines root d (Layout.statement s n) (Journaled.statement s around n) := by
  have hcopy : n.kind.isInked → Inks root d (Layout.copy s n) (liftM (Layout.copy s n)) :=
    hink.inks_copy
  have hlocal := h.inks_localFunction hinside
  have hnamed := h.inks_namedFunction hinside
  have hassignment := h.inks_assignment hinside
  have hcompound := h.inks_compoundAssignment hinside
  have hsequence := @IsSound.inks_sequence root d s _ n h hinside
  have hvalues : Adds root d (Layout.commaSeparated s true n.children)
      (Journaled.commaSeparated s (.node n :: around) true n.children) :=
    .commaSeparated hinside true
  obtain ⟨id, kind, start, stop, children⟩ := n
  cases kind with
  | stmt k =>
      cases k with
      | localVar | call =>
          rw [Layout.statement, Journaled.statement]
          exact .line (hsequence rfl rfl)
      | localFn =>
          rw [Layout.statement, Journaled.statement]
          exact .line (hlocal rfl)
      | fn =>
          rw [Layout.statement, Journaled.statement]
          exact .line (hnamed rfl)
      | assign =>
          rw [Layout.statement, Journaled.statement]
          exact .line (hassignment rfl)
      | compoundAssign =>
          rw [Layout.statement, Journaled.statement]
          exact .line (hcompound rfl)
      | ifStmt | whileStmt | repeatStmt | forRange | forIn | doStmt =>
          have hlays := h.formed.lays rfl
          rw [Layout.statement, Journaled.statement]
          · intro r
            exact (Records.sequenceTabbed hinside hlays _ none).bind fun _ => .lift .endLine
          all_goals exact fun heq => by cases heq
      | returnStmt =>
          rw [Layout.statement, Journaled.statement]
          intro r
          refine Records.bind (.lift .tabsAt) fun _ => ?_
          refine (Inks.write ⟨_, _, rfl, rfl⟩ _).bind fun _ => .ite (fun _ => ?_) fun _ => ?_
          · refine ((Adds.write _).opens _).bind fun _ => (hvalues.opens _).bind fun _ => ?_
            exact .lift .newlineBehind
          · exact .lift .newlineBehind
      | breakStmt | continueStmt =>
          rw [Journaled.statement, Layout.statement]
          exact .fixed ⟨_, _, rfl, rfl⟩ rfl
      | comment =>
          rw [Journaled.statement, Layout.statement]
          intro r
          refine .lift (Meets.tabsAt.bind fun _ => (Meets.copyInk (hink rfl)).bind fun _ => ?_)
          exact .newlineBehind
  | _ => cases hkind

end Node

namespace Node

variable {n : Node} (h : n.IsSound s.source)
  (hinside : ∀ c ∈ n.children, c.IsRecorded root s (.node n :: around) (levels (.node n :: around)))

include h hinside

/-- What is known of every step that takes a node, from what is known of its
children. -/
theorem IsSound.isRecorded (hink : n.HasInk s.source) (hn : root.Encloses around n)
    (hbroken : n.kind = .aux .fieldList →
      ∀ c ∈ n.children, c.IsRecorded root s (.brokenTable n :: around) (levels around + 1)) :
    n.IsRecorded root s around (levels around) := by
  have hplain : n.kind ≠ .aux .block →
      ∀ c ∈ n.children, c.IsRecorded root s (.node n :: around) (levels around) := by
    intro hkind
    rw [Enclosure.levels_node hkind] at hinside
    exact hinside
  have hsequence : ∀ rule, n.kind.rule? = some rule → n.kind.startsLine = false →
      n.kind ≠ .aux .block → Adds root (levels around)
        (Layout.sequence s rule n true none n.children)
        (Journaled.sequence s (.node n :: around) rule n true none n.children) :=
    fun rule hrule hstarts hkind => (h.inks_sequence (hplain hkind) hrule hstarts).adds
  have hvalues : n.kind ≠ .aux .block → Adds root (levels around)
      (Layout.commaSeparated s true n.children)
      (Journaled.commaSeparated s (.node n :: around) true n.children) :=
    fun hkind => .commaSeparated (hplain hkind) true
  exact {
    enclosed := hn
    level := rfl
    ink := hink
    expr := fun hkind =>
      h.inks_expr hink (hplain (fun heq => by rw [heq] at hkind; cases hkind)) hkind
    targets := fun hkind => h.inks_targets (hplain (by simp [hkind])) hkind
    expressions := fun hkind => by
      have hvalues := hvalues (by simp [hkind])
      obtain ⟨id, kind, start, stop, children⟩ := n
      rw [Layout.expressionsIn, Journaled.expressionsIn]
      exact hvalues
    arguments := fun hkind => by
      have hvalues := hvalues (by simp [hkind])
      obtain ⟨id, kind, start, stop, children⟩ := n
      rw [Layout.arguments, Journaled.arguments]
      exact .ite (fun _ => (Adds.write _).seq hvalues)
        fun _ => (Adds.write _).seq (hvalues.seq (.write _))
    interpolated := fun hkind => h.adds_interpolated (hplain (by simp [hkind])) hkind
    functionBody := fun hkind => by
      have hsequence := hsequence Rule.functionBody (by rw [hkind]; rfl) (by rw [hkind]; rfl)
        (by simp [hkind])
      obtain ⟨id, kind, start, stop, children⟩ := n
      rw [Layout.functionBody, Journaled.functionBody]
      exact hsequence
    fieldList := fun hkind =>
      h.inks_fieldList (hplain (by simp [hkind])) (hbroken hkind) hkind
    field := fun hkind => by
      have hsequence := hsequence Rule.field (by rw [hkind]; rfl) (by rw [hkind]; rfl)
        (by simp [hkind])
      obtain ⟨id, kind, start, stop, children⟩ := n
      rw [Layout.field, Journaled.field]
      exact hsequence
    block := fun hkind opener => by
      rw [Enclosure.levels_block hkind] at hinside
      refine keepsLines_block hinside ?_ opener
      obtain ⟨ks, rfl, hform⟩ := h.form hkind
      cases hform with
      | block hstmt => exact fun c hc => hstmt c.kind (List.mem_map_of_mem hc)
    statement := fun hkind => 
      h.fills_statement hink (hplain (fun heq => by rw [heq] at hkind; cases hkind)) hkind }

end Node

mutual

/-- What is known of every step that takes a node of which all nodes below are
sound. -/
theorem Node.isRecorded (root : Node) (s : Setting) (around : List Enclosure) (n : Node)
    (hn : root.Encloses around n) (h : ∀ m ∈ n.preorder, m.IsSound s.source ∧ m.HasInk s.source) :
    n.IsRecorded root s around (levels around) := by
  cases n with
  | mk id kind start stop children =>
      rw [Node.preorder_eq, List.forall_mem_cons] at h
      obtain ⟨⟨hsound, hink⟩, hbelow⟩ := h
      refine hsound.isRecorded ?_ hink hn fun hkind => ?_
      · exact areRecorded root s _ children (fun c hc => hn.child hc) hbelow
      · exact areRecorded root s _ children (fun c hc => hn.field hkind hc) hbelow

/-- The same for siblings. -/
theorem areRecorded (root : Node) (s : Setting) (around : List Enclosure) (nodes : List Node)
    (hn : ∀ c ∈ nodes, root.Encloses around c)
    (h : ∀ m ∈ preorderOfAll nodes, m.IsSound s.source ∧ m.HasInk s.source) :
    ∀ c ∈ nodes, c.IsRecorded root s around (levels around) := by
  cases nodes with
  | nil => exact List.forall_mem_nil _
  | cons n rest =>
      rw [preorderOfAll, List.forall_mem_append] at h
      rw [List.forall_mem_cons] at hn
      exact List.forall_mem_cons.mpr
        ⟨Node.isRecorded root s around n hn.1 h.1, areRecorded root s around rest hn.2 h.2⟩

end

/-! ### The tree of a source -/

variable {t : SyntaxTree} {source : Text} {inner : Forest} {gap : Text}

/-- A leaf that is copied is no piece of a literal. -/
theorem LeafFits.isPiece {kind : Kind} {w : Token} (h : LeafFits kind w)
    (hink : kind.isInked) : w.cls.isPiece = false := by
  rcases h with hkind | ⟨hcls, -⟩ | ⟨hcls, -, -⟩
  · cases hcls : w.cls with
    | token k =>
        rw [hcls, TokenClass.leafKind?, Option.some.injEq] at hkind
        simpa [← hkind, Kind.isInked] using hink
    | literal k => rfl
    | comment => rfl
    | error cause => simp [hcls, TokenClass.leafKind?] at hkind
  · simp [hcls, TokenClass.isPiece]
  · simp [hcls, TokenClass.isPiece]

/-- What is copied as it stands is a leaf. -/
theorem Production.not_isInked {n : Nonterminal} {kind : Kind} {parts : List Symbol}
    (h : Production n (some kind) parts) : kind.isInked = false := by
  cases h <;> rfl

/-- A node that is a word has the text of a token of code. -/
def Node.IsWord (source : Text) (n : Node) : Prop :=
  n.kind.isInked → ∃ before after text rest cls, Takes before text rest cls after ∧
    cls.isPiece = false ∧ source.slice? n.start n.stop = some text

theorem Node.IsWord.hasInk {source : Text} {n : Node} (h : n.IsWord source) : n.HasInk source := by
  intro hink text htext
  obtain ⟨_, _, text', _, _, htakes, hcls, htext'⟩ := h hink
  obtain rfl : text' = text := Option.some.inj (htext'.symm.trans htext)
  exact htakes.isInked hcls

/-- The leaves of a row are words, or pieces of interpolated strings. -/
theorem Forest.isWord {f : Forest} {next : Ahead} (hfit : f.Fit) (hruled : f.Ruled next)
    {ws vs : List Word} (hamong : Word.Among t ws f.words vs) (made lastEnd : Nat) :
    ∀ m ∈ preorderOfAll (f.nodes made lastEnd), m.IsWord t.source := by
  induction f generalizing next ws vs made lastEnd with
  | nil => simp [nodes, preorderOfAll]
  | leaf kind passed w later ih =>
      refine List.forall_mem_cons.mpr ⟨?_, ih hfit.2.2 hruled hamong.tail _ _⟩
      intro hink
      obtain ⟨n, m, _, htakes, -⟩ := hamong.takes
      exact ⟨n, m, _, _, _, htakes, hfit.2.1.isPiece hink, hamong.cuts.2.2⟩
  | skipped passed w later ih => exact ih hfit.2.2 hruled hamong.tail made _
  | node kind inner later ihInner ih =>
      obtain ⟨⟨n, parts, rule, inside⟩, hlater⟩ := hruled
      rw [words] at hamong
      simp only [nodes, preorderOfAll, Node.preorder_eq, List.mem_append, List.mem_cons]
      rintro m ((rfl | hm) | hm)
      · intro hink
        rw [Node.around, rule.not_isInked] at hink
        cases hink
      · exact ihInner hfit.1 inside.ruled hamong.left made _ m hm
      · exact ih hfit.2 hlater hamong.right _ _ m hm

theorem Parsed.isWord (h : Parsed source t inner gap) :
    ∀ m ∈ preorderOfAll t.root.children, m.IsWord t.source := by
  rw [h.children_eq]
  exact Forest.isWord (h.derives.fit (by simp)) h.derives.ruled h.among 0 0

/-- The statements of a source keep to their lines. -/
theorem Parsed.keepsLines (h : Parsed source t inner gap) (options : LayoutOptions) :
    KeepsLines t.root 0 (Layout.block ⟨t.source, options⟩ none t.root)
      (Journaled.block ⟨t.source, options⟩ [] none t.root) := by
  have hbelow : ∀ m ∈ preorderOfAll t.root.children, m.IsSound t.source ∧ m.HasInk t.source :=
    fun m hm => ⟨h.sound m hm, (h.isWord m hm).hasInk⟩
  have hinside := areRecorded t.root ⟨t.source, options⟩ [.node t.root] t.root.children
    (fun c hc => .child .root hc) hbelow
  rw [Enclosure.levels_node (by simp [h.root_kind])] at hinside
  exact Node.keepsLines_block hinside h.areStmts none

/-- Whatever starts a line while a source is laid out, is indented by a tab for
each block and broken table that it lies in, leaves the next line to start and the
indentation as it was; no tab is taken back that is not there, and in the end
none is left. -/
theorem parse_keepsLines (hparse : parse source = .ok t) (herrors : t.errors = [])
    (hstrays : t.strayComments = []) (options : LayoutOptions) :
    ∃ page journal,
      t.format options = .ok (.produced page.text.withSingleTrailingNewline) ∧
      (Layout.block ⟨t.source, options⟩ none t.root).run Page.blank = .ok ((), page) ∧
      ((Journaled.block ⟨t.source, options⟩ [] none t.root).run []).run Page.blank =
        .ok (((), journal), page) ∧
      (∀ note ∈ journal, note.IsInOrder t.root) ∧ page.indent = 0 := by
  obtain ⟨inner, gap, h⟩ := parse_parsed hparse herrors
  obtain ⟨⟨⟩, page, hrun⟩ := h.block_succeeds options Page.blank
  have hblank : Page.blank.StartsLine [] 0 := ⟨by simp [Page.blank], List.nil_suffix, rfl⟩
  obtain ⟨hpage, hwalk⟩ := h.keepsLines options [] Page.blank hblank () page hrun
  obtain ⟨journal, hjournal, horder⟩ := hwalk []
  refine ⟨page, journal, ?_, hrun, hjournal, horder, hpage.indent⟩
  rw [h.format_layout options hstrays, hrun]
  rfl

/-- In how many blocks and broken tables the statement of a note is. -/
def Note.levels? : Note → Option Nat
  | .statement _ around _ _ => some (levels around)
  | .dedent _ => none

/-- A statement in three levels: `return` is in a block of an `if`, in the block of a
function, in a table that is broken. -/
theorem parse_keepsLines_nested :
    ∃ t page journal,
      parse "local t = \x7bf = function()\n if a then return \x7b1, 2\x7d end end\x7d".toList =
        .ok t ∧
      t.errors = [] ∧ t.strayComments = [] ∧
      t.format .standard = .ok (.produced page.text.withSingleTrailingNewline) ∧
      ((Journaled.block ⟨t.source, .standard⟩ [] none t.root).run []).run Page.blank =
        .ok (((), journal), page) ∧
      (∃ note ∈ journal, note.levels? = some 3) ∧
      (∀ note ∈ journal, note.IsInOrder t.root) ∧ page.indent = 0 := by
  obtain ⟨t, hparse, herrors, hstrays, hdeep⟩ := exists_tree_with
    "local t = \x7bf = function()\n if a then return \x7b1, 2\x7d end end\x7d".toList
    (p := fun t => t.errors = [] ∧ t.strayComments = [] ∧
      (((Journaled.block ⟨t.source, .standard⟩ [] none t.root).run []).run Page.blank).toOption.any
        fun done => done.1.2.any (·.levels? == some 3)) (by decide +kernel)
  obtain ⟨page, journal, hformat, -, hjournal, horder, hindent⟩ :=
    parse_keepsLines hparse herrors hstrays .standard
  refine ⟨t, page, journal, hparse, herrors, hstrays, hformat, hjournal, ?_, horder, hindent⟩
  rw [hjournal] at hdeep
  obtain ⟨note, hnote, hlevels⟩ := List.any_eq_true.mp hdeep
  exact ⟨note, hnote, beq_iff_eq.mp hlevels⟩

end LuauTidy
