import LuauTidy.Proofs.Syntax

/-!
# Extents

Where the nodes of a row lie in the text that its words spell.  A phrase that
begins and ends with a token of its own extends from the first of these tokens
to the last one, so its text is the text of the row without the blanks and
comments at its start.

* `Word.lead`, `Word.body` — what stands before the first token, and the rest;
* `Forest.firstWord`, `Forest.lastWord` — the tokens at the two ends;
* `Nonterminal.grounded` — phrases that begin and end with a token;
* `Forest.extent` — where the node of such a phrase lies.
-/

namespace LuauTidy

namespace Word

/-- The blanks and comments before the first word that is no comment. -/
def lead : List Word → Text
  | [] => []
  | w :: ws => if w.isComment then w.gap ++ (w.text ++ lead ws) else w.gap

/-- The text from the first word that is no comment on. -/
def body : List Word → Text
  | [] => []
  | w :: ws => if w.isComment then body ws else w.text ++ flat ws

theorem lead_append_body (ws : List Word) : lead ws ++ body ws = flat ws := by
  induction ws with
  | nil => rfl
  | cons w ws ih =>
      simp only [lead, body, flat_cons]
      split <;> simp [ih]

/-- The parts of placed words are placed. -/
theorem placed_append {offset : Nat} {a b : List Word} :
    place offset (a ++ b) = a ++ b ↔
      place offset a = a ∧ place (offset + (flat a).byteLength) b = b := by
  have hlength : ∀ (ws : List Word) (offset : Nat), (place offset ws).length = ws.length := by
    intro ws
    induction ws with
    | nil => simp [place]
    | cons w ws ih => simp [place, ih]
  rw [place_append]
  exact ⟨fun h => List.append_inj h (hlength a offset), fun h => by rw [h.1, h.2]⟩

theorem placed_cons {offset : Nat} {w : Word} {ws : List Word} :
    place offset (w :: ws) = w :: ws ↔
      w.start = offset + w.gap.byteLength ∧
        place (offset + w.whole.byteLength) ws = ws := by
  obtain ⟨⟨cls, start, text⟩, gap⟩ := w
  simp [place, eq_comm]

theorem lead_of_comments {passed : List Word} (h : ∀ p ∈ passed, p.isComment) {w : Word}
    (hw : w.isComment = false) (ws : List Word) :
    lead (passed ++ w :: ws) = flat passed ++ w.gap := by
  induction passed with
  | nil => simp [lead, hw]
  | cons p passed ih =>
      simp only [List.mem_cons, forall_eq_or_imp] at h
      simp [lead, h.1, ih h.2]

/-- More words do not move the first one that is no comment. -/
theorem lead_append {a : List Word} (h : body a ≠ []) (b : List Word) :
    lead (a ++ b) = lead a := by
  induction a with
  | nil => exact absurd rfl h
  | cons w a ih =>
      cases hw : w.isComment with
      | true => simp [lead, hw, ih (by simpa [body, hw] using h)]
      | false => simp [lead, hw]

/-- The first word that is no comment stands before the first one of the rest. -/
theorem lead_append_le (a b : List Word) :
    (lead (a ++ b)).byteLength ≤ (flat a).byteLength + (lead b).byteLength := by
  induction a with
  | nil => simp
  | cons w a ih =>
      simp only [List.cons_append, lead, flat_cons, Text.byteLength_append]
      split
      · simp only [Text.byteLength_append]
        omega
      · omega

/-- A placed word starts behind what stands before it. -/
theorem start_of_placed {offset : Nat} {passed : List Word} {w : Word} {ws : List Word}
    (h : place offset (passed ++ w :: ws) = passed ++ w :: ws) :
    w.start = offset + (flat passed ++ w.gap).byteLength := by
  have h := (placed_cons.mp (placed_append.mp h).2).1
  simpa [Nat.add_assoc] using h

/-- A placed word stops where its text does. -/
theorem stop_of_placed {offset : Nat} {init : List Word} {w : Word}
    (h : place offset (init ++ [w]) = init ++ [w]) :
    w.stop = offset + (flat (init ++ [w])).byteLength := by
  have h := start_of_placed h
  simp [Token.stop, h, Nat.add_assoc]

end Word

namespace Forest

/-- The leaf with which a row begins. -/
def firstLeaf : Forest → Option (Kind × Word)
  | nil => none
  | leaf kind _ word _ => some (kind, word)
  | skipped _ _ _ => none
  | node _ inner _ => inner.firstLeaf

/-- The leaf with which a row ends. -/
def lastLeaf : Forest → Option (Kind × Word)
  | nil => none
  | leaf kind _ word later => if later = nil then some (kind, word) else later.lastLeaf
  | skipped _ _ later => later.lastLeaf
  | node _ inner later => if later = nil then inner.lastLeaf else later.lastLeaf

theorem firstLeaf_append {f : Forest} {l : Kind × Word} (h : f.firstLeaf = some l) (g : Forest) :
    (f ++ g).firstLeaf = some l := by
  cases f with
  | nil => simp [firstLeaf] at h
  | leaf => simpa [firstLeaf] using h
  | skipped => simp [firstLeaf] at h
  | node => simpa [firstLeaf] using h

theorem lastLeaf_append {g : Forest} (hg : g ≠ nil) (f : Forest) :
    (f ++ g).lastLeaf = g.lastLeaf := by
  induction f <;> simp_all [lastLeaf]

theorem ne_nil_of_lastLeaf {f : Forest} {l : Kind × Word} (h : f.lastLeaf = some l) : f ≠ nil := by
  rintro rfl
  simp [lastLeaf] at h

/-- The first node of a row begins where its first leaf does. -/
theorem head_of_firstLeaf {f : Forest} (hfit : f.Fit) {kind : Kind} {w : Word}
    (h : f.firstLeaf = some (kind, w)) (made lastEnd : Nat) :
    (∃ passed rest, f.words = passed ++ w :: rest ∧ (∀ p ∈ passed, p.isComment)) ∧
      LeafFits kind w.toToken ∧
      (f.nodes made lastEnd).head?.map Node.start = some w.start := by
  induction f generalizing made lastEnd with
  | nil => simp [firstLeaf] at h
  | leaf kind' passed word later =>
      simp only [firstLeaf, Option.some.injEq, Prod.mk.injEq] at h
      obtain ⟨rfl, rfl⟩ := h
      exact ⟨⟨passed, later.words, rfl, hfit.1⟩, hfit.2.1, rfl⟩
  | skipped => simp [firstLeaf] at h
  | node kind' inner later ihInner =>
      obtain ⟨⟨passed, rest, hwords, hpassed⟩, hw, hstart⟩ := ihInner hfit.1 h made lastEnd
      refine ⟨⟨passed, rest ++ later.words, by simp [words, hwords], hpassed⟩, hw, ?_⟩
      simp [nodes, Node.around, hstart]

/-- The last node of a row ends where its last leaf does. -/
theorem last_of_lastLeaf {f : Forest} {kind : Kind} {w : Word}
    (h : f.lastLeaf = some (kind, w)) (made lastEnd : Nat) :
    (∃ init, f.words = init ++ [w]) ∧
      (f.nodes made lastEnd).getLast?.map Node.stop = some w.stop := by
  induction f generalizing made lastEnd with
  | nil => simp [lastLeaf] at h
  | leaf kind' passed word later ih =>
      simp only [lastLeaf] at h
      split at h
      · rename_i hnil
        simp only [Option.some.injEq, Prod.mk.injEq] at h
        obtain ⟨rfl, rfl⟩ := h
        subst hnil
        exact ⟨⟨passed, rfl⟩, rfl⟩
      · obtain ⟨⟨init, hwords⟩, hstop⟩ := ih h (made + 1)
          (if word.isComment then lastEnd else word.stop)
        refine ⟨⟨passed ++ word :: init, by simp [words, hwords]⟩, ?_⟩
        cases hnodes : later.nodes (made + 1) (if word.isComment then lastEnd else word.stop) with
        | nil => simp [hnodes] at hstop
        | cons => simpa [nodes, hnodes] using hstop
  | skipped passed word later ih =>
      obtain ⟨⟨init, hwords⟩, hstop⟩ := ih h made word.stop
      exact ⟨⟨passed ++ word :: init, by simp [words, hwords]⟩, hstop⟩
  | node kind' inner later ihInner ih =>
      simp only [lastLeaf] at h
      split at h
      · rename_i hnil
        subst hnil
        obtain ⟨⟨init, hwords⟩, hstop⟩ := ihInner h made lastEnd
        exact ⟨⟨init, by simp [words, hwords]⟩, by simp [nodes, Node.around, hstop]⟩
      · obtain ⟨⟨init, hwords⟩, hstop⟩ := ih h (made + (inner.count + 1)) (inner.endFrom lastEnd)
        refine ⟨⟨inner.words ++ init, by simp [words, hwords]⟩, ?_⟩
        cases hnodes : later.nodes (made + (inner.count + 1)) (inner.endFrom lastEnd) with
        | nil => simp [hnodes] at hstop
        | cons => simpa [nodes, hnodes] using hstop

/-- The row begins with a token of its own and ends with a leaf. -/
def Grounded (f : Forest) : Prop :=
  (∃ kind w, f.firstLeaf = some (kind, w) ∧ kind ≠ .stmt .comment) ∧
    ∃ kind w, f.lastLeaf = some (kind, w)

/-- The extent of a row that begins and ends with a leaf. -/
theorem extent {f : Forest} (hfit : f.Fit) (h : f.Grounded) {offset : Nat}
    (hplaced : Word.place offset f.words = f.words) (made lastEnd : Nat) :
    (f.nodes made lastEnd).head?.map Node.start = some (offset + (Word.lead f.words).byteLength) ∧
      (f.nodes made lastEnd).getLast?.map Node.stop =
        some (offset + (Word.flat f.words).byteLength) := by
  obtain ⟨⟨kind, w, hfirst, hkind⟩, kind', v, hlast⟩ := h
  obtain ⟨⟨passed, rest, hwords, hpassed⟩, hleaf, hstart⟩ :=
    head_of_firstLeaf hfit hfirst made lastEnd
  obtain ⟨⟨init, hwords'⟩, hstop⟩ := last_of_lastLeaf hlast made lastEnd
  constructor
  · rw [hwords] at hplaced ⊢
    rw [hstart, Word.lead_of_comments hpassed (hleaf.not_comment hkind),
      Word.start_of_placed hplaced]
  · rw [hwords'] at hplaced ⊢
    rw [hstop, Word.stop_of_placed hplaced]

end Forest

/-! ### The ends of phrases -/

namespace Symbol

/-- A glance takes nothing. -/
def isLook : Symbol → Bool
  | look _ => true
  | _ => false

/-- The first thing asked for is a leaf of some kinds or one of some phrases. -/
def firstIs (phrases : Nonterminal → Bool) (kinds : Kind → Bool) : List Symbol → Bool
  | leaf kind _ :: _ => kinds kind
  | sub n :: _ => phrases n
  | _ => false

/-- The last thing asked for is a leaf of some kinds or one of some phrases. -/
def lastIs (phrases : Nonterminal → Bool) (kinds : Kind → Bool) : List Symbol → Bool
  | [] => false
  | s :: rest =>
    if rest.all isLook then
      match s with
      | leaf kind _ => kinds kind
      | sub n => phrases n
      | _ => false
    else lastIs phrases kinds rest

end Symbol

namespace Derives

variable {symbols : List Symbol} {f : Forest} {next : Ahead}

/-- If every production of some phrases begins with a leaf of some kinds or
with such a phrase again, then each of them begins with such a leaf. -/
theorem firstLeaf {phrases : Nonterminal → Bool} {kinds : Kind → Bool}
    (hrule : ∀ {n kind parts}, Production n kind parts → phrases n →
      Symbol.firstIs phrases kinds parts)
    (h : Derives symbols f next) (hfirst : Symbol.firstIs phrases kinds symbols) :
    ∃ kind w, f.firstLeaf = some (kind, w) ∧ kinds kind := by
  induction h with
  | nil => simp [Symbol.firstIs] at hfirst
  | leaf => exact ⟨_, _, rfl, hfirst⟩
  | skip => simp [Symbol.firstIs] at hfirst
  | look => simp [Symbol.firstIs] at hfirst
  | flat rule _ _ ih =>
      obtain ⟨kind, w, hw, hkind⟩ := ih (hrule rule hfirst)
      exact ⟨kind, w, Forest.firstLeaf_append hw _, hkind⟩
  | node rule _ _ ih => exact ih (hrule rule hfirst)

/-- Glances take nothing. -/
theorem nil_of_looks (h : Derives symbols f next) (hall : symbols.all Symbol.isLook) :
    f = .nil := by
  induction h with
  | nil => rfl
  | look _ _ ih => exact ih (by simpa [Symbol.isLook] using hall)
  | leaf => simp [Symbol.isLook] at hall
  | skip => simp [Symbol.isLook] at hall
  | flat => simp [Symbol.isLook] at hall
  | node => simp [Symbol.isLook] at hall

/-- If every production of some phrases ends with a leaf of some kinds or with
such a phrase again, then each of them ends with such a leaf. -/
theorem lastLeaf {phrases : Nonterminal → Bool} {kinds : Kind → Bool}
    (hrule : ∀ {n kind parts}, Production n kind parts → phrases n →
      Symbol.lastIs phrases kinds parts)
    (h : Derives symbols f next) (hlast : Symbol.lastIs phrases kinds symbols) :
    ∃ kind w, f.lastLeaf = some (kind, w) ∧ kinds kind := by
  induction h with
  | nil => simp [Symbol.lastIs] at hlast
  | @leaf kind _ _ w _ _ _ _ _ _ tail ih =>
      simp only [Symbol.lastIs] at hlast
      split at hlast
      · rename_i hall
        exact ⟨kind, w, by simp [Forest.lastLeaf, tail.nil_of_looks hall], hlast⟩
      · obtain ⟨kind, w, hw, hkind⟩ := ih hlast
        have hne := Forest.ne_nil_of_lastLeaf hw
        exact ⟨kind, w, by simpa [Forest.lastLeaf, hne] using hw, hkind⟩
  | skip _ _ tail ih =>
      simp only [Symbol.lastIs] at hlast
      split at hlast
      · simp at hlast
      · exact ih hlast
  | look _ _ ih =>
      simp only [Symbol.lastIs] at hlast
      split at hlast
      · simp at hlast
      · exact ih hlast
  | flat rule _ tail ihInside ih =>
      simp only [Symbol.lastIs] at hlast
      split at hlast
      · rename_i hall
        rw [tail.nil_of_looks hall, Forest.append_nil]
        exact ihInside (hrule rule hlast)
      · obtain ⟨kind, w, hw, hkind⟩ := ih hlast
        have hne := Forest.ne_nil_of_lastLeaf hw
        exact ⟨kind, w, by rwa [Forest.lastLeaf_append hne], hkind⟩
  | node rule _ tail ihInside ih =>
      simp only [Symbol.lastIs] at hlast
      split at hlast
      · rename_i hall
        simpa [Forest.lastLeaf, tail.nil_of_looks hall] using ihInside (hrule rule hlast)
      · obtain ⟨kind, w, hw, hkind⟩ := ih hlast
        have hne := Forest.ne_nil_of_lastLeaf hw
        exact ⟨kind, w, by simpa [Forest.lastLeaf, hne] using hw, hkind⟩

end Derives

/-! ### Expressions -/

/-- Expressions and their parts: phrases that begin and end with a token, read
as code. -/
def Nonterminal.isExpr : Nonterminal → Bool
  | .operand _ | .climb _ | .simple | .suffixed | .chain | .variable | .callParts => true
  | .table => true
  | _ => false

/-- A kind of leaf with which an expression begins. -/
def Kind.beginsExpr : Kind → Bool
  | .token k => k.isUnary || [.interpStart, .kwFunction, .kwIf, .lparen, .lbrace, .name].contains k
  | .expr _ => true
  | _ => false

/-- A kind of leaf with which an expression ends. -/
def Kind.endsExpr : Kind → Bool
  | .token k => [.name, .rparen, .rbracket, .rbrace, .kwEnd, .interpEnd].contains k
  | .expr _ => true
  | _ => false

/-- A phrase with which an expression ends. -/
def Nonterminal.endsExpr : Nonterminal → Bool
  | .arguments | .functionBody | .pieces => true
  | n => n.isExpr

theorem Production.firstIs_expr {n : Nonterminal} {kind : Option Kind} {parts : List Symbol}
    (h : Production n kind parts) (hn : n.isExpr) :
    Symbol.firstIs Nonterminal.isExpr Kind.beginsExpr parts := by
  cases h with
  | unary limit op unary => simp [Symbol.firstIs, Symbol.mark, Kind.beginsExpr, unary]
  | _ => first | (simp [Nonterminal.isExpr] at hn; done) | rfl

theorem Production.lastIs_expr {n : Nonterminal} {kind : Option Kind} {parts : List Symbol}
    (h : Production n kind parts) (hn : n.endsExpr) :
    Symbol.lastIs Nonterminal.endsExpr Kind.endsExpr parts := by
  cases h <;> first | (simp [Nonterminal.endsExpr, Nonterminal.isExpr] at hn; done) | rfl

/-- A row that begins and ends with an expression is grounded. -/
theorem Derives.grounded {symbols : List Symbol} {f : Forest} {next : Ahead}
    (h : Derives symbols f next)
    (hfirst : Symbol.firstIs Nonterminal.isExpr Kind.beginsExpr symbols)
    (hlast : Symbol.lastIs Nonterminal.endsExpr Kind.endsExpr symbols) : f.Grounded := by
  obtain ⟨kind, w, hw, hkind⟩ := h.firstLeaf Production.firstIs_expr hfirst
  obtain ⟨kind', v, hv, -⟩ := h.lastLeaf Production.lastIs_expr hlast
  exact ⟨⟨kind, w, hw, by rintro rfl; simp [Kind.beginsExpr] at hkind⟩, kind', v, hv⟩

end LuauTidy
