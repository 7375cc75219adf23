import LuauTidy.Proofs.Counterparts
import LuauTidy.Proofs.Touching

/-!
# Rows in place of constructs

The lowered text of a construct is read as a row of its own.  Here the row is set
where the construct was: behind the same blanks and comments, before the same
token, and before whatever text follows there.

* `Forest.commented` — comments before a row;
* `Nonterminal.Admits`, `Construct.phrase` — what is asked for in the place of a
  construct;
* `Site.isChoice` — a conditional that becomes operators without parentheses: it
  ends in its alternative as before, while every other lowered text ends in a
  parenthesis;
* `Site.Row` — the row of a lowered text;
* `Production.exists_row` — every construct has one.
-/

namespace LuauTidy

open Lexeme

variable {t : SyntaxTree} {options : LoweringOptions}

/-! ### Comments before a row -/

namespace Forest

/-- The row with more comments before its first token. -/
def commented (comments : List Word) : Forest → Forest
  | nil => nil
  | leaf kind passed word later => leaf kind (comments ++ passed) word later
  | skipped passed word later => skipped (comments ++ passed) word later
  | node kind inner later => node kind (inner.commented comments) later

variable (comments : List Word)

theorem commented_append {f : Forest} {l : Kind × Word} (h : f.firstLeaf = some l) (g : Forest) :
    (f ++ g).commented comments = f.commented comments ++ g := by
  cases f with
  | nil => cases h
  | leaf | skipped | node => rfl

theorem words_commented {f : Forest} {l : Kind × Word} (h : f.firstLeaf = some l) :
    (f.commented comments).words = comments ++ f.words := by
  induction f with
  | nil | skipped => cases h
  | leaf kind passed word later => simp [commented, words]
  | node kind inner later ihInner => simp [commented, words, ihInner h]

@[simp] theorem contents_commented (f : Forest) : (f.commented comments).contents = f.contents := by
  induction f with
  | nil | leaf | skipped => rfl
  | node kind inner later ihInner => simp only [commented, contents, ihInner]

@[simp] theorem firstLeaf_commented (f : Forest) : (f.commented comments).firstLeaf = f.firstLeaf := by
  induction f with
  | nil | leaf | skipped => rfl
  | node kind inner later ihInner => exact ihInner

@[simp] theorem lastLeaf_commented (f : Forest) : (f.commented comments).lastLeaf = f.lastLeaf := by
  induction f with
  | nil | leaf | skipped => rfl
  | node kind inner later ihInner => simp only [commented, lastLeaf, ihInner]

theorem Grounded.commented {f : Forest} (h : f.Grounded) : (f.commented comments).Grounded := by
  simpa [Grounded] using h

/-- The first token of a row is what stands ahead. -/
theorem ahead_cls {f : Forest} {kind : Kind} {w : Word} (h : f.firstLeaf = some (kind, w))
    (hw : w.isComment = false) (z : Ahead) : (f.ahead z).cls = some w.cls := by
  induction f generalizing z with
  | nil | skipped => cases h
  | leaf kind' passed word later =>
      simp only [firstLeaf, Option.some.injEq, Prod.mk.injEq] at h
      obtain ⟨-, rfl⟩ := h
      simp [ahead, hw]
  | node kind' inner later ihInner => exact ihInner h _

end Forest

/-- Phrases that begin with a token of their own: expressions and statements. -/
def Nonterminal.opens : Nonterminal → Bool
  | .statement | .returnStatement | .varList => true
  | n => n.isExpr

/-- A kind of leaf with which they begin is neither a comment nor a comma. -/
def Kind.opens (kind : Kind) : Bool := kind != .stmt .comment && kind != .token .comma

theorem Production.firstIs_opens {n : Nonterminal} {kind : Option Kind} {parts : List Symbol}
    (h : Production n kind parts) (hn : n.opens) :
    Symbol.firstIs Nonterminal.opens Kind.opens parts := by
  cases h with
  | unary limit op unary =>
      cases op <;> first
        | rfl
        | exact absurd unary (by decide)
  | _ => first
    | rfl
    | exact absurd hn Bool.false_ne_true

/-- The first leaf of such a phrase is no comment. -/
theorem Derives.opening {symbols : List Symbol} {f : Forest} {next : Ahead}
    (h : Derives symbols f next) (hproper : ∀ s ∈ symbols, s.Proper)
    (hfirst : Symbol.firstIs Nonterminal.opens Kind.opens symbols) :
    ∃ kind w, f.firstLeaf = some (kind, w) ∧ w.isComment = false ∧ LeafFits kind w.toToken ∧
      kind.opens := by
  obtain ⟨kind, w, hw, hkind⟩ := h.firstLeaf Production.firstIs_opens hfirst
  have hleaf := (Forest.head_of_firstLeaf (h.fit hproper) hw 0 0).2.1
  refine ⟨kind, w, hw, hleaf.not_comment ?_, hleaf, hkind⟩
  rintro rfl
  cases hkind

/-- Comments may stand before an expression or a statement. -/
theorem Derives.commented {symbols : List Symbol} {f : Forest} {next : Ahead}
    (h : Derives symbols f next) (hproper : ∀ s ∈ symbols, s.Proper)
    (hfirst : Symbol.firstIs Nonterminal.opens Kind.opens symbols) {comments : List Word}
    (hcomments : ∀ p ∈ comments, p.isComment) : Derives symbols (f.commented comments) next := by
  induction h with
  | nil | skip | look => cases hfirst
  | @leaf kind fits passed w later symbols next passedComments right fitting tail =>
      rw [List.forall_mem_cons] at hproper
      have hw : w.isComment = false := by
        refine (hproper.1 _ fitting : LeafFits kind w.toToken).not_comment ?_
        rintro rfl
        cases hfirst
      have hall : ∀ p ∈ comments ++ passed, p.isComment := by
        intro p hp
        exact (List.mem_append.mp hp).elim (hcomments p) (passedComments p)
      exact .leaf hall (by simp [hw]) fitting tail
  | @flat n parts symbols f later next rule inside tail ihInside =>
      have hparts := rule.firstIs_opens hfirst
      obtain ⟨kind, w, hw, -⟩ := inside.opening rule.proper hparts
      rw [Forest.commented_append comments hw]
      exact .flat rule (ihInside rule.proper hparts) tail
  | node rule inside tail ihInside =>
      exact .node rule (ihInside rule.proper (rule.firstIs_opens hfirst)) tail

/-! ### What is asked for in the place of a construct -/

/-- What may be asked for below a parent: below what is no operation, nothing binds an
operand. -/
def Nonterminal.Admits (parent : Option Kind) : Nonterminal → Prop
  | .operand limit | .climb limit => parent.any isOperation ∨ limit = 0
  | .more _ item => item ≠ .simple ∧ item ≠ .statement ∧ item.Admits parent
  | _ => True

/-- What can take the place of a construct: a statement, or an expression of the limit
that is asked for. -/
def Construct.phrase (limit : Nat) : Construct → Nonterminal
  | .compoundFloorDivision => .statement
  | .conditional | .floorDivision => .climb limit

/-- A conditional that becomes operators without parentheses. -/
def Site.isChoice (site : Site) : Bool :=
  site.construct == .conditional && (SyntaxTree.shortConditional? site.node.children).isSome &&
    !site.parent.any isOperation

/-- A row in the place of a construct, behind a gap and before a text. -/
structure Site.Row (site : Site) (part : List Word) (gap graft : Text) (next : Ahead) (rest : Text)
    (f : Forest) : Prop where
  opens : f.OpensBehind gap
  grounded : f.Grounded
  contents : ∃ content, f.contents = [content] ∧ site.construct.givesWay content.kind
  flat_eq : Word.flat f.words = gap ++ graft
  spells : ∀ n : Nesting, n.inLiteral = false → Spells n f.words n rest
  derives : ∀ limit, (Nonterminal.climb limit).Admits site.parent →
    Derives [.sub (site.construct.phrase limit)] f next
  /-- The text begins with no sign of equality. -/
  starts : ∃ c later, graft = c :: later ∧ c ≠ '='
  /-- The text ends in a parenthesis, or as the construct does. -/
  ends : graft.getLast? = some ')' ∨ graft.getLast? = (Word.flat part).getLast?
  /-- An assignment begins with its target. -/
  first : site.construct = .compoundFloorDivision → ∀ z,
    (f.ahead z).cls = (Word.ahead part).cls

/-- The content of an expression is of a kind of expressions. -/
theorem Forest.IsExpr.exists_content {f : Forest} (h : f.IsExpr) :
    ∃ content, f.contents = [content] ∧ content.kind.isExpr := by
  obtain ⟨k, passed, w, rfl⟩ | ⟨k, inner, rfl⟩ := h <;> exact ⟨_, rfl, rfl⟩

theorem Construct.givesWay_expr {c : Construct} (hc : c ≠ .compoundFloorDivision) {kind : Kind}
    (hkind : kind.isExpr) : c.givesWay kind := by
  cases c with
  | conditional | floorDivision => exact hkind
  | compoundFloorDivision => exact absurd rfl hc

theorem Construct.phrase_expr {c : Construct} (hc : c ≠ .compoundFloorDivision) (limit : Nat) :
    c.phrase limit = .climb limit := by
  cases c with
  | conditional | floorDivision => rfl
  | compoundFloorDivision => exact absurd rfl hc

section Rows

variable {site : Site} {part : List Word} {gap graft rest : Text} {next : Ahead} {f : Forest}
  {content : Content}

/-- The first character of a row that begins as expressions do. -/
theorem Forest.OpensBehind.exists_char (hopens : f.OpensBehind gap) (hfit : f.Fit)
    (hflat : Word.flat f.words = gap ++ graft)
    (hfirst : ∃ kind w, f.firstLeaf = some (kind, w) ∧ kind.beginsExpr)
    (hspells : Spells [] f.words [] rest) : ∃ c later, graft = c :: later ∧ c ≠ '=' := by
  obtain ⟨kind, w, hw, hkind⟩ := hfirst
  obtain ⟨v, hv, rfl, hcomment⟩ := hopens
  obtain ⟨⟨passed, later, hwords, hpassed⟩, hleaf, -⟩ := Forest.head_of_firstLeaf hfit hw 0 0
  have hnil : passed = [] := by
    cases passed with
    | nil => rfl
    | cons p passed =>
        rw [hwords, List.cons_append, List.head?_cons, Option.some.injEq] at hv
        rw [← hv, hpassed p List.mem_cons_self] at hcomment
        cases hcomment
  subst hnil
  rw [hwords, List.nil_append] at hv hflat hspells
  obtain rfl : w = v := Option.some.inj hv
  rw [Word.flat_cons, List.append_cancel_left_eq] at hflat
  cases hspells with
  | cons _ _ read tail =>
      have hcode := Takes.code read rfl (hfit.noError w (by simp [hwords]))
      obtain ⟨c, text, htext, -, hequals⟩ := hcode.opensExpr (hleaf.any_leafKind hkind rfl rfl)
      exact ⟨c, text ++ Word.flat later, by rw [← hflat, htext, List.cons_append], hequals⟩

/-- An expression takes the place of another one. -/
theorem Site.Row.of_expr {m : Nonterminal} (hc : site.construct ≠ .compoundFloorDivision)
    (hm : m.isWholeExpr) (hopens : f.OpensBehind gap)
    (h : Rendition [.sub m] next (gap ++ graft) rest [content] f)
    (hclimb : ∀ limit, (Nonterminal.climb limit).Admits site.parent →
      Derives [.sub (.climb limit)] f next)
    (hends : graft.getLast? = some ')' ∨ graft.getLast? = (Word.flat part).getLast?) :
    site.Row part gap graft next rest f := by
  obtain ⟨hfirst, hlast⟩ := Nonterminal.edges_of_isWholeExpr hm
  obtain ⟨content, hcontents, hkind⟩ := (h.derives.isExpr hm).exists_content
  have hstarts := hopens.exists_char (h.derives.fit (by simp)) h.flat_eq
    (h.derives.firstLeaf Production.firstIs_expr hfirst) h.spells
  refine ⟨hopens, h.derives.grounded hfirst hlast,
    ⟨content, hcontents, Construct.givesWay_expr hc hkind⟩, h.flat_eq, ?_, ?_, hstarts, hends,
    fun hcompound => absurd hcompound hc⟩
  · exact (h.derives.anywhere (by simp) (Nonterminal.stands_expr hfirst) rfl h.spells).2
  · intro limit hlimit
    rw [Construct.phrase_expr hc]
    exact hclimb limit hlimit

/-- A call takes the place of an expression where no suffix follows. -/
theorem Site.Row.of_chain (hc : site.construct ≠ .compoundFloorDivision)
    (hopens : f.OpensBehind gap)
    (h : Rendition [.sub .chain] next (gap ++ graft) rest [content] f) (hchain : EndsChain next)
    (hends : graft.getLast? = some ')') : site.Row part gap graft next rest f :=
  .of_expr hc rfl hopens h (fun limit _ => h.derives.climb_of_chain hchain limit) (.inl hends)

/-- Operators without parentheses take the place of an expression that is no operand. -/
theorem Site.Row.of_climb (hc : site.construct ≠ .compoundFloorDivision)
    (hparent : site.parent.any isOperation = false) (hopens : f.OpensBehind gap)
    (h : Rendition [.sub (.climb 0)] next (gap ++ graft) rest [content] f)
    (hends : graft.getLast? = (Word.flat part).getLast?) : site.Row part gap graft next rest f := by
  refine .of_expr hc rfl hopens h ?_ (.inr hends)
  rintro limit (hoperation | rfl)
  · rw [hparent] at hoperation
    cases hoperation
  · exact h.derives

/-- An assignment takes the place of one that divides. -/
theorem Site.Row.of_assignment {g later value : Forest} (hc : site.construct = .compoundFloorDivision)
    (hpart : part = (g ++ later).words) (hg : Derives [.sub .variable] g (.of .assign))
    (hvalue : Derives [.sub .chain] value next)
    (h : Rendition [.sub .statement] next (gap ++ graft) rest [content]
      (.assignment (g.led gap) value)) (hends : graft.getLast? = some ')') :
    site.Row part gap graft next rest (.assignment (g.led gap) value) := by
  have hfit := hg.fit (by simp)
  obtain ⟨kind, w, hw, hkind⟩ := hg.firstLeaf Production.firstIs_expr rfl
  have hcomment : w.isComment = false :=
    (Forest.head_of_firstLeaf hfit hw 0 0).2.1.not_comment (by
      rintro rfl
      cases hkind)
  obtain ⟨passed, after, ⟨hwords, hled⟩, hpassed⟩ := Forest.words_led hfit hw
  have hfirst : (Forest.assignment (g.led gap) value).words.head? = some { w with gap } := by
    simp [Forest.assignment, Forest.words, hled]
  have hopens : (Forest.assignment (g.led gap) value).OpensBehind gap := ⟨_, hfirst, rfl, hcomment⟩
  refine ⟨hopens, ?_, ⟨_, rfl, ?_⟩, h.flat_eq, ?_, ?_, hopens.exists_char (h.derives.fit (by simp))
    h.flat_eq ⟨kind, _, g.firstLeaf_led gap hw, hkind⟩ h.spells, .inl hends, ?_⟩
  · obtain ⟨-, kind', v, hv⟩ := hvalue.grounded rfl rfl
    refine ⟨⟨kind, _, g.firstLeaf_led gap hw, ?_⟩, kind', v, ?_⟩
    · rintro rfl
      cases hkind
    · simp [Forest.assignment, Forest.mark, Forest.lastLeaf, hv]
  · rw [hc]
    rfl
  · exact (h.derives.anywhere (by simp) (by simp [Nonterminal.stands, Nonterminal.turn]) rfl
      h.spells).2
  · intro limit _
    rw [hc]
    exact h.derives
  · intro _ z
    rw [hpart, Forest.words_append, hwords, List.append_assoc, Word.ahead_comments hpassed,
      List.cons_append, Word.ahead, hcomment]
    exact Forest.ahead_cls (f := g.led gap) (g.firstLeaf_led gap hw) hcomment _

end Rows

/-! ### The rows of constructs -/

section Constructs

variable {inner : Forest} {next : Ahead} {ws vs : List Word} {made lastEnd : Nat} {n : Node}
  {parent : Option Kind} {rest : Text}

/-- The text of words of a source that are not all comments. -/
theorem Word.Among.body_ne_nil {xs : List Word} (h : Word.Among t ws xs vs)
    (hw : ∃ w ∈ xs, w.isComment = false) : Word.body xs ≠ [] := by
  induction xs generalizing ws with
  | nil => simp at hw
  | cons v xs ih =>
      rw [Word.body]
      split
      · rename_i hcomment
        exact ih (h.right (x := [v])) (by simpa [hcomment] using hw)
      · simp [h.text_ne_nil (x := [])]

/-- The last characters of the lowered texts. -/
theorem SyntaxTree.last_flooredQuotient (left right : Text) :
    (flooredQuotient left right).getLast? = some ')' := by
  rw [flooredQuotient_eq, ← List.cons_append, ← List.append_assoc, List.getLast?_concat]

theorem SyntaxTree.last_loweredFloorDivision {text : Text}
    (h : t.loweredFloorDivision n = .ok text) : text.getLast? = some ')' := by
  simp only [loweredFloorDivision, bind, Except.bind, pure, Except.pure] at h
  repeat' split at h
  all_goals cases h
  exact last_flooredQuotient _ _

theorem SyntaxTree.last_loweredCompound {text : Text} (h : t.loweredCompound n = .ok text) :
    text.getLast? = some ')' := by
  simp only [loweredCompound, bind, Except.bind, pure, Except.pure] at h
  repeat' split at h
  all_goals cases h
  all_goals rw [List.getLast?_append, last_flooredQuotient, Option.some_or]

/-- A floor division has a row. -/
theorem Site.exists_quotient {limit : Nat}
    (h : Derives [.sub (.climb limit), .mark .doubleSlash, .sub (.operand 7)] inner next)
    (hamong : Word.Among t ws inner.words vs) (hn : n.children = inner.nodes made lastEnd)
    (hchain : EndsChain next) :
    ∃ graft, t.loweredSite ⟨.floorDivision, n, parent⟩ = .ok graft ∧
      ∀ gap : Text, gap.all isBlank → ∃ f,
        Site.Row ⟨.floorDivision, n, parent⟩ inner.words gap graft next rest f := by
  obtain ⟨left, mark, right, text, -, htext, hrow⟩ := SyntaxTree.exists_quotient h hamong hn
  refine ⟨text, htext, fun gap blank => ?_⟩
  obtain ⟨f, hopens, hcall⟩ := hrow gap blank next rest
  exact ⟨f, .of_chain (by simp) hopens hcall hchain (SyntaxTree.last_loweredFloorDivision htext)⟩

/-- A floor division that assigns has a row. -/
theorem Site.exists_assignment
    (h : Derives [.sub .variable, .mark .doubleSlashAssign, .sub .expr] inner next)
    (hamong : Word.Among t ws inner.words vs) (hn : n.children = inner.nodes made lastEnd)
    (hchain : EndsChain next) (hcomma : LacksToken .comma next) :
    ∃ graft, t.loweredSite ⟨.compoundFloorDivision, n, parent⟩ = .ok graft ∧
      ∀ gap : Text, gap.all isBlank → ∃ f,
        Site.Row ⟨.compoundFloorDivision, n, parent⟩ inner.words gap graft next rest f := by
  obtain ⟨g, later, target, mark, value, text, hsplit, -, hg, hoperand, htext, hrow⟩ :=
    SyntaxTree.exists_assignment h hamong hn
  refine ⟨text, htext, fun gap blank => ?_⟩
  obtain ⟨f, hvalue, hassign⟩ := hrow gap blank next ⟨hoperand, hchain, hcomma⟩ rest
  exact ⟨_, .of_assignment rfl (by rw [hsplit]) hg hvalue hassign
    (SyntaxTree.last_loweredCompound htext)⟩

/-- An expression whose words are kept before a text stands there behind a blank. -/
theorem SyntaxTree.Operand.behind_blank {last : Forest} {other : Node} {m m' : Nesting}
    (h : t.Operand last other) (hlast : Derives [.sub .expr] last next)
    (hspells : Spells m last.words m' rest) :
    Rendition [.sub (.climb 0)] next ([' '] ++ Word.body last.words) rest
      [other.content t.source] (last.led [' ']) := by
  obtain ⟨kind, w, hw, hkind⟩ := hlast.firstLeaf Production.firstIs_expr rfl
  have hfit := hlast.fit (by simp)
  have hcomment : w.isComment = false :=
    (Forest.head_of_firstLeaf hfit hw 0 0).2.1.not_comment (by
      rintro rfl
      cases hkind)
  obtain ⟨passed, later, ⟨hwords, hled⟩, hpassed⟩ := Forest.words_led hfit hw
  have hcode := hlast.inCode (by simp) rfl hspells
  have hread := (hlast.anywhere (by simp) (Nonterminal.stands_expr rfl) hcode hspells).2 [] rfl
  rw [hwords] at hread
  refine ⟨hlast.climb_of_operand.led rfl [' '], ?_, ?_, by rw [Forest.contents_led, h.contents_eq]⟩
  · rw [hled]
    cases hread.behind_comments hpassed with
    | cons _ _ read tail => exact .cons rfl (by simp [Nesting.inLiteral]) read tail
  · rw [hled, hwords, Word.body_of_comments hpassed hcomment, Word.flat_cons]

/-- A conditional has a row. -/
theorem Site.exists_conditional (h : Derives SyntaxTree.conditionalParts inner next)
    (hamong : Word.Among t ws inner.words vs) (hn : n.children = inner.nodes made lastEnd)
    (hclosed : n.ClosesCondition)
    (hchain : Site.isChoice ⟨.conditional, n, parent⟩ = false → EndsChain next)
    (hkept : ∀ after, after <:+ inner.words → ∃ m m', Spells m after m' rest) :
    ∃ graft, t.loweredSite ⟨.conditional, n, parent⟩ = .ok graft ∧
      ∀ gap : Text, gap.all isBlank → ∃ f,
        Site.Row ⟨.conditional, n, parent⟩ inner.words gap graft next rest f := by
  cases hshort : SyntaxTree.shortConditional? n.children with
  | none =>
      obtain ⟨body, hbody, hrow⟩ := h.exists_called hamong hn
      refine ⟨"(function()".toList ++ body ++ " end end)()".toList, ?_, fun gap blank => ?_⟩
      · simp [SyntaxTree.loweredSite, SyntaxTree.lowered, SyntaxTree.loweredConditional, hshort,
          hbody, bind, Except.bind, pure, Except.pure]
      · obtain ⟨f, hopens, hcall⟩ := hrow gap blank next rest
        have hlast : ("(function()".toList ++ body ++ " end end)()".toList).getLast? = some ')' := by
          rw [List.getLast?_append]
          rfl
        exact ⟨f, .of_chain (by simp) hopens hcall (hchain (by simp [Site.isChoice, hshort])) hlast⟩
  | some parts =>
      obtain ⟨condition, value, alternative⟩ := parts
      have hparts := h.exists_conditional hamong made lastEnd
      rw [← hn] at hparts
      obtain ⟨conditionRow, valueRow, last, loose, htest, hresult, hother, htruthy, hloose, hlast,
        hsuffix, htext⟩ := hparts.exists_rows parent hshort
      have htight := (SyntaxTree.not_openCondition_iff (t := t) hloose).mp
        (hclosed condition value alternative hshort)
      refine ⟨_, htext, fun gap blank => ?_⟩
      cases hparent : parent.any isOperation with
      | true =>
          obtain ⟨f, hopens, hgroup⟩ := SyntaxTree.exists_enclosed htest hresult hother htruthy
            hloose htight gap blank next rest
          have hends : (parenthesized
              (choiceText loose conditionRow valueRow last)).getLast? = some ')' := by
            rw [parenthesized, List.getLast?_concat]
          exact ⟨f, .of_chain (by simp) hopens hgroup
            (hchain (by simp [Site.isChoice, hparent])) hends⟩
      | false =>
          obtain ⟨m, m', hspells⟩ := hkept _ hsuffix
          have hends : EndsOperand 1 next := hlast.endsOperand.mono (Nat.zero_le 1)
          obtain ⟨f, hopens, hchoice⟩ := SyntaxTree.exists_choiceText htest hresult htruthy hloose
            htight (hother.behind_blank hlast hspells) hends gap blank
          refine ⟨f, .of_climb (by simp) hparent hopens hchoice ?_⟩
          -- the text ends in the alternative, as the conditional does
          obtain ⟨before, hbefore⟩ := hsuffix
          rw [← hbefore] at hamong ⊢
          have hlastBody := hamong.right.body_ne_nil (hlast.exists_word rfl)
          rw [if_neg Bool.false_ne_true, choiceText, List.getLast?_append_of_ne_nil _ hlastBody, Word.flat_append,
            ← Word.lead_append_body last.words, ← List.append_assoc,
            List.getLast?_append_of_ne_nil _ hlastBody]

/-- The phrase for which a construct stands. -/
theorem Production.construct {m : Nonterminal} {kind : Kind} {parts : List Symbol} {c : Construct}
    (rule : Production m (some kind) parts) (inside : Derives parts inner next)
    (hamong : Word.Among t ws inner.words vs) (hkind : n.kind = kind)
    (hn : n.children = inner.nodes made lastEnd) (hc : Construct.of? options n = some c) :
    (c = .conditional ∧ m = .simple ∧ parts = SyntaxTree.conditionalParts) ∨
      (c = .floorDivision ∧ ∃ limit, m = .climb limit ∧
        parts = [.sub (.climb limit), .mark .doubleSlash, .sub (.operand 7)]) ∨
      c = .compoundFloorDivision ∧ m = .statement ∧
        parts = [.sub .variable, .mark .doubleSlashAssign, .sub .expr] := by
  obtain ⟨rfl, hconditional⟩ | ⟨rfl, hbinary, hoperator⟩ | ⟨rfl, hcompound, hoperator⟩ :=
    Construct.of?_cases hc
  · obtain rfl : kind = .expr .conditional := hkind.symm.trans hconditional
    cases rule
    exact .inl ⟨rfl, rfl, rfl⟩
  · obtain rfl : kind = .expr .binary := hkind.symm.trans hbinary
    cases rule with
    | binary limit op left right powers tighter =>
        obtain rfl : op = .doubleSlash := Option.some.inj <|
          (operator?_between inside rfl rfl hamong hn).symm.trans hoperator
        obtain ⟨rfl, rfl⟩ : 7 = left ∧ 7 = right := by simpa [TokenKind.bindingPowers?] using powers
        exact .inr (.inl ⟨rfl, limit, rfl, rfl⟩)
  · obtain rfl : kind = .stmt .compoundAssign := hkind.symm.trans hcompound
    cases rule with
    | compoundAssignment op compound =>
        obtain rfl : op = .doubleSlashAssign := Option.some.inj <|
          (operator?_between inside rfl rfl hamong hn).symm.trans hoperator
        exact .inr (.inr ⟨rfl, rfl, rfl⟩)

/-- Every construct whose condition is not open has a row, where no suffix follows the
lowered text or the text has no end of its own. -/
theorem Production.exists_row {m : Nonterminal} {kind : Kind} {parts : List Symbol} {c : Construct}
    (rule : Production m (some kind) parts) (inside : Derives parts inner next)
    (hamong : Word.Among t ws inner.words vs) (hkind : n.kind = kind)
    (hn : n.children = inner.nodes made lastEnd) (hc : Construct.of? options n = some c)
    (hclosed : n.ClosesCondition)
    (hchain : Site.isChoice ⟨c, n, parent⟩ = false → EndsChain next)
    (hcomma : m = .statement → LacksToken .comma next)
    (hkept : ∀ after, after <:+ inner.words → ∃ m m', Spells m after m' rest) :
    ∃ graft, t.loweredSite ⟨c, n, parent⟩ = .ok graft ∧ ∀ gap : Text, gap.all isBlank → ∃ f,
      Site.Row ⟨c, n, parent⟩ inner.words gap graft next rest f := by
  obtain ⟨rfl, -, rfl⟩ | ⟨rfl, limit, -, rfl⟩ | ⟨rfl, rfl, rfl⟩ :=
    rule.construct inside hamong hkind hn hc
  · exact Site.exists_conditional inside hamong hn hclosed hchain hkept
  · exact Site.exists_quotient inside hamong hn (hchain rfl)
  · exact Site.exists_assignment inside hamong hn (hchain rfl) (hcomma rfl)

end Constructs

end LuauTidy
