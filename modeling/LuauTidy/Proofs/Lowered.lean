import LuauTidy.Lowering.Pass
import LuauTidy.Proofs.Contexts
import LuauTidy.Proofs.Fillers

/-!
# Lowered texts

The lowered text of a construct is put together from the source texts of its
parts and from fixed texts.  Here it is said for each form of construct that
the lowered text exists, that it can be grafted onto the source, since it ends
either in a parenthesis or as the construct itself does, and that it alters
the source: the two differ in a character that is no line end.

* `Alters` — a text differs from what it replaces and all that may follow;
* `SyntaxTree.lowered_floorDivision`, `SyntaxTree.lowered_compound`,
  `SyntaxTree.lowered_conditional` — the three forms.
-/

namespace LuauTidy

namespace Text

variable {source : Text}

/-- A text behind one without dollar signs. -/
theorem drawn_fixed_append {fixed t : Text} (hfixed : '$' ∉ fixed) (ht : Drawn source t) :
    Drawn source (fixed ++ t) :=
  (drawn_of_plain hfixed).append (sealed_nil.append hfixed) ht

/-- A part of the source behind a text without dollar signs. -/
theorem drawn_behind {fixed part : Text} (hfixed : '$' ∉ fixed) (hpart : part <:+: source) :
    Drawn source (fixed ++ part) :=
  drawn_fixed_append hfixed (drawn_of_part hpart)

end Text

/-! ### What is altered -/

/-- A text that does not start like a part, whatever stands behind the part;
and it is no line end that tells. -/
def Alters (part graft : Text) : Prop :=
  ∃ p c, p ++ [c] <+: graft ∧ Text.isLineEnd c = false ∧ ∀ rest, ¬p ++ [c] <+: part ++ rest

/-- The first characters differ. -/
theorem alters_head {c d : Char} {part graft : Text} (hc : Text.isLineEnd c = false)
    (hne : c ≠ d) : Alters (d :: part) (c :: graft) := by
  refine ⟨[], c, by simp, hc, fun rest h => ?_⟩
  simp only [List.nil_append, List.cons_append, List.cons_prefix_cons] at h
  exact hne h.1

/-- A list that starts itself behind another one repeats the items of that one. -/
theorem mem_of_prefix_shifted {α : Type} {fixed shifted rest : List α} {c : α}
    (hfixed : fixed ≠ []) (h : shifted ++ [c] <+: fixed ++ (shifted ++ rest)) : c ∈ fixed := by
  have hpos : 0 < fixed.length := List.length_pos_iff.mpr hfixed
  have key : ∀ i, (hi : i < (shifted ++ [c]).length) → (shifted ++ [c])[i] ∈ fixed := by
    intro i
    induction i using Nat.strongRecOn with
    | ind i ih =>
        intro hi
        rw [h.getElem hi]
        by_cases hin : i < fixed.length
        · rw [List.getElem_append_left hin]
          exact List.getElem_mem hin
        · have hlength : i - fixed.length < shifted.length := by
            simp only [List.length_append, List.length_singleton] at hi
            omega
          rw [List.getElem_append_right (by omega), List.getElem_append_left hlength]
          have h := ih (i - fixed.length) (by omega) (by simp; omega)
          rwa [List.getElem_append_left hlength] at h
  simpa using key shifted.length (by simp)


namespace SyntaxTree

variable {t : SyntaxTree} {before : Text} {f : Forest} {next : Ahead}

open Text

/-! ### Quotients -/

theorem grafts_parenthesis {source part head : Text} (h : Drawn source (head ++ [')'])) :
    Grafts source part (head ++ [')']) :=
  ⟨head, ')', [], part, rfl, by simp, by decide, h⟩

theorem flooredQuotient_eq (left right : Text) :
    flooredQuotient left right = ("math.floor(".toList ++ left) ++ '/' :: (right ++ [')']) := by
  unfold flooredQuotient
  generalize "math.floor(".toList = fixed
  simp

theorem drawn_flooredQuotient {source left right : Text} (hleft : left <:+: source)
    (hright : Drawn source ('/' :: right)) :
    Drawn source (flooredQuotient left right) := by
  have hopened : Drawn source ("math.floor(".toList ++ left) := drawn_behind (by simp) hleft
  have hclosed : Drawn source ('/' :: (right ++ [')'])) :=
    hright.append_separated (by decide) (drawn_of_plain (by simp))
  rw [flooredQuotient_eq]
  exact hopened.append_separated (by decide) hclosed

/-- What stands between an operand and a slash is in no name of a function. -/
theorem alters_quotient {left : Text} {ws vs passed later : List Word} {w : Word}
    (hamong : Word.Among t ws (passed ++ w :: later) vs) (hpassed : ∀ p ∈ passed, p.isComment)
    (hslash : w.text.head? = some '/') (right : Text) :
    Alters (left ++ Word.flat (passed ++ w :: later)) (flooredQuotient left right) := by
  obtain ⟨blanks, c, rest, hopens, hblanks, hc⟩ := hamong.opens hpassed
  have hopened : ∃ d more, blanks ++ c :: rest = d :: more ∧
      (Lexeme.isBlank d ∨ d = '-' ∨ d = '/') := by
    cases blanks with
    | nil => exact ⟨c, rest, rfl, .inr (by simpa [hslash, eq_comm] using hc)⟩
    | cons d blanks =>
        rw [List.all_cons, Bool.and_eq_true] at hblanks
        exact ⟨d, blanks ++ c :: rest, rfl, .inl hblanks.1⟩
  obtain ⟨d, more, hmore, hd⟩ := hopened
  refine ⟨"math.floor(".toList ++ left, '/', ?_, by decide, fun after h => ?_⟩
  · exact ⟨right ++ [')'], by rw [flooredQuotient_eq]; simp⟩
  · have hprefix : left ++ [d] <+: "math.floor(".toList ++ (left ++ ['/']) := by
      have hleft : left ++ [d] <+: left ++ d :: (more ++ after) := ⟨more ++ after, by simp⟩
      refine List.prefix_of_prefix_length_le hleft ?_ ?_
      · simpa [hopens, hmore] using h
      · simp only [List.length_append, List.length_singleton]
        omega
    have hmem := mem_of_prefix_shifted (by decide) hprefix
    revert hmem
    rcases hd with hd | rfl | rfl
    · simp only [Lexeme.isBlank, Bool.or_eq_true, beq_iff_eq] at hd
      rcases hd with (((((rfl | rfl) | rfl) | rfl) | rfl) | rfl) <;> decide
    · decide
    · decide

/-- A floor division has a lowered text. -/
theorem lowered_floorDivision {a b : Nonterminal}
    (h : Derives [.sub a, .mark .doubleSlash, .sub b] f next) (ha : a.isWholeExpr)
    (hb : b.isWholeExpr) {ws vs : List Word} (hamong : Word.Among t ws f.words vs)
    {made lastEnd : Nat} {n : Node} (hn : n.children = f.nodes made lastEnd) :
    ∃ graft, t.loweredFloorDivision n = .ok graft ∧
      Grafts t.source (Word.body f.words) graft ∧ Alters (Word.body f.words) graft := by
  obtain ⟨g, passed, w, later, left, mark, right, k, rfl, hg, -, hpassed, hw, hnodes, -, -, hleft,
    hright⟩ := h.spans_between ha hb hamong.stand made lastEnd
  rw [Forest.words_append, Forest.words] at hamong
  have hleftIn := hamong.left.stand.body_part
  have hrightIn := hamong.right.tail.stand.body_part
  have hslash : w.text = "//".toList := hamong.mark_text (by simp) hw (by decide)
  refine ⟨flooredQuotient (Word.body g.words) (Word.body later.words), ?_, ?_, ?_⟩
  · simp [loweredFloorDivision, Node.expectChild, Node.child?, hn, hnodes, hleft.text_eq,
      hright.text_eq, bind, Except.bind, pure, Except.pure]
  · have hdivided : Drawn t.source (['/'] ++ Word.body later.words) :=
      drawn_behind (by simp) hrightIn
    have h := drawn_flooredQuotient hleftIn hdivided
    rw [flooredQuotient_eq, ← List.cons_append, ← List.append_assoc] at h ⊢
    exact grafts_parenthesis h
  · rw [Forest.words_append, Forest.words, Word.body_append (hg.exists_word ha)]
    exact alters_quotient hamong.right hpassed (by rw [hslash]; decide) _

theorem drawn_parenthesized {source part : Text} (h : Drawn source part) :
    Drawn source (parenthesized part) := by
  have hopened : Drawn source (['('] ++ part) := drawn_fixed_append (by simp) h
  exact hopened.append_separated (by decide) (drawn_of_plain (by simp))

/-- A text that goes on with an assignment differs from one that goes on with
an operator. -/
theorem alters_assignment {left : Text} {ws vs passed later : List Word} {w : Word}
    (hamong : Word.Among t ws (passed ++ w :: later) vs) (hpassed : ∀ p ∈ passed, p.isComment)
    (hslash : w.text.head? = some '/') (right : Text) :
    Alters (left ++ Word.flat (passed ++ w :: later)) (left ++ " = ".toList ++ right) := by
  obtain ⟨blanks, c, rest, hopens, hblanks, hc⟩ := hamong.opens hpassed
  have hc : c = '-' ∨ c = '/' := by simpa [hslash, eq_comm] using hc
  refine ⟨left ++ [' '], '=', ⟨' ' :: right, by simp⟩, by decide, fun after h => ?_⟩
  have h : [' ', '='] <+: blanks ++ c :: (rest ++ after) := by simpa [hopens] using h
  match blanks with
  | [] =>
      rw [List.nil_append, List.cons_prefix_cons] at h
      rcases hc with rfl | rfl <;> simp at h
  | [d] =>
      simp only [List.cons_append, List.nil_append, List.cons_prefix_cons] at h
      rcases hc with rfl | rfl <;> simp at h
  | d :: e :: blanks =>
      simp only [List.cons_append, List.cons_prefix_cons] at h
      obtain ⟨-, rfl, -⟩ := h
      simp [Lexeme.isBlank] at hblanks

/-- A floor division that assigns has a lowered text. -/
theorem lowered_compound {a b : Nonterminal}
    (h : Derives [.sub a, .mark .doubleSlashAssign, .sub b] f next) (ha : a.isWholeExpr)
    (hb : b.isWholeExpr) {ws vs : List Word} (hamong : Word.Among t ws f.words vs)
    {made lastEnd : Nat} {n : Node} (hn : n.children = f.nodes made lastEnd) :
    ∃ graft, t.loweredCompound n = .ok graft ∧ Grafts t.source (Word.body f.words) graft ∧
      Alters (Word.body f.words) graft := by
  obtain ⟨g, passed, w, later, left, mark, right, k, rfl, hg, -, hpassed, hw, hnodes, -, -, hleft,
    hright⟩ := h.spans_between ha hb hamong.stand made lastEnd
  rw [Forest.words_append, Forest.words] at hamong
  have hleftIn := hamong.left.stand.body_part
  have hrightIn := hamong.right.tail.stand.body_part
  have hslash : w.text = "//=".toList := hamong.mark_text (by simp) hw (by decide)
  let divisor := if needsParens right.kind then parenthesized (Word.body later.words)
    else Word.body later.words
  have hdivisor : Drawn t.source ('/' :: divisor) := by
    simp only [divisor]
    split
    · have hopened : Drawn t.source (['/', '('] ++ Word.body later.words) :=
        drawn_behind (by simp) hrightIn
      exact hopened.append_separated (by decide) (drawn_of_plain (by simp))
    · have hopened : Drawn t.source (['/'] ++ Word.body later.words) :=
        drawn_behind (by simp) hrightIn
      exact hopened
  have hquotient := drawn_flooredQuotient hleftIn hdivisor
  refine ⟨Word.body g.words ++ " = ".toList ++ flooredQuotient (Word.body g.words) divisor,
    ?_, ?_, ?_⟩
  · simp only [loweredCompound, Node.expectChild, Node.child?, hn, hnodes, bind, Except.bind, pure,
      Except.pure, List.getElem?_cons_zero, List.getElem?_cons_succ, hleft.text_eq, hright.text_eq]
    rfl
  · have hassign : Drawn t.source ((' ' :: "= ".toList) ++
        flooredQuotient (Word.body g.words) divisor) := drawn_fixed_append (by simp) hquotient
    have h := (drawn_of_part hleftIn).append_separated (by decide) hassign
    rw [flooredQuotient_eq] at h ⊢
    have heq : Word.body g.words ++ " = ".toList ++ (("math.floor(".toList ++ Word.body g.words) ++
          '/' :: (divisor ++ [')'])) =
        (Word.body g.words ++ " = ".toList ++ (("math.floor(".toList ++ Word.body g.words) ++
          '/' :: divisor)) ++ [')'] := by
      generalize "math.floor(".toList = name
      generalize " = ".toList = assign
      simp
    rw [heq]
    refine grafts_parenthesis ?_
    have hblank : " = ".toList = ' ' :: "= ".toList := by decide
    rw [← heq, List.append_assoc, hblank]
    exact h
  · rw [Forest.words_append, Forest.words, Word.body_append (hg.exists_word ha)]
    exact alters_assignment hamong.right hpassed (by rw [hslash]; decide) _

/-! ### Conditionals -/

/-- A child of a conditional: one of its keywords, or an expression with a text
of the source. -/
def BranchPart (t : SyntaxTree) (n : Node) : Prop :=
  (∃ k, n.kind = .token k ∧ k ∈ [TokenKind.kwIf, .kwThen, .kwElseif, .kwElse]) ∨
    ∃ k text, n.kind = .expr k ∧ t.text n = .ok text ∧ text <:+: t.source

/-- What a conditional asks for. -/
def IsBranching : Symbol → Prop
  | .leaf kind _ => ∃ k, kind = .token k ∧ k ∈ [TokenKind.kwIf, .kwThen, .kwElseif, .kwElse]
  | .sub n => n.isWholeExpr ∨ n = .elseifs
  | _ => False

/-- The children of a conditional, those of its further branches among them. -/
theorem branchParts {symbols : List Symbol} (h : Derives symbols f next)
    (hsymbols : ∀ s ∈ symbols, IsBranching s) (hstand : Word.Stand t.source before f.words)
    (made lastEnd : Nat) : ∀ n ∈ f.nodes made lastEnd, t.BranchPart n := by
  have hexpr : ∀ {n : Nonterminal} {f : Forest} {next : Ahead} {before : Text},
      Derives [.sub n] f next → n.isWholeExpr → Word.Stand t.source before f.words →
      ∀ made lastEnd, ∀ n ∈ f.nodes made lastEnd, t.BranchPart n := by
    intro n f next before h hn hstand made lastEnd
    obtain ⟨node, k, hnode, hkind, hspans⟩ := h.spans hn hstand made lastEnd
    simp only [hnode, List.mem_singleton, forall_eq]
    exact .inr ⟨k, _, hkind, hspans.text_eq, hstand.body_part⟩
  induction h generalizing before made lastEnd with
  | nil => simp [Forest.nodes]
  | @leaf kind fits passed w later _ _ _ _ _ _ ih =>
      simp only [List.mem_cons, forall_eq_or_imp] at hsymbols
      obtain ⟨k, rfl, hk⟩ := hsymbols.1
      simp only [Forest.nodes, List.mem_cons, forall_eq_or_imp]
      exact ⟨.inl ⟨k, rfl, hk⟩, ih hsymbols.2 hstand.tail _ _⟩
  | skip => exact absurd (hsymbols _ (List.mem_cons_self ..)) id
  | look => exact absurd (hsymbols _ (List.mem_cons_self ..)) id
  | @flat n parts symbols f later next rule inside tail ihInside ih =>
      simp only [List.mem_cons, forall_eq_or_imp] at hsymbols
      rw [Forest.words_append] at hstand
      simp only [Forest.nodes_append, List.mem_append]
      rintro node (hnode | hnode)
      · rcases hsymbols.1 with hn | rfl
        · exact hexpr (.ofFlat rule inside) hn hstand.append.1 _ _ node hnode
        · refine ihInside ?_ hstand.append.1 _ _ node hnode
          cases rule <;> simp [IsBranching, Symbol.mark, Nonterminal.isWholeExpr]
      · exact ih hsymbols.2 hstand.append.2 _ _ node hnode
  | @node n kind parts symbols inner later next rule inside tail ihInside ih =>
      simp only [List.mem_cons, forall_eq_or_imp] at hsymbols
      rw [Forest.words] at hstand
      have hn : n.isWholeExpr := by
        rcases hsymbols.1 with hn | rfl
        · exact hn
        · cases rule
      simp only [Forest.nodes, List.mem_cons, forall_eq_or_imp]
      have hfirst : Word.Stand t.source before (Forest.node kind inner .nil).words := by
        simpa [Forest.words] using hstand.append.1
      exact ⟨hexpr (.ofNode rule inside) hn hfirst made lastEnd _ (by simp [Forest.nodes]),
        ih hsymbols.2 hstand.append.2 _ _⟩

/-- The statement that returns from the branch taken. -/
theorem branches_drawn {l : List Node} (h : ∀ n ∈ l, t.BranchPart n) :
    ∃ body, t.branches l = .ok body ∧ Drawn t.source body ∧
      (body = [] ∨ ∃ rest, body = ' ' :: rest) := by
  induction l with
  | nil => exact ⟨[], rfl, drawn_of_plain (by simp), .inl rfl⟩
  | cons n l ih =>
      simp only [List.mem_cons, forall_eq_or_imp] at h
      obtain ⟨body, hbody, hdrawn, hblank⟩ := ih h.2
      have hstep : ∀ here : Text, Drawn t.source (' ' :: here) →
          Drawn t.source (' ' :: here ++ body) := by
        intro here hhere
        obtain rfl | ⟨rest, rfl⟩ := hblank
        · simpa using hhere
        · exact hhere.append_separated (by decide) hdrawn
      obtain ⟨k, hkind, hk⟩ | ⟨k, text, hkind, htext, hin⟩ := h.1
      · simp only [List.mem_cons, List.not_mem_nil, or_false] at hk
        simp only [branches, hbody, hkind]
        rcases hk with rfl | rfl | rfl | rfl
        all_goals refine ⟨_, rfl, hstep _ (drawn_of_plain ?_), .inr ⟨_, rfl⟩⟩
        all_goals decide
      · refine ⟨' ' :: text ++ body, ?_, hstep text ?_, .inr ⟨_, rfl⟩⟩
        · simp [branches, hbody, hkind, htext, Except.map, bind, Except.bind, pure, Except.pure]
        · rw [← List.singleton_append]
          exact drawn_behind (by simp) hin

/-- What a conditional asks for. -/
def conditionalParts : List Symbol :=
  [.mark .kwIf, .sub .expr, .mark .kwThen, .sub .expr, .sub .elseifs, .mark .kwElse, .sub .expr]

/-- The children of a conditional: its condition, its first value, its further
branches and its alternative. -/
theorem spans_conditional (h : Derives conditionalParts f next)
    (hstand : Word.Stand t.source before f.words) (made lastEnd : Nat) :
    ∃ passed w condition later init alternative mark c thenMark v others elseMark a,
      f = .leaf (.token .kwIf) passed w (condition ++ later) ∧ (∀ p ∈ passed, p.isComment) ∧
      w.cls = .token .kwIf ∧ (∃ next, Derives [.sub .expr] condition next) ∧
      f.words = init ++ alternative ∧ (∃ v ∈ init, v.isComment = false) ∧
      f.nodes made lastEnd = mark :: c :: thenMark :: v :: (others ++ [elseMark, a]) ∧
      condition.nodes (made + 1) w.stop = [c] ∧
      c.Spans t (before ++ Word.flat (passed ++ [w])) condition.words ∧
      a.Spans t (before ++ Word.flat init) alternative ∧
      Word.Stand t.source (before ++ Word.flat init) alternative := by
  obtain ⟨passed, w, _, rfl, hpassed, -, hw, condition, _, rfl, hcondition, -, passed₁, w₁, _, rfl,
    hpassed₁, -, hw₁, value, _, rfl, hvalue, -, more, _, rfl, hmore, -, passed₂, w₂, _, rfl,
    hpassed₂, -, hw₂, last, _, rfl, hlast, -, rfl⟩ := h.parted
  have hw : w.cls = .token .kwIf := hw
  have hw₁ : w₁.cls = .token .kwThen := hw₁
  have hw₂ : w₂.cls = .token .kwElse := hw₂
  have hcomment : w.isComment = false := by simp [Token.isComment, hw]
  have hcomment₁ : w₁.isComment = false := by simp [Token.isComment, hw₁]
  have hcomment₂ : w₂.isComment = false := by simp [Token.isComment, hw₂]
  simp only [Forest.append_nil] at hstand hcondition hvalue hmore hlast ⊢
  simp only [Forest.words, Forest.words_append] at hstand
  have hstand₁ := hstand.tail.append.1
  have hstand₂ := hstand.tail.append.2.tail.append.1
  have hstand₃ := hstand.tail.append.2.tail.append.2.append.2.tail
  obtain ⟨c, -, hc, -, hcSpans⟩ := hcondition.spans rfl hstand₁ (made + 1) w.stop
  obtain ⟨v, -, hv, -, -⟩ := hvalue.spans rfl hstand₂ (made + 1 + condition.count + 1) w₁.stop
  obtain ⟨a, -, ha, -, haSpans⟩ := hlast.spans rfl hstand₃
    (made + 1 + condition.count + 1 + value.count + more.count + 1) w₂.stop
  refine ⟨passed, w, condition, _, passed ++ w :: (condition.words ++ (passed₁ ++ w₁ ::
    (value.words ++ (more.words ++ (passed₂ ++ [w₂]))))), last.words,
    ⟨made, .token .kwIf, w.start, w.stop, []⟩, c,
    ⟨made + 1 + condition.count, .token .kwThen, w₁.start, w₁.stop, []⟩, v,
    more.nodes (made + 1 + condition.count + 1 + value.count) (value.endFrom w₁.stop),
    ⟨made + 1 + condition.count + 1 + value.count + more.count, .token .kwElse, w₂.start, w₂.stop,
      []⟩, a, rfl, hpassed, hw, ⟨_, hcondition⟩, ?_, ⟨w, by simp, hcomment⟩, ?_, hc, hcSpans, ?_, ?_⟩
  · simp [Forest.words]
  · simp [Forest.nodes, hcomment, hcomment₁, hcomment₂, hc, hv, ha]
  · simpa using haSpans
  · simpa using hstand₃

/-- Whether a condition binds loosely can be told. -/
theorem bindsLoosely_ok {condition : Forest} {m : Nonterminal}
    (h : Derives [.sub m] condition next) (hm : m.isWholeExpr)
    (hliterals : ∀ w ∈ condition.words, ∀ k, w.cls = .literal k → k.isLiteral) {made lastEnd : Nat}
    {c : Node} (hc : condition.nodes made lastEnd = [c]) : ∃ b, bindsLoosely c = .ok b := by
  cases hkind : c.kind with
  | expr k =>
      cases k with
      | binary =>
          have hchild : ∃ op, c.child? 1 = some op := by
            obtain ⟨j, passed, w, rfl⟩ | ⟨j, inner, rfl⟩ := h.isExpr hm
            · simp only [Forest.nodes, List.cons.injEq, and_true] at hc
              obtain rfl : j = .binary := by simpa [← hc] using hkind
              have hw : w.cls = .literal .binary := by
                have hleaf := (h.fit (by simp)).2.1
                simp only [LeafFits, reduceCtorEq, and_false, or_false] at hleaf
                revert hleaf
                cases w.cls <;> simp [TokenClass.leafKind?]
              have := hliterals w (by simp [Forest.words]) _ hw
              simp [ExprKind.isLiteral] at this
            · simp only [Forest.nodes, List.cons.injEq, and_true] at hc
              obtain rfl : j = .binary := by simpa [← hc, Node.around] using hkind
              obtain ⟨⟨n, parts, rule, inside⟩, -⟩ := h.ruled
              cases rule with
              | binary limit op left right powers tighter =>
                  obtain ⟨g, _, rfl, hg, -, passed, w, later, rfl, -⟩ := inside.parted
                  obtain ⟨first, -, hfirst, -⟩ := (hg.isExpr rfl).exists_node made lastEnd
                  refine ⟨_, by rw [← hc]; simp [Node.around, Node.child?, Forest.nodes, hfirst]; rfl⟩
          obtain ⟨op, hop⟩ := hchild
          exact ⟨op.isToken .kwOr, by simp [bindsLoosely, hkind, Node.expectChild, hop, bind, Except.bind,
            pure, Except.pure]⟩
      | conditional => exact ⟨true, by simp [bindsLoosely, hkind]⟩
      | _ => exact ⟨false, by simp [bindsLoosely, hkind]⟩
  | _ => exact ⟨false, by simp [bindsLoosely, hkind]⟩

/-- The children of a conditional that is lowered to `and` and `or`. -/
theorem shortConditional?_eq_some {l : List Node} {condition value alternative : Node}
    (h : shortConditional? l = some (condition, value, alternative)) :
    ∃ ifMark thenMark elseMark,
      l = [ifMark, condition, thenMark, value, elseMark, alternative] ∧
        isTruthyLiteral value.kind := by
  unfold shortConditional? at h
  split at h
  · split at h
    · rename_i hkind
      simp only [Bool.and_eq_true] at hkind
      simp only [Option.some.injEq, Prod.mk.injEq] at h
      obtain ⟨rfl, rfl, rfl⟩ := h
      exact ⟨_, _, _, rfl, hkind.2⟩
    · cases h
  · cases h

/-- A condition before `and` does not read like a conditional: it starts with
another word than `if`. -/
theorem not_prefix_if {condition : Forest} (h : Derives [.sub .expr] condition next)
    (hnot : ∀ inner, condition ≠ .node (.expr .conditional) inner .nil) {ws vs : List Word}
    (hamong : Word.Among t ws condition.words vs) {rest : Text}
    (hrest : Text.startsWith Lexeme.isWordChar rest = false) :
    ¬Word.body condition.words ++ " a".toList <+: "if".toList ++ rest := by
  obtain ⟨kind, w, hw, hkind⟩ := h.firstLeaf Production.firstIs_expr rfl
  obtain ⟨⟨passed, later, hwords, hpassed⟩, hleaf, -⟩ :=
    Forest.head_of_firstLeaf (h.fit (by simp)) hw 0 0
  have hcomment : w.isComment = false :=
    hleaf.not_comment (by rintro rfl; simp [Kind.beginsExpr] at hkind)
  have hpiece : w.cls.isPiece = false := Kind.isPiece_of_beginsExpr hkind hleaf
  rw [hwords] at hamong ⊢
  rw [Word.body_of_comments hpassed hcomment]
  rintro ⟨after, hafter⟩
  cases hstart : Text.startsWith Lexeme.isWordStart w.text with
  | false =>
      obtain ⟨c, tail, htext⟩ := List.exists_cons_of_ne_nil hamong.text_ne_nil
      rw [htext] at hafter hstart
      obtain rfl : c = 'i' := by
        have hhead := congrArg List.head? hafter
        simpa using hhead
      exact absurd hstart.symm Bool.false_ne_true
  | true =>
      obtain ⟨hall, hstop, hcls⟩ := hamong.word hpiece hstart
      have hbehind : Text.startsWith Lexeme.isWordChar (Word.flat later ++ (" a".toList ++ after)) =
          false := by
        cases hlater : Word.flat later with
        | nil => rfl
        | cons c text => simpa [hlater, Text.startsWith] using hstop
      have hif : w.text = "if".toList := by
        have htake := Text.takeWhile_append hall hbehind
        rw [← List.append_assoc, ← List.append_assoc, hafter] at htake
        rw [← htake]
        exact Text.takeWhile_append (by decide) hrest
      have hcls : w.cls = .token .kwIf := by
        rw [hcls, hif]
        decide
      obtain rfl : kind = .token .kwIf := by
        simpa [LeafFits, hcls, TokenClass.leafKind?, eq_comm] using hleaf
      obtain ⟨⟨inner, hinner⟩, -⟩ := h.conditional_of_if rfl hw
      exact hnot inner hinner

/-- A conditional has a lowered text. -/
theorem lowered_conditional (h : Derives conditionalParts f next) {ws vs : List Word}
    (hamong : Word.Among t ws f.words vs) (parent : Option Kind) {made lastEnd : Nat} {n : Node}
    (hn : n.children = f.nodes made lastEnd) :
    ∃ graft, t.loweredConditional parent n = .ok graft ∧ Grafts t.source (Word.body f.words) graft ∧
      Alters (Word.body f.words) graft := by
  have hbranching := branchParts h
    (by simp [conditionalParts, Symbol.mark, IsBranching, Nonterminal.isWholeExpr]) hamong.stand
    made lastEnd
  have hliterals := hamong.isLiteral
  obtain ⟨passed, w, condition, later, init, alternative, mark, c, thenMark, v, others, elseMark, a,
    rfl, hpassed, hw, ⟨_, hcondition⟩, hwords, hinit, hnodes, hc, hcSpans, haSpans, haStand⟩ :=
    spans_conditional h hamong.stand made lastEnd
  have hcomment : w.isComment = false := by simp [Token.isComment, hw]
  rw [← hn] at hnodes hbranching
  have hinfix := hamong.stand.body_part
  have hbody : Word.body (Forest.leaf (.token .kwIf) passed w (condition ++ later)).words =
      "if".toList ++ Word.flat (condition ++ later).words := by
    rw [Forest.words, Word.body_of_comments hpassed hcomment]
    rw [hamong.mark_text (w := w) (by simp [Forest.words]) hw (by decide)]
    rfl
  cases hshort : shortConditional? n.children with
  | none =>
      obtain ⟨body, hok, hdrawn, -⟩ := branches_drawn hbranching
      have heq : "(function()".toList ++ body ++ " end end)()".toList =
          ("(function()".toList ++ body ++ " end end)(".toList) ++ [')'] := by
        rw [List.append_assoc ("(function()".toList ++ body)]
        congr 1
      refine ⟨"(function()".toList ++ body ++ " end end)()".toList, ?_, ?_, ?_⟩
      · simp [loweredConditional, hshort, hok, bind, Except.bind, pure, Except.pure]
      · have hopened : Drawn t.source ("(function()".toList ++ body) :=
          drawn_fixed_append (by decide) hdrawn
        have hclosed : " end end)()".toList = ' ' :: "end end)()".toList := by decide
        have hall := hopened.append_separated (by decide)
          (drawn_of_plain (t := ' ' :: "end end)()".toList) (by decide))
        rw [← hclosed, heq] at hall
        rw [heq]
        exact grafts_parenthesis hall
      · rw [hbody]
        exact alters_head (by decide) (by decide)
  | some parts =>
      obtain ⟨condition', value, alternative'⟩ := parts
      obtain ⟨_, _, _, hshape, hvalue⟩ := shortConditional?_eq_some hshort
      have hothers : others = [] := by
        have hlength := congrArg List.length (hnodes.symm.trans hshape)
        simpa using hlength
      rw [hshape, hothers] at hnodes
      obtain ⟨-, rfl, -, rfl, -, rfl⟩ : _ ∧ condition' = c ∧ _ ∧ value = v ∧ _ ∧ alternative' = a := by
        simpa using hnodes
      obtain ⟨valueText, hvalueText, hvalueIn⟩ :
          ∃ text, t.text value = .ok text ∧ text <:+: t.source := by
        obtain ⟨k, hkind, -⟩ | ⟨k, text, -, htext, hin⟩ := hbranching value (by rw [hshape]; simp)
        · simp [hkind, isTruthyLiteral] at hvalue
        · exact ⟨text, htext, hin⟩
      have hconditionAmong : Word.Among t (ws ++ (passed ++ [w])) condition.words
          (later.words ++ vs) := by
        rw [Forest.words, Forest.words_append] at hamong
        exact hamong.tail.left
      obtain ⟨loose, hloose⟩ := bindsLoosely_ok hcondition rfl hconditionAmong.isLiteral hc
      let guard := if loose then parenthesized (Word.body condition.words)
        else Word.body condition.words
      let head := guard ++ " and ".toList ++ valueText ++ " or".toList
      have hchoice : t.choice condition' value alternative' =
          .ok (head ++ ' ' :: Word.body alternative) := by
        have hor : " or ".toList = " or".toList ++ [' '] := by decide
        simp only [choice, hloose, hcSpans.text_eq, hvalueText, haSpans.text_eq, bind, Except.bind,
          pure, Except.pure, head, guard, hor]
        generalize " and ".toList = chosen
        generalize " or".toList = otherwise
        simp
      have hguard : Drawn t.source guard := by
        have hin := hconditionAmong.stand.body_part
        simp only [guard]
        split
        · exact drawn_parenthesized (drawn_of_part hin)
        · exact drawn_of_part hin
      have hhead : Drawn t.source (head ++ [' ']) := by
        have hvalueOr : Drawn t.source ((" and ".toList ++ valueText) ++ ' ' :: "or ".toList) :=
          (drawn_behind (by decide) hvalueIn).append_separated (by decide)
            (drawn_of_plain (by decide))
        have hall := hguard.append_separated (c := ' ') (by decide)
          (b := "and ".toList ++ valueText ++ ' ' :: "or ".toList) hvalueOr
        have heq : head ++ [' '] = guard ++ ' ' :: ("and ".toList ++ valueText ++
            ' ' :: "or ".toList) := by
          simp [head]
        rwa [heq]
      have hpart : Word.body (Forest.leaf (.token .kwIf) passed w (condition ++ later)).words =
          (Word.body init ++ Word.lead alternative) ++ Word.body alternative := by
        rw [hwords, Word.body_append hinit, List.append_assoc, Word.lead_append_body]
      cases hparent : parent.any isOperation with
      | true =>
          refine ⟨parenthesized (head ++ ' ' :: Word.body alternative), ?_, ?_, ?_⟩
          · simp [loweredConditional, hshort, hchoice, hparent, bind, Except.bind, pure, Except.pure]
          · have hchosen := hhead.append (sealed_concat head (by decide))
              (drawn_of_part haStand.body_part)
            rw [List.append_assoc, List.singleton_append] at hchosen
            exact grafts_parenthesis (drawn_parenthesized hchosen)
          · rw [hbody]
            exact alters_head (by decide) (by decide)
      | false =>
          refine ⟨head ++ ' ' :: Word.body alternative, ?_, ?_, ?_⟩
          · simp [loweredConditional, hshort, hchoice, hparent, bind, Except.bind, pure, Except.pure]
          · exact ⟨head, ' ', _, _, rfl, hpart, by decide, hhead⟩
          · rw [hbody]
            cases loose with
            | true => exact alters_head (by decide) (by decide)
            | false =>
                have hplain : ∀ inner, condition ≠ .node (.expr .conditional) inner .nil := by
                  rintro inner rfl
                  have hkind : condition'.kind = .expr .conditional := by
                    simp only [Forest.nodes, List.cons.injEq, and_true] at hc
                    rw [← hc]
                    rfl
                  simp [bindsLoosely, hkind] at hloose
                have hin := hamong
                rw [Forest.words] at hin
                have hiftext : w.text = "if".toList := hin.mark_text (by simp) hw (by decide)
                obtain ⟨-, hstop, -⟩ := hin.word (by rw [hw]; rfl) (by rw [hiftext]; decide)
                refine ⟨Word.body condition.words ++ [' '], 'a', ?_, by decide, fun rest => ?_⟩
                · exact ⟨"nd ".toList ++ valueText ++ " or".toList ++ ' ' :: Word.body alternative,
                    by simp [head, guard]⟩
                · have hnot := not_prefix_if hcondition hplain hconditionAmong
                    (startsWith_append hstop (b := rest) ?_)
                  · simpa using hnot
                  · obtain ⟨u, hu, -⟩ := hcondition.exists_word rfl
                    obtain ⟨x, y, hxy⟩ := List.append_of_mem hu
                    rw [hxy] at hconditionAmong
                    simp [hxy, hconditionAmong.text_ne_nil]

end SyntaxTree

end LuauTidy
