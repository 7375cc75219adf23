import LuauTidy.Proofs.Detaching
import LuauTidy.Proofs.Mirrors

/-!
# Transplants

A pass sets rows in the place of constructs.  The rows around them match what they
matched, since only the first token of an expression may change, and no production
looks at the first token of an expression.

* `Nonterminal.steady`, `Symbol.buffered` — what keeps its first token, and what may stand
  before what does not;
* `Forest.Settled` — a row of a tree whose constructs are detached;
* `Transplant` — such a row, and the one that stands for it in the lowered text;
* `Derives.transplant` — every such row has one.
-/

namespace LuauTidy

open Lexeme

variable {t : SyntaxTree} {options : LoweringOptions}

/-! ### What is asked for around constructs -/

/-- Phrases that begin with the same token in the lowered text.  Expressions may not,
and what begins with an expression. -/
def Nonterminal.steady : Nonterminal → Bool
  | .operand _ | .climb _ | .simple | .exprs | .exprList | .fieldList | .fields | .field => false
  | _ => true

namespace Symbol

/-- The first token that is asked for stays what it is. -/
def steady : List Symbol → Bool
  | [] => true
  | leaf kind _ :: symbols => kind != .stmt .comment || steady symbols
  | skip _ :: _ => true
  | look _ :: symbols => steady symbols
  | sub n :: symbols => n.steady && steady symbols

/-- Phrases and glances stand before what keeps its first token.  Only comments need not:
of what stands behind them they ask whether it is a comment. -/
def buffered : List Symbol → Bool
  | [] => true
  | leaf _ _ :: symbols | skip _ :: symbols => buffered symbols
  | look _ :: symbols => steady symbols && buffered symbols
  | sub n :: symbols => (n == .comments || steady symbols) && buffered symbols

/-- Behind a statement stand semicolons and further statements. -/
def sequenced : List Symbol → Prop
  | [] => True
  | sub n :: symbols =>
    (n = .statement → symbols = [sub .semicolons, sub .items]) ∧ sequenced symbols
  | _ :: symbols => sequenced symbols

/-- Where an expression is asked for that is no operation, a construct may stand: in its
place stands an operation of any limit. -/
def lifted (limit : Nat) : Symbol → Symbol
  | sub .simple => sub (.climb limit)
  | s => s

/-- What may be asked for below a parent. -/
def Admits (parent : Option Kind) : Symbol → Prop
  | sub n => n.Admits parent
  | _ => True

end Symbol

section Productions

variable {n : Nonterminal} {kind : Option Kind} {parts : List Symbol} {parent : Option Kind}

theorem Production.steady (rule : Production n kind parts) (hn : n.steady) :
    Symbol.steady parts := by
  cases rule <;> first
    | rfl
    | exact absurd hn Bool.false_ne_true

theorem Production.buffered (rule : Production n kind parts) : Symbol.buffered parts := by
  cases rule with
  | more separator item =>
      simp [Symbol.buffered, Symbol.mark, Symbol.steady, Nonterminal.steady]
  | _ => rfl

theorem Production.sequenced (rule : Production n kind parts) (hn : n.Admits parent) :
    Symbol.sequenced parts := by
  cases rule <;> simp_all [Symbol.sequenced, Symbol.mark, Symbol.literal, Symbol.comment,
    Symbol.continueWord, Nonterminal.Admits]

theorem Production.admits (rule : Production n kind parts) (hn : n.Admits parent) :
    ∀ s ∈ parts, s.Admits (kind.or parent) := by
  cases rule <;> simp_all [Symbol.Admits, Symbol.mark, Symbol.literal, Symbol.comment,
    Symbol.continueWord, Nonterminal.Admits, isOperation]

theorem Production.lifted (rule : Production n kind parts) (hn : n.Admits parent) :
    (∀ limit, parts.map (Symbol.lifted limit) = parts) ∨
      ∃ limit, n = .climb limit ∧ kind = none ∧ parts = [.sub .simple] := by
  cases rule with
  | plain limit => exact .inr ⟨limit, rfl, rfl, rfl⟩
  | more separator item =>
      refine .inl fun limit => ?_
      simp [Symbol.lifted, Symbol.mark, hn.1]
  | _ => exact .inl fun _ => rfl

end Productions

/-! ### Rows of a tree -/

/-- A row of a tree whose constructs are detached: where its words stand, and that there
is a text before its nodes. -/
structure Forest.Settled (t : SyntaxTree) (options : LoweringOptions) (parent : Option Kind)
    (made lastEnd : Nat) (ws vs : List Word) (f : Forest) : Prop where
  among : Word.Among t ws f.words vs
  tokens : tokenize t.source = (ws ++ (f.words ++ vs)).map Word.toToken
  cut : t.source.IsCut lastEnd
  detached : ∀ site ∈ sitesAmong options parent (f.nodes made lastEnd), t.IsDetached site

/-- The constructs among siblings. -/
theorem sitesAmong_append (parent : Option Kind) (a b : List Node) :
    sitesAmong options parent (a ++ b) =
      sitesAmong options parent a ++ sitesAmong options parent b := by
  induction a with
  | nil => rfl
  | cons n a ih => rw [List.cons_append, sitesAmong, sitesAmong, ih, List.append_assoc]

namespace Forest.Settled

variable {parent : Option Kind} {made lastEnd : Nat} {ws vs passed : List Word} {f g : Forest}
  {kind : Kind} {w : Word}

theorem left (h : (f ++ g).Settled t options parent made lastEnd ws vs) :
    f.Settled t options parent made lastEnd ws (g.words ++ vs) where
  among := by
    have hamong := h.among
    rw [words_append] at hamong
    exact hamong.left
  tokens := by
    have htokens := h.tokens
    rwa [words_append, List.append_assoc f.words] at htokens
  cut := h.cut
  detached site hsite := by
    apply h.detached
    rw [nodes_append, sitesAmong_append]
    exact List.mem_append_left _ hsite

theorem right (h : (f ++ g).Settled t options parent made lastEnd ws vs) :
    g.Settled t options parent (made + f.count) (f.endFrom lastEnd) (ws ++ f.words) vs where
  among := by
    have hamong := h.among
    rw [words_append] at hamong
    exact hamong.right
  tokens := by
    have htokens := h.tokens
    rwa [words_append, List.append_assoc f.words, ← List.append_assoc ws] at htokens
  cut := endFrom_cut h.left.among h.cut
  detached site hsite := by
    apply h.detached
    rw [nodes_append, sitesAmong_append]
    exact List.mem_append_right _ hsite

/-- The row of a node that is no construct. -/
theorem inner (h : (Forest.node kind f .nil).Settled t options parent made lastEnd ws vs)
    (hnone : Construct.of? options (.around (made + f.count) kind (emptyPlace kind lastEnd)
      (f.nodes made lastEnd)) = none) :
    f.Settled t options (some kind) made lastEnd ws vs where
  among := by simpa [words] using h.among
  tokens := by simpa [words] using h.tokens
  cut := h.cut
  detached site hsite := by
    apply h.detached
    rw [nodes, sitesAmong, Node.sites_of_none hnone]
    exact List.mem_append_left _ hsite

end Forest.Settled

/-! ### Transplants -/

/-- A row of a tree between two stacks, and the row that stands for it in the lowered
text, where another text follows but the same token stands ahead. -/
structure Transplant (t : SyntaxTree) (options : LoweringOptions) (parent : Option Kind)
    (made lastEnd : Nat) (ws : List Word) (symbols : List Symbol) (next : Ahead) (n m : Nesting)
    (rest rest' : Text) (f f' : Forest) : Prop where
  words : Exchanged t ws n m rest rest' (sitesAmong options parent (f.nodes made lastEnd))
    f.words f'.words
  derives : ∀ limit, (Nonterminal.climb limit).Admits parent →
    Derives (symbols.map (Symbol.lifted limit)) f' next
  mirrors : f'.Mirrors t options parent (f.nodes made lastEnd)
  comment : (f'.ahead next).comment = (f.ahead next).comment
  steady : Symbol.steady symbols → f'.ahead next = f.ahead next

/-- Of what stands behind a row only a comment makes one stand ahead. -/
theorem Forest.comment_ahead (f : Forest) {z z' : Ahead} (h : z'.comment = z.comment) :
    (f.ahead z').comment = (f.ahead z).comment := by
  induction f generalizing z z' with
  | nil => exact h
  | leaf kind passed w later ih => cases hw : w.isComment <;> simp [ahead, hw]
  | skipped => rfl
  | node kind inner later ihInner ih => exact ihInner (ih h)

/-- Comments stand before what is a comment or not, as before. -/
theorem Derives.comments_before {f : Forest} {z z' : Ahead} (h : Derives [.sub .comments] f z)
    (hz : z'.comment = z.comment) : Derives [.sub .comments] f z' := by
  refine h.phrase_induction (M := fun n f next => n = .comments → next = z →
    Derives [.sub n] f z') ?_ ?_ rfl rfl
  · rintro n parts f next rule - holds rfl rfl
    cases rule with
    | noComments =>
        obtain ⟨hends, rfl⟩ := holds
        exact .ofFlat .noComments (.look (hz.trans hends) (.nil z'))
    | comments =>
        obtain ⟨passed, w, _, rfl, hpassed, hw, hcls, g, _, rfl, -, hg, rfl⟩ := holds
        have hlater := hg rfl (by rfl)
        rw [Forest.append_nil]
        exact .ofFlat .comments (.leaf hpassed hw hcls hlater)
  · rintro n kind parts f next rule - - rfl
    cases rule

/-- Where an expression matches that is no operation, it does so as one of any limit. -/
theorem Derives.lifted {n : Nonterminal} {f : Forest} {next : Ahead} (h : Derives [.sub n] f next)
    (limit : Nat) : Derives [(Symbol.sub n).lifted limit] f next := by
  cases n with
  | simple => exact .ofFlat (.plain limit) h
  | _ => exact h

namespace Transplant

variable {parent : Option Kind} {made lastEnd : Nat} {ws vs : List Word} {symbols parts : List Symbol}
  {next : Ahead} {n m last : Nesting} {rest rest' : Text} {f f' g g' : Forest} {m' : Nonterminal}

theorem nil (hspells : Spells n [] m rest) (hcls : ∀ v ∈ ws, ∀ cause, v.cls ≠ .error cause)
    (hexchange : Exchange ws m rest rest') :
    Transplant t options parent made lastEnd ws [] next n m rest rest' .nil .nil where
  words := .kept hspells (by simpa [Forest.words] using hcls) (by simpa [Forest.words] using hexchange)
  derives _ _ := .nil next
  mirrors := .nil t options parent
  comment := rfl
  steady _ := rfl

/-- A glance at what keeps its first token. -/
theorem look {fits : Ahead → Prop}
    (h : Transplant t options parent made lastEnd ws symbols next n m rest rest' f f')
    (hfits : fits (f.ahead next)) (hsteady : Symbol.steady symbols) :
    Transplant t options parent made lastEnd ws (.look fits :: symbols) next n m rest rest' f f' where
  words := h.words
  derives limit hlimit := .look (h.steady hsteady ▸ hfits) (h.derives limit hlimit)
  mirrors := h.mirrors
  comment := h.comment
  steady := h.steady

/-- A phrase before a row. -/
theorem append (h : Transplant t options parent made lastEnd ws [.sub m'] (g.ahead next) n m
      (Word.flat g.words ++ rest) (Word.flat g'.words ++ rest') f f')
    (h' : Transplant t options parent (made + f.count) (f.endFrom lastEnd) (ws ++ f.words) symbols
      next m last rest rest' g g')
    (hspaced : m' = .comments ∨ Symbol.steady symbols) :
    Transplant t options parent made lastEnd ws (.sub m' :: symbols) next n last rest rest'
      (f ++ g) (f' ++ g') where
  words := by
    rw [Forest.nodes_append, sitesAmong_append, Forest.words_append, Forest.words_append]
    exact h.words.append h'.words
  derives limit hlimit := by
    have hhead : Derives [(Symbol.sub m').lifted limit] f' (g'.ahead next) := by
      obtain rfl | hsteady := hspaced
      · exact (h.derives limit hlimit).comments_before h'.comment
      · rw [h'.steady hsteady]
        exact h.derives limit hlimit
    exact hhead.append (h'.derives limit hlimit)
  mirrors := by
    rw [Forest.nodes_append]
    exact h.mirrors.append h'.mirrors
  comment := by
    rw [Forest.ahead_append, Forest.ahead_append, f'.comment_ahead h'.comment, h.comment]
  steady hsteady := by
    rw [Symbol.steady, Bool.and_eq_true] at hsteady
    rw [Forest.ahead_append, Forest.ahead_append, h'.steady hsteady.2,
      h.steady (by simp [Symbol.steady, hsteady.1])]

/-- A leaf before a row. -/
theorem leaf {kind : Kind} {fits : Token → Prop} {passed : List Word} {w : Word}
    (hsettled : (Forest.leaf kind passed w g).Settled t options parent made lastEnd ws vs)
    (hpassed : ∀ p ∈ passed, p.isComment) (hright : w.isComment → passed = [])
    (hfits : fits w.toToken) (hleaf : LeafFits kind w.toToken)
    (hspells : Spells n (passed ++ [w]) m (Word.flat g.words ++ rest))
    (h : Transplant t options parent (made + 1) (if w.isComment then lastEnd else w.stop)
      (ws ++ (passed ++ [w])) symbols next m last rest rest' g g') :
    Transplant t options parent made lastEnd ws (.leaf kind fits :: symbols) next n last rest rest'
      (.leaf kind passed w g) (.leaf kind passed w g') where
  words := by
    have hnone : Construct.of? options ⟨made, kind, w.start, w.stop, []⟩ = none :=
      Construct.of?_leaf hleaf (hsettled.among.isLiteral w (by simp [Forest.words]))
    have hhead := Forest.Settled.left (f := .leaf kind passed w .nil) hsettled
    have hkept := Exchanged.kept (t := t) hspells hhead.among.noError_before h.words.exchange
    rw [Forest.nodes, sitesAmong, Node.sites_of_none hnone, Forest.words, Forest.words,
      List.append_cons passed w g.words, List.append_cons passed w g'.words]
    exact hkept.append h.words
  derives limit hlimit := .leaf hpassed hright hfits (h.derives limit hlimit)
  mirrors := by
    have hamong := hsettled.among
    exact .leaf hamong (Construct.of?_leaf hleaf (hamong.isLiteral w (by simp [Forest.words])))
      h.mirrors
  comment := (Forest.leaf kind passed w .nil).comment_ahead h.comment
  steady hsteady := by
    rw [Forest.ahead, Forest.ahead]
    split
    · rename_i hcomment
      rw [Symbol.steady, Bool.or_eq_true, bne_iff_ne] at hsteady
      obtain hkind | hsteady := hsteady
      · rw [hleaf.not_comment hkind] at hcomment
        cases hcomment
      · rw [h.steady hsteady]
    · rfl

/-- A token without a leaf before a row. -/
theorem skip {k : TokenKind} {passed : List Word} {w : Word}
    (hsettled : (Forest.skipped passed w g).Settled t options parent made lastEnd ws vs)
    (hpassed : ∀ p ∈ passed, p.isComment) (hcls : w.cls = .token k)
    (hspells : Spells n (passed ++ [w]) m (Word.flat g.words ++ rest))
    (h : Transplant t options parent made w.stop (ws ++ (passed ++ [w])) symbols next m last rest
      rest' g g') :
    Transplant t options parent made lastEnd ws (.skip k :: symbols) next n last rest rest'
      (.skipped passed w g) (.skipped passed w g') where
  words := by
    have hhead := Forest.Settled.left (f := .skipped passed w .nil) hsettled
    have hkept := Exchanged.kept (t := t) hspells hhead.among.noError_before h.words.exchange
    rw [Forest.nodes, Forest.words, Forest.words, List.append_cons passed w g.words,
      List.append_cons passed w g'.words]
    exact hkept.append h.words
  derives limit hlimit := .skip hpassed hcls (h.derives limit hlimit)
  mirrors := h.mirrors.skipped passed w
  comment := rfl
  steady _ := rfl

/-- A phrase by a production without a node. -/
theorem flat (h : Transplant t options parent made lastEnd ws parts next n m rest rest' f f')
    (rule : Production m' none parts) (hadmits : m'.Admits parent) :
    Transplant t options parent made lastEnd ws [.sub m'] next n m rest rest' f f' where
  words := h.words
  derives limit hlimit := by
    obtain hparts | ⟨low, rfl, -, rfl⟩ := rule.lifted hadmits
    · have hrow := h.derives limit hlimit
      rw [hparts limit] at hrow
      exact (Derives.ofFlat rule hrow).lifted limit
    · exact h.derives low hadmits
  mirrors := h.mirrors
  comment := h.comment
  steady hsteady := by
    rw [Symbol.steady, Bool.and_eq_true] at hsteady
    exact h.steady (rule.steady hsteady.1)

/-- A node that is no construct. -/
theorem node {kind : Kind}
    (h : Transplant t options (some kind) made lastEnd ws parts next n m rest rest' f f')
    (hcut : t.source.IsCut lastEnd) (rule : Production m' (some kind) parts)
    (hadmits : m'.Admits parent)
    (hnone : Construct.of? options (.around (made + f.count) kind
      (Forest.emptyPlace kind lastEnd) (f.nodes made lastEnd)) = none) :
    Transplant t options parent made lastEnd ws [.sub m'] next n m rest rest' (.node kind f .nil)
      (.node kind f' .nil) where
  words := by
    rw [Forest.nodes, Forest.nodes, sitesAmong, Node.sites_of_none hnone, sitesAmong,
      List.append_nil]
    simp only [Forest.words, List.append_nil]
    exact h.words
  derives limit hlimit := by
    obtain hparts | ⟨_, -, hkind, -⟩ := rule.lifted hadmits
    · have hrow := h.derives 0 (.inr rfl)
      rw [hparts 0] at hrow
      exact (Derives.ofNode rule hrow).lifted limit
    · cases hkind
  mirrors := .node hcut hnone h.mirrors
  comment := h.comment
  steady hsteady := by
    rw [Symbol.steady, Bool.and_eq_true] at hsteady
    exact h.steady (rule.steady hsteady.1)

end Transplant

/-! ### Constructs -/

/-- Comments make no other token stand ahead. -/
theorem Derives.cls_comments {f : Forest} {next : Ahead} (h : Derives [.sub .comments] f next) :
    (f.ahead next).cls = next.cls := by
  refine h.phrase_induction (M := fun n f next => n = .comments → (f.ahead next).cls = next.cls)
    ?_ ?_ rfl
  · rintro n parts f next rule - holds rfl
    cases rule with
    | noComments =>
        obtain ⟨-, rfl⟩ := holds
        rfl
    | comments =>
        obtain ⟨passed, w, _, rfl, -, -, hcls, g, _, rfl, -, hg, rfl⟩ := holds
        have hw : w.isComment := by simpa [Token.isComment] using hcls
        rw [Forest.ahead, if_pos hw, Forest.append_nil]
        exact hg rfl
  · rintro n kind parts f next rule - - rfl
    cases rule

/-- No statement begins with a comma. -/
theorem Derives.lacksComma_opens {n : Nonterminal} {f : Forest} {next : Ahead}
    (h : Derives [.sub n] f next) (hn : n.opens) : LacksToken .comma (f.ahead next) := by
  obtain ⟨kind, w, hw, hcomment, hleaf, hkind⟩ := h.opening (by simp) hn
  rw [LacksToken, Forest.ahead_cls hw hcomment]
  rintro hcls
  have hcomma : w.cls = .token .comma := Option.some.inj hcls
  obtain hleaf | ⟨hleaf, -⟩ | ⟨hleaf, -⟩ := hleaf
  · rw [hcomma] at hleaf
    rw [← Option.some.inj hleaf] at hkind
    cases hkind
  · rw [hcomma] at hleaf
    cases hleaf
  · rw [hcomma] at hleaf
    cases hleaf

/-- No comma stands where a block goes on. -/
theorem Derives.lacksComma_items {f : Forest} {next : Ahead} (h : Derives [.sub .items] f next) :
    LacksToken .comma (f.ahead next) := by
  have hends : ∀ {z : Ahead}, EndsBlock z → LacksToken .comma z :=
    fun hz hcls => Bool.false_ne_true (hz _ hcls)
  obtain ⟨parts, rule, inside⟩ | ⟨kind, parts, inner, -, rule, -⟩ := h.phrase_cases
  · cases rule with
    | lastItems =>
        obtain ⟨comments, _, rfl, hcomments, -, hlast, rfl⟩ := inside.parted
        rw [Forest.ahead_append, LacksToken, hcomments.cls_comments]
        exact hends hlast
    | items =>
        obtain ⟨comments, _, rfl, hcomments, -, statement, _, rfl, hstatement, -⟩ := inside.parted
        rw [Forest.ahead_append, LacksToken, hcomments.cls_comments, Forest.ahead_append]
        exact hstatement.lacksComma_opens rfl
    | returnItems =>
        obtain ⟨comments, _, rfl, hcomments, -, statement, _, rfl, hstatement, -⟩ := inside.parted
        rw [Forest.ahead_append, LacksToken, hcomments.cls_comments, Forest.ahead_append]
        exact hstatement.lacksComma_opens rfl
  · cases rule

/-- No comma stands behind a statement. -/
theorem Derives.lacksComma {f : Forest} {next : Ahead}
    (h : Derives [.sub .semicolons, .sub .items] f next) : LacksToken .comma (f.ahead next) := by
  obtain ⟨semicolons, _, rfl, hsemicolons, -, items, _, rfl, hitems, -, rfl⟩ := h.parted
  rw [Forest.ahead_append, Forest.ahead_append]
  obtain ⟨parts, rule, inside⟩ | ⟨kind, parts, inner, -, rule, -⟩ := hsemicolons.phrase_cases
  · cases rule with
    | noSemicolons =>
        obtain ⟨-, rfl⟩ := inside.parted
        exact hitems.lacksComma_items
    | semicolons =>
        obtain ⟨passed, w, _, rfl, -, hcls, -⟩ := inside.parted
        simp [LacksToken, Forest.ahead, hcls]
  · cases rule

section Sites

variable {parent : Option Kind} {made lastEnd : Nat} {ws vs : List Word} {parts : List Symbol}
  {inner : Forest} {n m : Nesting} {rest rest' : Text} {phrase : Nonterminal} {kind : Kind}
  {c : Construct}

/-- A construct stands in code, begins with an expression and leaves the stack as it
was. -/
theorem Production.construct_inCode {next : Ahead} {node : Node}
    (rule : Production phrase (some kind) parts) (inside : Derives parts inner next)
    (hamong : Word.Among t ws inner.words vs) (hkind : node.kind = kind)
    (hnode : node.children = inner.nodes made lastEnd)
    (hc : Construct.of? options node = some c) (hspells : Spells n inner.words m rest) :
    n.inLiteral = false ∧ m = n ∧
      Symbol.firstIs Nonterminal.isExpr Kind.beginsExpr parts := by
  have hcode : Symbol.firstIs Nonterminal.isExpr Kind.beginsExpr parts ∧
      ∀ n : Nesting, n.inLiteral = false → phrase.stands n ∧ phrase.turn n = n := by
    obtain ⟨-, rfl, rfl⟩ | ⟨-, limit, rfl, rfl⟩ | ⟨-, rfl, rfl⟩ :=
      rule.construct inside hamong hkind hnode hc
    · exact ⟨rfl, fun n hn => ⟨by simp [Nonterminal.stands, hn], rfl⟩⟩
    · exact ⟨rfl, fun n hn => ⟨by simp [Nonterminal.stands, hn], rfl⟩⟩
    · exact ⟨rfl, fun n hn => ⟨by simp [Nonterminal.stands, hn], rfl⟩⟩
  have hn := inside.inCode rule.proper hcode.1 hspells
  refine ⟨hn, (inside.anywhere rule.proper ?_ hn hspells).1, hcode.1⟩
  intro n hn
  obtain ⟨hstands, hturn⟩ := hcode.2 n hn
  obtain ⟨hparts, hturns⟩ := rule.standing hstands
  exact ⟨hparts, hturns.trans hturn⟩

/-- What is asked for where a construct stands, in the lowered text. -/
theorem Production.construct_lifted {next : Ahead} {node : Node}
    (rule : Production phrase (some kind) parts) (inside : Derives parts inner next)
    (hamong : Word.Among t ws inner.words vs) (hkind : node.kind = kind)
    (hnode : node.children = inner.nodes made lastEnd)
    (hc : Construct.of? options node = some c) (hadmits : phrase.Admits parent) (limit : Nat)
    (hlimit : (Nonterminal.climb limit).Admits parent) :
    ∃ low, (Nonterminal.climb low).Admits parent ∧
      (Symbol.sub phrase).lifted limit = .sub (c.phrase low) := by
  obtain ⟨rfl, rfl, -⟩ | ⟨rfl, low, rfl, -⟩ | ⟨rfl, rfl, -⟩ :=
    rule.construct inside hamong hkind hnode hc
  · exact ⟨limit, hlimit, rfl⟩
  · exact ⟨low, hadmits, rfl⟩
  · exact ⟨limit, hlimit, rfl⟩

/-- A statement that is a construct is an assignment. -/
theorem Production.construct_steady {next : Ahead} {node : Node}
    (rule : Production phrase (some kind) parts) (inside : Derives parts inner next)
    (hamong : Word.Among t ws inner.words vs) (hkind : node.kind = kind)
    (hnode : node.children = inner.nodes made lastEnd)
    (hc : Construct.of? options node = some c) (hsteady : phrase.steady) :
    c = .compoundFloorDivision := by
  obtain ⟨-, rfl, -⟩ | ⟨-, low, rfl, -⟩ | ⟨rfl, -⟩ := rule.construct inside hamong hkind hnode hc
  · cases hsteady
  · cases hsteady
  · rfl

/-- A construct whose lowered text runs into nothing has a row in its place. -/
theorem Production.exists_detached {node : Node}
    (rule : Production phrase (some kind) parts) (inside : Derives parts inner (Word.ahead vs))
    (hamong : Word.Among t ws inner.words vs)
    (htokens : tokenize t.source = (ws ++ (inner.words ++ vs)).map Word.toToken)
    (hnode : node = .around (made + inner.count) kind (Forest.emptyPlace kind lastEnd)
      (inner.nodes made lastEnd)) (hc : Construct.of? options node = some c)
    (hdetached : t.IsDetached ⟨c, node, parent⟩)
    (hcomma : phrase = .statement → LacksToken .comma (Word.ahead vs))
    (hspells : Spells n inner.words m rest) (hexchange : Exchange (ws ++ inner.words) m rest rest') :
    ∃ graft, t.loweredSite ⟨c, node, parent⟩ = .ok graft ∧
      t.Detaches ⟨c, node, parent⟩ graft ∧ ∀ gap : Text, gap.all isBlank → ∃ f,
        Site.Row ⟨c, node, parent⟩ inner.words gap graft (Word.ahead vs) rest' f := by
  have hkind : node.kind = kind := by rw [hnode]; rfl
  have hchildren : node.children = inner.nodes made lastEnd := by rw [hnode]; rfl
  have hstands := rule.stands inside hamong hnode hc parent
  obtain ⟨graft, hgraft, -, -⟩ := hstands.lowered
  have hdetaches := hdetached.2 graft hgraft
  have hchain : Site.isChoice ⟨c, node, parent⟩ = false → EndsChain (Word.ahead vs) := by
    intro hchoice
    exact hdetaches.endsChain hchoice hamong htokens hstands.spans.stop_eq
  have hkept : ∀ after, after <:+ inner.words → ∃ m m', Spells m after m' rest' := by
    rintro after ⟨before, hsplit⟩
    rw [← hsplit] at hspells hexchange hamong
    obtain ⟨middle, -, hafter⟩ := hspells.split
    rw [← List.append_assoc] at hexchange
    have hnoError := hamong.noError_before
    rw [← List.append_assoc] at hnoError
    exact ⟨middle, m, (hafter.exchanged hnoError hexchange).1⟩
  obtain ⟨graft', hgraft', hrow⟩ := rule.exists_row inside hamong hkind hchildren hc hdetached.1
    hchain hcomma hkept
  obtain rfl : graft = graft' := Except.ok.inj (hgraft.symm.trans hgraft')
  exact ⟨graft, hgraft, hdetaches, hrow⟩

/-- A row begins with comments: the token behind them stands ahead. -/
theorem Derives.ahead_behind {symbols : List Symbol} {f : Forest} {passed later : List Word}
    {w : Word} (h : Derives symbols f (Word.ahead vs)) (hsplit : f.words = passed ++ w :: later)
    (hpassed : ∀ p ∈ passed, p.isComment) (hw : w.isComment = false) :
    f.ahead (Word.ahead vs) = ⟨some w.cls, !passed.isEmpty⟩ := by
  rw [← h.ahead_words, hsplit, List.append_assoc, Word.ahead_comments hpassed]
  simp [Word.ahead, hw]

/-- The row of a lowered text, behind the comments that stand before its construct. -/
theorem Site.Row.derives_commented {node : Node} {part passed : List Word} {gap graft : Text}
    {next : Ahead} {f : Forest} (hf : Site.Row ⟨c, node, parent⟩ part gap graft next rest f)
    (hpassed : ∀ p ∈ passed, p.isComment) (limit : Nat)
    (hlimit : (Nonterminal.climb limit).Admits parent) :
    Derives [.sub (c.phrase limit)] (f.commented passed) next := by
  have hopens : Symbol.firstIs Nonterminal.opens Kind.opens [.sub (c.phrase limit)] := by
    cases c <;> rfl
  exact (hf.derives limit hlimit).commented (by simp) hopens hpassed

/-- A row in the place of a construct. -/
theorem Transplant.site {node : Node} {passed later : List Word} {w : Word} {graft : Text}
    {f : Forest} (rule : Production phrase (some kind) parts)
    (inside : Derives parts inner (Word.ahead vs))
    (hsettled : (Forest.node kind inner .nil).Settled t options parent made lastEnd ws vs)
    (hnode : node = .around (made + inner.count) kind (Forest.emptyPlace kind lastEnd)
      (inner.nodes made lastEnd)) (hc : Construct.of? options node = some c)
    (hadmits : phrase.Admits parent) (hsplit : inner.words = passed ++ w :: later)
    (hpassed : ∀ p ∈ passed, p.isComment) (hcomment : w.isComment = false)
    (hn : n.inLiteral = false) (hspells : Spells n inner.words n rest)
    (hgraft : t.loweredSite ⟨c, node, parent⟩ = .ok graft)
    (hdetaches : t.Detaches ⟨c, node, parent⟩ graft)
    (hf : Site.Row ⟨c, node, parent⟩ inner.words w.gap graft (Word.ahead vs) rest' f) :
    Transplant t options parent made lastEnd ws [.sub phrase] (Word.ahead vs) n n rest rest'
      (.node kind inner .nil) (f.commented passed) := by
  have hkind : node.kind = kind := by rw [hnode]; rfl
  have hchildren : node.children = inner.nodes made lastEnd := by rw [hnode]; rfl
  have hnodes : (Forest.node kind inner .nil).nodes made lastEnd = [node] := by
    rw [Forest.nodes, Forest.nodes, hnode]
  have hsites : sitesAmong options parent [node] = [⟨c, node, parent⟩] := by
    rw [sitesAmong, Node.sites_of_some hc, sitesAmong, List.append_nil]
  have hwords : (Forest.node kind inner .nil).words = inner.words := by
    rw [Forest.words, Forest.words, List.append_nil]
  have hamong := hsettled.among
  have htokens := hsettled.tokens
  rw [hwords] at hamong htokens
  have hstands := rule.stands inside hamong hnode hc parent
  have hderives := hf.derives_commented hpassed
  obtain ⟨_, _, hfirstLeaf, -⟩ := hf.grounded.1
  have hwords' : (f.commented passed).words = passed ++ f.words :=
    Forest.words_commented passed hfirstLeaf
  obtain ⟨v, hv, hgap, hvcomment⟩ := hf.opens
  obtain ⟨behind, hbehind⟩ := List.head?_eq_some_iff.mp hv
  -- behind the same comments stand the first token of the construct and that of the row
  have hahead : (Forest.node kind inner .nil).ahead (Word.ahead vs) =
      ⟨some w.cls, !passed.isEmpty⟩ := inside.ahead_behind hsplit hpassed hcomment
  have hahead' : (f.commented passed).ahead (Word.ahead vs) = ⟨some v.cls, !passed.isEmpty⟩ :=
    (hderives 0 (.inr rfl)).ahead_behind (by rw [hwords', hbehind]) hpassed hvcomment
  refine ⟨?words, ?derives, ?mirrors, ?comment, ?steady⟩
  case words =>
    rw [hnodes, hsites, hwords, hwords', hsplit]
    rw [hsplit] at hamong htokens hspells hstands hf
    exact .site hamong htokens hpassed hcomment hn hspells hstands hgraft hdetaches hf
  case derives =>
    intro limit hlimit
    obtain ⟨low, hlow, hlifted⟩ :=
      rule.construct_lifted inside hamong hkind hchildren hc hadmits limit hlimit
    rw [List.map_singleton, hlifted]
    exact hderives low hlow
  case mirrors =>
    obtain ⟨content, hcontents, hgives⟩ := hf.contents
    rw [hnodes]
    refine .site hc hgraft ((hderives 0 (.inr rfl)).fit (by simp)) (hf.grounded.commented passed)
      ((f.contents_commented passed).trans hcontents) hgives ?_
    have hflat := hf.flat_eq
    rw [hbehind, Word.flat_cons, hgap, List.append_cancel_left_eq] at hflat
    rw [hwords', hbehind, Word.body_of_comments hpassed hvcomment, hflat]
  case comment => rw [hahead, hahead']
  case steady =>
    intro hsteady
    rw [Symbol.steady, Bool.and_eq_true] at hsteady
    have hcompound := rule.construct_steady inside hamong hkind hchildren hc hsteady.1
    have hnone : f.ahead (Word.ahead vs) = ⟨some v.cls, false⟩ :=
      (hf.derives 0 (.inr rfl)).ahead_behind hbehind (List.forall_mem_nil _) hvcomment
    have hcls := hf.first hcompound (Word.ahead vs)
    rw [hnone, hsplit,
      Word.ahead_comments hpassed] at hcls
    have hsame : v.cls = w.cls := by simpa [Word.ahead, hcomment] using hcls
    rw [hahead, hahead', hsame]

/-- A construct has a row in its place. -/
theorem Transplant.exists_site (rule : Production phrase (some kind) parts)
    (inside : Derives parts inner (Word.ahead vs))
    (hsettled : (Forest.node kind inner .nil).Settled t options parent made lastEnd ws vs)
    (hc : Construct.of? options (.around (made + inner.count) kind
      (Forest.emptyPlace kind lastEnd) (inner.nodes made lastEnd)) = some c)
    (hadmits : phrase.Admits parent)
    (hcomma : phrase = .statement → LacksToken .comma (Word.ahead vs))
    (hspells : Spells n inner.words m rest) (hexchange : Exchange (ws ++ inner.words) m rest rest') :
    ∃ f', Transplant t options parent made lastEnd ws [.sub phrase] (Word.ahead vs) n m rest rest'
      (.node kind inner .nil) f' := by
  have hsite : ⟨c, .around (made + inner.count) kind (Forest.emptyPlace kind lastEnd)
      (inner.nodes made lastEnd), parent⟩ ∈
        sitesAmong options parent ((Forest.node kind inner .nil).nodes made lastEnd) := by
    rw [Forest.nodes, Forest.nodes, sitesAmong, Node.sites_of_some hc]
    exact List.mem_cons_self
  have hamong := hsettled.among
  have htokens := hsettled.tokens
  rw [Forest.words, Forest.words, List.append_nil] at hamong htokens
  obtain ⟨hn, rfl, hfirst⟩ := rule.construct_inCode inside hamong rfl rfl hc hspells
  obtain ⟨graft, hgraft, hdetaches, hrow⟩ := rule.exists_detached inside hamong htokens rfl hc
    (hsettled.detached _ hsite) hcomma hspells hexchange
  -- its first token, behind the comments
  obtain ⟨first, w, hw, hbegins⟩ := inside.firstLeaf Production.firstIs_expr hfirst
  obtain ⟨⟨passed, later, hsplit, hpassed⟩, hleaf, -⟩ :=
    Forest.head_of_firstLeaf (inside.fit rule.proper) hw 0 0
  have hcomment : w.isComment = false := hleaf.not_comment (by
    rintro rfl
    cases hbegins)
  obtain ⟨f, hf⟩ := hrow w.gap (hamong.gap_blank w (by simp [hsplit]))
  exact ⟨_, .site rule inside hsettled rfl hc hadmits hsplit hpassed hcomment hn hspells hgraft
    hdetaches hf⟩

end Sites

/-- Every row of a tree whose constructs are detached has one that stands for it in the
lowered text. -/
theorem Derives.transplant {symbols : List Symbol} {f : Forest} {next : Ahead}
    (h : Derives symbols f next) {parent : Option Kind} {made lastEnd : Nat} {ws vs : List Word}
    (hsettled : f.Settled t options parent made lastEnd ws vs) (hnext : next = Word.ahead vs)
    (hproper : ∀ s ∈ symbols, s.Proper) (hadmits : ∀ s ∈ symbols, s.Admits parent)
    (hbuffered : Symbol.buffered symbols) (hsequenced : Symbol.sequenced symbols)
    {n m : Nesting} {rest rest' : Text} (hspells : Spells n f.words m rest)
    (hexchange : Exchange (ws ++ f.words) m rest rest') :
    ∃ f', Transplant t options parent made lastEnd ws symbols next n m rest rest' f f' := by
  induction h generalizing parent made lastEnd ws vs n m rest rest' with
  | nil next =>
      have hcls : ∀ v ∈ ws, ∀ cause, v.cls ≠ .error cause := by
        simpa [Forest.words] using hsettled.among.noError_before
      exact ⟨.nil, .nil hspells hcls (by simpa [Forest.words] using hexchange)⟩
  | @leaf kind fits passed w later symbols next hpassed hright hfits tail ih =>
      rw [List.forall_mem_cons] at hproper hadmits
      rw [Forest.words, List.append_cons] at hspells hexchange
      obtain ⟨middle, hhead, htail⟩ := hspells.split
      rw [← List.append_assoc] at hexchange
      obtain ⟨later', hlater⟩ := ih (Forest.Settled.right (f := .leaf kind passed w .nil) hsettled)
        hnext hproper.2 hadmits.2 hbuffered hsequenced htail hexchange
      exact ⟨_, hlater.leaf hsettled hpassed hright hfits (hproper.1 _ hfits) hhead⟩
  | @skip k passed w later symbols next hpassed hfits tail ih =>
      rw [List.forall_mem_cons] at hproper hadmits
      rw [Forest.words, List.append_cons] at hspells hexchange
      obtain ⟨middle, hhead, htail⟩ := hspells.split
      rw [← List.append_assoc] at hexchange
      obtain ⟨later', hlater⟩ := ih (Forest.Settled.right (f := .skipped passed w .nil) hsettled)
        hnext hproper.2 hadmits.2 hbuffered hsequenced htail hexchange
      exact ⟨_, hlater.skip hsettled hpassed hfits hhead⟩
  | @look fits f symbols next hfits tail ih =>
      rw [List.forall_mem_cons] at hproper hadmits
      rw [Symbol.buffered, Bool.and_eq_true] at hbuffered
      obtain ⟨f', hf⟩ := ih hsettled hnext hproper.2 hadmits.2 hbuffered.2 hsequenced hspells
        hexchange
      exact ⟨f', hf.look hfits hbuffered.1⟩
  | @flat phrase parts symbols f later next rule inside tail ihInside ih =>
      rw [List.forall_mem_cons] at hproper hadmits
      rw [Symbol.buffered, Bool.and_eq_true, Bool.or_eq_true, beq_iff_eq] at hbuffered
      rw [Forest.words_append] at hspells hexchange
      obtain ⟨middle, hhead, htail⟩ := hspells.split
      rw [← List.append_assoc] at hexchange
      obtain ⟨later', hlater⟩ := ih hsettled.right hnext hproper.2 hadmits.2 hbuffered.2
        hsequenced.2 htail hexchange
      have hbehind : later.ahead next = Word.ahead (later.words ++ vs) := by
        rw [tail.ahead_words, hnext]
      obtain ⟨f', hf⟩ := ihInside hsettled.left hbehind rule.proper (rule.admits hadmits.1)
        rule.buffered (rule.sequenced hadmits.1) hhead hlater.words.exchange
      exact ⟨_, (hf.flat rule hadmits.1).append hlater hbuffered.1⟩
  | @node phrase kind parts symbols inner later next rule inside tail ihInside ih =>
      rw [List.forall_mem_cons] at hproper hadmits
      rw [Symbol.buffered, Bool.and_eq_true, Bool.or_eq_true, beq_iff_eq] at hbuffered
      have hsplit : Forest.node kind inner later = .node kind inner .nil ++ later := rfl
      rw [hsplit] at hsettled ⊢
      rw [Forest.words] at hspells hexchange
      obtain ⟨middle, hhead, htail⟩ := hspells.split
      rw [← List.append_assoc] at hexchange
      have hwords : (Forest.node kind inner .nil).words = inner.words := by
        rw [Forest.words, Forest.words, List.append_nil]
      rw [← hwords] at hexchange
      obtain ⟨later', hlater⟩ := ih hsettled.right hnext hproper.2 hadmits.2 hbuffered.2
        hsequenced.2 htail hexchange
      have hbehind : later.ahead next = Word.ahead (later.words ++ vs) := by
        rw [tail.ahead_words, hnext]
      suffices hnode : ∃ g, Transplant t options parent made lastEnd ws [.sub phrase]
          (later.ahead next) n middle (Word.flat later.words ++ rest)
          (Word.flat later'.words ++ rest') (.node kind inner .nil) g by
        obtain ⟨g, hg⟩ := hnode
        exact ⟨_, hg.append hlater hbuffered.1⟩
      have hbefore := hlater.words.exchange
      rw [hwords] at hbefore
      cases hc : Construct.of? options (.around (made + inner.count) kind
          (Forest.emptyPlace kind lastEnd) (inner.nodes made lastEnd)) with
      | some c =>
          have hcomma : phrase = .statement → LacksToken .comma (later.ahead next) := by
            intro hstatement
            have htail := tail
            rw [hsequenced.1 hstatement] at htail
            exact htail.lacksComma
          rw [hbehind] at inside hcomma ⊢
          exact Transplant.exists_site rule inside hsettled.left hc hadmits.1 hcomma hhead hbefore
      | none =>
          obtain ⟨g, hg⟩ := ihInside (hsettled.left.inner hc) hbehind rule.proper
            (rule.admits hadmits.1) rule.buffered (rule.sequenced hadmits.1) hhead hbefore
          exact ⟨_, hg.node hsettled.cut rule hadmits.1 hc⟩

end LuauTidy
