import LuauTidy.Proofs.Excerpts
import LuauTidy.Proofs.LooseGrammar
import LuauTidy.Proofs.Surroundings

/-!
# Renditions

A lowered text is put together from fixed words and from excerpts of the source.
The row that is read from it is put together in the same way: row by row, each
with its text and its contents.

* `Forest.mark`, `Forest.name` — fixed words behind a gap;
* `Rendition` — a row that is read from a text, whatever follows that parts tokens;
* `Rendition.append`, `Rendition.mark`, `Rendition.flat`, `Rendition.node` — how
  they are put together;
* `Ahead.Bounds`, `Ahead.Closes` — tokens with which no expression and no block
  goes on;
* `Rendition.readsAs`, `Rendition.exists_tree` — what the parser makes of a
  rendition.
-/

namespace LuauTidy

open Lexeme

/-! ### Fixed words -/

/-- The leaf of a keyword or symbol. -/
def Content.mark (k : TokenKind) : Content := ⟨.token k, k.grammarName.toList, []⟩

/-- The leaf of a name. -/
def Content.name (text : Text) : Content := ⟨.token .name, text, []⟩

/-- An expression in parentheses. -/
def Content.parens (inside : Content) : Content :=
  ⟨.expr .parens, [], [mark .lparen, inside, mark .rparen]⟩

/-- A binary operation. -/
def Content.binary (op : TokenKind) (left right : Content) : Content :=
  ⟨.expr .binary, [], [left, mark op, right]⟩

/-- A token right ahead. -/
def Ahead.of (k : TokenKind) : Ahead := ⟨some (.token k), false⟩

/-- At the end of a text nothing is ahead. -/
def Ahead.none : Ahead := ⟨Option.none, false⟩

namespace Forest

/-- A keyword or symbol behind a gap. -/
def mark (gap : Text) (k : TokenKind) (later : Forest) : Forest :=
  leaf (.token k) [] ⟨⟨.token k, 0, k.grammarName.toList⟩, gap⟩ later

/-- A name behind a gap. -/
def name (gap text : Text) (later : Forest) : Forest :=
  leaf (.token .name) [] ⟨⟨.token .name, 0, text⟩, gap⟩ later

variable (gap text : Text) (k : TokenKind) (f : Forest) (next : Ahead)

@[simp] theorem ahead_mark : (mark gap k f).ahead next = .of k := rfl

@[simp] theorem ahead_name : (name gap text f).ahead next = .of .name := rfl

end Forest

theorem Text.parts_blank (later : Text) : Text.Parts (' ' :: later) := .cons (by decide) later

theorem Text.parts_rparen (later : Text) : Text.Parts (')' :: later) := .cons (by decide) later

/-- A word before words that are read. -/
theorem Spells.word {cls : TokenClass} {gap text rest : Text} {ws : List Word}
    (blank : gap.all isBlank) (takes : Takes [] text (Word.flat ws ++ rest) cls [])
    (h : Spells [] ws [] rest) : Spells [] (⟨⟨cls, 0, text⟩, gap⟩ :: ws) [] rest :=
  .cons blank (by simp [Nesting.inLiteral]) takes h

/-! ### Renditions -/

/-- A row that matches some symbols, with the text from which it is read if some
text follows, and with its contents. -/
structure Rendition (symbols : List Symbol) (next : Ahead) (text rest : Text)
    (contents : List Content) (f : Forest) : Prop where
  derives : Derives symbols f next
  spells : Spells [] f.words [] rest
  flat_eq : Word.flat f.words = text
  contents_eq : f.contents = contents

/-- An excerpt behind a gap. -/
theorem Excerpt.rendition {m : Nonterminal} {next : Ahead} {text rest : Text} {content : Content}
    {row : Text → Forest} (h : Excerpt m next text content row) (gap : Text)
    (blank : gap.all isBlank) (parts : rest.Parts) :
    Rendition [.sub m] next (gap ++ text) rest [content] (row gap) where
  derives := h.derives gap
  spells := h.spells blank parts
  flat_eq := h.flat_eq gap
  contents_eq := h.contents_eq gap

namespace Rendition

variable {symbols symbols' parts : List Symbol} {next : Ahead} {text text' rest : Text}
  {contents contents' : List Content} {f g : Forest} {n : Nonterminal}

theorem nil (next : Ahead) (rest : Text) : Rendition [] next [] rest [] .nil where
  derives := .nil next
  spells := .nil _ _
  flat_eq := rfl
  contents_eq := rfl

/-- One row after the other. -/
theorem append (h : Rendition symbols (g.ahead next) text (text' ++ rest) contents f)
    (h' : Rendition symbols' next text' rest contents' g) :
    Rendition (symbols ++ symbols') next (text ++ text') rest (contents ++ contents') (f ++ g) where
  derives := h.derives.append h'.derives
  spells := by
    have hbefore := h.spells
    rw [← h'.flat_eq] at hbefore
    rw [Forest.words_append]
    exact hbefore.append h'.spells
  flat_eq := by rw [Forest.words_append, Word.flat_append, h.flat_eq, h'.flat_eq]
  contents_eq := by rw [Forest.contents_append, h.contents_eq, h'.contents_eq]

/-- A keyword or symbol before a row. -/
theorem mark {k : TokenKind} {word : Text} (h : Rendition symbols next text rest contents f)
    (gap : Text) (hword : k.grammarName.toList = word) (blank : gap.all isBlank)
    (htakes : Takes [] word (text ++ rest) (.token k) []) :
    Rendition (.mark k :: symbols) next (gap ++ (word ++ text)) rest (.mark k :: contents)
      (.mark gap k f) where
  derives := .leaf (by simp) (fun _ => rfl) rfl h.derives
  spells := by
    apply Spells.word blank _ h.spells
    rw [h.flat_eq, hword]
    exact htakes
  flat_eq := by
    simp only [Forest.mark, Forest.words, List.nil_append, Word.flat_cons, h.flat_eq, hword]
  contents_eq := by
    rw [Forest.mark, Forest.contents, h.contents_eq, Content.mark]

/-- A name before a row. -/
theorem name (h : Rendition symbols next text rest contents f) (gap word : Text)
    (blank : gap.all isBlank) (htakes : Takes [] word (text ++ rest) (.token .name) []) :
    Rendition (.mark .name :: symbols) next (gap ++ (word ++ text)) rest (.name word :: contents)
      (.name gap word f) where
  derives := .leaf (by simp) (fun _ => rfl) rfl h.derives
  spells := by
    apply Spells.word blank _ h.spells
    rw [h.flat_eq]
    exact htakes
  flat_eq := by
    simp only [Forest.name, Forest.words, List.nil_append, Word.flat_cons, h.flat_eq]
  contents_eq := by
    rw [Forest.name, Forest.contents, h.contents_eq, Content.name]

/-- A row behind a glance. -/
theorem look {fits : Ahead → Prop} (h : Rendition symbols next text rest contents f)
    (hfits : fits (f.ahead next)) :
    Rendition (.look fits :: symbols) next text rest contents f where
  derives := .look hfits h.derives
  spells := h.spells
  flat_eq := h.flat_eq
  contents_eq := h.contents_eq

/-- The row of a phrase without a node of its own. -/
theorem flat (h : Rendition parts next text rest contents f) (rule : Production n none parts) :
    Rendition [.sub n] next text rest contents f where
  derives := .ofFlat rule h.derives
  spells := h.spells
  flat_eq := h.flat_eq
  contents_eq := h.contents_eq

/-- The node of a phrase. -/
theorem node {kind : Kind} (h : Rendition parts next text rest contents f)
    (rule : Production n (some kind) parts) :
    Rendition [.sub n] next text rest [⟨kind, [], contents⟩] (.node kind f .nil) where
  derives := .ofNode rule h.derives
  spells := by
    rw [Forest.words, Forest.words, List.append_nil]
    exact h.spells
  flat_eq := by
    rw [Forest.words, Forest.words, List.append_nil]
    exact h.flat_eq
  contents_eq := by
    rw [Forest.contents, Forest.contents, h.contents_eq]

end Rendition

/-! ### Bounds of expressions -/

/-- Nothing ahead goes on with an expression: no operator, no suffix, no comma. -/
structure Ahead.Bounds (next : Ahead) : Prop where
  operand : EndsOperand 0 next
  chain : EndsChain next
  comma : LacksToken .comma next

/-- What is ahead closes a block: no statement goes on with it. -/
structure Ahead.Closes (next : Ahead) : Prop extends next.Bounds where
  block : EndsBlock next
  semi : LacksToken .semi next
  bare : EndsComments next

/-- An operator ahead ends the operands of every limit up to which it binds. -/
theorem Ahead.endsOperand_of {k : TokenKind} {limit : Nat}
    (hk : ∀ l r, k.bindingPowers? = some (l, r) → l ≤ limit) : EndsOperand limit (.of k) := by
  intro k' l r hk' hpowers
  obtain rfl := TokenClass.token.inj (Option.some.inj hk')
  exact hk l r hpowers

/-- A symbol or keyword with which no expression goes on. -/
def TokenKind.bounds (k : TokenKind) : Bool :=
  k.bindingPowers?.isNone && !(TokenClass.token k).startsSuffix && k != .comma

theorem Ahead.bounds_of {k : TokenKind} (hk : k.bounds) : (Ahead.of k).Bounds := by
  simp only [TokenKind.bounds, Bool.and_eq_true, Bool.not_eq_true', bne_iff_ne] at hk
  obtain ⟨⟨hpowers, hsuffix⟩, hcomma⟩ := hk
  refine ⟨Ahead.endsOperand_of ?_, Grammar.endsChain_of rfl hsuffix, ?_⟩
  · intro l r hk
    rw [hk] at hpowers
    cases hpowers
  · intro hcls
    exact hcomma (TokenClass.token.inj (Option.some.inj hcls))

/-- A closing parenthesis bounds every expression. -/
theorem Ahead.bounds_rparen : (Ahead.of .rparen).Bounds := Ahead.bounds_of rfl

theorem Ahead.bounds_none : Ahead.none.Bounds := by
  constructor
  · intro k l r hk
    cases hk
  · intro cls hcls
    cases hcls
  · intro hcls
    cases hcls

theorem Ahead.closes_of {k : TokenKind} (hk : (TokenClass.token k).closesBlock) :
    (Ahead.of k).Closes where
  toBounds := by
    apply Ahead.bounds_of
    cases k <;> first
      | exact absurd hk Bool.false_ne_true
      | rfl
  block := by
    intro cls hcls
    obtain rfl := Option.some.inj hcls
    exact hk
  semi := by
    intro hcls
    obtain rfl := TokenClass.token.inj (Option.some.inj hcls)
    cases hk
  bare := rfl

theorem Ahead.closes_none : Ahead.none.Closes where
  toBounds := Ahead.bounds_none
  block := by
    intro cls hcls
    cases hcls
  semi := by
    intro hcls
    cases hcls
  bare := rfl

section Bounds

variable {f : Forest} {n : Nonterminal} {next next' : Ahead} {limit : Nat}

/-- A value stands before all that bounds expressions. -/
theorem Derives.bounded (h : Derives [.sub n] f next) (hn : n.isValue) (hnext : next'.Bounds) :
    Derives [.sub n] f next' :=
  h.expr_before hn (fun _ _ => hnext.operand.mono (Nat.zero_le _)) fun _ => hnext.chain

/-- An operand ends where no operator for it follows. -/
theorem Derives.climb_of_operand (h : Derives [.sub (.operand limit)] f next) :
    Derives [.sub (.climb limit)] f next := by
  obtain ⟨parts, rule, inside⟩ | ⟨kind, parts, inner, -, rule, -⟩ := h.phrase_cases
  · cases rule
    obtain ⟨g, _, rfl, hg, -, -, rfl⟩ := inside.parted
    rw [Forest.append_nil]
    exact hg
  · cases rule

/-- A name or call ends where no suffix follows. -/
theorem Derives.suffixed_of_chain (h : Derives [.sub .chain] f next) (hchain : EndsChain next) :
    Derives [.sub .suffixed] f next := by
  have hends : Derives [.look EndsChain] .nil next := .look hchain (.nil next)
  have hrow := h.append hends
  rw [Forest.append_nil] at hrow
  exact .ofFlat .suffixed hrow

/-- A name or call is an expression of any limit if no suffix follows. -/
theorem Derives.climb_of_chain (h : Derives [.sub .chain] f next) (hchain : EndsChain next)
    (limit : Nat) : Derives [.sub (.climb limit)] f next :=
  .ofFlat (.plain limit) (.ofFlat .simpleSuffixed (h.suffixed_of_chain hchain))

end Bounds

namespace Rendition

variable {next : Ahead} {text rest : Text} {content : Content} {f : Forest} {limit : Nat}

/-- An expression of a limit where no operator for it stands ahead. -/
theorem operand (h : Rendition [.sub (.climb limit)] next text rest [content] f)
    (hnext : EndsOperand limit next) :
    Rendition [.sub (.operand limit)] next text rest [content] f where
  derives := h.derives.operand hnext
  spells := h.spells
  flat_eq := h.flat_eq
  contents_eq := h.contents_eq

/-- A name or call where no suffix follows. -/
theorem climb_of_chain (h : Rendition [.sub .chain] next text rest [content] f)
    (hchain : EndsChain next) (limit : Nat) :
    Rendition [.sub (.climb limit)] next text rest [content] f where
  derives := h.derives.climb_of_chain hchain limit
  spells := h.spells
  flat_eq := h.flat_eq
  contents_eq := h.contents_eq

/-- A name or call where expressions are bounded. -/
theorem operand_of_chain (h : Rendition [.sub .chain] next text rest [content] f)
    (hnext : next.Bounds) (limit : Nat) :
    Rendition [.sub (.operand limit)] next text rest [content] f :=
  (h.climb_of_chain hnext.chain limit).operand (hnext.operand.mono (Nat.zero_le _))

/-- An expression is a list of expressions where no comma follows. -/
theorem exprs (h : Rendition [.sub .expr] next text rest [content] f) (hnext : next.Bounds) :
    Rendition [.sub .exprs] next text rest [content] f := by
  have hmore : Rendition [.sub (.more .comma .expr)] next [] rest [] .nil :=
    ((nil next rest).look hnext.comma).flat (.noMore .comma .expr)
  have hrow := h.append hmore
  rw [List.append_nil, List.append_nil, Forest.append_nil] at hrow
  exact hrow.flat .exprs

/-- An expression in parentheses. -/
theorem parens (h : Rendition [.sub .expr] (.of .rparen) text (')' :: rest) [content] f)
    (gap : Text) (blank : gap.all isBlank) (next : Ahead) :
    Rendition [.sub .chain] next (gap ++ parenthesized text) rest [.parens content]
      (.node (.expr .parens) (.mark gap .lparen (f ++ .mark [] .rparen .nil)) .nil) := by
  have hopen : TokenKind.lparen.grammarName.toList = ['('] := by decide
  have hclose : TokenKind.rparen.grammarName.toList = [')'] := by decide
  have hend := (nil next rest).mark [] hclose rfl rfl
  exact ((h.append hend).mark gap hopen blank rfl).node .parens

/-- No comments and no semicolons. -/
theorem noComments (hnext : EndsComments next) (rest : Text) :
    Rendition [.sub .comments] next [] rest [] .nil :=
  ((nil next rest).look hnext).flat .noComments

theorem noSemicolons (hnext : LacksToken .semi next) (rest : Text) :
    Rendition [.sub .semicolons] next [] rest [] .nil :=
  ((nil next rest).look hnext).flat .noSemicolons

/-- A single statement where a block is closed. -/
theorem items (h : Rendition [.sub .statement] next text rest [content] f) (hnext : next.Closes)
    (hbare : EndsComments (f.ahead next)) :
    Rendition [.sub .items] next text rest [content] f := by
  have hend := (nil next rest).look hnext.block
  have hlast := ((noComments hnext.bare rest).append hend).flat .lastItems
  have hbehind := h.append ((noSemicolons hnext.semi rest).append hlast)
  simp only [List.append_nil, Forest.append_nil] at hbehind
  exact ((noComments hbare _).append hbehind).flat .items

end Rendition

/-! ### What the parser makes of a rendition -/

section Parsing

variable {text : Text} {content : Content} {f : Forest}

/-- The text of an expression is read as this expression. -/
theorem Rendition.readsAs (h : Rendition [.sub .expr] .none text [] [content] f) :
    ReadsAs text content := by
  obtain ⟨e, hread, hcontent⟩ := exists_expression h.derives h.spells
  rw [h.flat_eq] at hread hcontent
  rw [h.contents_eq, List.cons.injEq] at hcontent
  exact ⟨e, hread, hcontent.1⟩

/-- The text of a statement is read as this statement. -/
theorem Rendition.exists_tree (h : Rendition [.sub .statement] .none text [] [content] f)
    (hbare : EndsComments (f.ahead .none)) :
    ∃ u, parse text = .ok u ∧ u.errors = [] ∧ contentsOf u.source u.root.children = [content] := by
  have hitems := h.items Ahead.closes_none hbare
  obtain ⟨u, hparse, herrors, -, hroot⟩ := exists_tree_of_spells hitems.derives hitems.spells
  rw [h.flat_eq] at hparse
  exact ⟨u, hparse, herrors, hroot.trans h.contents_eq⟩

end Parsing

end LuauTidy
