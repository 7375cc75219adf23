import LuauTidy.Proofs.Accepting
import LuauTidy.Proofs.Extents

/-!
# What the parser accepts: expressions

Every production of an expression accepts the rows that match it, provided
that what lies deeper is read for rows of fewer words.

* `Descent.Complete` — rows up to a size are read;
* `Grammar.accepts_operand` — an expression down to a limit.
-/

namespace LuauTidy

open LuauTidy.Parser

/-- What lies deeper is read for rows up to a number of words.  A block may be
empty, so it takes one level more. -/
structure Descent.Complete (d : Descent) (size : Nat) : Prop where
  operand : ∀ limit f ws, Derives [.sub (.operand limit)] f (Word.ahead ws) →
    f.words.length ≤ size → AcceptsOne (d.operand limit) f ws
  block : ∀ f ws, Derives [.sub .block] f (Word.ahead ws) → f.words.length < size →
    AcceptsOne d.block f ws

section Deeper

variable {d : Descent} {size : Nat} {c : Cursor} {ws : List Word} {whole done todo : Forest}
  {symbols : List Symbol} {made : List Node} {β : Type} {Q : β → Cursor → Prop}

/-- An operand behind the first words of a row. -/
theorem Descent.Complete.andOperand (hd : d.Complete size) {limit : Nat}
    (h : Midway c ws whole (.sub (.operand limit) :: symbols) made done todo)
    (hsize : whole.words.length ≤ size + 1) (hdone : 0 < done.words.length)
    {q : Node → Parser β}
    (hq : ∀ node g later, Midway c ws whole symbols (made ++ [node]) (done ++ g) later →
      Runs (q node) Q c (done ++ g) later ws) :
    Runs (d.operand limit >>= q) Q c done todo ws :=
  h.sub (fun g _ hg _ hlength => hd.operand limit g _ hg (by omega)) hq

/-- An expression behind the first words of a row. -/
theorem Descent.Complete.andExpr (hd : d.Complete size)
    (h : Midway c ws whole (.sub .expr :: symbols) made done todo)
    (hsize : whole.words.length ≤ size + 1) (hdone : 0 < done.words.length)
    {q : Node → Parser β}
    (hq : ∀ node g later, Midway c ws whole symbols (made ++ [node]) (done ++ g) later →
      Runs (q node) Q c (done ++ g) later ws) :
    Runs (d.expr >>= q) Q c done todo ws :=
  hd.andOperand h hsize hdone hq

/-- A block behind the first words of a row, where there is room for the last
ones. -/
theorem Descent.Complete.andBlock (hd : d.Complete size)
    (h : Midway c ws whole (.sub .block :: symbols) made done todo)
    (hsize : whole.words.length ≤ size + 1) (hdone : 0 < done.words.length)
    (hroom : symbols.any Symbol.isToken ∨ whole.words.length ≤ size) {q : Node → Parser β}
    (hq : ∀ node g later, Midway c ws whole symbols (made ++ [node]) (done ++ g) later →
      Runs (q node) Q c (done ++ g) later ws) :
    Runs (d.block >>= q) Q c done todo ws := by
  refine h.sub (fun g later hg hrest hlength => hd.block g _ hg ?_) hq
  obtain hlater | hroom := hroom
  · have := List.length_pos_iff.mpr (hrest.words_ne_nil hlater)
    omega
  · omega

end Deeper

/-- The class of the leaf with which a row begins stands ahead. -/
theorem Forest.ahead_of_firstLeaf {f : Forest} {kind : Kind} {w : Word}
    (h : f.firstLeaf = some (kind, w)) (hw : w.isComment = false) (z : Ahead) :
    (f.ahead z).cls = some w.cls := by
  induction f generalizing z with
  | nil => simp [firstLeaf] at h
  | leaf => simp_all [firstLeaf, ahead]
  | skipped => simp [firstLeaf] at h
  | node kind' inner later ih => exact ih h _

theorem Symbol.firstIs_mono {phrases phrases' : Nonterminal → Bool} {kinds kinds' : Kind → Bool}
    {symbols : List Symbol} (hphrases : ∀ n, phrases n → phrases' n)
    (hkinds : ∀ kind, kinds kind → kinds' kind) (h : Symbol.firstIs phrases kinds symbols) :
    Symbol.firstIs phrases' kinds' symbols := by
  cases symbols with
  | nil => simp [Symbol.firstIs] at h
  | cons s symbols => cases s <;> simp_all [Symbol.firstIs]

/-- The leaf with which some phrases begin, which stands ahead of them. -/
theorem Derives.begins (phrases : Nonterminal → Bool) (kinds : Kind → Bool)
    (hrule : ∀ {n kind parts}, Production n kind parts → phrases n →
      Symbol.firstIs phrases kinds parts)
    (hcomment : kinds (.stmt .comment) = false) (hcontinue : kinds (.token .kwContinue) = false)
    {symbols : List Symbol} {f : Forest} {next : Ahead}
    (h : Derives symbols f next) (hproper : ∀ s ∈ symbols, s.Proper)
    (hfirst : Symbol.firstIs phrases kinds symbols) :
    ∃ kind w, f.firstLeaf = some (kind, w) ∧ kinds kind ∧ w.cls.leafKind? = some kind ∧
      w.isComment = false ∧ (f.ahead next).cls = some w.cls := by
  obtain ⟨kind, w, hw, hkind⟩ := h.firstLeaf hrule hfirst
  have hfits := (Forest.head_of_firstLeaf (h.fit hproper) hw 0 0).2.1
  have hword : w.isComment = false :=
    hfits.not_comment (by rintro rfl; simp [hcomment] at hkind)
  refine ⟨kind, w, hw, hkind, ?_, hword, Forest.ahead_of_firstLeaf hw hword _⟩
  rcases hfits with hfits | ⟨hcls, -⟩ | ⟨-, -, rfl⟩
  · exact hfits
  · simp [Token.isComment, hcls] at hword
  · simp [hcontinue] at hkind

/-- A row does not begin with a token of another kind. -/
theorem Derives.not_begins (phrases : Nonterminal → Bool) (kinds : Kind → Bool)
    (hrule : ∀ {n kind parts}, Production n kind parts → phrases n →
      Symbol.firstIs phrases kinds parts)
    (hcomment : kinds (.stmt .comment) = false) (hcontinue : kinds (.token .kwContinue) = false)
    {symbols : List Symbol} {f : Forest} {next : Ahead}
    (h : Derives symbols f next) (hproper : ∀ s ∈ symbols, s.Proper)
    (hfirst : Symbol.firstIs phrases kinds symbols) {k : TokenKind}
    (hk : kinds (.token k) = false) : (f.ahead next).cls ≠ some (.token k) := by
  obtain ⟨kind, w, -, hkind, hleaf, -, hahead⟩ := h.begins phrases kinds hrule hcomment hcontinue hproper hfirst
  rw [hahead]
  intro hcls
  simp only [Option.some.inj hcls, TokenClass.leafKind?, Option.some.injEq] at hleaf
  simp [← hleaf, hk] at hkind

/-- What stands ahead of a row that begins with a token. -/
theorem Derives.ahead_mark_words {k : TokenKind} {symbols : List Symbol} {f : Forest}
    {ws : List Word} (h : Derives (.mark k :: symbols) f (Word.ahead ws)) :
    (Word.ahead (f.words ++ ws)).cls = some (.token k) := by
  rw [h.ahead_words]
  exact h.ahead_of_mark

/-- The leaf with which an expression begins. -/
theorem Derives.begins_expr {symbols : List Symbol} {f : Forest} {next : Ahead}
    (h : Derives symbols f next) (hproper : ∀ s ∈ symbols, s.Proper)
    (hfirst : Symbol.firstIs Nonterminal.isExpr Kind.beginsExpr symbols) :
    ∃ kind w, f.firstLeaf = some (kind, w) ∧ kind.beginsExpr ∧ w.cls.leafKind? = some kind ∧
      w.isComment = false ∧ (f.ahead next).cls = some w.cls :=
  h.begins _ _ Production.firstIs_expr rfl rfl hproper hfirst

/-- An expression does not begin with a token of another kind. -/
theorem Derives.not_begins_expr {symbols : List Symbol} {f : Forest} {next : Ahead}
    (h : Derives symbols f next) (hproper : ∀ s ∈ symbols, s.Proper)
    (hfirst : Symbol.firstIs Nonterminal.isExpr Kind.beginsExpr symbols) {k : TokenKind}
    (hk : (Kind.token k).beginsExpr = false) :
    (f.ahead next).cls ≠ some (.token k) :=
  h.not_begins _ _ Production.firstIs_expr rfl rfl hproper hfirst hk

/-! ### The second token -/

/-- What stands ahead behind the first leaf of a row. -/
def Forest.behind (z : Ahead) : Forest → Ahead
  | .nil => z
  | .leaf _ _ _ later => later.ahead z
  | .skipped _ _ later => later.ahead z
  | .node _ inner later => inner.behind (later.ahead z)

theorem Forest.behind_append {f : Forest} {l : Kind × Word} (h : f.firstLeaf = some l) (g : Forest)
    (z : Ahead) : (f ++ g).behind z = f.behind (g.ahead z) := by
  cases f with
  | nil => simp [firstLeaf] at h
  | leaf => simp [behind]
  | skipped => simp [firstLeaf] at h
  | node => simp [behind]

/-- A row that begins with a phrase begins with its first leaf, or the phrase is
empty. -/
theorem Forest.firstLeaf_of_append {f g : Forest} {l : Kind × Word}
    (h : (f ++ g).firstLeaf = some l) : f = .nil ∨ f.firstLeaf = some l := by
  cases f with
  | nil => exact .inl rfl
  | leaf => exact .inr (by simpa [firstLeaf] using h)
  | skipped => simp [firstLeaf] at h
  | node => exact .inr (by simpa [firstLeaf] using h)

/-- The second token ahead, where the first one is a leaf. -/
theorem Derives.upcoming_behind {symbols : List Symbol} {f : Forest} {ws : List Word}
    (h : Derives symbols f (Word.ahead ws)) {kind : Kind} {w : Word}
    (hw : f.firstLeaf = some (kind, w)) (hcomment : w.isComment = false) :
    (Cursor.upcoming 1 ((f.words ++ ws).map Word.toToken)).map Token.cls =
      (f.behind (Word.ahead ws)).cls := by
  generalize hz : Word.ahead ws = z at h
  induction h generalizing ws with
  | nil => simp [Forest.firstLeaf] at hw
  | @leaf _ _ passed _ later _ _ comments _ _ tail =>
      subst hz
      simp only [Forest.firstLeaf, Option.some.injEq, Prod.mk.injEq] at hw
      obtain ⟨-, rfl⟩ := hw
      have hnext := Reading.upcoming_passed comments hcomment (later.words ++ ws) 0
      simp only [Nat.zero_add] at hnext
      simp only [Forest.words, List.append_assoc, List.cons_append, hnext, upcoming_words,
        tail.ahead_words, Forest.behind]
  | skip => simp [Forest.firstLeaf] at hw
  | look _ _ ih => exact ih hw hz
  | @flat _ _ _ g later _ _ _ tail ihInside ih =>
      subst hz
      rw [Forest.words_append, List.append_assoc]
      obtain rfl | hg := Forest.firstLeaf_of_append hw
      · exact ih hw rfl
      · rw [Forest.behind_append hg]
        exact ihInside hg (tail.ahead_words ws)
  | @node _ _ _ _ inner later _ _ _ tail ihInside ih =>
      subst hz
      rw [Forest.words, List.append_assoc]
      exact ihInside hw (tail.ahead_words ws)

/-- A binary operator. -/
def TokenClass.isOperator : TokenClass → Bool
  | .token k => k.bindingPowers?.isSome
  | _ => false

/-- A phrase that may hold binary operators. -/
def Nonterminal.takesOperators : Nonterminal → Bool
  | .operand _ | .climb _ => true
  | _ => false

/-- A token that goes on with a phrase which begins with a name. -/
def Nonterminal.GoesOn (n : Nonterminal) (next : Ahead) : Prop :=
  ∃ cls, next.cls = some cls ∧ (cls.startsSuffix ∨ n.takesOperators ∧ cls.isOperator)

/-- An expression has words. -/
theorem Derives.words_ne_nil_of_isExpr {n : Nonterminal} {f : Forest} {next : Ahead}
    (h : Derives [.sub n] f next) (hn : n.isExpr) : f.words ≠ [] := by
  obtain ⟨kind, w, hw, -⟩ := h.firstLeaf Production.firstIs_expr hn
  obtain ⟨⟨passed, rest, hwords, -⟩, -⟩ := Forest.head_of_firstLeaf (h.fit (by simp)) hw 0 0
  simp [hwords]

/-- Arguments have words. -/
theorem Derives.words_ne_nil_of_arguments {f : Forest} {next : Ahead}
    (h : Derives [.sub .arguments] f next) : f.words ≠ [] := by
  obtain ⟨parts, rule, -⟩ | ⟨kind, parts, inner, rfl, rule, inside⟩ := h.phrase_cases
  · cases rule
  · simp only [Forest.words, List.append_nil]
    cases rule with
    | noArguments | arguments | stringArgument => exact inside.words_ne_nil rfl
    | tableArgument => exact inside.words_ne_nil_of_isExpr rfl

/-- A token with which arguments begin. -/
def TokenClass.startsArguments : TokenClass → Bool
  | .token .lparen | .token .lbrace | .literal .string => true
  | _ => false

/-- What stands ahead of a table. -/
theorem Derives.ahead_table {f : Forest} {next : Ahead} (h : Derives [.sub .table] f next) :
    (f.ahead next).cls = some (.token .lbrace) := by
  obtain ⟨parts, rule, -⟩ | ⟨kind, parts, inner, rfl, rule, inside⟩ := h.phrase_cases
  · cases rule
  · cases rule with
    | emptyTable | table => exact inside.ahead_of_mark

/-- What stands ahead of arguments. -/
theorem Derives.ahead_arguments {f : Forest} {next : Ahead}
    (h : Derives [.sub .arguments] f next) :
    ∃ cls, (f.ahead next).cls = some cls ∧ cls.startsArguments := by
  obtain ⟨parts, rule, -⟩ | ⟨kind, parts, inner, rfl, rule, inside⟩ := h.phrase_cases
  · cases rule
  · cases rule with
    | noArguments | arguments => exact ⟨_, inside.ahead_of_mark, rfl⟩
    | stringArgument => exact ⟨_, inside.ahead_of_literal, rfl⟩
    | tableArgument => exact ⟨_, inside.ahead_table, rfl⟩

/-- What stands ahead of an interpolated expression. -/
theorem Derives.ahead_interpolated {f : Forest} {next : Ahead}
    (h : Derives [.sub .interpolated] f next) :
    (f.ahead next).cls = some (.token .interpBraceOpen) ∧ f.words ≠ [] := by
  obtain ⟨parts, rule, -⟩ | ⟨kind, parts, inner, rfl, rule, inside⟩ := h.phrase_cases
  · cases rule
  · cases rule
    exact ⟨inside.ahead_of_mark, by simp [Forest.words, inside.words_ne_nil rfl]⟩

theorem TokenClass.startsSuffix_of_arguments {cls : TokenClass} (h : cls.startsArguments) :
    cls.startsSuffix := by
  unfold startsArguments at h
  split at h <;> simp_all [startsSuffix]

/-- Behind the name with which an expression begins, the expression ends or goes
on with a suffix or an operator.  What stands inside of a call does not end
there. -/
theorem Derives.behind_name {n : Nonterminal} {f : Forest} {next : Ahead}
    (h : Derives [.sub n] f next) (hn : n.isExpr) {w : Word}
    (hw : f.firstLeaf = some (.token .name, w)) :
    f.behind next = next ∧ n ≠ .callParts ∨ n.GoesOn (f.behind next) := by
  -- a phrase that goes on behind another one, `m`
  have hmore : ∀ {m n : Nonterminal} {g later : Forest} {next : Ahead} {w : Word},
      (g.firstLeaf = some (.token .name, w) → g.behind (later.ahead next) = later.ahead next ∧
        m ≠ .callParts ∨ m.GoesOn (g.behind (later.ahead next))) →
      (m.takesOperators → n.takesOperators) → g ≠ .nil →
      (g ++ later).firstLeaf = some (.token .name, w) → n.GoesOn (later.ahead next) →
      n.GoesOn ((g ++ later).behind next) := by
    intro m n g later next w ih htakes hg hw hgoes
    obtain rfl | hw := Forest.firstLeaf_of_append hw
    · exact absurd rfl hg
    · rw [Forest.behind_append hw]
      obtain ⟨heq, -⟩ | ⟨cls, hcls, hon⟩ := ih hw
      · rwa [heq]
      · exact ⟨cls, hcls, hon.imp_right (And.imp_left htakes)⟩
  -- a phrase that is another one, `m`
  have hsame : ∀ {m n : Nonterminal} {g : Forest} {next : Ahead},
      (m.takesOperators → n.takesOperators) → n ≠ .callParts →
      (g ≠ .nil ∧ ∀ w, g.firstLeaf = some (.token .name, w) →
        g.behind next = next ∧ m ≠ .callParts ∨ m.GoesOn (g.behind next)) →
      g ≠ .nil ∧ ∀ w, g.firstLeaf = some (.token .name, w) →
        g.behind next = next ∧ n ≠ .callParts ∨ n.GoesOn (g.behind next) := by
    intro m n g next htakes hn ih
    refine ⟨ih.1, fun w hw => (ih.2 w hw).imp (fun h => ⟨h.1, hn⟩) ?_⟩
    rintro ⟨cls, hcls, hon⟩
    exact ⟨cls, hcls, hon.imp_right (And.imp_left htakes)⟩
  have hmark : ∀ {n : Nonterminal} {passed : List Word} {v : Word} {k kind next} {later : Forest},
      v.cls = .token k →
      ((TokenClass.token k).startsSuffix ∨ n.takesOperators ∧ (TokenClass.token k).isOperator) →
      n.GoesOn ((Forest.leaf kind passed v later).ahead next) := by
    intro n passed v k kind next later hv hk
    exact ⟨.token k, by simp [Forest.ahead, Token.isComment, hv], hk⟩
  refine h.phrase_induction (M := fun n f next => n.isExpr → f ≠ .nil ∧ ∀ w,
    f.firstLeaf = some (.token .name, w) →
      f.behind next = next ∧ n ≠ .callParts ∨ n.GoesOn (f.behind next)) ?_ ?_ hn
    |>.2 w hw
  · intro n parts f next rule inside holds hn
    cases rule with
    | operand | suffixed =>
        obtain ⟨g, _, rfl, -, ih, -, rfl⟩ := holds
        rw [Forest.append_nil]
        exact hsame (by simp [Nonterminal.takesOperators]) (by simp) (ih rfl)
    | plain | simpleTable | simpleSuffixed | chainVariable =>
        obtain ⟨g, _, rfl, -, ih, rfl⟩ := holds
        rw [Forest.append_nil]
        exact hsame (by simp [Nonterminal.takesOperators]) (by simp) (ih rfl)
    | literal =>
        obtain ⟨_, _, _, rfl, -⟩ := holds
        simp [Forest.firstLeaf]
    | call =>
        obtain ⟨g, _, rfl, -, ih, later, _, rfl, hlater, -, rfl⟩ := holds
        obtain ⟨cls, hcls, hstarts⟩ := hlater.ahead_arguments
        simp only [Forest.append_nil, Forest.ahead] at ih hcls ⊢
        obtain ⟨hg, ih⟩ := ih rfl
        refine ⟨by simp [hg], fun w hw => .inr (hmore (ih w) (by simp [Nonterminal.takesOperators])
          hg hw ⟨cls, hcls, .inl ?_⟩)⟩
        exact TokenClass.startsSuffix_of_arguments hstarts
    | methodCall =>
        obtain ⟨g, _, rfl, -, ih, passed, v, later, rfl, -, -, hv, -⟩ := holds
        obtain ⟨hg, ih⟩ := ih rfl
        exact ⟨by simp [hg], fun w hw => .inr (hmore (ih w) (by simp [Nonterminal.takesOperators])
          hg hw (hmark hv (.inl rfl)))⟩
    | _ => simp [Nonterminal.isExpr] at hn
  · intro n kind parts f next rule inside holds hn
    refine ⟨by simp, fun w hw => ?_⟩
    cases rule with
    | variableName =>
        obtain ⟨_, _, _, rfl, -, -, -, rfl⟩ := holds
        exact .inl ⟨rfl, by simp⟩
    | access | index =>
        obtain ⟨g, _, rfl, -, ih, passed, v, later, rfl, -, -, hv, -⟩ := holds
        obtain ⟨hg, ih⟩ := ih rfl
        exact .inr (hmore (ih w) (by simp [Nonterminal.takesOperators]) hg hw (hmark hv (.inl rfl)))
    | binary limit op left right powers tighter =>
        obtain ⟨g, _, rfl, -, ih, passed, v, later, rfl, -, -, hv, -⟩ := holds
        obtain ⟨hg, ih⟩ := ih rfl
        have hop : (TokenClass.token op).isOperator := by simp [TokenClass.isOperator, powers]
        exact .inr (hmore (ih w) (by simp) hg hw
          (hmark hv (.inr ⟨by simp [Nonterminal.takesOperators], hop⟩)))
    | chainCall =>
        obtain ⟨g, _, rfl, -, ih, rfl⟩ := holds
        rw [Forest.append_nil] at hw ⊢
        exact (hsame (n := .chain) (by simp [Nonterminal.takesOperators]) (by simp) (ih rfl)).2 w hw
    | unary limit op unary =>
        obtain ⟨_, _, _, rfl, -⟩ := holds
        simp only [Forest.firstLeaf, Option.some.injEq, Prod.mk.injEq, Kind.token.injEq] at hw
        rw [hw.1] at unary
        exact absurd unary (by decide)
    | interpolation | anonymousFunction | conditional | parens | emptyTable | table =>
        obtain ⟨_, _, _, rfl, -⟩ := holds
        simp [Forest.firstLeaf] at hw
    | _ => simp [Nonterminal.isExpr] at hn

/-- A phrase that is called or assigned to, whole or in part. -/
def Nonterminal.isTarget : Nonterminal → Bool
  | .suffixed | .callParts | .chain | .variable | .varList => true
  | _ => false

/-- A leaf with which such a phrase begins. -/
def Kind.beginsTarget : Kind → Bool
  | .token .name | .token .lparen => true
  | _ => false

namespace Grammar

variable {d : Descent} {size : Nat} {f : Forest} {ws : List Word}

theorem accepts_exprs (hd : d.Complete size) (h : Derives [.sub .exprs] f (Word.ahead ws))
    (hsize : f.words.length ≤ size) : AcceptsRow (exprs d) f ws := by
  obtain ⟨parts, rule, inside⟩ | ⟨kind, parts, inner, rfl, rule, -⟩ := h.phrase_cases
  · cases rule
    refine accepts_iff_runs.mpr fun c => ?_
    have hitem : ∀ g ws', Derives [.sub .expr] g (Word.ahead ws') → g.words.length ≤ size →
        AcceptsOne d.expr g ws' := fun g ws' hg hle => hd.operand 0 g ws' hg hle
    rw [exprs, ← bind_pure (separatedBy _ _)]
    refine (Midway.start (c := c) inside).separated size hitem
      (by simpa [Forest.words] using hsize)
      fun nodes done later h _ => h.pure (by simp)
  · cases rule

/-! ### Function bodies -/

theorem accepts_parameters (h : Derives [.sub .params] f (Word.ahead ws)) :
    AcceptsRow parameters f ws := by
  refine accepts_many (P := Nonterminal.params.Fits f.words.length ws) ?_ ⟨h, Nat.le_refl _⟩
  rintro g ⟨h, hsize⟩
  obtain ⟨parts, rule, inside⟩ | ⟨kind, parts, inner, rfl, rule, -⟩ := h.phrase_cases
  · cases rule with
    | varargParam =>
        refine .last inside fun c h => Runs.peekClass ?_
        rw [h.ahead, h.derives.ahead_of_literal]
        exact h.leaf accepts_literal fun node _ _ _ _ h => h.pureStep (by simp) _
    | lastParam =>
        refine .last inside fun c h => Runs.peekClass ?_
        rw [h.ahead, h.derives.ahead_of_mark]
        refine h.leaf accepts_expectName fun node _ _ _ _ h => ?_
        obtain ⟨hlacks, h⟩ := h.look
        exact Runs.eat_none hlacks (h.pureStep (by simp) _)
    | params =>
        refine .more ([.mark .name, .mark .comma]) inside hsize
          (fun _ _ h => h.words_ne_nil rfl) fun c ws' g h hsize => Runs.peekClass ?_
        rw [h.ahead, h.derives.ahead_of_mark]
        exact h.leaf accepts_expectName fun node _ _ _ _ h =>
          h.eat fun comma _ _ _ h => h.pureStep (by simp) _
  · cases rule

theorem accepts_someParams (h : Derives [.sub .someParams] f (Word.ahead ws)) :
    AcceptsOne (parameters >>= finish (.aux .paramList)) f ws := by
  obtain ⟨parts, rule, inside⟩ | ⟨kind, parts, inner, rfl, rule, inside⟩ := h.phrase_cases
  · cases rule
  · cases rule
    refine accepts_node fun c => (Midway.start (c := c) inside).subRow
      (fun g later hg _ _ => accepts_parameters hg) fun names _ _ h => h.finish (by simp) (by simp)

/-- Parameters do not begin with the parenthesis behind them. -/
theorem not_begins_someParams {next : Ahead} {symbols : List Symbol}
    (h : Derives (.sub .someParams :: symbols) f next)
    (hproper : ∀ s ∈ symbols, s.Proper) :
    (f.ahead next).cls ≠ some (.token .rparen) := by
  refine h.not_begins (fun n => n = .someParams ∨ n = .params)
    (fun kind => kind = .token .name ∨ kind = .expr .vararg) (fun rule hn => ?_)
    (by simp) (by simp) (by simpa using hproper) (by simp [Symbol.firstIs]) (by simp)
  simp only [decide_eq_true_eq] at hn
  rcases hn with rfl | rfl <;> cases rule <;> rfl

theorem accepts_functionBody (hd : d.Complete size)
    (h : Derives [.sub .functionBody] f (Word.ahead ws)) (hsize : f.words.length ≤ size + 1) :
    AcceptsOne (functionBody d) f ws := by
  obtain ⟨parts, rule, inside⟩ | ⟨kind, parts, inner, rfl, rule, inside⟩ := h.phrase_cases
  · cases rule
  · cases rule
    simp only [Forest.words, List.append_nil] at hsize
    refine accepts_node fun c => ?_
    refine (Midway.start (c := c) inside).leaf accepts_expect fun opening _ _ _ _ h =>
      Runs.isAt ?_
    obtain ⟨parts, rule, h⟩ | ⟨_, _, rule⟩ := h.unfold
    · cases rule with
      | noParams =>
          rw [h.ahead, h.derives.ahead_of_mark, if_pos (by simp), pure_bind]
          refine h.leaf accepts_expect fun closing _ _ _ _ h => ?_
          refine hd.andBlock h hsize (by simp [Forest.words]) (.inl rfl) fun block _ _ h => ?_
          exact h.leaf accepts_expect fun last _ _ _ _ h => h.finish (by simp) (by simp)
      | paramList =>
          rw [h.ahead, if_neg (by simpa using not_begins_someParams h.derives (by simp)), ← bind_assoc]
          refine h.sub (fun g later hg _ _ => accepts_someParams hg) ?_
          intro params g later h
          rw [pure_bind]
          refine h.leaf accepts_expect fun closing _ _ _ _ h => ?_
          refine hd.andBlock h hsize (by simp [Forest.words]) (.inl rfl) fun block _ _ h => ?_
          exact h.leaf accepts_expect fun last _ _ _ _ h => h.finish (by simp) (by simp)
    · cases rule

/-! ### Conditionals -/

theorem andBranch (hd : d.Complete size) {β : Type} {c : Cursor} {whole done todo : Forest}
    {symbols : List Symbol} {made : List Node} {Q : β → Cursor → Prop} {q : List Node → Parser β}
    (h : Midway c ws whole (.sub .expr :: .mark .kwThen :: .sub .expr :: symbols) made done todo)
    (hsize : whole.words.length ≤ size + 1) (hdone : 0 < done.words.length)
    (hq : ∀ nodes done' later, Midway c ws whole symbols (made ++ nodes) done' later →
      0 < done'.words.length → Runs (q nodes) Q c done' later ws) :
    Runs (branch d >>= q) Q c done todo ws := by
  simp only [branch, bind_assoc, pure_bind]
  refine hd.andExpr h hsize hdone fun condition _ _ h => ?_
  refine h.leaf accepts_expect fun mark _ _ _ _ h => ?_
  refine hd.andExpr h hsize (by simp [Forest.words]) fun value _ _ h => ?_
  exact hq [condition, mark, value] _ _ (by simpa using h) (by simp [Forest.words])

theorem accepts_elseifs (hd : d.Complete size) (h : Derives [.sub .elseifs] f (Word.ahead ws))
    (hnext : (Word.ahead ws).cls = some (.token .kwElse)) (hsize : f.words.length ≤ size + 1) :
    AcceptsRow (many do
      match ← eat .kwElseif with
      | some mark => return (mark :: (← branch d), true)
      | none => return ([], false)) f ws := by
  refine accepts_many (P := Nonterminal.elseifs.Fits (size + 1) ws) ?_ ⟨h, hsize⟩
  rintro f ⟨h, hsize⟩
  obtain ⟨parts, rule, inside⟩ | ⟨kind, parts, inner, rfl, rule, -⟩ := h.phrase_cases
  · cases rule with
    | noElseif =>
        refine .last inside fun c h => Runs.eat_none ?_ (h.pureStep rfl false)
        rw [LacksToken, h.ahead_last]
        simp [hnext]
    | elseif =>
        refine .more ([.mark .kwElseif, .sub .expr, .mark .kwThen, .sub .expr]) inside hsize
          (fun _ _ h => h.words_ne_nil rfl) fun c ws' g h hsize => h.eat fun mark _ _ _ h => ?_
        refine andBranch hd h hsize (by simp [Forest.words]) fun nodes _ _ h _ => ?_
        exact h.pureStep (by simp) true
  · cases rule

theorem accepts_conditional (hd : d.Complete size)
    (h : Derives [.mark .kwIf, .sub .expr, .mark .kwThen, .sub .expr, .sub .elseifs, .mark .kwElse,
      .sub .expr] f (Word.ahead ws)) (hsize : f.words.length ≤ size + 1) :
    AcceptsOne (conditional d) (.node (.expr .conditional) f .nil) ws := by
  refine accepts_node fun c => ?_
  refine (Midway.start (c := c) h).leaf accepts_mark fun mark _ _ _ _ h => ?_
  refine andBranch hd h hsize (by simp [Forest.words]) fun first _ _ h hdone => ?_
  refine h.subRow (fun g later hg hlater hlength => ?_) fun others _ _ h => ?_
  · exact accepts_elseifs hd hg hlater.ahead_mark_words (by omega)
  refine h.leaf accepts_expect fun elseMark _ _ _ _ h => ?_
  refine hd.andExpr h hsize (by simp [Forest.words]) fun value _ _ h => ?_
  exact h.finish (by simp) (by simp)

/-! ### Tables -/

/-- A field does not begin with the brace behind the last one. -/
theorem not_begins_field {next : Ahead} {symbols : List Symbol}
    (h : Derives (.sub .field :: symbols) f next) (hproper : ∀ s ∈ symbols, s.Proper) :
    (f.ahead next).cls ≠ some (.token .rbrace) := by
  refine h.not_begins (fun n => n = .field ∨ n.isExpr)
    (fun kind => kind = .token .lbracket ∨ kind.beginsExpr) (fun {n kind parts} rule hn => ?_)
    (by decide) (by decide) (by simpa using hproper) (by simp [Symbol.firstIs]) (by decide)
  simp only [decide_eq_true_eq] at hn
  rcases hn with rfl | hn
  · cases rule <;> rfl
  · exact Symbol.firstIs_mono (by simp +contextual) (by simp +contextual) (rule.firstIs_expr hn)

theorem accepts_field (hd : d.Complete size) (h : Derives [.sub .field] f (Word.ahead ws))
    (hnext : (Word.ahead ws).cls ≠ some (.token .assign)) (hsize : f.words.length ≤ size) :
    AcceptsOne (field d) f ws := by
  obtain ⟨parts, rule, inside⟩ | ⟨kind, parts, inner, rfl, rule, inside⟩ := h.phrase_cases
  · cases rule
  · simp only [Forest.words, List.append_nil] at hsize
    have hsize' : inner.words.length ≤ size + 1 := by omega
    refine accepts_node fun c => ?_
    rw [field]
    refine Runs.isAt ?_
    cases rule with
    | keyedField =>
        rw [if_pos (by simp [inside.ahead_mark_words])]
        refine (Midway.start (c := c) inside).leaf accepts_mark fun opening _ _ _ _ h => ?_
        refine hd.andExpr h hsize' (by simp [Forest.words]) fun key _ _ h => ?_
        refine h.leaf accepts_expect fun closing _ _ _ _ h => ?_
        refine h.leaf accepts_expect fun mark _ _ _ _ h => ?_
        refine hd.andExpr h hsize' (by simp [Forest.words]) fun value _ _ h => ?_
        exact h.finish (by simp) (by simp)
    | namedField =>
        rw [if_neg (by simp [inside.ahead_mark_words])]
        refine Runs.isAt (Runs.bind (run_nth.mpr ⟨rfl, rfl⟩) ?_)
        have hsecond : kind? (Cursor.upcoming 1 ((inner.words ++ ws).map Word.toToken)) =
            some .assign := by
          obtain ⟨passed, w, later, rfl, -, -, hw, hlater⟩ := inside.uncons_leaf
          have hw : w.cls = .token .name := hw
          rw [kind?_eq_some, inside.upcoming_behind rfl (by simp [Token.isComment, hw])]
          exact hlater.ahead_of_mark
        rw [Cursor.facing_rest, hsecond, if_pos (by simp [inside.ahead_mark_words])]
        refine (Midway.start (c := c) inside).leaf accepts_mark fun name _ _ _ _ h => ?_
        refine h.leaf accepts_mark fun mark _ _ _ _ h => ?_
        refine hd.andExpr h hsize' (by simp [Forest.words]) fun value _ _ h => ?_
        exact h.finish (by simp) (by simp)
    | itemField =>
        rw [inside.ahead_words, if_neg (by
          simpa using inside.not_begins_expr (by simp) rfl rfl)]
        refine Runs.isAt (Runs.bind (run_nth.mpr ⟨rfl, rfl⟩) ?_)
        rw [if_neg]
        · refine (Midway.start (c := c) inside).sub
            (fun g later hg _ hlength => hd.operand 0 g _ hg (by omega)) fun value _ _ h => ?_
          exact h.finish (by simp) (by simp)
        · simp only [Bool.and_eq_true, decide_eq_true_eq, beq_iff_eq, not_and, Cursor.facing_rest,
            kind?_eq_some]
          intro hname
          obtain ⟨kind, w, hw, -, hleaf, hcomment, hahead⟩ := inside.begins_expr (by simp) rfl
          rw [inside.ahead_words, hahead, Option.some.injEq] at hname
          obtain rfl : kind = .token .name := by
            simpa [hname, TokenClass.leafKind?, eq_comm] using hleaf
          rw [inside.upcoming_behind hw hcomment]
          obtain ⟨heq, -⟩ | ⟨cls, hcls, hgoes⟩ := inside.behind_name rfl hw
          · rwa [heq]
          · rw [hcls]
            rintro ⟨rfl⟩
            exact absurd hgoes (by decide)

/-- The fields of a list are fields. -/
theorem fields_of_fieldList {parts : List Symbol} {next : Ahead}
    (rule : Production .fieldList (some (.aux .fieldList)) parts) (inside : Derives parts f next) :
    Derives [.sub .fields] f next := by
  cases rule with
  | commentFields =>
      refine .ofFlat .noFields ?_
      exact .ofFlat .comments inside
  | lastFieldOnly => exact .ofFlat .lastField inside
  | fieldList separator separates => exact .ofFlat (.fields separator separates) inside

/-- A field with the comments around it, and no brace before it. -/
theorem andField (hd : d.Complete size) {c : Cursor} {whole todo : Forest} {symbols : List Symbol}
    {Q : List Node × Bool → Cursor → Prop}
    (h : Midway c ws whole (.sub .comments :: .sub .field :: .sub .comments :: symbols) [] .nil todo)
    (hproper : ∀ s ∈ symbols, s.Proper) (hsize : whole.words.length ≤ size)
    (hnext : ∀ later, Derives symbols later (Word.ahead ws) →
      (later.ahead (Word.ahead ws)).cls ≠ some (.token .assign))
    (hq : ∀ before node after done later,
      Midway c ws whole symbols (before ++ [node] ++ after) done later → Runs (do
        if (← Parser.isAt .comma) || (← Parser.isAt .semi) then
          let separator ← bump
          return (before ++ [node] ++ after ++ [separator], true)
        else
          return (before ++ [node] ++ after, false)) Q c done later ws) :
    Runs (fieldStep d) Q c .nil todo ws := by
  rw [fieldStep]
  refine h.subRow (fun g _ hg _ _ => accepts_comments hg) fun before _ _ h => Runs.isAt ?_
  rw [h.ahead, if_neg (by
    simpa using not_begins_field h.derives (by simpa [Symbol.Proper] using hproper))]
  refine h.sub (fun g later hg hlater hlength => accepts_field hd hg ?_ (by omega))
    fun node _ _ h => ?_
  · obtain ⟨comments, rest, rfl, hcomments, hrest⟩ := hlater.uncons_sub
    rw [hlater.ahead_words, Forest.ahead_append, hcomments.ahead_comments]
    exact hnext rest hrest
  · refine h.subRow (fun g _ hg _ _ => accepts_comments hg) fun after _ _ h => ?_
    exact hq before node after _ _ (by simpa using h)

theorem accepts_fields (hd : d.Complete size) (h : Derives [.sub .fields] f (Word.ahead ws))
    (hnext : (Word.ahead ws).cls = some (.token .rbrace)) (hsize : f.words.length ≤ size) :
    AcceptsRow (many (fieldStep d)) f ws := by
  refine accepts_many (P := Nonterminal.fields.Fits size ws) ?_ ⟨h, hsize⟩
  rintro f ⟨h, hsize⟩
  obtain ⟨parts, rule, inside⟩ | ⟨kind, parts, inner, rfl, rule, -⟩ := h.phrase_cases
  · cases rule with
    | noFields =>
        refine .last inside fun c h => ?_
        refine h.subRow (fun g _ hg _ _ => accepts_comments hg) fun before _ _ h => Runs.isAt ?_
        rw [h.ahead_last, if_pos (by simp [hnext])]
        exact h.pureStep (by simp) false
    | lastField =>
        refine .last inside fun c h => andField hd h (by simp) hsize ?_ ?_
        · intro later hlater
          rw [hlater.parted]
          simp [Forest.ahead, hnext]
        · intro before node after done later h
          refine Runs.isAt (Runs.isAt ?_)
          rw [h.ahead_last, if_neg (by simp [hnext])]
          exact h.pureStep (by simp) false
    | fields separator separates =>
        refine .more [.sub .comments, .sub .field, .sub .comments, .mark separator] inside hsize
          (fun _ _ h => h.words_ne_nil rfl) fun c ws' g h hsize => andField hd h (by simp) hsize ?_ ?_
        · intro later hlater
          rw [hlater.ahead_of_mark]
          rcases separates with rfl | rfl <;> simp
        · intro before node after done later h
          refine Runs.isAt (Runs.isAt ?_)
          rw [h.ahead, h.derives.ahead_of_mark, if_pos (by simpa using separates)]
          exact h.leaf accepts_mark fun mark _ _ _ _ h => h.pureStep (by simp) true
  · cases rule

theorem accepts_fieldList (hd : d.Complete size) (h : Derives [.sub .fieldList] f (Word.ahead ws))
    (hnext : (Word.ahead ws).cls = some (.token .rbrace)) (hsize : f.words.length ≤ size) :
    AcceptsOne (many (fieldStep d) >>= finish (.aux .fieldList)) f ws := by
  obtain ⟨parts, rule, -⟩ | ⟨kind, parts, inner, rfl, rule, inside⟩ := h.phrase_cases
  · cases rule
  · obtain rfl : kind = .aux .fieldList := by cases rule <;> rfl
    simp only [Forest.words, List.append_nil] at hsize
    have hfields : Derives [.sub .fields] inner (Word.ahead ws) := fields_of_fieldList rule inside
    refine accepts_node fun c => (Midway.start (c := c) hfields).subRow
      (fun g later hg hlater hlength => ?_) fun names _ _ h => h.finish (by simp) (by simp)
    obtain rfl := hlater.parted
    exact accepts_fields hd hg hnext (by simpa [Forest.words] using hlength.le.trans hsize)

/-- A field list does not begin with the brace behind it. -/
theorem not_right_fieldList (h : Derives [.sub .fieldList] f (Word.ahead ws)) :
    kind? ((f.words ++ ws).map Word.toToken).head? ≠ some .rbrace := by
  rw [Ne, Word.kind?_head, h.ahead_words]
  rintro ⟨hcls, hends⟩
  have hfield : ∀ {symbols : List Symbol} {next : Ahead} {g : Forest},
      Derives (.sub .comments :: .sub .field :: symbols) g next → (∀ s ∈ symbols, s.Proper) →
        (g.ahead next).cls ≠ some (.token .rbrace) := by
    intro symbols next g h hproper
    obtain ⟨comments, later, rfl, hcomments, hlater⟩ := h.uncons_sub
    rw [Forest.ahead_append, hcomments.ahead_comments]
    exact not_begins_field hlater hproper
  obtain ⟨parts, rule, -⟩ | ⟨kind, parts, inner, rfl, rule, inside⟩ := h.phrase_cases
  · cases rule
  · cases rule with
    | commentFields =>
        obtain ⟨passed, w, later, rfl, -, -, hw, -⟩ := inside.uncons_leaf
        have hw : w.cls = .comment := hw
        simp [EndsComments, Forest.ahead, Token.isComment, hw] at hends
    | lastFieldOnly => exact hfield inside (by simp) hcls
    | fieldList separator separates => exact hfield inside (by simp) hcls

theorem accepts_table (hd : d.Complete size) (h : Derives [.sub .table] f (Word.ahead ws))
    (hsize : f.words.length ≤ size + 1) : AcceptsOne (table d) f ws := by
  obtain ⟨parts, rule, inside⟩ | ⟨kind, parts, inner, rfl, rule, inside⟩ := h.phrase_cases
  · cases rule
  · simp only [Forest.words, List.append_nil] at hsize
    cases rule with
    | emptyTable =>
        refine accepts_node fun c => ?_
        rw [table]
        refine (Midway.start (c := c) inside).leaf accepts_expect fun opening _ _ _ _ h => ?_
        obtain ⟨hends, h⟩ := h.look
        have hright := Word.kind?_head.mpr ⟨h.derives.ahead_mark_words, hends⟩
        refine Runs.isRightAt ?_
        rw [hright, if_pos (by simp), pure_bind]
        exact h.leaf accepts_expect fun closing _ _ _ _ h => h.finish (by simp) (by simp)
    | table =>
        refine accepts_node fun c => ?_
        rw [table]
        refine (Midway.start (c := c) inside).leaf accepts_expect fun opening _ _ todo _ h => ?_
        refine Runs.isRightAt ?_
        have hright : kind? ((todo.words ++ ws).map Word.toToken).head? ≠ some .rbrace := by
          obtain ⟨g, later, hg, hfields, hlater⟩ := h.derives.uncons_sub
          rw [hg, Forest.words_append, List.append_assoc]
          exact not_right_fieldList (by rwa [hlater.ahead_words])
        rw [if_neg (by simpa using hright), ← bind_assoc]
        refine h.sub (fun g later hg hlater hlength => ?_) fun list _ _ h => ?_
        · refine accepts_fieldList hd hg hlater.ahead_mark_words ?_
          simp only [Forest.words, List.length_append, List.length_cons, Forest.nil_append] at hlength
          omega
        · rw [pure_bind]
          exact h.leaf accepts_expect fun closing _ _ _ _ h => h.finish (by simp) (by simp)

/-! ### Interpolated strings -/

theorem accepts_interpolated (hd : d.Complete size)
    (h : Derives [.sub .interpolated] f (Word.ahead ws)) (hsize : f.words.length ≤ size + 1) :
    AcceptsOne (do
      let opening ← bump
      let value ← d.expr
      let closing ← expect .interpBraceClose
      finish (.aux .interpExpr) [opening, value, closing]) f ws := by
  obtain ⟨parts, rule, -⟩ | ⟨kind, parts, inner, rfl, rule, inside⟩ := h.phrase_cases
  · cases rule
  · cases rule
    simp only [Forest.words, List.append_nil] at hsize
    refine accepts_node fun c => ?_
    refine (Midway.start (c := c) inside).leaf accepts_mark fun opening _ _ _ _ h => ?_
    refine hd.andExpr h hsize (by simp [Forest.words]) fun value _ _ h => ?_
    exact h.leaf accepts_expect fun closing _ _ _ _ h => h.finish (by simp) (by simp)

theorem accepts_pieces (hd : d.Complete size) (h : Derives [.sub .pieces] f (Word.ahead ws))
    (hsize : f.words.length ≤ size + 1) : AcceptsRow (many (interpolationStep d)) f ws := by
  refine accepts_many (P := Nonterminal.pieces.Fits (size + 1) ws) ?_ ⟨h, hsize⟩
  rintro f ⟨h, hsize⟩
  obtain ⟨parts, rule, inside⟩ | ⟨kind, parts, inner, rfl, rule, -⟩ := h.phrase_cases
  · cases rule with
    | content =>
        refine .more [.mark .interpContent] inside hsize (fun _ _ h => h.words_ne_nil rfl)
          fun c ws' g h hsize => Runs.peekKind h.derives.ahead_mark_words ?_
        exact h.leaf accepts_mark fun content _ _ _ _ h => h.pureStep (by simp) true
    | interpolated =>
        have hstep : ∀ c ws' g, Midway c ws' g [.sub .interpolated] [] .nil g →
            g.words.length ≤ size + 1 →
              Runs (interpolationStep d) (Stepped true c g ws') c .nil g ws' := by
          intro c ws' g h hsize
          have hahead := h.derives.ahead_interpolated.1
          rw [← h.ahead] at hahead
          refine Runs.peekKind hahead ?_
          have hrun : Runs ((do
              let opening ← bump
              let value ← d.expr
              let closing ← expect .interpBraceClose
              finish (.aux .interpExpr) [opening, value, closing]) >>= fun piece =>
                pure ([piece], true)) (Stepped true c g ws') c .nil g ws' :=
            h.sub (fun g' _ hg' _ hlength => accepts_interpolated hd hg' (by omega))
              fun piece _ _ h => h.pureStep (by simp) true
          simpa only [bind_assoc] using hrun
        exact .more [.sub .interpolated] inside hsize (fun _ _ h => h.ahead_interpolated.2) hstep
    | interpolationEnd =>
        refine .last inside fun c h => Runs.peekKind h.derives.ahead_mark_words ?_
        exact h.leaf accepts_mark fun last _ _ _ _ h => h.pureStep (by simp) false
  · cases rule

theorem accepts_interpolation (hd : d.Complete size)
    (h : Derives [.mark .interpStart, .sub .pieces] f (Word.ahead ws))
    (hsize : f.words.length ≤ size + 1) :
    AcceptsOne (interpolation d) (.node (.expr .interpolation) f .nil) ws := by
  refine accepts_node fun c => ?_
  refine (Midway.start (c := c) h).leaf accepts_mark fun opening _ _ _ _ h => ?_
  refine h.subRow (fun g later hg _ hlength => accepts_pieces hd hg (by omega)) fun pieces _ _ h => ?_
  exact h.finish (by simp) (by simp)

/-! ### Suffixed expressions -/

/-- The leaf with which a row of expressions begins. -/
theorem begins_exprs {symbols : List Symbol} {next : Ahead}
    (h : Derives (.sub .exprs :: symbols) f next) (hproper : ∀ s ∈ symbols, s.Proper) :
    ∃ kind cls, kind.beginsExpr ∧ TokenClass.leafKind? cls = some kind ∧
      (f.ahead next).cls = some cls := by
  obtain ⟨kind, w, -, hkind, hleaf, -, hahead⟩ := h.begins (fun n => n = .exprs ∨ n.isExpr)
    Kind.beginsExpr (fun {n kind parts} rule hn => by
      simp only [decide_eq_true_eq] at hn
      rcases hn with rfl | hn
      · cases rule
        rfl
      · exact Symbol.firstIs_mono (by simp +contextual) (fun _ => id) (rule.firstIs_expr hn))
    (by decide) (by decide) (by simpa using hproper) (by simp [Symbol.firstIs])
  exact ⟨kind, w.cls, hkind, hleaf, hahead⟩

/-- Expressions do not begin with a token of another kind. -/
theorem not_begins_exprs {symbols : List Symbol} {next : Ahead}
    (h : Derives (.sub .exprs :: symbols) f next) (hproper : ∀ s ∈ symbols, s.Proper)
    {k : TokenKind} (hk : (Kind.token k).beginsExpr = false) :
    (f.ahead next).cls ≠ some (.token k) := by
  obtain ⟨kind, cls, hkind, hleaf, hahead⟩ := begins_exprs h hproper
  rw [hahead]
  rintro ⟨rfl⟩
  simp only [TokenClass.leafKind?, Option.some.injEq] at hleaf
  simp [← hleaf, hk] at hkind

theorem accepts_arguments (hd : d.Complete size) (h : Derives [.sub .arguments] f (Word.ahead ws))
    (hsize : f.words.length ≤ size + 1) : AcceptsOne (arguments d) f ws := by
  obtain ⟨parts, rule, -⟩ | ⟨kind, parts, inner, rfl, rule, inside⟩ := h.phrase_cases
  · cases rule
  · obtain rfl : kind = .aux .argList := by cases rule <;> rfl
    simp only [Forest.words, List.append_nil] at hsize
    refine accepts_node fun c => ?_
    rw [arguments]
    refine Runs.peekClass ?_
    rw [inside.ahead_words]
    cases rule with
    | noArguments =>
        rw [inside.ahead_of_mark]
        refine (Midway.start (c := c) inside).leaf accepts_mark fun opening _ _ _ _ h => ?_
        refine Runs.isAt ?_
        rw [if_pos (by simp [h.derives.ahead_mark_words]), pure_bind]
        exact h.leaf accepts_expect fun closing _ _ _ _ h => h.finish (by simp) (by simp)
    | arguments =>
        rw [inside.ahead_of_mark]
        refine (Midway.start (c := c) inside).leaf accepts_mark fun opening _ _ _ _ h => ?_
        refine Runs.isAt ?_
        rw [h.ahead, if_neg (by simpa using not_begins_exprs h.derives (by simp) rfl)]
        refine h.subRow (fun g later hg _ hlength => accepts_exprs hd hg ?_) fun values _ _ h => ?_
        · simp only [Forest.words, List.length_append, List.length_cons, Forest.nil_append] at hlength
          omega
        · exact h.leaf accepts_expect fun closing _ _ _ _ h => h.finish (by simp) (by simp)
    | stringArgument =>
        rw [inside.ahead_of_literal]
        exact (Midway.start (c := c) inside).leaf accepts_literal fun literal _ _ _ _ h =>
          h.finish (by simp) (by simp)
    | tableArgument =>
        rw [inside.ahead_table]
        exact (Midway.start (c := c) inside).sub
          (fun g _ hg _ hlength => accepts_table hd hg (by omega)) fun list _ _ h =>
          h.finish (by simp) (by simp)

/-- The base of a chain. -/
theorem accepts_base (hd : d.Complete size) {kind : Kind} {parts : List Symbol}
    (h : Derives parts f (Word.ahead ws)) (hsize : f.words.length ≤ size + 1)
    (hbase : kind = .expr .var ∧ parts = [.mark .name] ∨
      kind = .expr .parens ∧ parts = [.mark .lparen, .sub .expr, .mark .rparen]) :
    AcceptsOne (base d) (.node kind f .nil) ws := by
  refine accepts_node fun c => ?_
  rw [base]
  obtain ⟨rfl, rfl⟩ | ⟨rfl, rfl⟩ := hbase
  · refine Runs.peekKind h.ahead_mark_words ?_
    exact (Midway.start (c := c) h).leaf accepts_mark fun name _ _ _ _ h =>
      h.finish (by simp) (by simp)
  · refine Runs.peekKind h.ahead_mark_words ?_
    refine (Midway.start (c := c) h).leaf accepts_mark fun opening _ _ _ _ h => ?_
    refine hd.andExpr h hsize (by simp [Forest.words]) fun inside _ _ h => ?_
    exact h.leaf accepts_expect fun closing _ _ _ _ h => h.finish (by simp) (by simp)

/-- A suffix that is a field access or index. -/
theorem runs_suffix (hd : d.Complete size) {g later : Forest} {symbols : List Symbol}
    (hlater : Derives symbols later (Word.ahead ws)) (hsize : (g ++ later).words.length ≤ size + 1)
    (hsuffix : symbols = [.mark .dot, .mark .name] ∨
      symbols = [.mark .lbracket, .sub .expr, .mark .rbracket]) {c : Cursor} {node : Node}
    (hnode : g.nodes c.made c.lastEnd = [node]) :
    Runs (suffix d node) (Wrapped c (.node (.expr .var) (g ++ later) .nil) ws) c g later ws := by
  have h : Midway c ws (g ++ later) symbols [node] g later := ⟨rfl, hnode.symm, hlater⟩
  rw [suffix]
  refine Runs.peekClass ?_
  rw [h.ahead]
  obtain rfl | rfl := hsuffix
  · rw [hlater.ahead_of_mark]
    refine h.leaf accepts_mark fun mark _ _ _ _ h => ?_
    exact h.leaf accepts_expectName fun name _ _ _ _ h => h.finishSome (by simp) (by simp)
  · rw [hlater.ahead_of_mark]
    refine h.leaf accepts_mark fun opening _ _ _ _ h => ?_
    refine hd.andExpr h hsize (by simp [Forest.words]) fun key _ _ h => ?_
    exact h.leaf accepts_expect fun closing _ _ _ _ h => h.finishSome (by simp) (by simp)

/-- A suffix that is a call. -/
theorem runs_suffix_call (hd : d.Complete size) {g later : Forest} {symbols : List Symbol}
    (hlater : Derives symbols later (Word.ahead ws)) (hsize : (g ++ later).words.length ≤ size + 1)
    (hsuffix : symbols = [.sub .arguments] ∨
      symbols = [.mark .colon, .mark .name, .sub .arguments]) {c : Cursor} {node : Node}
    (hnode : g.nodes c.made c.lastEnd = [node]) :
    Runs (suffix d node) (Wrapped c (.node (.expr .call) (g ++ later) .nil) ws) c g later ws := by
  have h : Midway c ws (g ++ later) symbols [node] g later := ⟨rfl, hnode.symm, hlater⟩
  have harguments : ∀ {made done todo} {q : Node → Parser (Option Node)},
      Midway c ws (g ++ later) [.sub .arguments] made done todo →
      (∀ values done later', Midway c ws (g ++ later) [] (made ++ [values]) done later' →
        Runs (q values) (Wrapped c (.node (.expr .call) (g ++ later) .nil) ws) c done later' ws) →
      Runs (arguments d >>= q) (Wrapped c (.node (.expr .call) (g ++ later) .nil) ws) c done todo
        ws :=
    fun h hq => h.sub (fun g' _ hg' _ hlength => accepts_arguments hd hg' (by omega))
      fun values _ _ h => hq values _ _ h
  rw [suffix]
  refine Runs.peekClass ?_
  rw [h.ahead]
  obtain rfl | rfl := hsuffix
  · obtain ⟨cls, hcls, hstarts⟩ := hlater.ahead_arguments
    rw [hcls]
    have hcall : Runs (do
        let values ← arguments d
        return some (← finish (.expr .call) [node, values]))
        (Wrapped c (.node (.expr .call) (g ++ later) .nil) ws) c g later ws :=
      harguments h fun values _ _ h => h.finishSome (by simp) (by simp)
    unfold TokenClass.startsArguments at hstarts
    split at hstarts
    · exact hcall
    · exact hcall
    · exact hcall
    · simp at hstarts
  · rw [hlater.ahead_of_mark]
    refine h.leaf accepts_mark fun mark _ _ _ _ h => ?_
    refine h.leaf accepts_expectName fun name _ _ _ _ h => ?_
    exact harguments h fun values _ _ h => h.finishSome (by simp) (by simp)

/-- A chain is a node, which a production of a chain or of a variable builds. -/
theorem chain_cases {n : Nonterminal} {next : Ahead} (hn : n = .chain ∨ n = .variable)
    (h : Derives [.sub n] f next) :
    ∃ m kind parts inner, (m = .chain ∨ m = .variable) ∧ f = .node kind inner .nil ∧
      Production m (some kind) parts ∧ Derives parts inner next := by
  obtain ⟨parts, rule, inside⟩ | ⟨kind, parts, inner, rfl, rule, inside⟩ := h.phrase_cases
  · obtain rfl | rfl := hn
    · cases rule
      obtain ⟨parts, rule, inside⟩ | ⟨kind, parts, inner, rfl, rule, inside⟩ := inside.phrase_cases
      · cases rule
      · exact ⟨_, kind, parts, inner, .inr rfl, rfl, rule, inside⟩
    · cases rule
  · exact ⟨n, kind, parts, inner, hn, rfl, rule, inside⟩

/-- A name or parenthesis with some suffixes. -/
theorem grows_chain (hd : d.Complete size) {n : Nonterminal} (hn : n = .chain ∨ n = .variable)
    (h : Derives [.sub n] f (Word.ahead ws)) (hsize : f.words.length ≤ size + 1) :
    Grows (base d) (suffix d) f ws := by
  induction hlength : f.words.length using Nat.strongRecOn generalizing f ws n with
  | ind length ih =>
      subst hlength
      obtain ⟨m, kind, parts, inner, hm, rfl, rule, inside⟩ := chain_cases hn h
      simp only [Forest.words, List.append_nil] at hsize ih
      -- the chain before a suffix
      have hchain : ∀ {g later : Forest} {symbols : List Symbol}, inner = g ++ later →
          Derives [.sub .chain] g (later.ahead (Word.ahead ws)) →
          Derives symbols later (Word.ahead ws) → later.words ≠ [] →
          Grows (base d) (suffix d) g (later.words ++ ws) := by
        rintro g later symbols rfl hg hlater hne
        have hpos := List.length_pos_iff.mpr hne
        simp only [Forest.words_append, List.length_append] at hsize ih
        rw [← hlater.ahead_words] at hg
        exact ih g.words.length (by omega) (.inl rfl) hg (by omega) rfl
      cases rule with
      | parens => exact (accepts_base hd inside hsize (.inr ⟨rfl, rfl⟩)).grows
      | variableName => exact (accepts_base hd inside hsize (.inl ⟨rfl, rfl⟩)).grows
      | access =>
          obtain ⟨g, later, rfl, hg, hlater⟩ := inside.uncons_sub
          exact (hchain rfl hg hlater (hlater.words_ne_nil rfl)).wrap (hlater.words_ne_nil rfl)
            fun c node hnode => runs_suffix hd hlater hsize (.inl rfl) hnode
      | index =>
          obtain ⟨g, later, rfl, hg, hlater⟩ := inside.uncons_sub
          exact (hchain rfl hg hlater (hlater.words_ne_nil rfl)).wrap (hlater.words_ne_nil rfl)
            fun c node hnode => runs_suffix hd hlater hsize (.inr rfl) hnode
      | chainCall =>
          obtain ⟨parts, rule, inside⟩ | ⟨_, _, _, rfl, rule, -⟩ := inside.phrase_cases
          · cases rule with
            | call =>
                obtain ⟨g, later, rfl, hg, hlater⟩ := inside.uncons_sub
                have hne := hlater.words_ne_nil_of_arguments
                exact (hchain rfl hg hlater hne).wrap hne
                  fun c node hnode => runs_suffix_call hd hlater hsize (.inl rfl) hnode
            | methodCall =>
                obtain ⟨g, later, rfl, hg, hlater⟩ := inside.uncons_sub
                exact (hchain rfl hg hlater (hlater.words_ne_nil rfl)).wrap (hlater.words_ne_nil rfl)
                  fun c node hnode => runs_suffix_call hd hlater hsize (.inr rfl) hnode
          · cases rule
      | _ => simp at hm

/-- Where no suffix stands ahead, a chain ends. -/
theorem run_suffix_none (hends : EndsChain (Word.ahead ws)) (c : Cursor) (node : Node) :
    (suffix d node).run (c.facing ws) = .ok none (c.facing ws) := by
  rw [suffix]
  refine run_bind.mpr ⟨_, _, run_peekClass.mpr ⟨rfl, rfl⟩, ?_⟩
  rw [Cursor.facing_rest, upcoming_words]
  split
  all_goals
    first
      | rfl
      | (rename_i hcls; exact absurd (hends _ hcls) (by decide))

theorem accepts_suffixed (hd : d.Complete size) (h : Derives [.sub .suffixed] f (Word.ahead ws))
    (hsize : f.words.length ≤ size + 1) : AcceptsOne (suffixed d) f ws := by
  obtain ⟨parts, rule, inside⟩ | ⟨_, _, _, rfl, rule, -⟩ := h.phrase_cases
  · cases rule
    obtain ⟨g, later, rfl, hg, hlater⟩ := inside.uncons_sub
    obtain ⟨hends, hnil⟩ := hlater.parted
    obtain rfl := hnil
    rw [Forest.append_nil] at hsize ⊢
    exact (grows_chain hd (.inl rfl) hg hsize).accepts (run_suffix_none hends)
  · cases rule

/-! ### Operators -/

/-- A phrase that is called or assigned to begins with a name or parenthesis. -/
theorem begins_target {symbols : List Symbol} {next : Ahead} (h : Derives symbols f next)
    (hproper : ∀ s ∈ symbols, s.Proper)
    (hfirst : Symbol.firstIs Nonterminal.isTarget Kind.beginsTarget symbols) :
    ∃ k w, f.firstLeaf = some (.token k, w) ∧ (k = .name ∨ k = .lparen) ∧
      w.cls = .token k ∧ (f.ahead next).cls = some (.token k) := by
  obtain ⟨kind, w, hw, hkind, hleaf, -, hahead⟩ := h.begins Nonterminal.isTarget Kind.beginsTarget
    (fun rule hn => by
      unfold Nonterminal.isTarget at hn
      split at hn
      all_goals first | (cases rule <;> rfl) | simp at hn)
    (by decide) (by decide) hproper hfirst
  obtain ⟨k, rfl, hk⟩ : ∃ k, kind = .token k ∧ (k = .name ∨ k = .lparen) := by
    unfold Kind.beginsTarget at hkind
    split at hkind
    all_goals simp_all
  have hcls : w.cls = .token k := by
    cases hcls : w.cls <;> simp_all [TokenClass.leafKind?]
  exact ⟨k, w, hw, hk, hcls, hcls ▸ hahead⟩

theorem accepts_simple (hd : d.Complete size) (h : Derives [.sub .simple] f (Word.ahead ws))
    (hsize : f.words.length ≤ size + 1) : AcceptsOne (simple d) f ws := by
  refine accepts_iff_runs.mpr fun c => ?_
  rw [simple]
  refine Runs.peekClass ?_
  rw [h.ahead_words]
  obtain ⟨parts, rule, inside⟩ | ⟨kind, parts, inner, rfl, rule, inside⟩ := h.phrase_cases
  · cases rule with
    | literal k =>
        rw [inside.ahead_of_literal]
        obtain ⟨passed, w, later, rfl, hpassed, -, hw, hlater⟩ := inside.uncons_leaf
        obtain rfl := hlater.parted
        exact accepts_iff_runs.mp (accepts_literal passed w ws hpassed hw) c
    | simpleTable =>
        rw [inside.ahead_table]
        exact accepts_iff_runs.mp (accepts_table hd inside hsize) c
    | simpleSuffixed =>
        have haccepts := accepts_iff_runs.mp (accepts_suffixed hd inside hsize) c
        obtain ⟨k, w, -, hk, -, hahead⟩ := begins_target inside (by simp) rfl
        rw [hahead]
        obtain rfl | rfl := hk <;> exact haccepts
  · simp only [Forest.words, List.append_nil] at hsize
    rw [Forest.ahead]
    cases rule with
    | interpolation =>
        rw [Forest.ahead, inside.ahead_of_mark]
        exact accepts_iff_runs.mp (accepts_interpolation hd inside hsize) c
    | anonymousFunction =>
        rw [Forest.ahead, inside.ahead_of_mark]
        refine accepts_iff_runs.mp (accepts_node fun c => ?_) c
        refine (Midway.start (c := c) inside).leaf accepts_mark fun mark _ _ _ _ h => ?_
        refine h.sub (fun g _ hg _ hlength => accepts_functionBody hd hg (by omega))
          fun body _ _ h => ?_
        exact h.finish (by simp) (by simp)
    | conditional =>
        rw [Forest.ahead, inside.ahead_of_mark]
        exact accepts_iff_runs.mp (accepts_conditional hd inside hsize) c

/-- The operand before the first binary operator. -/
def firstOperand (d : Descent) : Parser Node := do
  if ((← peekKind).map TokenKind.isUnary).getD false then unary d else simple d

theorem operand_eq (d : Descent) (limit : Nat) :
    operand d limit = firstOperand d >>= chain (binary d limit) := by
  simp only [operand, firstOperand, bind_assoc]
  congr
  funext k
  split <;> rfl

/-- A unary operator as a leaf. -/
def isUnaryMark : Kind → Bool
  | .token k => k.isUnary
  | _ => false

/-- A simple expression does not begin with a unary operator. -/
theorem not_unary_of_simple {next : Ahead} (h : Derives [.sub .simple] f next) {k : TokenKind}
    (hahead : (f.ahead next).cls = some (.token k)) : k.isUnary = false := by
  obtain ⟨kind, w, -, hkind, hleaf, -, hcls⟩ := h.begins
    (fun n => n = .simple ∨ n = .suffixed ∨ n = .callParts ∨ n = .chain ∨ n = .variable ∨ n = .table)
    (fun kind => kind.beginsExpr && !isUnaryMark kind)
    (fun {n kind parts} rule hn => by
      simp only [decide_eq_true_eq] at hn
      rcases hn with rfl | rfl | rfl | rfl | rfl | rfl <;> cases rule <;> rfl)
    (by decide) (by decide) (by simp) (by simp [Symbol.firstIs])
  rw [hahead, Option.some.injEq] at hcls
  rw [← hcls] at hleaf
  obtain rfl : kind = .token k := by simpa [TokenClass.leafKind?, eq_comm] using hleaf
  simp only [Bool.and_eq_true, Bool.not_eq_true'] at hkind
  exact hkind.2

/-- The operands of binary operators, and the operators between them. -/
theorem grows_climb (hd : d.Complete size) {limit : Nat}
    (h : Derives [.sub (.climb limit)] f (Word.ahead ws)) (hsize : f.words.length ≤ size + 1) :
    Grows (firstOperand d) (binary d limit) f ws := by
  induction hlength : f.words.length using Nat.strongRecOn generalizing f ws with
  | ind length ih =>
      subst hlength
      obtain ⟨parts, rule, inside⟩ | ⟨kind, parts, inner, rfl, rule, inside⟩ := h.phrase_cases
      · cases rule
        refine Accepts.grows (accepts_iff_runs.mpr fun c => ?_)
        have hunary : ((kind? (Cursor.upcoming 0 ((f.words ++ ws).map Word.toToken))).map
            TokenKind.isUnary).getD false = false := by
          cases hk : kind? (Cursor.upcoming 0 ((f.words ++ ws).map Word.toToken)) with
          | none => rfl
          | some k =>
              rw [kind?_eq_some, upcoming_words, inside.ahead_words] at hk
              exact not_unary_of_simple inside hk
        rw [firstOperand]
        refine Runs.bind (run_peekKind.mpr ⟨rfl, rfl⟩) ?_
        rw [Cursor.facing_rest, hunary, if_neg (by simp)]
        exact accepts_iff_runs.mp (accepts_simple hd inside hsize) c
      · simp only [Forest.words, List.append_nil] at hsize ih
        cases rule with
        | unary limit op unary =>
            refine Accepts.grows (accepts_node fun c => ?_)
            rw [firstOperand]
            refine Runs.peekKind inside.ahead_mark_words ?_
            rw [if_pos (by simpa using unary)]
            refine (Midway.start (c := c) inside).leaf accepts_mark fun mark _ _ _ _ h => ?_
            refine hd.andOperand h hsize (by simp [Forest.words]) fun value _ _ h => ?_
            exact h.finish (by simp) (by simp)
        | binary limit op left right powers tighter =>
            obtain ⟨g, later, rfl, hg, hlater⟩ := inside.uncons_sub
            have hne := hlater.words_ne_nil rfl
            have hpos := List.length_pos_iff.mpr hne
            simp only [Forest.words_append, List.length_append] at hsize ih
            rw [← hlater.ahead_words] at hg
            refine (ih g.words.length (by omega) hg (by omega) rfl).wrap hne fun c node hnode => ?_
            have h : Midway c ws (g ++ later) _ [node] g later := ⟨rfl, hnode.symm, hlater⟩
            rw [binary]
            refine Runs.peekKind hlater.ahead_mark_words ?_
            simp only [Option.bind_some, powers]
            rw [if_neg (by omega)]
            refine h.leaf accepts_mark fun mark _ _ _ _ h => ?_
            refine hd.andOperand h (by simpa using hsize) (by simp [Forest.words]) fun value _ _ h => ?_
            exact h.finishSome (by simp) (by simp)

/-- Where no operator that binds tighter than the limit stands ahead, an operand
ends. -/
theorem run_binary_none {limit : Nat} (hends : EndsOperand limit (Word.ahead ws)) (c : Cursor)
    (node : Node) : (binary d limit node).run (c.facing ws) = .ok none (c.facing ws) := by
  rw [binary]
  refine run_bind.mpr ⟨_, _, run_peekKind.mpr ⟨rfl, rfl⟩, ?_⟩
  split
  · rfl
  · rename_i left right hsome
    obtain ⟨op, hop, hpowers⟩ := Option.bind_eq_some_iff.mp hsome
    rw [Cursor.facing_rest, kind?_eq_some, upcoming_words] at hop
    rw [if_pos (hends op left right hop hpowers)]
    rfl

theorem accepts_operand (hd : d.Complete size) (limit : Nat)
    (h : Derives [.sub (.operand limit)] f (Word.ahead ws)) (hsize : f.words.length ≤ size + 1) :
    AcceptsOne (operand d limit) f ws := by
  obtain ⟨parts, rule, inside⟩ | ⟨_, _, _, rfl, rule, -⟩ := h.phrase_cases
  · cases rule
    obtain ⟨g, later, rfl, hg, hlater⟩ := inside.uncons_sub
    obtain ⟨hends, hnil⟩ := hlater.parted
    obtain rfl := hnil
    rw [Forest.append_nil] at hsize ⊢
    rw [operand_eq]
    exact (grows_climb hd hg hsize).accepts (run_binary_none hends)
  · cases rule

end Grammar

end LuauTidy
