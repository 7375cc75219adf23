import LuauTidy.Proofs.Reading

/-!
# What the parser accepts

Where a row that matches the grammar stands ahead, its production takes the
words of the row and makes its nodes.  A run is followed from left to right:
part of the row is done and has made its nodes, and the rest still matches
what the production asks for.

* `Accepts` — a parser that takes the words of a row;
* `Runs`, `Midway` — a run in the middle of a row, and how far it is;
* `Midway.leaf`, `Midway.sub`, `Midway.look`, `Midway.finish` — its steps;
* `accepts_many` — repetition.
-/

namespace LuauTidy

open LuauTidy.Parser

variable {α β : Type}

/-- Before the words of a row, the parser takes them and its result stands for
the nodes of the row. -/
def Accepts (nodes : α → List Node) (p : Parser α) (f : Forest) (ws : List Word) : Prop :=
  ∀ c : Cursor, ∃ a, p.run (c.facing (f.words ++ ws)) = .ok a ((c.pass f).facing ws) ∧
    nodes a = f.nodes c.made c.lastEnd

/-- A parser of a single node that accepts a row. -/
abbrev AcceptsOne (p : Parser Node) (f : Forest) (ws : List Word) : Prop :=
  Accepts (fun a => [a]) p f ws

/-- A parser of a row of nodes that accepts a row. -/
abbrev AcceptsRow (p : Parser (List Node)) (f : Forest) (ws : List Word) : Prop :=
  Accepts (fun a => a) p f ws

/-- A run from the middle of a row ends as it should. -/
def Runs (p : Parser α) (Q : α → Cursor → Prop) (c : Cursor) (done todo : Forest)
    (ws : List Word) : Prop :=
  ∃ a c', p.run ((c.pass done).facing (todo.words ++ ws)) = .ok a c' ∧ Q a c'

/-- The end of a run over a whole row. -/
def Passed (nodes : α → List Node) (c : Cursor) (whole : Forest) (ws : List Word) (a : α)
    (c' : Cursor) : Prop :=
  c' = (c.pass whole).facing ws ∧ nodes a = whole.nodes c.made c.lastEnd

theorem accepts_iff_runs {nodes : α → List Node} {p : Parser α} {f : Forest} {ws : List Word} :
    Accepts nodes p f ws ↔ ∀ c, Runs p (Passed nodes c f ws) c .nil f ws := by
  simp only [Accepts, Runs, Passed, Cursor.pass_nil]
  constructor
  · intro h c
    obtain ⟨a, hrun, hnodes⟩ := h c
    exact ⟨a, _, hrun, rfl, hnodes⟩
  · intro h c
    obtain ⟨a, _, hrun, rfl, hnodes⟩ := h c
    exact ⟨a, hrun, hnodes⟩

namespace Runs

variable {p : Parser α} {q : α → Parser β} {Q : β → Cursor → Prop} {c : Cursor}
  {done todo : Forest} {ws : List Word}

/-- A run goes on behind its first part. -/
theorem bind {a : α} {c₁ : Cursor}
    (hp : p.run ((c.pass done).facing (todo.words ++ ws)) = .ok a c₁)
    (hq : ∃ b c', (q a).run c₁ = .ok b c' ∧ Q b c') : Runs (p >>= q) Q c done todo ws := by
  obtain ⟨b, c', hrun, hQ⟩ := hq
  exact ⟨b, c', run_bind.mpr ⟨a, c₁, hp, hrun⟩, hQ⟩

theorem pure {b : β} (h : Q b ((c.pass done).facing (todo.words ++ ws))) :
    Runs (Pure.pure b) Q c done todo ws :=
  ⟨b, _, rfl, h⟩

/-- A look at the kind of the next token. -/
theorem isAt {k : TokenKind} {q : Bool → Parser β}
    (h : Runs (q (decide ((Word.ahead (todo.words ++ ws)).cls = some (.token k)))) Q c done todo ws) :
    Runs (Parser.isAt k >>= q) Q c done todo ws :=
  bind (run_isAt.mpr ⟨rfl, rfl⟩) h

/-- A look at the next token. -/
theorem peekClass {q : Option TokenClass → Parser β}
    (h : Runs (q (Word.ahead (todo.words ++ ws)).cls) Q c done todo ws) :
    Runs (Parser.peekClass >>= q) Q c done todo ws :=
  bind (run_peekClass.mpr ⟨(upcoming_words _).symm, rfl⟩) h

/-- A look at the kind of the next token, where it is known. -/
theorem peekKind {q : Option TokenKind → Parser β} {k : TokenKind}
    (hk : (Word.ahead (todo.words ++ ws)).cls = some (.token k))
    (h : Runs (q (some k)) Q c done todo ws) : Runs (Parser.peekKind >>= q) Q c done todo ws := by
  refine bind (run_peekKind.mpr ⟨?_, rfl⟩) h
  rw [Cursor.facing_rest, eq_comm, kind?_eq_some, upcoming_words, hk]

/-- A look at a token further ahead. -/
theorem nth {m : Nat} {q : Option Token → Parser β}
    (h : Runs (q (Cursor.upcoming m ((todo.words ++ ws).map Word.toToken))) Q c done todo ws) :
    Runs (Parser.nth m >>= q) Q c done todo ws :=
  bind (run_nth.mpr ⟨rfl, rfl⟩) h

/-- A look at the token right ahead. -/
theorem isRightAt {k : TokenKind} {q : Bool → Parser β}
    (h : Runs (q (kind? ((todo.words ++ ws).map Word.toToken).head? == some k)) Q c done todo ws) :
    Runs (Parser.isRightAt k >>= q) Q c done todo ws :=
  bind (run_bind.mpr ⟨_, _, run_get.mpr ⟨rfl, rfl⟩, rfl⟩) h

end Runs

/-- A token of a kind stands right ahead. -/
theorem Word.kind?_head {ws : List Word} {k : TokenKind} :
    kind? (ws.map Word.toToken).head? = some k ↔
      (Word.ahead ws).cls = some (.token k) ∧ EndsComments (Word.ahead ws) := by
  cases ws with
  | nil => simp [kind?, Word.ahead]
  | cons w ws =>
      rw [kind?_eq_some]
      cases hw : w.isComment with
      | true =>
          have hcls : w.cls = .comment := by simpa [Token.isComment] using hw
          simp [Word.ahead, hw, hcls, EndsComments]
      | false => simp [Word.ahead, hw, EndsComments]

/-! ### Runs through a row -/

/-- The middle of a row: some of it is done and has made its nodes, and the
rest is still to do and matches what is asked for. -/
structure Midway (c : Cursor) (ws : List Word) (whole : Forest) (symbols : List Symbol)
    (made : List Node) (done todo : Forest) : Prop where
  whole_eq : whole = done ++ todo
  made_eq : made = done.nodes c.made c.lastEnd
  derives : Derives symbols todo (Word.ahead ws)

namespace Derives

variable {symbols : List Symbol} {kind : Kind} {fits : Token → Prop} {f : Forest} {next : Ahead}

/-- A row that begins with a leaf. -/
theorem uncons_leaf (h : Derives (.leaf kind fits :: symbols) f next) :
    ∃ passed w later, f = .leaf kind passed w later ∧ (∀ p ∈ passed, p.isComment) ∧
      (w.isComment → passed = []) ∧ fits w.toToken ∧ Derives symbols later next := by
  cases h with
  | leaf comments right fitting tail => exact ⟨_, _, _, rfl, comments, right, fitting, tail⟩

/-- A row that begins with a token without a leaf. -/
theorem uncons_skip {k : TokenKind} (h : Derives (.skip k :: symbols) f next) :
    ∃ passed w later, f = .skipped passed w later ∧ (∀ p ∈ passed, p.isComment) ∧
      w.cls = .token k ∧ Derives symbols later next := by
  cases h with
  | skip comments fitting tail => exact ⟨_, _, _, rfl, comments, fitting, tail⟩

/-- A row that begins with a glance. -/
theorem uncons_look {fits : Ahead → Prop} (h : Derives (.look fits :: symbols) f next) :
    fits (f.ahead next) ∧ Derives symbols f next := by
  cases h with
  | look fitting tail => exact ⟨fitting, tail⟩

/-- A row that begins with a phrase. -/
theorem uncons_sub {n : Nonterminal} (h : Derives (.sub n :: symbols) f next) :
    ∃ g later, f = g ++ later ∧ Derives [.sub n] g (later.ahead next) ∧
      Derives symbols later next := by
  cases h with
  | flat rule inside tail => exact ⟨_, _, rfl, .ofFlat rule inside, tail⟩
  | node rule inside tail => exact ⟨.node _ _ .nil, _, rfl, .ofNode rule inside, tail⟩

/-- What stands ahead of a row that begins with a token. -/
theorem ahead_of_mark {k : TokenKind} (h : Derives (.mark k :: symbols) f next) :
    (f.ahead next).cls = some (.token k) := by
  obtain ⟨passed, w, later, rfl, -, -, hw, -⟩ := h.uncons_leaf
  have hcls : w.cls = .token k := hw
  simp [Forest.ahead, Token.isComment, hcls]

/-- What stands ahead of a row that begins with a literal. -/
theorem ahead_of_literal {k : ExprKind} (h : Derives (.literal k :: symbols) f next) :
    (f.ahead next).cls = some (.literal k) := by
  obtain ⟨passed, w, later, rfl, -, -, hw, -⟩ := h.uncons_leaf
  have hcls : w.cls = .literal k := hw
  simp [Forest.ahead, Token.isComment, hcls]

end Derives

namespace Midway

variable {c : Cursor} {ws : List Word} {whole done todo : Forest} {symbols : List Symbol}
  {made : List Node} {Q : β → Cursor → Prop}

theorem start {c : Cursor} {f : Forest} {ws : List Word} {symbols : List Symbol}
    (h : Derives symbols f (Word.ahead ws)) : Midway c ws f symbols [] .nil f :=
  ⟨rfl, rfl, h⟩

/-- The next phrase of a row. -/
theorem phrase {n : Nonterminal} (h : Midway c ws whole (.sub n :: symbols) made done todo)
    {nodes : α → List Node} {p : Parser α} {q : α → Parser β}
    (hp : ∀ g later, Derives [.sub n] g (Word.ahead (later.words ++ ws)) →
      Derives symbols later (Word.ahead ws) →
      done.words.length + g.words.length + later.words.length = whole.words.length →
      Accepts nodes p g (later.words ++ ws))
    (hq : ∀ a g later, Midway c ws whole symbols (made ++ nodes a) (done ++ g) later →
      Runs (q a) Q c (done ++ g) later ws) :
    Runs (p >>= q) Q c done todo ws := by
  obtain ⟨rfl, rfl, hderives⟩ := h
  obtain ⟨g, later, rfl, hg, hlater⟩ := hderives.uncons_sub
  rw [← hlater.ahead_words] at hg
  obtain ⟨a, hrun, hnodes⟩ := hp g later hg hlater (by simp [Nat.add_assoc]) (c.pass done)
  have hrun : p.run ((c.pass done).facing ((g ++ later).words ++ ws)) =
      .ok a ((c.pass (done ++ g)).facing (later.words ++ ws)) := by
    simpa using hrun
  exact Runs.bind hrun (hq a g later ⟨by simp, by simp [hnodes], hlater⟩)

/-- The next phrase of a row, which has one node. -/
theorem sub {n : Nonterminal} (h : Midway c ws whole (.sub n :: symbols) made done todo)
    {p : Parser Node} {q : Node → Parser β}
    (hp : ∀ g later, Derives [.sub n] g (Word.ahead (later.words ++ ws)) →
      Derives symbols later (Word.ahead ws) →
      done.words.length + g.words.length + later.words.length = whole.words.length →
      AcceptsOne p g (later.words ++ ws))
    (hq : ∀ node g later, Midway c ws whole symbols (made ++ [node]) (done ++ g) later →
      Runs (q node) Q c (done ++ g) later ws) :
    Runs (p >>= q) Q c done todo ws :=
  h.phrase hp hq

/-- The next phrase of a row, which has a row of nodes. -/
theorem subRow {n : Nonterminal} (h : Midway c ws whole (.sub n :: symbols) made done todo)
    {p : Parser (List Node)} {q : List Node → Parser β}
    (hp : ∀ g later, Derives [.sub n] g (Word.ahead (later.words ++ ws)) →
      Derives symbols later (Word.ahead ws) →
      done.words.length + g.words.length + later.words.length = whole.words.length →
      AcceptsRow p g (later.words ++ ws))
    (hq : ∀ nodes g later, Midway c ws whole symbols (made ++ nodes) (done ++ g) later →
      Runs (q nodes) Q c (done ++ g) later ws) :
    Runs (p >>= q) Q c done todo ws :=
  h.phrase hp hq

/-- The next leaf of a row. -/
theorem leaf {kind : Kind} {fits : Token → Prop}
    (h : Midway c ws whole (.leaf kind fits :: symbols) made done todo) {p : Parser Node}
    {q : Node → Parser β}
    (hp : ∀ passed w ws', (∀ p ∈ passed, p.isComment) → fits w.toToken →
      AcceptsOne p (.leaf kind passed w .nil) ws')
    (hq : ∀ node passed w later, fits w.toToken →
      Midway c ws whole symbols (made ++ [node]) (done ++ .leaf kind passed w .nil) later →
      Runs (q node) Q c (done ++ .leaf kind passed w .nil) later ws) :
    Runs (p >>= q) Q c done todo ws := by
  obtain ⟨rfl, rfl, hderives⟩ := h
  obtain ⟨passed, w, later, rfl, hpassed, -, hw, hlater⟩ := hderives.uncons_leaf
  obtain ⟨node, hrun, hnodes⟩ := hp passed w (later.words ++ ws) hpassed hw (c.pass done)
  have hrun : p.run ((c.pass done).facing ((Forest.leaf kind passed w later).words ++ ws)) =
      .ok node ((c.pass (done ++ .leaf kind passed w .nil)).facing (later.words ++ ws)) := by
    simpa [Forest.words] using hrun
  exact Runs.bind hrun (hq node passed w later hw ⟨by simp, by simp [hnodes], hlater⟩)

/-- A phrase without a node is what its production asks for. -/
theorem unfold {n : Nonterminal} (h : Midway c ws whole (.sub n :: symbols) made done todo) :
    (∃ parts, Production n none parts ∧ Midway c ws whole (parts ++ symbols) made done todo) ∨
      ∃ kind parts, Production n (some kind) parts := by
  obtain ⟨hwhole, hmade, hderives⟩ := h
  cases hderives with
  | flat rule inside tail => exact .inl ⟨_, rule, hwhole, hmade, inside.append tail⟩
  | node rule => exact .inr ⟨_, _, rule⟩

/-- A glance changes nothing. -/
theorem look {fits : Ahead → Prop} (h : Midway c ws whole (.look fits :: symbols) made done todo) :
    fits (Word.ahead (todo.words ++ ws)) ∧ Midway c ws whole symbols made done todo := by
  obtain ⟨hwhole, hmade, hderives⟩ := h
  obtain ⟨hfits, htail⟩ := hderives.uncons_look
  rw [htail.ahead_words]
  exact ⟨hfits, hwhole, hmade, htail⟩

/-- What stands ahead. -/
theorem ahead (h : Midway c ws whole symbols made done todo) :
    Word.ahead (todo.words ++ ws) = todo.ahead (Word.ahead ws) :=
  h.derives.ahead_words ws

/-- At the end of a row, what stands behind it is ahead. -/
theorem ahead_last (h : Midway c ws whole [] made done todo) :
    Word.ahead (todo.words ++ ws) = Word.ahead ws := by
  rw [h.ahead, h.derives.parted]
  rfl

/-- The end of a row. -/
theorem last (h : Midway c ws whole [] made done todo) :
    todo = .nil ∧ whole = done ∧ made = whole.nodes c.made c.lastEnd := by
  obtain ⟨rfl, rfl, hderives⟩ := h
  cases hderives
  simp

/-- A run ends with the nodes of the row. -/
theorem pure {nodes : α → List Node} {a : α} (h : Midway c ws whole [] made done todo)
    (ha : nodes a = made) : Runs (Pure.pure a) (Passed nodes c whole ws) c done todo ws := by
  obtain ⟨rfl, rfl, hmade⟩ := h.last
  exact Runs.pure ⟨by simp [Forest.words], ha.trans hmade⟩

/-- A run ends with the node around the row. -/
theorem finishAt (h : Midway c ws whole [] made done todo) {kind : Kind} {position : Nat}
    (hposition : position = Forest.emptyPlace kind c.lastEnd) {nodes : List Node}
    (hnodes : nodes = made) :
    Runs (Parser.finishAt position kind nodes)
      (Passed (fun a => [a]) c (.node kind whole .nil) ws) c done todo ws := by
  obtain ⟨rfl, rfl, rfl⟩ := h.last
  subst hnodes hposition
  refine ⟨_, _, rfl, ?_, ?_⟩
  · simp [Cursor.pass, Cursor.facing, Forest.words, Forest.endFrom, Forest.strays, Forest.count,
      Nat.add_assoc]
  · simp [Forest.nodes, Node.around, Cursor.pass, Cursor.facing, Forest.words]

/-- A run ends with the node around the row, if it is no block. -/
theorem finish (h : Midway c ws whole [] made done todo) {kind : Kind} {nodes : List Node}
    (hnodes : nodes = made) (hkind : kind ≠ .aux .block) :
    Runs (Parser.finish kind nodes) (Passed (fun a => [a]) c (.node kind whole .nil) ws)
      c done todo ws :=
  h.finishAt (by simp [Forest.emptyPlace, hkind]) hnodes

/-- A part of a row ends with the node around it, and the run goes on. -/
theorem finishThen {later : Forest} (h : Midway c (later.words ++ ws) whole [] made done todo)
    {kind : Kind} {nodes : List Node} (hnodes : nodes = made) (hkind : kind ≠ .aux .block)
    {q : Node → Parser β}
    (hq : ∀ node, (Forest.node kind whole .nil).nodes c.made c.lastEnd = [node] →
      Runs (q node) Q c (.node kind whole .nil) later ws) :
    Runs (Parser.finish kind nodes >>= q) Q c done todo (later.words ++ ws) := by
  obtain ⟨node, c', hrun, rfl, hnode⟩ :=
    h.finish hnodes hkind
  obtain ⟨b, c'', hrun', hQ⟩ := hq node hnode.symm
  refine ⟨b, c'', run_bind.mpr ⟨node, _, hrun, ?_⟩, hQ⟩
  simpa using hrun'

end Midway

/-- A row with a node around it is accepted if the run over what it holds is. -/
theorem accepts_node {p : Parser Node} {kind : Kind} {inner : Forest} {ws : List Word}
    (h : ∀ c, Runs p (Passed (fun a => [a]) c (.node kind inner .nil) ws) c .nil inner ws) :
    AcceptsOne p (.node kind inner .nil) ws := by
  refine accepts_iff_runs.mpr fun c => ?_
  simpa [Runs, Forest.words] using h c

/-! ### Tokens -/

section Tokens

variable {passed : List Word} {w : Word} {ws : List Word}

theorem run_advance_word (hpassed : ∀ p ∈ passed, p.isComment) (hw : w.isComment = false)
    (c : Cursor) :
    advance.run (c.facing (passed ++ w :: ws)) =
      .ok w.toToken ((c.pass (.skipped passed w .nil)).facing ws) := by
  have htake : (passed ++ w :: ws).takeWhile (·.isComment) = passed := by
    rw [List.takeWhile_append_of_pos hpassed, List.takeWhile_cons_of_neg (by simp [hw]),
      List.append_nil]
  have hdrop : (passed ++ w :: ws).dropWhile (·.isComment) = w :: ws := by
    rw [List.dropWhile_append_of_pos hpassed, List.dropWhile_cons_of_neg (by simp [hw])]
  refine run_bind.mpr ⟨c.facing (passed ++ w :: ws), _, rfl, ?_⟩
  rw [Cursor.facing_rest, Reading.span_comments, htake, hdrop]
  simp only [List.map_cons]
  refine run_bind.mpr ⟨_, _, rfl, ?_⟩
  simp [Cursor.pass, Cursor.facing, Forest.endFrom, Forest.strays, Forest.count,
    EStateM.run, EStateM.pure, Pure.pure]

/-- A token taken as a leaf of a kind. -/
theorem accepts_leaf (hpassed : ∀ p ∈ passed, p.isComment) (hw : w.isComment = false)
    {kind : Kind} {p : Token → Parser Node} (hp : p w.toToken = Parser.leaf kind w.toToken) :
    AcceptsOne (advance >>= p) (.leaf kind passed w .nil) ws := by
  intro c
  refine ⟨⟨c.made, kind, w.start, w.stop, []⟩, ?_, rfl⟩
  have hwords : (Forest.leaf kind passed w .nil).words ++ ws = passed ++ w :: ws := by
    simp [Forest.words]
  rw [hwords]
  refine run_bind.mpr ⟨_, _, run_advance_word hpassed hw c, ?_⟩
  rw [hp]
  simp [Parser.leaf, Parser.make, Cursor.pass, Cursor.facing, Forest.endFrom, Forest.strays,
    Forest.count, hw, EStateM.run, EStateM.bind, EStateM.get, EStateM.set, EStateM.pure, bind, get,
    getThe, MonadStateOf.get, set, MonadStateOf.set, Pure.pure]

theorem accepts_bump {cls : TokenClass} {kind : Kind} (hkind : cls.leafKind? = some kind)
    (passed : List Word) (w : Word) (ws : List Word) (hpassed : ∀ p ∈ passed, p.isComment)
    (hw : w.cls = cls) : AcceptsOne bump (.leaf kind passed w .nil) ws := by
  subst hw
  have hcomment : w.isComment = false := by
    cases h : w.cls <;> simp_all [Token.isComment, TokenClass.leafKind?]
  refine accepts_leaf hpassed hcomment ?_
  cases h : w.cls <;> simp_all [TokenClass.leafKind?]

/-- The next token, which is of a kind. -/
theorem accepts_mark {k : TokenKind} (passed : List Word) (w : Word) (ws : List Word)
    (hpassed : ∀ p ∈ passed, p.isComment) (hw : w.cls = .token k) :
    AcceptsOne bump (.leaf (.token k) passed w .nil) ws :=
  accepts_bump rfl passed w ws hpassed hw

/-- The next token, which is a literal. -/
theorem accepts_literal {k : ExprKind} (passed : List Word) (w : Word) (ws : List Word)
    (hpassed : ∀ p ∈ passed, p.isComment) (hw : w.cls = .literal k) :
    AcceptsOne bump (.leaf (.expr k) passed w .nil) ws :=
  accepts_bump rfl passed w ws hpassed hw

/-- A step of which the look at the next token is known to succeed. -/
theorem Accepts.ofIsAt {k : TokenKind} {p q : Parser Node} {f : Forest}
    (hahead : (Word.ahead (f.words ++ ws)).cls = some (.token k)) (hp : AcceptsOne p f ws) :
    AcceptsOne (do if ← Parser.isAt k then p else q) f ws := by
  refine accepts_iff_runs.mpr fun c => Runs.isAt ?_
  rw [hahead, if_pos (by simp)]
  exact accepts_iff_runs.mp hp c

/-- A step of which the kind of the next token tells what it does. -/
theorem Accepts.ofPeekKind {k : TokenKind} {q : Option TokenKind → Parser Node} {f : Forest}
    (hahead : (Word.ahead (f.words ++ ws)).cls = some (.token k))
    (hf : AcceptsOne (q (some k)) f ws) : AcceptsOne (Parser.peekKind >>= q) f ws :=
  accepts_iff_runs.mpr fun c => Runs.peekKind hahead (accepts_iff_runs.mp hf c)

theorem ahead_leaf (hpassed : ∀ p ∈ passed, p.isComment) {k : TokenKind} (hw : w.cls = .token k)
    (kind : Kind) (ws : List Word) :
    (Word.ahead ((Forest.leaf kind passed w .nil).words ++ ws)).cls = some (.token k) := by
  simp [Forest.words, Word.ahead_comments hpassed, Word.ahead, Token.isComment, hw]

theorem accepts_expect {k : TokenKind} (passed : List Word) (w : Word) (ws : List Word)
    (hpassed : ∀ p ∈ passed, p.isComment) (hw : w.cls = .token k) :
    AcceptsOne (expect k) (.leaf (.token k) passed w .nil) ws :=
  .ofIsAt (ahead_leaf hpassed hw _ ws) (accepts_mark passed w ws hpassed hw)

theorem accepts_expectName (passed : List Word) (w : Word) (ws : List Word)
    (hpassed : ∀ p ∈ passed, p.isComment) (hw : w.cls = .token .name) :
    AcceptsOne expectName (.leaf (.token .name) passed w .nil) ws :=
  .ofIsAt (ahead_leaf hpassed hw _ ws) (accepts_mark passed w ws hpassed hw)

end Tokens

namespace Midway

variable {c : Cursor} {ws : List Word} {whole done todo : Forest} {symbols : List Symbol}
  {made : List Node} {Q : β → Cursor → Prop}

/-- The next token, taken since it is of a kind. -/
theorem eat {k : TokenKind} (h : Midway c ws whole (.mark k :: symbols) made done todo)
    {q : Option Node → Parser β}
    (hq : ∀ node passed w later, Midway c ws whole symbols (made ++ [node])
      (done ++ .leaf (.token k) passed w .nil) later →
      Runs (q (some node)) Q c (done ++ .leaf (.token k) passed w .nil) later ws) :
    Runs (Parser.eat k >>= q) Q c done todo ws := by
  have hahead : (Word.ahead (todo.words ++ ws)).cls = some (.token k) := by
    rw [h.ahead]
    exact h.derives.ahead_of_mark
  rw [Parser.eat, bind_assoc]
  refine Runs.isAt ?_
  rw [hahead, if_pos (by simp), bind_assoc]
  simp only [pure_bind]
  exact h.leaf accepts_mark fun node passed w later _ h' => hq node passed w later h'

end Midway

/-- The next token, not taken since it is not of a kind. -/
theorem Runs.eat_none {k : TokenKind} {q : Option Node → Parser β} {Q : β → Cursor → Prop}
    {c : Cursor} {done todo : Forest} {ws : List Word}
    (hahead : LacksToken k (Word.ahead (todo.words ++ ws)))
    (h : Runs (q none) Q c done todo ws) : Runs (Parser.eat k >>= q) Q c done todo ws := by
  rw [Parser.eat, bind_assoc]
  refine Runs.isAt ?_
  rw [if_neg (by simpa [LacksToken] using hahead), pure_bind]
  exact h

/-! ### Comments -/

/-- A row of comments. -/
def Forest.ofComments : List Word → Forest
  | [] => .nil
  | w :: ws => .leaf (.stmt .comment) [] w (ofComments ws)

@[simp] theorem Forest.words_ofComments (ws : List Word) : (Forest.ofComments ws).words = ws := by
  induction ws with
  | nil => rfl
  | cons w ws ih => simp [ofComments, words, ih]

/-- Comments as a phrase: a row of all comments that stand there. -/
theorem derives_comments {f : Forest} {next : Ahead} :
    Derives [.sub .comments] f next ↔
      ∃ ws, f = .ofComments ws ∧ (∀ w ∈ ws, w.cls = .comment) ∧ EndsComments next := by
  constructor
  · intro h
    refine h.phrase_induction (M := fun n f next => n = .comments →
      ∃ ws, f = .ofComments ws ∧ (∀ w ∈ ws, w.cls = .comment) ∧ EndsComments next) ?_ ?_ rfl
    · rintro n parts f next rule - holds rfl
      cases rule with
      | noComments =>
          obtain ⟨hends, rfl⟩ := holds
          exact ⟨[], rfl, by simp, hends⟩
      | comments =>
          obtain ⟨passed, w, later, rfl, -, hright, hw, g, _, rfl, -, ih, rfl⟩ := holds
          have hw : w.cls = .comment := hw
          obtain ⟨ws, rfl, hws, hends⟩ := ih rfl
          obtain rfl := hright (by simp [Token.isComment, hw])
          exact ⟨w :: ws, by simp [Forest.ofComments], by simpa [hw] using hws, hends⟩
    · rintro n kind parts f next rule - - rfl
      cases rule
  · rintro ⟨ws, rfl, hws, hends⟩
    induction ws with
    | nil => exact .ofFlat .noComments (.look hends (.nil next))
    | cons w ws ih =>
        simp only [List.mem_cons, forall_eq_or_imp] at hws
        refine .ofFlat .comments (.leaf (by simp) (fun _ => rfl) hws.1 ?_)
        exact ih hws.2

/-- The next token stands behind the comments. -/
theorem Derives.ahead_comments {f : Forest} {next : Ahead} (h : Derives [.sub .comments] f next) :
    (f.ahead next).cls = next.cls := by
  obtain ⟨ws, rfl, hws, -⟩ := derives_comments.mp h
  induction ws with
  | nil => rfl
  | cons w ws ih =>
      simp only [List.mem_cons, forall_eq_or_imp] at hws
      simp only [Forest.ofComments, Forest.ahead, Token.isComment, hws.1]
      exact ih (derives_comments.mpr ⟨ws, rfl, hws.2, (derives_comments.mp h).choose_spec.2.2⟩) hws.2

theorem accepts_comments {f : Forest} {ws : List Word}
    (h : Derives [.sub .comments] f (Word.ahead ws)) : AcceptsRow comments f ws := by
  obtain ⟨here, rfl, hhere, hends⟩ := derives_comments.mp h
  have hcomment : ∀ w ∈ here, w.isComment = true := fun w hw => by simp [Token.isComment, hhere w hw]
  have hrest : ∀ w ∈ ws.head?, w.isComment = false := Word.ahead_comment_eq_false.mp hends
  have htake : (here ++ ws).takeWhile (·.isComment) = here := by
    rw [List.takeWhile_append_of_pos hcomment]
    cases ws with
    | nil => simp
    | cons w ws => simp [hrest w (by simp)]
  have hdrop : (here ++ ws).dropWhile (·.isComment) = ws := by
    rw [List.dropWhile_append_of_pos hcomment]
    cases ws with
    | nil => simp
    | cons w ws => simp [hrest w (by simp)]
  intro c
  refine ⟨_, ?_, rfl⟩
  rw [Forest.words_ofComments]
  refine run_bind.mpr ⟨c.facing (here ++ ws), _, rfl, ?_⟩
  rw [Cursor.facing_rest, Reading.span_comments, htake, hdrop]
  refine run_bind.mpr ⟨_, c.facing ws, rfl, ?_⟩
  clear htake hdrop h hends hhere
  induction here generalizing c with
  | nil => simp [Forest.ofComments, Forest.nodes, EStateM.run, EStateM.pure, Pure.pure]
  | cons w here ih =>
      simp only [List.mem_cons, forall_eq_or_imp] at hcomment
      have hc : { c.facing ws with made := (c.facing ws).made + 1 } =
          (c.pass (.leaf (.stmt .comment) [] w .nil)).facing ws := by
        simp [Cursor.pass, Cursor.facing, Forest.endFrom, Forest.strays, Forest.count, hcomment.1]
      have hlater := ih hcomment.2 (c.pass (.leaf (.stmt .comment) [] w .nil))
      rw [← hc] at hlater
      simp only [List.map_cons, List.mapM_cons]
      refine run_bind.mpr ⟨_, _, rfl, run_bind.mpr ⟨_, _, hlater, ?_⟩⟩
      rw [Cursor.pass_pass]
      rfl

/-! ### Repetition -/

/-- The end of a step over a row, and whether it goes on. -/
def Stepped (more : Bool) (c : Cursor) (whole : Forest) (ws : List Word)
    (a : List Node × Bool) (c' : Cursor) : Prop :=
  c' = (c.pass whole).facing ws ∧ a = (whole.nodes c.made c.lastEnd, more)

/-- A step that is repeated over a row: it takes all of it and declines to go
on, or it takes some of it and goes on over the rest. -/
def StepAccepts (P : Forest → Prop) (step : Parser (List Node × Bool)) (f : Forest)
    (ws : List Word) : Prop :=
  (∀ c, Runs step (Stepped false c f ws) c .nil f ws) ∨
    ∃ g later, f = g ++ later ∧ g.words ≠ [] ∧ P later ∧
      ∀ c, Runs step (Stepped true c g (later.words ++ ws)) c .nil g (later.words ++ ws)

/-- A step ends with the nodes of the row. -/
theorem Midway.pureStep {c : Cursor} {ws : List Word} {whole done todo : Forest}
    {made nodes : List Node} (h : Midway c ws whole [] made done todo) (hnodes : nodes = made)
    (more : Bool) :
    Runs (Pure.pure (nodes, more)) (Stepped more c whole ws) c done todo ws := by
  obtain ⟨rfl, rfl, rfl⟩ := h.last
  subst hnodes
  exact Runs.pure ⟨by simp [Forest.words], rfl⟩

theorem accepts_manyFrom {P : Forest → Prop} {step : Parser (List Node × Bool)} {ws : List Word}
    (hstep : ∀ f, P f → StepAccepts P step f ws) (bound : Nat) {f : Forest} (hf : P f)
    (hbound : f.words.length < bound) : AcceptsRow (manyFrom step bound) f ws := by
  induction bound generalizing f with
  | zero => omega
  | succ bound ih =>
      intro c
      rw [manyFrom]
      rcases hstep f hf with hlast | ⟨g, later, rfl, hg, hlater, hmore⟩
      · obtain ⟨_, _, hrun, rfl, rfl⟩ := hlast c
        refine ⟨_, run_bind.mpr ⟨_, _, by simpa using hrun, rfl⟩, rfl⟩
      · obtain ⟨_, _, hrun, rfl, rfl⟩ := hmore c
        have hlength : later.words.length < bound := by
          have := List.length_pos_iff.mpr hg
          simp only [Forest.words_append, List.length_append] at hbound
          omega
        obtain ⟨made, hmany, hmade⟩ := ih hlater hlength (c.pass g)
        refine ⟨g.nodes c.made c.lastEnd ++ made, ?_, by simp [hmade]⟩
        rw [Forest.words_append, List.append_assoc]
        refine run_bind.mpr ⟨_, _, by simpa using hrun, ?_⟩
        simp only [if_true]
        refine run_bind.mpr ⟨made, _, hmany, ?_⟩
        rw [Cursor.pass_pass]
        rfl

/-- A step repeated over a row takes all of it. -/
theorem accepts_many {P : Forest → Prop} {step : Parser (List Node × Bool)} {ws : List Word}
    (hstep : ∀ f, P f → StepAccepts P step f ws) {f : Forest} (hf : P f) :
    AcceptsRow (many step) f ws := by
  intro c
  have hbound : f.words.length < (c.facing (f.words ++ ws)).rest.length + 1 := by
    simp only [Cursor.facing_rest, List.length_map, List.length_append]
    omega
  obtain ⟨a, hrun, ha⟩ := accepts_manyFrom hstep _ hf hbound c
  exact ⟨a, run_bind.mpr ⟨c.facing (f.words ++ ws), _, rfl, hrun⟩, ha⟩

/-- A row of two parts that match one after the other. -/
theorem Derives.split (symbols : List Symbol) {parts : List Symbol} {f : Forest} {next : Ahead}
    (h : Derives (symbols ++ parts) f next) :
    ∃ g later, f = g ++ later ∧ Derives symbols g (later.ahead next) ∧ Derives parts later next := by
  induction symbols generalizing f with
  | nil => exact ⟨.nil, f, rfl, .nil _, h⟩
  | cons s symbols ih =>
      cases h with
      | leaf comments right fitting tail =>
          obtain ⟨g, later, rfl, hg, hlater⟩ := ih tail
          exact ⟨_, later, rfl, .leaf comments right fitting hg, hlater⟩
      | skip comments fitting tail =>
          obtain ⟨g, later, rfl, hg, hlater⟩ := ih tail
          exact ⟨_, later, rfl, .skip comments fitting hg, hlater⟩
      | look fitting tail =>
          obtain ⟨g, later, rfl, hg, hlater⟩ := ih tail
          exact ⟨g, later, rfl, .look (by simpa using fitting) hg, hlater⟩
      | @flat _ _ _ f _ _ rule inside tail =>
          obtain ⟨g, later, rfl, hg, hlater⟩ := ih tail
          exact ⟨f ++ g, later, by simp, .flat rule (by simpa using inside) hg, hlater⟩
      | node rule inside tail =>
          obtain ⟨g, later, rfl, hg, hlater⟩ := ih tail
          exact ⟨_, later, rfl, .node rule (by simpa using inside) hg, hlater⟩

/-- A row of items as long as it may be. -/
def Nonterminal.Fits (n : Nonterminal) (size : Nat) (ws : List Word) (f : Forest) : Prop :=
  Derives [.sub n] f (Word.ahead ws) ∧ f.words.length ≤ size

/-- A step that takes the first part of a production which ends in the
nonterminal itself, and goes on. -/
theorem StepAccepts.more {n : Nonterminal} (parts : List Symbol) {size : Nat} {f : Forest}
    {ws : List Word} {step : Parser (List Node × Bool)}
    (h : Derives (parts ++ [.sub n]) f (Word.ahead ws)) (hsize : f.words.length ≤ size)
    (hne : ∀ g next, Derives parts g next → g.words ≠ [])
    (hrun : ∀ c ws' g, Midway c ws' g parts [] .nil g → g.words.length ≤ size →
      Runs step (Stepped true c g ws') c .nil g ws') :
    StepAccepts (n.Fits size ws) step f ws := by
  obtain ⟨g, later, rfl, hg, hlater⟩ := h.split parts
  rw [← hlater.ahead_words] at hg
  simp only [Forest.words_append, List.length_append] at hsize
  exact .inr ⟨g, later, rfl, hne _ _ hg, ⟨hlater, by omega⟩,
    fun c => hrun c _ g (Midway.start hg) (by omega)⟩

/-- A step that takes all of a row and declines to go on. -/
theorem StepAccepts.last {P : Forest → Prop} {parts : List Symbol} {f : Forest} {ws : List Word}
    {step : Parser (List Node × Bool)} (h : Derives parts f (Word.ahead ws))
    (hrun : ∀ c, Midway c ws f parts [] .nil f → Runs step (Stepped false c f ws) c .nil f ws) :
    StepAccepts P step f ws :=
  .inl fun c => hrun c (Midway.start h)

/-- A token is asked for. -/
def Symbol.isToken : Symbol → Bool
  | leaf _ _ | skip _ => true
  | _ => false

/-- A row with a token has words. -/
theorem Derives.words_ne_nil {symbols : List Symbol} {f : Forest} {next : Ahead}
    (h : Derives symbols f next) (htoken : symbols.any Symbol.isToken) : f.words ≠ [] := by
  induction h with
  | nil => simp at htoken
  | leaf => simp [Forest.words]
  | skip => simp [Forest.words]
  | look _ _ ih => exact ih (by simpa [Symbol.isToken] using htoken)
  | flat _ _ _ _ ih =>
      have := ih (by simpa [Symbol.isToken] using htoken)
      simp [this]
  | node _ _ _ _ ih =>
      have := ih (by simpa [Symbol.isToken] using htoken)
      simp [Forest.words, this]

/-- Items between separators, behind the first one.  What stands behind an item
is a separator or what stands behind all of them. -/
theorem accepts_more {k : TokenKind} {item : Nonterminal} {p : Parser Node} (size : Nat)
    {ws : List Word} (P : Ahead → Prop) (hseparator : ∀ next, next.cls = some (.token k) → P next)
    (hnext : P (Word.ahead ws))
    (hp : ∀ g ws', Derives [.sub item] g (Word.ahead ws') → P (Word.ahead ws') →
      g.words.length < size → AcceptsOne p g ws')
    {f : Forest} (h : Derives [.sub (.more k item)] f (Word.ahead ws))
    (hsize : f.words.length ≤ size) :
    AcceptsRow (many do
      match ← Parser.eat k with
      | some mark => return ([mark, ← p], true)
      | none => return ([], false)) f ws := by
  refine accepts_many (P := fun g => (Nonterminal.more k item).Fits size ws g) ?_ ⟨h, hsize⟩
  rintro f ⟨h, hsize⟩
  obtain ⟨parts, rule, inside⟩ | ⟨kind, parts, inner, rfl, rule, -⟩ := h.phrase_cases
  · cases rule with
    | noMore =>
        refine .last inside fun c h => ?_
        obtain ⟨hlacks, h⟩ := h.look
        exact Runs.eat_none hlacks (h.pureStep rfl false)
    | more =>
        obtain ⟨g, later, rfl, hg, hlater⟩ := inside.split [.mark k, .sub item]
        have hbehind : P (later.ahead (Word.ahead ws)) := by
          obtain ⟨parts, rule, inside⟩ | ⟨_, _, _, rfl, rule, -⟩ := hlater.phrase_cases
          · cases rule with
            | noMore =>
                obtain ⟨-, rfl⟩ := inside.parted
                exact hnext
            | more => exact hseparator _ inside.ahead_of_mark
          · cases rule
        rw [← hlater.ahead_words] at hg hbehind
        simp only [Forest.words_append, List.length_append] at hsize
        refine .inr ⟨g, later, rfl, hg.words_ne_nil rfl, ⟨hlater, by omega⟩, fun c => ?_⟩
        refine (Midway.start hg).eat fun node _ _ _ h => ?_
        refine h.sub (fun g' later' hg' hlater' hlength => ?_) fun node' _ _ h => h.pureStep (by simp) true
        obtain rfl := hlater'.parted
        refine hp g' _ hg' hbehind ?_
        simp only [Forest.words_append, Forest.words, List.length_append, List.length_cons,
          List.length_nil] at hlength
        omega
  · cases rule

/-- Items between separators. -/
theorem Midway.separated {c : Cursor} {ws : List Word} {whole done todo : Forest}
    {symbols : List Symbol} {made : List Node} {Q : β → Cursor → Prop} {k : TokenKind}
    {item : Nonterminal} {p : Parser Node} {q : List Node → Parser β} (size : Nat)
    (h : Midway c ws whole (.sub item :: .sub (.more k item) :: symbols) made done todo)
    (hp : ∀ g ws', Derives [.sub item] g (Word.ahead ws') → g.words.length ≤ size →
      AcceptsOne p g ws') (hsize : whole.words.length ≤ done.words.length + size)
    (hq : ∀ nodes done' later, Midway c ws whole symbols (made ++ nodes) done' later →
      done.words.length ≤ done'.words.length → Runs (q nodes) Q c done' later ws) :
    Runs (separatedBy k p >>= q) Q c done todo ws := by
  rw [separatedBy, bind_assoc]
  refine h.sub (fun g later hg _ hlength => hp g _ hg (by omega))
    fun first g later h => ?_
  rw [bind_assoc]
  refine h.subRow (fun g' later hg' _ hlength => ?_) fun nodes g' later h => ?_
  · simp only [Forest.words_append, List.length_append] at hlength
    exact accepts_more size (fun _ => True) (by simp) trivial
      (fun g ws' hg _ hlt => hp g ws' hg (by omega)) hg' (by omega)
  · rw [pure_bind]
    exact hq _ _ _ (by simpa using h) (by simp)

/-! ### Wrapping -/

/-- A row that begins as `first` reads it and goes on as `step` wraps it. -/
def Grows (first : Parser Node) (step : Node → Parser (Option Node)) (f : Forest)
    (ws : List Word) : Prop :=
  ∀ c : Cursor, ∃ (a : Node) (c₁ : Cursor) (ws₁ : List Word) (steps : Nat) (node : Node),
    first.run (c.facing (f.words ++ ws)) = .ok a (c₁.facing ws₁) ∧
      steps + ws.length ≤ ws₁.length ∧ f.nodes c.made c.lastEnd = [node] ∧
      ∀ bound, (chainFrom step (bound + steps) a).run (c₁.facing ws₁) =
        (chainFrom step bound node).run ((c.pass f).facing ws)

/-- The end of a step that wraps a node. -/
def Wrapped (c : Cursor) (whole : Forest) (ws : List Word) (a : Option Node) (c' : Cursor) :
    Prop :=
  ∃ node, a = some node ∧ Passed (fun a => [a]) c whole ws node c'

/-- A run ends with the node around the row, as the result of a step. -/
theorem Midway.finishSome {c : Cursor} {ws : List Word} {whole done todo : Forest}
    {made nodes : List Node} (h : Midway c ws whole [] made done todo) {kind : Kind}
    (hnodes : nodes = made) (hkind : kind ≠ .aux .block) :
    Runs (do return some (← Parser.finish kind nodes)) (Wrapped c (.node kind whole .nil) ws)
      c done todo ws := by
  obtain ⟨node, c', hrun, h⟩ := h.finish hnodes hkind
  exact ⟨some node, c', run_bind.mpr ⟨node, c', hrun, rfl⟩, node, rfl, h⟩

section Wrapping

variable {first : Parser Node} {step : Node → Parser (Option Node)} {f g later : Forest}
  {ws : List Word}

theorem Accepts.grows (h : AcceptsOne first f ws) : Grows first step f ws := by
  intro c
  obtain ⟨a, hrun, ha⟩ := h c
  exact ⟨a, c.pass f, ws, 0, a, hrun, by omega, ha.symm, fun bound => rfl⟩

/-- A row that grows by one more part. -/
theorem Grows.wrap (h : Grows first step g (later.words ++ ws)) (hlater : later.words ≠ [])
    {kind : Kind}
    (hstep : ∀ c node, g.nodes c.made c.lastEnd = [node] →
      Runs (step node) (Wrapped c (.node kind (g ++ later) .nil) ws) c g later ws) :
    Grows first step (.node kind (g ++ later) .nil) ws := by
  intro c
  obtain ⟨a, c₁, ws₁, steps, node, hrun, hsteps, hnode, hchain⟩ := h c
  obtain ⟨_, _, hone, wrapped, rfl, rfl, hwrapped⟩ := hstep c node hnode
  have hpos := List.length_pos_iff.mpr hlater
  rw [List.length_append] at hsteps
  refine ⟨a, c₁, ws₁, steps + 1, wrapped, by simpa [Forest.words] using hrun, by omega,
    hwrapped.symm, fun bound => ?_⟩
  rw [show bound + (steps + 1) = bound + 1 + steps by omega, hchain (bound + 1), chainFrom]
  simp only [EStateM.run, bind, EStateM.bind] at hone ⊢
  rw [hone]

/-- A row that has grown to its end is accepted. -/
theorem Grows.accepts (h : Grows first step f ws)
    (hlast : ∀ (c : Cursor) node, (step node).run (c.facing ws) = .ok none (c.facing ws)) :
    AcceptsOne (first >>= chain step) f ws := by
  intro c
  obtain ⟨a, c₁, ws₁, steps, node, hrun, hsteps, hnode, hchain⟩ := h c
  refine ⟨node, run_bind.mpr ⟨a, _, hrun, run_bind.mpr ⟨c₁.facing ws₁, _, rfl, ?_⟩⟩, hnode.symm⟩
  obtain ⟨bound, hbound⟩ : ∃ bound,
      (c₁.facing ws₁).rest.length + 1 = bound + 1 + steps := by
    refine ⟨ws₁.length - steps, ?_⟩
    simp only [Cursor.facing_rest, List.length_map]
    omega
  rw [hbound, hchain, chainFrom]
  exact run_bind.mpr ⟨none, _, hlast _ node, rfl⟩

end Wrapping

end LuauTidy
