import LuauTidy.Grammar.Parse
import LuauTidy.Proofs.Syntax

/-!
# What the parser reads

A production that succeeds has read a row which matches what the grammar asks
for, and has made the nodes of the row.  A reading is kept as it grows from
left to right: each step of a production extends it by a phrase, and the node
at the end closes it.
-/

namespace LuauTidy

namespace Parser

/-! ### Runs that succeed -/

variable {α β : Type} {c c' : Cursor}

theorem run_pure {a b : α} : (pure a : Parser α).run c = .ok b c' ↔ a = b ∧ c = c' := by
  simp [EStateM.run, pure, EStateM.pure]

theorem run_bind {p : Parser α} {q : α → Parser β} {b : β} :
    (p >>= q).run c = .ok b c' ↔ ∃ a between, p.run c = .ok a between ∧
      (q a).run between = .ok b c' := by
  simp only [EStateM.run, bind, EStateM.bind]
  cases p c <;> simp [and_assoc]

theorem run_get {a : Cursor} : (get : Parser Cursor).run c = .ok a c' ↔ a = c ∧ c' = c := by
  simp only [EStateM.run, get, getThe, MonadStateOf.get, EStateM.get, EStateM.Result.ok.injEq]
  rw [eq_comm, @eq_comm _ c]

theorem run_set {a : PUnit} {d : Cursor} : (set d : Parser PUnit).run c = .ok a c' ↔ c' = d := by
  simp only [EStateM.run, set, MonadStateOf.set, EStateM.set, EStateM.Result.ok.injEq, true_and]
  exact eq_comm

theorem run_throw {e : Failure} {a : α} : ¬(throw e : Parser α).run c = .ok a c' := by
  simp [EStateM.run, throw, throwThe, MonadExceptOf.throw, EStateM.throw]

theorem run_broken {cause : Fault} {a : α} : ¬(broken cause : Parser α).run c = .ok a c' :=
  run_throw

theorem run_nth {n : Nat} {t : Option Token} :
    (nth n).run c = .ok t c' ↔ t = Cursor.upcoming n c.rest ∧ c' = c := by
  simp only [nth, run_bind, run_get, run_pure]
  constructor
  · rintro ⟨_, _, ⟨rfl, rfl⟩, rfl, rfl⟩
    exact ⟨rfl, rfl⟩
  · rintro ⟨rfl, rfl⟩
    exact ⟨_, _, ⟨rfl, rfl⟩, rfl, rfl⟩

theorem run_peek {t : Option Token} :
    peek.run c = .ok t c' ↔ t = Cursor.upcoming 0 c.rest ∧ c' = c := run_nth

theorem run_peekClass {cls : Option TokenClass} :
    peekClass.run c = .ok cls c' ↔ cls = (Cursor.upcoming 0 c.rest).map Token.cls ∧ c' = c := by
  simp only [peekClass, run_bind, run_peek, run_pure]
  constructor
  · rintro ⟨_, _, ⟨rfl, rfl⟩, rfl, rfl⟩
    exact ⟨rfl, rfl⟩
  · rintro ⟨rfl, rfl⟩
    exact ⟨_, _, ⟨rfl, rfl⟩, rfl, rfl⟩

/-- A look at the place of the next token. -/
theorem run_offset {place : Nat} (hrun : offset.run c = .ok place c') : c' = c := by
  simp only [offset, run_bind, run_peek, run_get, run_pure] at hrun
  obtain ⟨_, _, ⟨-, rfl⟩, _, _, ⟨-, rfl⟩, -, rfl⟩ := hrun
  rfl

theorem run_unexpected {what : Expectation} {a : α} :
    ¬(unexpected what : Parser α).run c = .ok a c' := by
  simp only [unexpected, run_bind]
  rintro ⟨_, _, _, _, _, _, h⟩
  split at h
  · exact run_throw h
  · split at h <;> exact run_throw h

/-! ### Looking ahead over words -/

variable {ws : List Word}

theorem upcoming_words (ws : List Word) :
    (Cursor.upcoming 0 (ws.map Word.toToken)).map Token.cls = (Word.ahead ws).cls := by
  induction ws with
  | nil => rfl
  | cons w ws ih =>
      simp only [List.map_cons, Cursor.upcoming, Word.ahead]
      split <;> simp_all

theorem kind?_eq_some {t : Option Token} {k : TokenKind} :
    kind? t = some k ↔ t.map Token.cls = some (.token k) := by
  cases t with
  | none => simp [kind?]
  | some t =>
      obtain ⟨cls, start, text⟩ := t
      cases cls <;> simp [kind?]

theorem run_peekKind {k : Option TokenKind} :
    peekKind.run c = .ok k c' ↔ k = kind? (Cursor.upcoming 0 c.rest) ∧ c' = c := by
  simp only [peekKind, run_bind, run_peek, run_pure]
  constructor
  · rintro ⟨_, _, ⟨rfl, rfl⟩, rfl, rfl⟩
    exact ⟨rfl, rfl⟩
  · rintro ⟨rfl, rfl⟩
    exact ⟨_, _, ⟨rfl, rfl⟩, rfl, rfl⟩

/-- A look at the kind of the next word. -/
theorem run_isAt {k : TokenKind} {b : Bool} :
    (isAt k).run (c.facing ws) = .ok b c' ↔
      b = decide ((Word.ahead ws).cls = some (.token k)) ∧ c' = c.facing ws := by
  have hk : (kind? (Cursor.upcoming 0 (ws.map Word.toToken)) == some k) =
      decide ((Word.ahead ws).cls = some (.token k)) := by
    rw [← upcoming_words, Bool.eq_iff_iff, beq_iff_eq, decide_eq_true_iff, kind?_eq_some]
  simp only [isAt, run_bind, run_peekKind, run_pure, Cursor.facing_rest]
  constructor
  · rintro ⟨_, _, ⟨rfl, rfl⟩, rfl, rfl⟩
    exact ⟨hk, rfl⟩
  · rintro ⟨rfl, rfl⟩
    exact ⟨_, _, ⟨rfl, rfl⟩, hk, rfl⟩

end Parser

/-! ### Readings -/

/-- The way from one cursor to another over a row that matches, with the nodes
of the row. -/
def Reading (c : Cursor) (ws : List Word) (symbols : List Symbol) (made : List Node)
    (c' : Cursor) (ws' : List Word) : Prop :=
  ∃ f : Forest, ws = f.words ++ ws' ∧ c' = c.pass f ∧ made = f.nodes c.made c.lastEnd ∧
    Derives symbols f (Word.ahead ws')

/-- A parser that reads what a nonterminal stands for whenever it succeeds,
where its result stands for some nodes. -/
def Reads {α : Type} (n : Nonterminal) (nodes : α → List Node) (p : Parser α) : Prop :=
  ∀ {c : Cursor} {ws : List Word} {a : α} {c' : Cursor}, p.run (c.facing ws) = .ok a c' →
    ∃ c₁ ws₁, c' = c₁.facing ws₁ ∧ Reading c ws [.sub n] (nodes a) c₁ ws₁

/-- A parser of a single node that reads what a nonterminal stands for. -/
abbrev ReadsOne (n : Nonterminal) (p : Parser Node) : Prop := Reads n (fun a => [a]) p

/-- A parser of a row of nodes that reads what a nonterminal stands for. -/
abbrev ReadsRow (n : Nonterminal) (p : Parser (List Node)) : Prop := Reads n (fun a => a) p

namespace Reading

variable {c c₁ c₂ c' : Cursor} {ws ws₁ ws₂ : List Word} {symbols parts : List Symbol}
  {made later : List Node} {n : Nonterminal}

theorem start (c : Cursor) (ws : List Word) : Reading c ws [] [] c ws :=
  ⟨.nil, rfl, by simp, rfl, .nil _⟩

/-- One reading after the other. -/
theorem append (h : Reading c ws symbols made c₁ ws₁) (h' : Reading c₁ ws₁ parts later c₂ ws₂) :
    Reading c ws (symbols ++ parts) (made ++ later) c₂ ws₂ := by
  obtain ⟨f, rfl, rfl, rfl, hf⟩ := h
  obtain ⟨g, rfl, rfl, rfl, hg⟩ := h'
  rw [hg.ahead_words] at hf
  exact ⟨f ++ g, by simp, by simp, by simp, hf.append hg⟩

/-- A glance at the next token. -/
theorem look (h : Reading c ws symbols made c₁ ws₁) {fits : Ahead → Prop}
    (hfits : fits (Word.ahead ws₁)) : Reading c ws (symbols ++ [.look fits]) made c₁ ws₁ := by
  have hlook : Reading c₁ ws₁ [.look fits] [] c₁ ws₁ :=
    ⟨.nil, rfl, by simp, rfl, .look hfits (.nil _)⟩
  simpa using h.append hlook

/-- A phrase by a production without a node. -/
theorem flat (h : Reading c ws parts made c₁ ws₁) (rule : Production n none parts) :
    Reading c ws [.sub n] made c₁ ws₁ := by
  obtain ⟨f, hws, hc, hmade, hf⟩ := h
  exact ⟨f, hws, hc, hmade, .ofFlat rule hf⟩

/-- The next phrase of a production. -/
theorem andThen {α : Type} {nodes : α → List Node} {p : Parser α} {a : α}
    (h : Reading c ws symbols made c₁ ws₁) (hp : Reads n nodes p)
    (hrun : p.run (c₁.facing ws₁) = .ok a c') :
    ∃ c₂ ws₂, c' = c₂.facing ws₂ ∧
      Reading c ws (symbols ++ [.sub n]) (made ++ nodes a) c₂ ws₂ := by
  obtain ⟨c₂, ws₂, rfl, h'⟩ := hp hrun
  exact ⟨c₂, ws₂, rfl, h.append h'⟩

/-- The node around what was read, by a production. -/
theorem node (h : Reading c ws parts made c₁ ws₁) {kind : Kind}
    (rule : Production n (some kind) parts) {position : Nat}
    (hposition : position = Forest.emptyPlace kind c.lastEnd) {node : Node}
    (hrun : (Parser.finishAt position kind made).run (c₁.facing ws₁) = .ok node c') :
    ∃ c₂, c' = c₂.facing ws₁ ∧ Reading c ws [.sub n] [node] c₂ ws₁ := by
  obtain ⟨f, rfl, rfl, rfl, hf⟩ := h
  simp only [Parser.finishAt, Parser.make, Parser.run_bind, Parser.run_get, Parser.run_set,
    Parser.run_pure] at hrun
  obtain ⟨_, _, ⟨rfl, rfl⟩, _, _, rfl, rfl, rfl⟩ := hrun
  refine ⟨c.pass (.node kind f .nil), ?_, .node kind f .nil, ?_, rfl, ?_, .ofNode rule hf⟩
  · simp [Cursor.pass, Cursor.facing, Forest.endFrom, Forest.strays, Forest.count, Nat.add_assoc]
  · simp [Forest.words]
  · simp [Forest.nodes, Node.around, Cursor.pass, Cursor.facing, hposition]

/-- Making a node takes no token. -/
theorem finish_facing {kind : Kind} {nodes : List Node} {node : Node}
    (hrun : (Parser.finish kind nodes).run (c.facing ws) = .ok node c') :
    ∃ c₁ : Cursor, c' = c₁.facing ws := by
  simp only [Parser.finish, Parser.finishAt, Parser.make, Parser.run_bind, Parser.run_get,
    Parser.run_set, Parser.run_pure] at hrun
  obtain ⟨_, _, ⟨rfl, rfl⟩, _, _, rfl, -, rfl⟩ := hrun
  exact ⟨{ c with made := c.made + 1 }, rfl⟩

/-- The node around what was read, if it is no block. -/
theorem finish (h : Reading c ws parts made c₁ ws₁) {kind : Kind}
    (rule : Production n (some kind) parts) {nodes : List Node} (hnodes : nodes = made) {node : Node}
    (hrun : (Parser.finish kind nodes).run (c₁.facing ws₁) = .ok node c')
    (hkind : kind ≠ .aux .block) :
    ∃ c₂ ws₂, c' = c₂.facing ws₂ ∧ Reading c ws [.sub n] [node] c₂ ws₂ := by
  subst hnodes
  obtain ⟨c₂, rfl, h'⟩ := h.node rule (by simp [Forest.emptyPlace, hkind]) hrun
  exact ⟨c₂, ws₁, rfl, h'⟩

/-! ### Taking tokens -/

/-- The comments right ahead, and the words from the first other one on. -/
theorem span_comments (ws : List Word) :
    (ws.map Word.toToken).span Token.isComment =
      ((ws.takeWhile (·.isComment)).map Word.toToken,
        (ws.dropWhile (·.isComment)).map Word.toToken) := by
  rw [List.span_eq_takeWhile_dropWhile, List.takeWhile_map, List.dropWhile_map]
  rfl


/-- A token taken, with the comments before it. -/
theorem run_advance {t : Token} (hrun : Parser.advance.run (c.facing ws) = .ok t c') :
    ∃ passed w ws', ws = passed ++ w :: ws' ∧ (∀ p ∈ passed, p.isComment) ∧
      w.isComment = false ∧ t = w.toToken ∧
      c' = (c.pass (.skipped passed w .nil)).facing ws' := by
  simp only [Parser.advance, Parser.run_bind, Parser.run_get] at hrun
  obtain ⟨_, _, ⟨rfl, rfl⟩, hrun⟩ := hrun
  simp only [Cursor.facing_rest, span_comments] at hrun
  cases hlater : ws.dropWhile (·.isComment) with
  | nil =>
      rw [hlater] at hrun
      exact absurd hrun Parser.run_broken
  | cons w ws' =>
      rw [hlater] at hrun
      simp only [List.map_cons, Parser.run_bind, Parser.run_set, Parser.run_pure] at hrun
      obtain ⟨_, _, rfl, rfl, rfl⟩ := hrun
      refine ⟨ws.takeWhile (·.isComment), w, ws', ?_, ?_, ?_, rfl, ?_⟩
      · rw [← hlater, List.takeWhile_append_dropWhile]
      · exact List.all_eq_true.mp List.all_takeWhile
      · have := List.head?_dropWhile_not (fun w : Word => w.isComment) ws
        simpa [hlater] using this
      · simp [Cursor.pass, Cursor.facing, Forest.endFrom, Forest.strays, Forest.count]

/-- The word at a token taken is the next one. -/
theorem ahead_passed {passed : List Word} {w : Word} (hpassed : ∀ p ∈ passed, p.isComment)
    (hw : w.isComment = false) (ws : List Word) :
    (Word.ahead (passed ++ w :: ws)).cls = some w.cls := by
  simp [Word.ahead_comments hpassed, Word.ahead, hw]

/-- A leaf made of the token just taken. -/
theorem leaf_reading {passed : List Word} {w : Word} (hpassed : ∀ p ∈ passed, p.isComment)
    (hw : w.isComment = false) {kind : Kind} (fits : Token → Prop) (hfits : fits w.toToken)
    {node : Node}
    (hrun : (Parser.leaf kind w.toToken).run ((c.pass (.skipped passed w .nil)).facing ws) =
      .ok node c') :
    ∃ c₁, c' = c₁.facing ws ∧ Reading c (passed ++ w :: ws) [.leaf kind fits] [node] c₁ ws := by
  simp only [Parser.leaf, Parser.make, Parser.run_bind, Parser.run_get, Parser.run_set,
    Parser.run_pure] at hrun
  obtain ⟨_, _, ⟨rfl, rfl⟩, _, _, rfl, rfl, rfl⟩ := hrun
  refine ⟨c.pass (.leaf kind passed w .nil), ?_, .leaf kind passed w .nil, ?_, rfl, ?_,
    .leaf hpassed (by simp [hw]) hfits (.nil _)⟩
  · simp [Cursor.pass, Cursor.facing, Forest.endFrom, Forest.strays, Forest.count, hw]
  · simp [Forest.words]
  · simp [Forest.nodes, Cursor.pass, Cursor.facing, Forest.count]

/-- A token taken as a leaf of its own kind. -/
theorem run_bump {node : Node} (hrun : Parser.bump.run (c.facing ws) = .ok node c') :
    ∃ c₁ ws₁ cls kind, c' = c₁.facing ws₁ ∧ (Word.ahead ws).cls = some cls ∧
      cls.leafKind? = some kind ∧
      Reading c ws [.leaf kind fun t => t.cls = cls] [node] c₁ ws₁ := by
  simp only [Parser.bump, Parser.run_bind] at hrun
  obtain ⟨_, _, hadvance, hrun⟩ := hrun
  obtain ⟨passed, w, ws', rfl, hpassed, hw, rfl, rfl⟩ := run_advance hadvance
  have hahead := ahead_passed hpassed hw ws'
  split at hrun
  · rename_i k hcls
    obtain ⟨c₁, rfl, h⟩ := leaf_reading hpassed hw (fun t => t.cls = w.cls) rfl hrun
    exact ⟨c₁, ws', w.cls, .token k, rfl, hahead, by simp [hcls, TokenClass.leafKind?], h⟩
  · rename_i k hcls
    obtain ⟨c₁, rfl, h⟩ := leaf_reading hpassed hw (fun t => t.cls = w.cls) rfl hrun
    exact ⟨c₁, ws', w.cls, .expr k, rfl, hahead, by simp [hcls, TokenClass.leafKind?], h⟩
  · exact absurd hrun Parser.run_broken
  · exact absurd hrun Parser.run_broken

/-- The next token, which is of a kind, taken as a leaf. -/
theorem andBump (h : Reading c ws symbols made c₁ ws₁) {k : TokenKind}
    (hk : (Word.ahead ws₁).cls = some (.token k)) {node : Node}
    (hrun : Parser.bump.run (c₁.facing ws₁) = .ok node c') :
    ∃ c₂ ws₂, c' = c₂.facing ws₂ ∧
      Reading c ws (symbols ++ [.mark k]) (made ++ [node]) c₂ ws₂ := by
  obtain ⟨c₂, ws₂, cls, kind, rfl, hcls, hkind, h'⟩ := run_bump hrun
  obtain rfl : cls = .token k := by simpa [hk] using hcls.symm
  obtain rfl : kind = .token k := by simpa [TokenClass.leafKind?] using hkind.symm
  exact ⟨c₂, ws₂, rfl, h.append h'⟩

/-- The next token, which is a literal, taken as a leaf. -/
theorem andLiteral (h : Reading c ws symbols made c₁ ws₁) {k : ExprKind}
    (hk : (Word.ahead ws₁).cls = some (.literal k)) {node : Node}
    (hrun : Parser.bump.run (c₁.facing ws₁) = .ok node c') :
    ∃ c₂ ws₂, c' = c₂.facing ws₂ ∧
      Reading c ws (symbols ++ [.literal k]) (made ++ [node]) c₂ ws₂ := by
  obtain ⟨c₂, ws₂, cls, kind, rfl, hcls, hkind, h'⟩ := run_bump hrun
  obtain rfl : cls = .literal k := by simpa [hk] using hcls.symm
  obtain rfl : kind = .expr k := by simpa [TokenClass.leafKind?] using hkind.symm
  exact ⟨c₂, ws₂, rfl, h.append h'⟩

/-- What stands ahead of a token that had to be of a kind. -/
theorem expect_ahead {k : TokenKind} {node : Node}
    (hrun : (Parser.expect k).run (c.facing ws) = .ok node c') :
    (Word.ahead ws).cls = some (.token k) := by
  simp only [Parser.expect, Parser.run_bind, Parser.run_isAt] at hrun
  obtain ⟨_, _, ⟨rfl, rfl⟩, hrun⟩ := hrun
  split at hrun
  · rename_i hk
    exact of_decide_eq_true hk
  · exact absurd hrun Parser.run_unexpected

/-- The next token, which has to be of a kind. -/
theorem andExpect (h : Reading c ws symbols made c₁ ws₁) {k : TokenKind} {node : Node}
    (hrun : (Parser.expect k).run (c₁.facing ws₁) = .ok node c') :
    ∃ c₂ ws₂, c' = c₂.facing ws₂ ∧
      Reading c ws (symbols ++ [.mark k]) (made ++ [node]) c₂ ws₂ := by
  have hk := expect_ahead hrun
  simp only [Parser.expect, Parser.run_bind, Parser.run_isAt, hk] at hrun
  obtain ⟨_, _, ⟨rfl, rfl⟩, hrun⟩ := hrun
  exact h.andBump hk (by simpa using hrun)

/-- The next token, which has to be a name. -/
theorem andName (h : Reading c ws symbols made c₁ ws₁) {node : Node}
    (hrun : Parser.expectName.run (c₁.facing ws₁) = .ok node c') :
    ∃ c₂ ws₂, c' = c₂.facing ws₂ ∧
      Reading c ws (symbols ++ [.mark .name]) (made ++ [node]) c₂ ws₂ := by
  simp only [Parser.expectName, Parser.run_bind, Parser.run_isAt] at hrun
  obtain ⟨_, _, ⟨rfl, rfl⟩, hrun⟩ := hrun
  split at hrun
  · rename_i hk
    exact h.andBump (of_decide_eq_true hk) hrun
  · exact absurd hrun Parser.run_unexpected

/-- A token taken if it is of a kind. -/
theorem run_eat (h : Reading c ws symbols made c₁ ws₁) {k : TokenKind} {mark : Option Node}
    (hrun : (Parser.eat k).run (c₁.facing ws₁) = .ok mark c') :
    (mark = none ∧ LacksToken k (Word.ahead ws₁) ∧ c' = c₁.facing ws₁) ∨
      ∃ node c₂ ws₂, mark = some node ∧ c' = c₂.facing ws₂ ∧
        Reading c ws (symbols ++ [.mark k]) (made ++ [node]) c₂ ws₂ := by
  simp only [Parser.eat, Parser.run_bind, Parser.run_isAt] at hrun
  obtain ⟨_, _, ⟨rfl, rfl⟩, hrun⟩ := hrun
  split at hrun
  · rename_i hk
    simp only [Parser.run_bind, Parser.run_pure] at hrun
    obtain ⟨node, _, hbump, rfl, rfl⟩ := hrun
    obtain ⟨c₂, ws₂, rfl, h'⟩ := h.andBump (of_decide_eq_true hk) hbump
    exact .inr ⟨node, c₂, ws₂, rfl, rfl, h'⟩
  · rename_i hk
    simp only [Parser.run_pure] at hrun
    obtain ⟨rfl, rfl⟩ := hrun
    exact .inl ⟨rfl, by simpa [LacksToken] using hk, rfl⟩

/-- Comments taken as leaves. -/
theorem run_leaves {here : List Word} (hhere : ∀ w ∈ here, w.isComment)
    (hws : EndsComments (Word.ahead ws)) {made : List Node}
    (hrun : ((here.map Word.toToken).mapM (Parser.leaf (.stmt .comment))).run (c.facing ws) =
      .ok made c') :
    ∃ c₁, c' = c₁.facing ws ∧ Reading c (here ++ ws) [.sub .comments] made c₁ ws := by
  induction here generalizing c made with
  | nil =>
      simp only [List.map_nil, List.mapM_nil, Parser.run_pure] at hrun
      obtain ⟨rfl, rfl⟩ := hrun
      exact ⟨c, rfl, ((start c ws).look hws).flat .noComments⟩
  | cons w here ih =>
      simp only [List.mem_cons, forall_eq_or_imp] at hhere
      simp only [List.map_cons, List.mapM_cons, Parser.run_bind, Parser.run_pure] at hrun
      obtain ⟨node, _, hleaf, later, _, hlater, rfl, rfl⟩ := hrun
      simp only [Parser.leaf, Parser.make, Parser.run_bind, Parser.run_get, Parser.run_set,
        Parser.run_pure] at hleaf
      obtain ⟨_, _, ⟨rfl, rfl⟩, _, _, rfl, rfl, rfl⟩ := hleaf
      have hw : w.cls = .comment := by simpa [Token.isComment] using hhere.1
      have hfirst : Reading c (w :: (here ++ ws)) [.comment]
          [⟨c.made, .stmt .comment, w.start, w.stop, []⟩]
          (c.pass (.leaf (.stmt .comment) [] w .nil)) (here ++ ws) :=
        ⟨.leaf (.stmt .comment) [] w .nil, rfl, rfl, rfl,
          .leaf (by simp) (fun _ => rfl) hw (.nil _)⟩
      have hc : { c.facing ws with made := (c.facing ws).made + 1 } =
          (c.pass (.leaf (.stmt .comment) [] w .nil)).facing ws := by
        simp [Cursor.pass, Cursor.facing, Forest.endFrom, Forest.strays, Forest.count, hhere.1]
      rw [hc] at hlater
      obtain ⟨c₁, rfl, h⟩ := ih hhere.2 hlater
      exact ⟨c₁, rfl, (hfirst.append h).flat .comments⟩

/-- Behind the next word, the tokens ahead are one nearer. -/
theorem upcoming_passed {passed : List Word} {w : Word} (hpassed : ∀ p ∈ passed, p.isComment)
    (hw : w.isComment = false) (ws : List Word) (m : Nat) :
    Cursor.upcoming (m + 1) ((passed ++ w :: ws).map Word.toToken) =
      Cursor.upcoming m (ws.map Word.toToken) := by
  induction passed with
  | nil => simp [Cursor.upcoming, hw]
  | cons p passed ih =>
      simp only [List.mem_cons, forall_eq_or_imp] at hpassed
      simpa [Cursor.upcoming, hpassed.1] using ih hpassed.2

/-- The next token is that of the next word. -/
theorem upcoming_zero {passed : List Word} {w : Word} (hpassed : ∀ p ∈ passed, p.isComment)
    (hw : w.isComment = false) (ws : List Word) :
    Cursor.upcoming 0 ((passed ++ w :: ws).map Word.toToken) = some w.toToken := by
  induction passed with
  | nil => simp [Cursor.upcoming, hw]
  | cons p passed ih =>
      simp only [List.mem_cons, forall_eq_or_imp] at hpassed
      simpa [Cursor.upcoming, hpassed.1] using ih hpassed.2

/-- Behind a leaf, the tokens ahead are one nearer. -/
theorem upcoming_mark {k : TokenKind} (h : Reading c ws [.mark k] made c₁ ws₁) (m : Nat) :
    Cursor.upcoming (m + 1) (ws.map Word.toToken) = Cursor.upcoming m (ws₁.map Word.toToken) := by
  obtain ⟨f, rfl, -, -, hf⟩ := h
  obtain ⟨passed, w, later, rfl, hpassed, -, hfits, rfl⟩ := hf.parted
  have hw : w.isComment = false := by simp [Token.isComment, hfits]
  simpa [Forest.words] using upcoming_passed hpassed hw ws₁ m

/-- All comments that stand right ahead. -/
theorem run_comments {made : List Node} (hrun : Parser.comments.run (c.facing ws) = .ok made c') :
    ∃ c₁ ws₁, c' = c₁.facing ws₁ ∧ Reading c ws [.sub .comments] made c₁ ws₁ ∧
      ∀ w ∈ ws₁.head?, w.isComment = false := by
  simp only [Parser.comments, Parser.run_bind, Parser.run_get] at hrun
  obtain ⟨_, _, ⟨rfl, rfl⟩, hrun⟩ := hrun
  simp only [Cursor.facing_rest, span_comments, Parser.run_set] at hrun
  obtain ⟨_, _, rfl, hrun⟩ := hrun
  change EStateM.run _ (c.facing (ws.dropWhile (·.isComment))) = _ at hrun
  have hhead : ∀ w ∈ (ws.dropWhile (·.isComment)).head?, w.isComment = false := by
    intro w hw
    have := List.head?_dropWhile_not (fun w : Word => w.isComment) ws
    simpa [Option.mem_def.mp hw] using this
  obtain ⟨c₁, rfl, h⟩ := run_leaves (List.all_eq_true.mp List.all_takeWhile)
    (Word.ahead_comment_eq_false.mpr hhead) hrun
  exact ⟨c₁, _, rfl, by rwa [List.takeWhile_append_dropWhile] at h, hhead⟩

/-- No comment is left right ahead of comments taken. -/
theorem comments_last {made : List Node} (hrun : Parser.comments.run c = .ok made c') :
    ∀ t ∈ c'.rest.head?, t.isComment = false := by
  obtain ⟨ws, hc⟩ := c.exists_facing
  rw [hc] at hrun
  obtain ⟨c₁, ws₁, rfl, -, hhead⟩ := run_comments hrun
  intro t ht
  obtain ⟨w, hw, rfl⟩ : ∃ w ∈ ws₁.head?, w.toToken = t := by simpa using ht
  exact hhead w hw

/-- The comments that stand right ahead, as the next phrase. -/
theorem reads_comments : ReadsRow .comments Parser.comments := by
  intro c ws made c' hrun
  obtain ⟨c₁, ws₁, rfl, h, -⟩ := run_comments hrun
  exact ⟨c₁, ws₁, rfl, h⟩

/-! ### Repetition -/

/-- A step that goes on reads the first part of a production which ends in the
nonterminal itself, and a step that does not go on reads a production. -/
def ReadsStep (n : Nonterminal) (step : Parser (List Node × Bool)) : Prop :=
  ∀ {c : Cursor} {ws : List Word} {made : List Node} {more : Bool} {c' : Cursor},
    step.run (c.facing ws) = .ok (made, more) c' →
      ∃ c₁ ws₁ parts, c' = c₁.facing ws₁ ∧ Reading c ws parts made c₁ ws₁ ∧
        Production n none (if more then parts ++ [.sub n] else parts)

/-- What a repeated step reads. -/
theorem reads_manyFrom {step : Parser (List Node × Bool)} (hstep : ReadsStep n step)
    (bound : Nat) : ReadsRow n (Parser.manyFrom step bound) := by
  induction bound with
  | zero =>
      intro c ws made c' hrun
      exact absurd hrun Parser.run_broken
  | succ bound ih =>
      intro c ws made c' hrun
      simp only [Parser.manyFrom, Parser.run_bind] at hrun
      obtain ⟨⟨nodes, more⟩, _, hone, hrun⟩ := hrun
      obtain ⟨c₁, ws₁, parts, rfl, h, rule⟩ := hstep hone
      cases more with
      | true =>
          simp only [if_true, Parser.run_bind, Parser.run_pure] at hrun
          obtain ⟨later, _, hmany, rfl, rfl⟩ := hrun
          obtain ⟨c₂, ws₂, rfl, h'⟩ := h.andThen ih hmany
          exact ⟨c₂, ws₂, rfl, h'.flat rule⟩
      | false =>
          simp only [Bool.false_eq_true, if_false, Parser.run_pure] at hrun
          obtain ⟨rfl, rfl⟩ := hrun
          exact ⟨c₁, ws₁, rfl, h.flat rule⟩

/-- What the step that ends a repetition leaves ahead. -/
theorem manyFrom_last {Q : Cursor → Prop} {step : Parser (List Node × Bool)}
    (hlast : ∀ {c made c'}, step.run c = .ok (made, false) c' → Q c') {bound : Nat}
    (hrun : (Parser.manyFrom step bound).run c = .ok made c') : Q c' := by
  induction bound generalizing c made with
  | zero => exact absurd hrun Parser.run_broken
  | succ bound ih =>
      simp only [Parser.manyFrom, Parser.run_bind] at hrun
      obtain ⟨⟨nodes, more⟩, _, hone, hrun⟩ := hrun
      cases more with
      | true =>
          simp only [if_true, Parser.run_bind, Parser.run_pure] at hrun
          obtain ⟨later, _, hmany, rfl, rfl⟩ := hrun
          exact ih hmany
      | false =>
          simp only [Bool.false_eq_true, if_false, Parser.run_pure] at hrun
          obtain ⟨rfl, rfl⟩ := hrun
          exact hlast hone

theorem many_last {Q : Cursor → Prop} {step : Parser (List Node × Bool)}
    (hlast : ∀ {c made c'}, step.run c = .ok (made, false) c' → Q c')
    (hrun : (Parser.many step).run c = .ok made c') : Q c' := by
  simp only [Parser.many, Parser.run_bind, Parser.run_get] at hrun
  obtain ⟨_, _, ⟨rfl, rfl⟩, hrun⟩ := hrun
  exact manyFrom_last hlast hrun

/-- What a step reads that is repeated as often as there are tokens. -/
theorem reads_many {step : Parser (List Node × Bool)} (hstep : ReadsStep n step) :
    ReadsRow n (Parser.many step) := by
  intro c ws made c' hrun
  simp only [Parser.many, Parser.run_bind, Parser.run_get] at hrun
  obtain ⟨_, _, ⟨rfl, rfl⟩, hrun⟩ := hrun
  exact reads_manyFrom hstep _ hrun

/-- What has been read after a step that may wrap a node: `n` is what was read
before, and `m` is what that is when the step declines. -/
def Wraps (n m : Nonterminal) (c : Cursor) (ws : List Word) (node : Node) :
    Option Node → Cursor → List Word → Prop
  | some wrapped, c', ws' => Reading c ws [.sub n] [wrapped] c' ws'
  | none, c', ws' => Reading c ws [.sub m] [node] c' ws'

/-- What a step reads that wraps the node read so far. -/
theorem chainFrom_reading {m : Nonterminal} {step : Node → Parser (Option Node)}
    (hstep : ∀ {c c₁ c' : Cursor} {ws ws₁ : List Word} {node : Node} {wrapped : Option Node},
      Reading c ws [.sub n] [node] c₁ ws₁ → (step node).run (c₁.facing ws₁) = .ok wrapped c' →
        ∃ c₂ ws₂, c' = c₂.facing ws₂ ∧ Wraps n m c ws node wrapped c₂ ws₂)
    {bound : Nat} {node last : Node} (h : Reading c ws [.sub n] [node] c₁ ws₁)
    (hrun : (Parser.chainFrom step bound node).run (c₁.facing ws₁) = .ok last c') :
    ∃ c₂ ws₂, c' = c₂.facing ws₂ ∧ Reading c ws [.sub m] [last] c₂ ws₂ := by
  induction bound generalizing node c₁ ws₁ with
  | zero => exact absurd hrun Parser.run_broken
  | succ bound ih =>
      simp only [Parser.chainFrom, Parser.run_bind] at hrun
      obtain ⟨wrapped, _, hone, hrun⟩ := hrun
      obtain ⟨c₂, ws₂, rfl, h'⟩ := hstep h hone
      cases wrapped with
      | some node' => exact ih h' hrun
      | none =>
          simp only [Parser.run_pure] at hrun
          obtain ⟨rfl, rfl⟩ := hrun
          exact ⟨c₂, ws₂, rfl, h'⟩

/-- Further items after separators. -/
theorem readsStep_more {k : TokenKind} (hk : k = .comma ∨ k = .dot) {item : Nonterminal}
    {p : Parser Node} (hp : ReadsOne item p) :
    ReadsStep (.more k item) (do
      match ← Parser.eat k with
      | some mark => return ([mark, ← p], true)
      | none => return ([], false)) := by
  intro c ws made more c' hrun
  simp only [Parser.run_bind] at hrun
  obtain ⟨mark, _, heat, hrun⟩ := hrun
  obtain ⟨rfl, hlacks, rfl⟩ | ⟨node, c₁, ws₁, rfl, rfl, h⟩ := run_eat (start c ws) heat
  · simp only [Parser.run_pure, Prod.mk.injEq] at hrun
    obtain ⟨⟨rfl, rfl⟩, rfl⟩ := hrun
    exact ⟨c, ws, _, rfl, (start c ws).look hlacks, .noMore k item⟩
  · simp only [Parser.run_bind, Parser.run_pure, Prod.mk.injEq] at hrun
    obtain ⟨node', _, hitem, ⟨rfl, rfl⟩, rfl⟩ := hrun
    obtain ⟨c₂, ws₂, rfl, h⟩ := h.andThen hp hitem
    exact ⟨c₂, ws₂, _, rfl, h, .more k item hk⟩

/-- Items between separators. -/
theorem andSeparated (h : Reading c ws symbols made c₁ ws₁) {k : TokenKind}
    (hk : k = .comma ∨ k = .dot) {item : Nonterminal} {p : Parser Node} (hp : ReadsOne item p)
    {nodes : List Node}
    (hrun : (Parser.separatedBy k p).run (c₁.facing ws₁) = .ok nodes c') :
    ∃ c₂ ws₂, c' = c₂.facing ws₂ ∧
      Reading c ws (symbols ++ [.sub item] ++ [.sub (.more k item)]) (made ++ nodes) c₂ ws₂ := by
  simp only [Parser.separatedBy, Parser.run_bind, Parser.run_pure] at hrun
  obtain ⟨first, _, hfirst, later, _, hlater, rfl, rfl⟩ := hrun
  obtain ⟨c₂, ws₂, rfl, h⟩ := h.andThen hp hfirst
  obtain ⟨c₃, ws₃, rfl, h⟩ := h.andThen (reads_many (readsStep_more hk hp)) hlater
  exact ⟨c₃, ws₃, rfl, by simpa using h⟩

end Reading

end LuauTidy
