import LuauTidy.Proofs.ExprAccepting
import LuauTidy.Proofs.StmtReading

/-!
# What the parser accepts: statements and sources

Every production of a statement accepts the rows that match it, and so does
every level of the grammar for rows of as many words.

* `Grammar.complete_ofDepth` — a level reads rows of as many words;
* `parse_of_derives` — a source whose words match the grammar parses.
-/

namespace LuauTidy

open LuauTidy.Parser

/-- A look for the end of the block. -/
theorem Runs.atBlockEnd {β : Type} {q : Bool → Parser β} {Q : β → Cursor → Prop} {c : Cursor}
    {done todo : Forest} {ws : List Word}
    (h : ∀ atEnd, (atEnd = true ↔ EndsBlock (Word.ahead (todo.words ++ ws))) →
      Runs (q atEnd) Q c done todo ws) : Runs (Grammar.atBlockEnd >>= q) Q c done todo ws :=
  Runs.bind (run_bind.mpr ⟨_, _, run_peek.mpr ⟨rfl, rfl⟩, rfl⟩)
    (h _ (Grammar.closesBlock_upcoming _))

/-- A look for `continue` as a statement. -/
theorem Runs.isContinue {β : Type} {q : Bool → Parser β} {Q : β → Cursor → Prop} {c : Cursor}
    {done todo : Forest} {ws : List Word}
    (h : ∀ b, (b = true ↔ Grammar.ContinueAhead (todo.words ++ ws)) → Runs (q b) Q c done todo ws) :
    Runs (Grammar.isContinue >>= q) Q c done todo ws := by
  obtain ⟨b, hrun, hb⟩ := Grammar.exists_isContinue (c.pass done) (todo.words ++ ws)
  exact Runs.bind hrun (h b hb)

/-- A look at the place of the next token. -/
theorem Runs.offset {β : Type} {q : Nat → Parser β} {Q : β → Cursor → Prop} {c : Cursor}
    {done todo : Forest} {ws : List Word} (h : ∀ place, Runs (q place) Q c done todo ws) :
    Runs (Parser.offset >>= q) Q c done todo ws :=
  Runs.bind rfl (h _)

/-- A run over a row that begins with a node is a run over what the node holds. -/
theorem Runs.inside {α : Type} {p : Parser α} {Q : α → Cursor → Prop} {c : Cursor} {kind : Kind}
    {inner later : Forest} {ws : List Word} (h : Runs p Q c .nil inner (later.words ++ ws)) :
    Runs p Q c .nil (.node kind inner later) ws := by
  simpa [Runs, Forest.words] using h

namespace Grammar

variable {d : Descent} {size : Nat} {f : Forest} {ws : List Word}

/-- A row of expressions does not begin with a token that closes a block. -/
theorem not_endsBlock_of_exprs {symbols : List Symbol} {next : Ahead}
    (h : Derives (.sub .exprs :: symbols) f next) (hproper : ∀ s ∈ symbols, s.Proper) :
    ¬EndsBlock (f.ahead next) := by
  obtain ⟨kind, cls, hkind, hleaf, hahead⟩ := begins_exprs h hproper
  intro hends
  have hcloses := hends cls hahead
  obtain ⟨k, rfl, hk⟩ : ∃ k, cls = .token k ∧ (Kind.token k).beginsExpr = false := by
    unfold TokenClass.closesBlock at hcloses
    split at hcloses
    all_goals first | exact ⟨_, rfl, rfl⟩ | simp at hcloses
  simp only [TokenClass.leafKind?, Option.some.injEq] at hleaf
  simp [← hleaf, hk] at hkind

/-! ### Declarations -/

theorem accepts_binding (h : Derives [.sub .binding] f (Word.ahead ws)) :
    AcceptsOne binding f ws := by
  obtain ⟨parts, rule, -⟩ | ⟨kind, parts, inner, rfl, rule, inside⟩ := h.phrase_cases
  · cases rule
  · cases rule
    exact accepts_node fun c => (Midway.start (c := c) inside).leaf accepts_expectName
      fun name _ _ _ _ h => h.finish (by simp) (by simp)

theorem accepts_name (h : Derives [.sub .name] f (Word.ahead ws)) :
    AcceptsOne expectName f ws := by
  obtain ⟨parts, rule, inside⟩ | ⟨_, _, _, rfl, rule, -⟩ := h.phrase_cases
  · cases rule
    obtain ⟨passed, w, later, rfl, hpassed, -, hw, hlater⟩ := inside.uncons_leaf
    obtain rfl := hlater.parted
    exact accepts_expectName passed w ws hpassed hw
  · cases rule

/-- Names that are declared, between commas. -/
theorem andBindings {β : Type} {c : Cursor} {whole done todo : Forest} {symbols : List Symbol}
    {made : List Node} {Q : β → Cursor → Prop} {q : List Node → Parser β}
    (h : Midway c ws whole (.sub .binding :: .sub (.more .comma .binding) :: symbols) made done todo)
    (hq : ∀ nodes done' later, Midway c ws whole symbols (made ++ nodes) done' later →
      done.words.length ≤ done'.words.length → Runs (q nodes) Q c done' later ws) :
    Runs (separatedBy .comma binding >>= q) Q c done todo ws :=
  h.separated whole.words.length (fun _ _ hg _ => accepts_binding hg) (by omega) hq

/-- Expressions behind the first words of a row. -/
theorem andExprs (hd : d.Complete size) {β : Type} {c : Cursor} {whole done todo : Forest}
    {symbols : List Symbol} {made : List Node} {Q : β → Cursor → Prop} {q : List Node → Parser β}
    (h : Midway c ws whole (.sub .exprs :: symbols) made done todo)
    (hsize : whole.words.length ≤ size + 1) (hdone : 0 < done.words.length)
    (hq : ∀ nodes g later, Midway c ws whole symbols (made ++ nodes) (done ++ g) later →
      Runs (q nodes) Q c (done ++ g) later ws) :
    Runs (exprs d >>= q) Q c done todo ws :=
  h.subRow (fun _ _ hg _ hlength => accepts_exprs hd hg (by omega)) hq

/-- A function body behind the first words of a row. -/
theorem andBody (hd : d.Complete size) {β : Type} {c : Cursor} {whole done todo : Forest}
    {symbols : List Symbol} {made : List Node} {Q : β → Cursor → Prop} {q : Node → Parser β}
    (h : Midway c ws whole (.sub .functionBody :: symbols) made done todo)
    (hsize : whole.words.length ≤ size + 1)
    (hq : ∀ node g later, Midway c ws whole symbols (made ++ [node]) (done ++ g) later →
      Runs (q node) Q c (done ++ g) later ws) :
    Runs (functionBody d >>= q) Q c done todo ws :=
  h.sub (fun _ _ hg _ hlength => accepts_functionBody hd hg (by omega)) hq

/-- What stands ahead of a name that is declared. -/
theorem ahead_binding {symbols : List Symbol} {next : Ahead}
    (h : Derives (.sub .binding :: symbols) f next) :
    (f.ahead next).cls = some (.token .name) := by
  obtain ⟨g, later, rfl, hg, -⟩ := h.uncons_sub
  obtain ⟨parts, rule, -⟩ | ⟨kind, parts, inner, rfl, rule, inside⟩ := hg.phrase_cases
  · cases rule
  · cases rule
    exact inside.ahead_of_mark

/-- The tokens behind the first one of a row. -/
theorem upcoming_behind_mark {k : TokenKind} {symbols : List Symbol}
    (h : Derives (.mark k :: symbols) f (Word.ahead ws)) (m : Nat) :
    ∃ later, Derives symbols later (Word.ahead ws) ∧
      Cursor.upcoming (m + 1) ((f.words ++ ws).map Word.toToken) =
        Cursor.upcoming m ((later.words ++ ws).map Word.toToken) := by
  obtain ⟨passed, w, later, rfl, hpassed, -, hw, hlater⟩ := h.uncons_leaf
  have hcls : w.cls = .token k := hw
  have hcomment : w.isComment = false := by simp [Token.isComment, hcls]
  refine ⟨later, hlater, ?_⟩
  rw [← Reading.upcoming_passed hpassed hcomment (later.words ++ ws) m]
  simp [Forest.words]

/-- The second token of a row that begins with two tokens. -/
theorem second_of_mark {k : TokenKind} {symbols : List Symbol}
    (h : Derives (.mark k :: symbols) f (Word.ahead ws)) {k' : TokenKind}
    (hnext : ∀ later, Derives symbols later (Word.ahead ws) →
      (later.ahead (Word.ahead ws)).cls = some (.token k')) :
    kind? (Cursor.upcoming 1 ((f.words ++ ws).map Word.toToken)) = some k' := by
  obtain ⟨later, hlater, heq⟩ := upcoming_behind_mark h 0
  rw [heq, kind?_eq_some, upcoming_words, hlater.ahead_words]
  exact hnext later hlater

theorem accepts_localStatement (hd : d.Complete size) {kind : Kind} {parts : List Symbol}
    (rule : kind = .stmt .localFn ∧ parts = [.mark .kwLocal, .mark .kwFunction, .mark .name,
        .sub .functionBody] ∨
      kind = .stmt .localVar ∧ (parts = [.mark .kwLocal, .sub .binding,
          .sub (.more .comma .binding), .look (LacksToken .assign)] ∨
        parts = [.mark .kwLocal, .sub .binding, .sub (.more .comma .binding), .mark .assign,
          .sub .exprs])) (h : Derives parts f (Word.ahead ws)) (hsize : f.words.length ≤ size + 1) :
    AcceptsOne (localStatement d) (.node kind f .nil) ws := by
  refine accepts_node fun c => ?_
  rw [localStatement]
  refine Runs.nth ?_
  obtain ⟨rfl, rfl⟩ | ⟨rfl, rfl | rfl⟩ := rule
  · rw [second_of_mark h fun later hlater => hlater.ahead_of_mark, if_pos (by simp)]
    refine (Midway.start (c := c) h).leaf accepts_mark fun mark _ _ _ _ h => ?_
    refine h.leaf accepts_mark fun functionMark _ _ _ _ h => ?_
    refine h.leaf accepts_expectName fun name _ _ _ _ h => ?_
    exact andBody hd h hsize fun body _ _ h => h.finish (by simp) (by simp)
  · rw [second_of_mark h fun later hlater => ahead_binding hlater, if_neg (by simp)]
    refine (Midway.start (c := c) h).leaf accepts_mark fun mark _ _ _ _ h => ?_
    refine andBindings h fun names _ _ h _ => ?_
    obtain ⟨hlacks, h⟩ := h.look
    exact Runs.eat_none hlacks (h.finish (by simp) (by simp))
  · rw [second_of_mark h fun later hlater => ahead_binding hlater, if_neg (by simp)]
    refine (Midway.start (c := c) h).leaf accepts_mark fun mark _ _ _ _ h => ?_
    refine andBindings h fun names _ _ h _ => h.eat fun equals _ _ _ h => ?_
    exact andExprs hd h hsize (by simp [Forest.words]) fun values _ _ h =>
      h.finish (by simp) (by simp)

theorem accepts_functionName (h : Derives [.sub .functionName] f (Word.ahead ws)) :
    AcceptsOne functionName f ws := by
  obtain ⟨parts, rule, -⟩ | ⟨kind, parts, inner, rfl, rule, inside⟩ := h.phrase_cases
  · cases rule
  · refine accepts_node fun c => ?_
    rw [functionName]
    cases rule with
    | functionName =>
        refine (Midway.start (c := c) inside).separated inner.words.length
          (fun _ _ hg _ => accepts_name hg) (by omega) fun names _ _ h _ => ?_
        obtain ⟨hlacks, h⟩ := h.look
        exact Runs.eat_none hlacks (h.finish (by simp) (by simp))
    | methodName =>
        refine (Midway.start (c := c) inside).separated inner.words.length
          (fun _ _ hg _ => accepts_name hg) (by omega) fun names _ _ h _ => ?_
        refine h.eat fun colon _ _ _ h => ?_
        exact h.leaf accepts_expectName fun name _ _ _ _ h => h.finish (by simp) (by simp)

theorem accepts_functionStatement (hd : d.Complete size)
    (h : Derives [.mark .kwFunction, .sub .functionName, .sub .functionBody] f (Word.ahead ws))
    (hsize : f.words.length ≤ size + 1) :
    AcceptsOne (functionStatement d) (.node (.stmt .fn) f .nil) ws := by
  refine accepts_node fun c => ?_
  refine (Midway.start (c := c) h).leaf accepts_mark fun mark _ _ _ _ h => ?_
  refine h.sub (fun _ _ hg _ _ => accepts_functionName hg) fun name _ _ h => ?_
  exact andBody hd h hsize fun body _ _ h => h.finish (by simp) (by simp)

/-! ### Conditional statements and loops -/

theorem andGuarded (hd : d.Complete size) {β : Type} {c : Cursor} {whole done todo : Forest}
    {symbols : List Symbol} {made : List Node} {Q : β → Cursor → Prop} {q : List Node → Parser β}
    (h : Midway c ws whole (.sub .expr :: .mark .kwThen :: .sub .block :: symbols) made done todo)
    (hsize : whole.words.length ≤ size + 1) (hdone : 0 < done.words.length)
    (hroom : symbols.any Symbol.isToken ∨ whole.words.length ≤ size)
    (hq : ∀ nodes done' later, Midway c ws whole symbols (made ++ nodes) done' later →
      0 < done'.words.length → Runs (q nodes) Q c done' later ws) :
    Runs (guardedBlock d >>= q) Q c done todo ws := by
  simp only [guardedBlock, bind_assoc, pure_bind]
  refine hd.andExpr h hsize hdone fun condition _ _ h => ?_
  refine h.leaf accepts_expect fun mark _ _ _ _ h => ?_
  refine hd.andBlock h hsize (by simp [Forest.words]) hroom fun block _ _ h => ?_
  exact hq [condition, mark, block] _ _ (by simpa using h) (by simp [Forest.words])

theorem accepts_elseifBlocks (hd : d.Complete size)
    (h : Derives [.sub .elseifBlocks] f (Word.ahead ws))
    (hnext : LacksToken .kwElseif (Word.ahead ws)) (hsize : f.words.length ≤ size) :
    AcceptsRow (many do
      match ← eat .kwElseif with
      | some mark => return (mark :: (← guardedBlock d), true)
      | none => return ([], false)) f ws := by
  refine accepts_many (P := Nonterminal.elseifBlocks.Fits size ws) ?_ ⟨h, hsize⟩
  rintro f ⟨h, hsize⟩
  obtain ⟨parts, rule, inside⟩ | ⟨kind, parts, inner, rfl, rule, -⟩ := h.phrase_cases
  · cases rule with
    | noElseifBlock =>
        refine .last inside fun c h => Runs.eat_none ?_ (h.pureStep rfl false)
        rwa [h.ahead_last]
    | elseifBlock =>
        refine .more ([.mark .kwElseif, .sub .expr, .mark .kwThen, .sub .block]) inside hsize
          (fun _ _ h => h.words_ne_nil rfl) fun c ws' g h hsize => h.eat fun mark _ _ _ h => ?_
        refine andGuarded hd h (by omega) (by simp [Forest.words]) (.inr hsize)
          fun nodes _ _ h _ => ?_
        exact h.pureStep (by simp) true
  · cases rule

/-- Behind the further conditions stands the last block or the end. -/
theorem ahead_elseBlock {next : Ahead} (h : Derives [.sub .elseBlock, .mark .kwEnd] f next) :
    LacksToken .kwElseif (f.ahead next) := by
  obtain ⟨g, later, rfl, hg, hlater⟩ := h.uncons_sub
  obtain ⟨parts, rule, inside⟩ | ⟨_, _, _, rfl, rule, -⟩ := hg.phrase_cases
  · cases rule with
    | noElseBlock =>
        obtain rfl := inside.parted
        simp [LacksToken, hlater.ahead_of_mark]
    | elseBlock => simp [LacksToken, inside.ahead_of_mark]
  · cases rule

theorem accepts_ifStatement (hd : d.Complete size)
    (h : Derives [.mark .kwIf, .sub .expr, .mark .kwThen, .sub .block, .sub .elseifBlocks,
      .sub .elseBlock, .mark .kwEnd] f (Word.ahead ws)) (hsize : f.words.length ≤ size + 1) :
    AcceptsOne (ifStatement d) (.node (.stmt .ifStmt) f .nil) ws := by
  refine accepts_node fun c => ?_
  refine (Midway.start (c := c) h).leaf accepts_mark fun mark _ _ _ _ h => ?_
  refine andGuarded hd h hsize (by simp [Forest.words]) (.inl rfl) fun first _ _ h hdone => ?_
  refine h.subRow (fun g later hg hlater hlength => ?_) fun others _ _ h => ?_
  · refine accepts_elseifBlocks hd hg ?_ (by omega)
    rw [hlater.ahead_words]
    exact ahead_elseBlock hlater
  obtain ⟨parts, rule, h⟩ | ⟨_, _, rule⟩ := h.unfold
  · cases rule with
    | noElseBlock =>
        refine Runs.eat_none (by simp [LacksToken, h.ahead, h.derives.ahead_of_mark]) ?_
        simp only [pure_bind]
        exact h.leaf accepts_expect fun last _ _ _ _ h => h.finish (by simp) (by simp)
    | elseBlock =>
        refine h.eat fun elseMark _ _ _ h => ?_
        simp only [pure_bind]
        refine hd.andBlock h hsize (by simp [Forest.words]) (.inl rfl) fun block _ _ h => ?_
        exact h.leaf accepts_expect fun last _ _ _ _ h => h.finish (by simp) (by simp)
  · cases rule

theorem accepts_whileStatement (hd : d.Complete size)
    (h : Derives [.mark .kwWhile, .sub .expr, .mark .kwDo, .sub .block, .mark .kwEnd] f
      (Word.ahead ws)) (hsize : f.words.length ≤ size + 1) :
    AcceptsOne (whileStatement d) (.node (.stmt .whileStmt) f .nil) ws := by
  refine accepts_node fun c => ?_
  refine (Midway.start (c := c) h).leaf accepts_mark fun mark _ _ _ _ h => ?_
  refine hd.andExpr h hsize (by simp [Forest.words]) fun condition _ _ h => ?_
  refine h.leaf accepts_expect fun doMark _ _ _ _ h => ?_
  refine hd.andBlock h hsize (by simp [Forest.words]) (.inl rfl) fun block _ _ h => ?_
  exact h.leaf accepts_expect fun last _ _ _ _ h => h.finish (by simp) (by simp)

theorem accepts_doStatement (hd : d.Complete size)
    (h : Derives [.mark .kwDo, .sub .block, .mark .kwEnd] f (Word.ahead ws))
    (hsize : f.words.length ≤ size + 1) :
    AcceptsOne (doStatement d) (.node (.stmt .doStmt) f .nil) ws := by
  refine accepts_node fun c => ?_
  refine (Midway.start (c := c) h).leaf accepts_mark fun mark _ _ _ _ h => ?_
  refine hd.andBlock h hsize (by simp [Forest.words]) (.inl rfl) fun block _ _ h => ?_
  exact h.leaf accepts_expect fun last _ _ _ _ h => h.finish (by simp) (by simp)

theorem accepts_repeatStatement (hd : d.Complete size)
    (h : Derives [.mark .kwRepeat, .sub .block, .mark .kwUntil, .sub .expr] f (Word.ahead ws))
    (hsize : f.words.length ≤ size + 1) :
    AcceptsOne (repeatStatement d) (.node (.stmt .repeatStmt) f .nil) ws := by
  refine accepts_node fun c => ?_
  refine (Midway.start (c := c) h).leaf accepts_mark fun mark _ _ _ _ h => ?_
  refine hd.andBlock h hsize (by simp [Forest.words]) (.inl rfl) fun block _ _ h => ?_
  refine h.leaf accepts_expect fun untilMark _ _ _ _ h => ?_
  refine hd.andExpr h hsize (by simp [Forest.words]) fun condition _ _ h => ?_
  exact h.finish (by simp) (by simp)

/-- The third token of a loop stands behind its first name. -/
theorem third_of_for {symbols : List Symbol}
    (h : Derives (.mark .kwFor :: .sub .binding :: symbols) f (Word.ahead ws)) :
    ∃ later, Derives symbols later (Word.ahead ws) ∧
      (Cursor.upcoming 2 ((f.words ++ ws).map Word.toToken)).map Token.cls =
        (later.ahead (Word.ahead ws)).cls := by
  obtain ⟨later, hlater, heq⟩ := upcoming_behind_mark h 1
  rw [heq]
  obtain ⟨g, behind, rfl, hg, hbehind⟩ := hlater.uncons_sub
  obtain ⟨parts, rule, -⟩ | ⟨kind, parts, inner, rfl, rule, inside⟩ := hg.phrase_cases
  · cases rule
  · cases rule
    rw [← hbehind.ahead_words] at inside
    obtain ⟨_, hnil, heq⟩ := upcoming_behind_mark inside 0
    obtain rfl := hnil.parted
    have hwords : (Forest.node (.aux .binding) inner .nil ++ behind).words ++ ws =
        inner.words ++ (behind.words ++ ws) := by simp [Forest.words]
    refine ⟨behind, hbehind, ?_⟩
    rw [hwords, heq, Forest.words, List.nil_append, upcoming_words, hbehind.ahead_words]

/-- What stands ahead of further items is a separator or what stands behind them. -/
theorem ahead_more {k : TokenKind} {item : Nonterminal} {next : Ahead}
    (h : Derives [.sub (.more k item)] f next) :
    (f.ahead next).cls = some (.token k) ∨ f.ahead next = next := by
  obtain ⟨parts, rule, inside⟩ | ⟨_, _, _, rfl, rule, -⟩ := h.phrase_cases
  · cases rule with
    | noMore =>
        obtain ⟨-, rfl⟩ := inside.parted
        exact .inr rfl
    | more => exact .inl inside.ahead_of_mark
  · cases rule

/-- The end of a loop: its block. -/
theorem andLoop (hd : d.Complete size) {c : Cursor} {whole done todo : Forest} {made : List Node}
    (h : Midway c ws whole [.mark .kwDo, .sub .block, .mark .kwEnd] made done todo)
    (hsize : whole.words.length ≤ size + 1) {kind : Kind} {nodes : List Node}
    (hnodes : nodes = made) (hkind : kind ≠ .aux .block) :
    Runs (do
      let doMark ← expect .kwDo
      let block ← d.block
      let last ← expect .kwEnd
      finish kind (nodes ++ [doMark, block, last]))
      (Passed (fun a => [a]) c (.node kind whole .nil) ws) c done todo ws := by
  refine h.leaf accepts_expect fun doMark _ _ _ _ h => ?_
  refine hd.andBlock h hsize (by simp [Forest.words]) (.inl rfl) fun block _ _ h => ?_
  exact h.leaf accepts_expect fun last _ _ _ _ h => h.finish (by simp [hnodes]) hkind

theorem accepts_forRange (hd : d.Complete size) {parts : List Symbol}
    (hparts : parts = [] ∨ parts = [.mark .comma, .sub .expr])
    (h : Derives ([.mark .kwFor, .sub .binding, .mark .assign, .sub .expr, .mark .comma,
      .sub .expr] ++ parts ++ [.mark .kwDo, .sub .block, .mark .kwEnd]) f (Word.ahead ws))
    (hsize : f.words.length ≤ size + 1) :
    AcceptsOne (forStatement d) (.node (.stmt .forRange) f .nil) ws := by
  refine accepts_node fun c => ?_
  rw [forStatement]
  refine Runs.nth ?_
  obtain ⟨_, hlater, hthird⟩ := third_of_for h
  rw [hlater.ahead_of_mark, ← kind?_eq_some] at hthird
  simp only [hthird, beq_self_eq_true, if_true, bounds, bind_assoc]
  refine (Midway.start (c := c) h).leaf accepts_mark fun mark _ _ _ _ h => ?_
  refine h.sub (fun _ _ hg _ _ => accepts_binding hg) fun name _ _ h => ?_
  refine h.leaf accepts_expect fun equals _ _ _ _ h => ?_
  refine hd.andExpr h hsize (by simp [Forest.words]) fun first _ _ h => ?_
  refine h.leaf accepts_expect fun comma _ _ _ _ h => ?_
  refine hd.andExpr h hsize (by simp [Forest.words]) fun last _ _ h => ?_
  obtain rfl | rfl := hparts
  · refine Runs.eat_none (by simp [LacksToken, h.ahead, h.derives.ahead_of_mark]) ?_
    simp only [pure_bind]
    exact andLoop hd h hsize (by simp) (by simp)
  · refine h.eat fun comma' _ _ _ h => ?_
    simp only [bind_assoc, pure_bind]
    refine hd.andExpr h hsize (by simp [Forest.words]) fun step _ _ h => ?_
    exact andLoop hd h hsize (by simp) (by simp)

theorem accepts_forIn (hd : d.Complete size)
    (h : Derives [.mark .kwFor, .sub .binding, .sub (.more .comma .binding), .mark .kwIn,
      .sub .exprs, .mark .kwDo, .sub .block, .mark .kwEnd] f (Word.ahead ws))
    (hsize : f.words.length ≤ size + 1) :
    AcceptsOne (forStatement d) (.node (.stmt .forIn) f .nil) ws := by
  refine accepts_node fun c => ?_
  rw [forStatement]
  refine Runs.nth ?_
  have hnumeric : (kind? (Cursor.upcoming 2 ((f.words ++ ws).map Word.toToken)) ==
      some .assign) = false := by
    obtain ⟨_, hlater, hthird⟩ := third_of_for h
    obtain ⟨g, behind, rfl, hg, hbehind⟩ := hlater.uncons_sub
    rw [beq_eq_false_iff_ne, ne_eq, kind?_eq_some, hthird, Forest.ahead_append]
    obtain hcls | hnext := ahead_more hg
    · simp [hcls]
    · simp [hnext, hbehind.ahead_of_mark]
  simp only [hnumeric, Bool.false_eq_true, if_false, iterators, bind_assoc, pure_bind]
  refine (Midway.start (c := c) h).leaf accepts_mark fun mark _ _ _ _ h => ?_
  refine h.sub (fun _ _ hg _ _ => accepts_binding hg) fun name _ _ h => ?_
  refine h.subRow (fun g later hg _ _ => ?_) fun names _ _ h => ?_
  · exact accepts_more g.words.length (fun _ => True) (by simp) trivial
      (fun _ _ hg _ _ => accepts_binding hg) hg (Nat.le_refl _)
  refine h.leaf accepts_expect fun inMark _ _ _ _ h => ?_
  refine andExprs hd h hsize (by simp [Forest.words]) fun values _ _ h => ?_
  exact andLoop hd h hsize (by simp) (by simp)

/-! ### Returns -/

theorem accepts_returnStatement (hd : d.Complete size)
    (h : Derives [.sub .returnStatement] f (Word.ahead ws)) (hsize : f.words.length ≤ size + 1) :
    AcceptsOne (returnStatement d) f ws := by
  obtain ⟨parts, rule, -⟩ | ⟨kind, parts, inner, rfl, rule, inside⟩ := h.phrase_cases
  · cases rule
  · simp only [Forest.words, List.append_nil] at hsize
    refine accepts_node fun c => ?_
    rw [returnStatement]
    cases rule with
    | returnNothing =>
        refine (Midway.start (c := c) inside).leaf accepts_mark fun mark _ _ _ _ h => ?_
        obtain ⟨hends, h⟩ := h.look
        refine Runs.atBlockEnd fun atEnd hatEnd => Runs.isAt ?_
        rw [if_pos (by simpa [hatEnd, EndsReturn] using hends), pure_bind]
        exact h.finish (by simp) (by simp)
    | returnValues =>
        refine (Midway.start (c := c) inside).leaf accepts_mark fun mark _ _ _ _ h => ?_
        refine Runs.atBlockEnd fun atEnd hatEnd => Runs.isAt ?_
        rw [h.ahead] at hatEnd ⊢
        rw [if_neg]
        · exact andExprs hd h hsize (by simp [Forest.words]) fun values _ _ h =>
            h.finish (by simp) (by simp)
        · simp only [Bool.or_eq_true, hatEnd, decide_eq_true_eq, not_or]
          exact ⟨not_endsBlock_of_exprs h.derives (by simp),
            not_begins_exprs h.derives (by simp) rfl⟩

/-- What stands ahead of a return. -/
theorem ahead_return {symbols : List Symbol} {next : Ahead}
    (h : Derives (.sub .returnStatement :: symbols) f next) :
    (f.ahead next).cls = some (.token .kwReturn) := by
  obtain ⟨g, later, rfl, hg, -⟩ := h.uncons_sub
  obtain ⟨parts, rule, -⟩ | ⟨kind, parts, inner, rfl, rule, inside⟩ := hg.phrase_cases
  · cases rule
  · cases rule with
    | returnNothing | returnValues => exact inside.ahead_of_mark

/-! ### Assignments and calls -/

/-- A variable is a suffixed expression where no suffix stands behind it. -/
theorem suffixed_of_variable {next : Ahead} (h : Derives [.sub .variable] f next)
    (hends : EndsChain next) : Derives [.sub .suffixed] f next := by
  refine .ofFlat .suffixed ?_
  have hchain : Derives [.sub .chain] f next := .ofFlat .chainVariable h
  have hlook : Derives [.look EndsChain] .nil next := .look hends (.nil next)
  simpa using hchain.append hlook

/-- The node of a variable. -/
theorem kind_of_variable {next : Ahead} (h : Derives [.sub .variable] f next) {made lastEnd : Nat}
    {node : Node} (hnode : [node] = f.nodes made lastEnd) : node.kind = .expr .var := by
  obtain ⟨parts, rule, -⟩ | ⟨kind, parts, inner, rfl, rule, -⟩ := h.phrase_cases
  · cases rule
  · simp only [Forest.nodes, List.cons.injEq, and_true] at hnode
    subst hnode
    cases rule <;> rfl

theorem accepts_assigned (hd : d.Complete size) (h : Derives [.sub .variable] f (Word.ahead ws))
    (hends : EndsChain (Word.ahead ws)) (hsize : f.words.length ≤ size + 1) :
    AcceptsOne (assigned d) f ws := by
  refine accepts_iff_runs.mpr fun c => ?_
  rw [assigned]
  refine Runs.offset fun place => ?_
  obtain ⟨target, hrun, htarget⟩ := accepts_suffixed hd (suffixed_of_variable h hends) hsize c
  refine Runs.bind (by simpa using hrun) ?_
  rw [if_pos (by simp [kind_of_variable h htarget])]
  exact ⟨target, _, rfl, rfl, htarget⟩

/-- The variable with which a statement begins. -/
theorem andTarget (hd : d.Complete size) {β : Type} {c : Cursor} {whole : Forest}
    {symbols : List Symbol} {Q : β → Cursor → Prop} {q : Node → Parser β} {ws' : List Word}
    (h : Derives (.sub .variable :: symbols) whole (Word.ahead ws'))
    (hends : ∀ later, Derives symbols later (Word.ahead ws') →
      EndsChain (later.ahead (Word.ahead ws'))) (hsize : whole.words.length ≤ size + 1)
    (hq : ∀ target done later, target.kind = .expr .var →
      Midway c ws' whole symbols [target] done later → 0 < done.words.length →
      Runs (q target) Q c done later ws') :
    Runs (suffixed d >>= q) Q c .nil whole ws' := by
  obtain ⟨g, later, rfl, hg, hlater⟩ := h.uncons_sub
  have hchain := hends later hlater
  rw [← hlater.ahead_words] at hg hchain
  simp only [Forest.words_append, List.length_append] at hsize
  obtain ⟨target, hrun, htarget⟩ := accepts_suffixed hd (suffixed_of_variable hg hchain) (by omega) c
  have hpos := List.length_pos_iff.mpr (hg.words_ne_nil_of_isExpr rfl)
  exact Runs.bind (by simpa using hrun)
    (hq target g later (kind_of_variable hg htarget) ⟨rfl, htarget, hlater⟩ hpos)

/-- No suffix begins with such a token. -/
theorem endsChain_of {next : Ahead} {k : TokenKind} (h : next.cls = some (.token k))
    (hk : (TokenClass.token k).startsSuffix = false) : EndsChain next := by
  intro cls hcls
  rw [h] at hcls
  rwa [← Option.some.inj hcls]

theorem TokenKind.not_suffix_of_compound {k : TokenKind} (h : k.isCompoundAssign) :
    (TokenClass.token k).startsSuffix = false := by
  cases k <;> simp_all [TokenKind.isCompoundAssign, TokenClass.startsSuffix]

theorem accepts_compoundAssignment (hd : d.Complete size) {op : TokenKind}
    (hop : op.isCompoundAssign)
    (h : Derives [.sub .variable, .mark op, .sub .expr] f (Word.ahead ws))
    (hsize : f.words.length ≤ size + 1) :
    AcceptsOne (exprStatement d) (.node (.stmt .compoundAssign) f .nil) ws := by
  refine accepts_node fun c => ?_
  rw [exprStatement]
  refine Runs.offset fun place => ?_
  refine andTarget hd h (fun later hlater => endsChain_of hlater.ahead_of_mark
    (TokenKind.not_suffix_of_compound hop)) hsize fun target _ _ htarget h hdone => ?_
  refine Runs.peekKind h.derives.ahead_mark_words ?_
  have hnot : (op == .assign || op == .comma) = false := by cases op <;> first | rfl | cases hop
  simp only [hnot, hop, htarget, Bool.false_eq_true, if_false, if_true, beq_self_eq_true,
    Bool.not_true]
  refine h.leaf accepts_mark fun mark _ _ _ _ h => ?_
  refine hd.andExpr h hsize (by simp [Forest.words]) fun value _ _ h => ?_
  exact h.finish (by simp) (by simp)

theorem accepts_exprList (hd : d.Complete size) (h : Derives [.sub .exprList] f (Word.ahead ws))
    (hsize : f.words.length ≤ size) : AcceptsOne (exprs d >>= finish (.aux .exprList)) f ws := by
  obtain ⟨parts, rule, -⟩ | ⟨kind, parts, inner, rfl, rule, inside⟩ := h.phrase_cases
  · cases rule
  · cases rule
    simp only [Forest.words, List.append_nil] at hsize
    exact accepts_node fun c => (Midway.start (c := c) inside).subRow
      (fun _ _ hg _ hlength => accepts_exprs hd hg (by omega)) fun values _ _ h =>
      h.finish (by simp) (by simp)

theorem accepts_assignment (hd : d.Complete size)
    (h : Derives [.sub .varList, .mark .assign, .sub .exprList] f (Word.ahead ws))
    (hsize : f.words.length ≤ size + 1) :
    AcceptsOne (exprStatement d) (.node (.stmt .assign) f .nil) ws := by
  obtain ⟨g, later, rfl, hg, hlater⟩ := h.uncons_sub
  obtain ⟨parts, rule, -⟩ | ⟨kind, parts, inner, rfl, rule, inside⟩ := hg.phrase_cases
  · cases rule
  cases rule
  have hassign : (later.ahead (Word.ahead ws)).cls = some (.token .assign) := hlater.ahead_of_mark
  rw [← hlater.ahead_words] at inside hassign
  have hsize' : inner.words.length + later.words.length ≤ size + 1 := by
    simpa [Forest.words] using hsize
  refine accepts_node fun c => Runs.inside ?_
  rw [exprStatement]
  refine Runs.offset fun place => ?_
  -- further variables stand behind a comma, and the equals sign behind the last one
  have hends : ∀ {g : Forest}, Derives [.sub (.more .comma .variable)] g
      (Word.ahead (later.words ++ ws)) → ∃ op, (op = .assign ∨ op = .comma) ∧
        (g.ahead (Word.ahead (later.words ++ ws))).cls = some (.token op) := by
    intro g hg
    obtain hcls | hnext := ahead_more hg
    · exact ⟨_, .inr rfl, hcls⟩
    · exact ⟨_, .inl rfl, by rw [hnext, hassign]⟩
  refine andTarget hd inside (fun g hg => ?_) (by omega) fun target _ _ htarget h _ => ?_
  · obtain ⟨op, hop, hcls⟩ := hends hg
    exact endsChain_of hcls (by rcases hop with rfl | rfl <;> rfl)
  obtain ⟨op, hop, hcls⟩ := hends h.derives
  refine Runs.peekKind (k := op) (by rwa [h.ahead]) ?_
  have hop : (op == .assign || op == .comma) = true := by simpa using hop
  simp only [hop, htarget, if_true, beq_self_eq_true, Bool.not_true, Bool.false_eq_true, if_false]
  refine h.subRow (fun g later' hg hlater' hlength => ?_) fun others _ _ h => ?_
  · refine accepts_more (size + 1) EndsChain (fun next hnext => endsChain_of hnext rfl) ?_
      (fun g ws' hg hchain hlt => accepts_assigned hd hg hchain (by omega)) hg (by omega)
    obtain rfl := hlater'.parted
    exact endsChain_of hassign rfl
  refine h.finishThen (by simp) (by simp) fun targets htargets => ?_
  have h : Midway c ws (.node (.aux .varList) inner later) [.mark .assign, .sub .exprList] [targets]
      (.node (.aux .varList) inner .nil) later := ⟨rfl, htargets.symm, hlater⟩
  refine h.leaf accepts_expect fun equals _ _ _ _ h => ?_
  rw [← bind_assoc]
  refine h.sub (fun g _ hg _ hlength => accepts_exprList hd hg ?_) fun values _ _ h => ?_
  · simp only [Forest.words_append, Forest.words, List.length_append, List.length_cons] at hlength hsize
    omega
  · exact h.finish (by simp) (by simp)

/-- A call becomes a statement. -/
theorem runs_callStatement {c : Cursor} {place : Nat} {target : Node}
    (htarget : [target] = (Forest.node (.expr .call) f .nil).nodes c.made c.lastEnd) :
    Runs (exprStatement.callStatement place target) (Passed (fun a => [a]) c
      (.node (.stmt .call) f .nil) ws) c (.node (.expr .call) f .nil) .nil ws := by
  simp only [Forest.nodes, List.cons.injEq, and_true] at htarget
  subst htarget
  rw [exprStatement.callStatement, if_pos (by simp [Node.around])]
  exact Runs.pure ⟨rfl, rfl⟩

theorem accepts_callStatement (hd : d.Complete size)
    (h : Derives [.sub .callParts, .look EndsChain, .look EndsCall] f (Word.ahead ws))
    (hsize : f.words.length ≤ size + 1) :
    AcceptsOne (exprStatement d) (.node (.stmt .call) f .nil) ws := by
  obtain ⟨g, later, rfl, hg, hlater⟩ := h.uncons_sub
  obtain ⟨hchain, hcall, hnil⟩ := hlater.parted
  obtain rfl := hnil
  rw [Forest.append_nil] at hsize ⊢
  have hsuffixed : Derives [.sub .suffixed] (.node (.expr .call) g .nil) (Word.ahead ws) := by
    refine .ofFlat .suffixed ?_
    exact .node .chainCall hg (.look hchain (.nil _))
  refine accepts_iff_runs.mpr fun c => ?_
  rw [exprStatement]
  refine Runs.offset fun place => ?_
  obtain ⟨target, hrun, htarget⟩ :=
    accepts_suffixed hd hsuffixed (by simpa [Forest.words] using hsize) c
  refine Runs.bind (by simpa [Forest.words] using hrun) ?_
  have hstatement : Runs (exprStatement.callStatement place target) _ c _ .nil ws :=
    runs_callStatement htarget
  change Runs (peekKind >>= _) _ c (.node (.expr .call) g .nil) .nil ws
  refine Runs.bind (run_peekKind.mpr ⟨rfl, rfl⟩) ?_
  split
  · rename_i op hop
    rw [Cursor.facing_rest, kind?_eq_some, upcoming_words] at hop
    obtain ⟨hassign, hcomma, hcompound⟩ := hcall op hop
    simp only [beq_eq_false_iff_ne.mpr hassign, beq_eq_false_iff_ne.mpr hcomma, hcompound,
      Bool.or_self, Bool.false_eq_true, if_false]
    exact hstatement
  · exact hstatement

/-! ### Statements -/

/-- A token with which a statement begins that is no return. -/
def beginsStatement : TokenKind → Bool
  | .kwLocal | .kwFunction | .kwIf | .kwWhile | .kwDo | .kwFor | .kwRepeat | .kwBreak => true
  | .name | .lparen => true
  | _ => false

/-- What stands ahead of a statement. -/
theorem ahead_statement {symbols : List Symbol} {next : Ahead}
    (h : Derives (.sub .statement :: symbols) f next) :
    ∃ k, (f.ahead next).cls = some (.token k) ∧ beginsStatement k := by
  obtain ⟨g, later, rfl, hg, -⟩ := h.uncons_sub
  rw [Forest.ahead_append]
  obtain ⟨parts, rule, -⟩ | ⟨kind, parts, inner, rfl, rule, inside⟩ := hg.phrase_cases
  · cases rule
  · have htarget : ∀ {symbols : List Symbol} {inner : Forest} {next : Ahead},
        Derives symbols inner next → (∀ s ∈ symbols, s.Proper) →
        Symbol.firstIs Nonterminal.isTarget Kind.beginsTarget symbols →
        ∃ k, (inner.ahead next).cls = some (.token k) ∧ beginsStatement k := by
      intro symbols inner next h hproper hfirst
      obtain ⟨k, w, -, hk, -, hahead⟩ := begins_target h hproper hfirst
      exact ⟨k, hahead, by rcases hk with rfl | rfl <;> rfl⟩
    rw [Forest.ahead, Forest.ahead]
    cases rule with
    | continueStatement =>
        obtain ⟨passed, w, rest, rfl, -, -, ⟨hcls, -⟩, -⟩ := inside.uncons_leaf
        have hcls : w.cls = .token .name := hcls
        exact ⟨.name, by simp [Forest.ahead, Token.isComment, hcls], rfl⟩
    | assignment | compoundAssignment | callStatement => exact htarget inside (by simp) rfl
    | _ => exact ⟨_, inside.ahead_of_mark, rfl⟩

/-- A suffix goes on with `continue` as a variable. -/
theorem continuesExpression_of_suffix {cls : TokenClass} (h : cls.startsSuffix) :
    continuesExpression cls := by
  unfold TokenClass.startsSuffix at h
  split at h <;> first | rfl | simp at h

/-- The second token of a phrase that is called, or is assigned to and so
stands before a comma or an operator that assigns. -/
theorem second_of_target {n : Nonterminal} (hn : n = .variable ∨ n = .callParts) {next : Ahead}
    {symbols : List Symbol} (h : Derives (.sub n :: symbols) f next)
    (hnext : n = .variable → ∀ later, Derives symbols later next →
      ∃ cls, (later.ahead next).cls = some cls ∧ continuesExpression cls) {w : Word}
    (hw : f.firstLeaf = some (.token .name, w)) :
    ∃ cls, (f.behind next).cls = some cls ∧ continuesExpression cls := by
  obtain ⟨g, later, rfl, hg, hlater⟩ := h.uncons_sub
  have hexpr : n.isExpr := by rcases hn with rfl | rfl <;> rfl
  obtain rfl | hw := Forest.firstLeaf_of_append hw
  · exact absurd rfl (hg.words_ne_nil_of_isExpr hexpr)
  rw [Forest.behind_append hw]
  obtain ⟨heq, hne⟩ | ⟨cls, hcls, hgoes⟩ := hg.behind_name hexpr hw
  · rw [heq]
    exact hnext (hn.resolve_right hne) later hlater
  · refine ⟨cls, hcls, continuesExpression_of_suffix ?_⟩
    rcases hn with rfl | rfl <;> simpa [Nonterminal.takesOperators] using hgoes

/-- The word `continue` as a statement. -/
theorem accepts_continueStatement
    (h : Derives [.continueWord, .look EndsContinue] f (Word.ahead ws)) :
    AcceptsOne (statement d) (.node (.stmt .continueStmt) f .nil) ws := by
  refine accepts_node fun c => ?_
  obtain ⟨passed, w, later, rfl, hpassed, -, ⟨hcls, htext⟩, hlater⟩ := h.uncons_leaf
  obtain ⟨hends, hnil⟩ := hlater.parted
  obtain rfl := hnil
  have hname : w.cls = .token .name := hcls
  have hcomment : w.isComment = false := by simp [Token.isComment, hname]
  have hwords : (Forest.leaf (.token .kwContinue) passed w .nil).words ++ ws = passed ++ w :: ws := by
    simp [Forest.words]
  rw [statement]
  refine Runs.peekKind (k := .name) (by rw [hwords, Reading.ahead_passed hpassed hcomment, hname]) ?_
  have hahead : ContinueAhead (passed ++ w :: ws) := by
    refine ⟨w.toToken, Reading.upcoming_zero hpassed hcomment ws, hcls, htext, fun after hafter => ?_⟩
    rw [Reading.upcoming_passed hpassed hcomment] at hafter
    refine hends after.cls ?_
    rw [Forest.ahead, ← upcoming_words, hafter, Option.map_some]
  refine Runs.isContinue fun b hb => ?_
  rw [hwords] at hb
  rw [if_pos (hb.mpr hahead)]
  refine (Midway.start (c := c) h).leaf (fun passed w ws' hpassed hw => ?_)
    fun word _ _ _ _ h => h.look.2.finish (by simp) (by simp)
  exact accepts_leaf hpassed (by simp [Token.isComment, hw.1]) rfl

/-- A statement that begins as an expression does. -/
theorem accepts_byTarget {symbols : List Symbol} (hf : AcceptsOne (exprStatement d) f ws)
    (h : Derives symbols f (Word.ahead ws))
    (hbegins : ∃ k w, f.firstLeaf = some (.token k, w) ∧ (k = .name ∨ k = .lparen) ∧
      w.cls = .token k ∧ (f.ahead (Word.ahead ws)).cls = some (.token k))
    (hsecond : ∀ w, f.firstLeaf = some (.token .name, w) →
      ∃ cls, (f.behind (Word.ahead ws)).cls = some cls ∧ continuesExpression cls) :
    AcceptsOne (statement d) f ws := by
  obtain ⟨k, w, hw, hk, hcls, hahead⟩ := hbegins
  rw [← h.ahead_words] at hahead
  refine accepts_iff_runs.mpr fun c => ?_
  rw [statement]
  refine Runs.peekKind hahead ?_
  have hother : Runs (do
      if ← isContinue then finish (.stmt .continueStmt) [← bumpAs (.token .kwContinue)]
      else exprStatement d) (Passed (fun a => [a]) c f ws) c .nil f ws := by
    refine Runs.isContinue fun b hb => ?_
    rw [if_neg]
    · exact accepts_iff_runs.mp hf c
    · rw [hb]
      rintro ⟨t, ht, hname, -, hafter⟩
      rw [← upcoming_words, ht, Option.map_some, hname, Option.some.injEq,
        TokenClass.token.injEq] at hahead
      subst hahead
      obtain ⟨cls, hbehind, hcontinues⟩ := hsecond w hw
      rw [← h.upcoming_behind hw (by simp [Token.isComment, hcls]), Option.map_eq_some_iff] at hbehind
      obtain ⟨after, hmem, rfl⟩ := hbehind
      simp [hafter after hmem] at hcontinues
  obtain rfl | rfl := hk <;> exact hother

theorem accepts_statement (hd : d.Complete size) (h : Derives [.sub .statement] f (Word.ahead ws))
    (hsize : f.words.length ≤ size + 1) : AcceptsOne (statement d) f ws := by
  obtain ⟨parts, rule, -⟩ | ⟨kind, parts, inner, rfl, rule, inside⟩ := h.phrase_cases
  · cases rule
  simp only [Forest.words, List.append_nil] at hsize
  have hahead : ∀ {k : TokenKind} {symbols : List Symbol},
      Derives (.mark k :: symbols) inner (Word.ahead ws) →
      (Word.ahead ((Forest.node kind inner .nil).words ++ ws)).cls = some (.token k) :=
    fun hinner => by
      rw [h.ahead_words]
      exact hinner.ahead_of_mark
  have htarget : AcceptsOne (exprStatement d) (.node kind inner .nil) ws →
      Symbol.firstIs Nonterminal.isTarget Kind.beginsTarget parts →
      (∀ w, inner.firstLeaf = some (.token .name, w) →
        ∃ cls, (inner.behind (Word.ahead ws)).cls = some cls ∧ continuesExpression cls) →
      AcceptsOne (statement d) (.node kind inner .nil) ws :=
    fun hf hfirst hsecond =>
      accepts_byTarget hf h (begins_target (f := inner) inside rule.proper hfirst) hsecond
  cases rule with
  | localFunction =>
      exact .ofPeekKind (hahead inside) (accepts_localStatement hd (.inl ⟨rfl, rfl⟩) inside hsize)
  | declaration =>
      exact .ofPeekKind (hahead inside)
        (accepts_localStatement hd (.inr ⟨rfl, .inl rfl⟩) inside hsize)
  | definition =>
      exact .ofPeekKind (hahead inside)
        (accepts_localStatement hd (.inr ⟨rfl, .inr rfl⟩) inside hsize)
  | function => exact .ofPeekKind (hahead inside) (accepts_functionStatement hd inside hsize)
  | ifStatement => exact .ofPeekKind (hahead inside) (accepts_ifStatement hd inside hsize)
  | whileStatement => exact .ofPeekKind (hahead inside) (accepts_whileStatement hd inside hsize)
  | doStatement => exact .ofPeekKind (hahead inside) (accepts_doStatement hd inside hsize)
  | repeatStatement => exact .ofPeekKind (hahead inside) (accepts_repeatStatement hd inside hsize)
  | forRange =>
      exact .ofPeekKind (hahead inside) (accepts_forRange hd (.inl rfl) inside hsize)
  | forRangeStep =>
      exact .ofPeekKind (hahead inside) (accepts_forRange hd (.inr rfl) inside hsize)
  | forIn => exact .ofPeekKind (hahead inside) (accepts_forIn hd inside hsize)
  | breakStatement =>
      refine .ofPeekKind (hahead inside) (accepts_node fun c => ?_)
      exact (Midway.start (c := c) inside).leaf accepts_mark fun mark _ _ _ _ h =>
        h.finish (by simp) (by simp)
  | continueStatement => exact accepts_continueStatement inside
  | assignment =>
      refine htarget (accepts_assignment hd inside hsize) rfl fun w hw => ?_
      obtain ⟨g, later, rfl, hg, hlater⟩ := inside.uncons_sub
      obtain ⟨parts, rule, -⟩ | ⟨kind, parts, vars, rfl, rule, hvars⟩ := hg.phrase_cases
      · cases rule
      cases rule
      refine second_of_target (f := vars) (.inl rfl) hvars (fun _ others hothers => ?_) hw
      obtain hcls | hnext := ahead_more hothers
      · exact ⟨_, hcls, rfl⟩
      · exact ⟨_, by rw [hnext]; exact hlater.ahead_of_mark, rfl⟩
  | compoundAssignment op compound =>
      refine htarget (accepts_compoundAssignment hd compound inside hsize) rfl fun w hw => ?_
      refine second_of_target (.inl rfl) inside (fun _ later hlater => ?_) hw
      exact ⟨_, hlater.ahead_of_mark, by simp [continuesExpression, compound]⟩
  | callStatement =>
      refine htarget (accepts_callStatement hd inside hsize) rfl fun w hw => ?_
      exact second_of_target (.inr rfl) inside (by simp) hw

/-! ### Blocks -/

theorem accepts_semicolons (h : Derives [.sub .semicolons] f (Word.ahead ws)) :
    Accepts (fun _ => []) semicolons f ws := by
  have hmany : AcceptsRow (many do
      if ← isAt .semi then
        let _ ← advance
        return ([], true)
      else return ([], false)) f ws := by
    refine accepts_many (P := Nonterminal.semicolons.Fits f.words.length ws) ?_
      ⟨h, Nat.le_refl _⟩
    rintro g ⟨h, hsize⟩
    obtain ⟨parts, rule, inside⟩ | ⟨kind, parts, inner, rfl, rule, -⟩ := h.phrase_cases
    · cases rule with
      | noSemicolons =>
          refine .last inside fun c h => ?_
          obtain ⟨hlacks, h⟩ := h.look
          refine Runs.isAt ?_
          rw [if_neg (by simpa [LacksToken] using hlacks)]
          exact h.pureStep rfl false
      | semicolons =>
          refine .more [.skip .semi] inside hsize (fun _ _ h => h.words_ne_nil rfl)
            fun c ws' g h _ => Runs.isAt ?_
          obtain ⟨passed, w, later, rfl, hpassed, hw, hlater⟩ := h.derives.uncons_skip
          obtain rfl := hlater.parted
          have hcomment : w.isComment = false := by simp [Token.isComment, hw]
          have hwords : (Forest.skipped passed w .nil).words ++ ws' = passed ++ w :: ws' := by
            simp [Forest.words]
          rw [hwords, Reading.ahead_passed hpassed hcomment, hw, if_pos (by simp)]
          refine Runs.bind (by rw [hwords]; exact run_advance_word hpassed hcomment _) ?_
          exact ⟨_, _, rfl, by simp, rfl⟩
    · cases rule
  intro c
  obtain ⟨a, hrun, ha⟩ := hmany c
  exact ⟨(), run_bind.mpr ⟨a, _, hrun, rfl⟩, (nodes_semicolons h _ _).symm⟩

/-- The block does not end before such a token. -/
theorem not_endsBlock {next : Ahead} {k : TokenKind} (h : next.cls = some (.token k))
    (hk : (TokenClass.token k).closesBlock = false) : ¬EndsBlock next := by
  intro hends
  simp [hends _ h] at hk

/-- A statement has words. -/
theorem words_ne_nil_of_statement {next : Ahead} (h : Derives [.sub .statement] f next) :
    f.words ≠ [] := by
  obtain ⟨parts, rule, -⟩ | ⟨kind, parts, inner, rfl, rule, inside⟩ := h.phrase_cases
  · cases rule
  · simp only [Forest.words, List.append_nil]
    cases rule with
    | callStatement =>
        obtain ⟨g, later, rfl, hg, -⟩ := inside.uncons_sub
        simp [hg.words_ne_nil_of_isExpr rfl]
    | _ => exact inside.words_ne_nil rfl

/-- The statements and comments up to the end of a block. -/
theorem accepts_blockItems (hd : d.Complete size) (h : Derives [.sub .items] f (Word.ahead ws))
    (hsize : f.words.length ≤ size + 1) : AcceptsRow (blockItems d) f ws := by
  refine accepts_many (P := Nonterminal.items.Fits (size + 1) ws) ?_ ⟨h, hsize⟩
  rintro f ⟨h, hsize⟩
  obtain ⟨parts, rule, inside⟩ | ⟨kind, parts, inner, rfl, rule, -⟩ := h.phrase_cases
  · cases rule with
    | lastItems =>
        refine .last inside fun c h => ?_
        rw [blockStep]
        refine h.subRow (fun _ _ hg _ _ => accepts_comments hg) fun before _ _ h => ?_
        obtain ⟨hends, h⟩ := h.look
        refine Runs.atBlockEnd fun atEnd hatEnd => ?_
        rw [if_pos (hatEnd.mpr hends)]
        exact h.pureStep (by simp) false
    | items =>
        refine .more [.sub .comments, .sub .statement, .sub .semicolons] inside hsize
          (fun g next hg => ?_) fun c ws' g h hsize => ?_
        · obtain ⟨before, g, rfl, -, hg⟩ := hg.uncons_sub
          obtain ⟨s, later, rfl, hs, -⟩ := hg.uncons_sub
          simp [words_ne_nil_of_statement hs]
        rw [blockStep]
        refine h.subRow (fun _ _ hg _ _ => accepts_comments hg) fun before _ _ h => ?_
        obtain ⟨k, hahead, hk⟩ := ahead_statement h.derives
        have hopen : (TokenClass.token k).closesBlock = false := by
          cases k <;> first | rfl | cases hk
        refine Runs.atBlockEnd fun atEnd hatEnd => ?_
        rw [h.ahead] at hatEnd
        rw [if_neg (by rw [hatEnd]; exact not_endsBlock hahead hopen)]
        refine Runs.isAt ?_
        rw [h.ahead, hahead]
        refine h.sub (fun _ _ hg _ hlength => accepts_statement hd hg (by omega)) fun s _ _ h => ?_
        refine h.phrase (fun _ _ hg _ _ => accepts_semicolons hg) fun _ _ _ h => ?_
        have hreturn : k ≠ .kwReturn := by
          rintro rfl
          cases hk
        rw [if_neg (by simpa using hreturn)]
        exact h.pureStep (by simp) true
    | returnItems =>
        refine .last inside fun c h => ?_
        rw [blockStep]
        refine h.subRow (fun _ _ hg _ _ => accepts_comments hg) fun before _ _ h => ?_
        have hahead := ahead_return h.derives
        refine Runs.atBlockEnd fun atEnd hatEnd => ?_
        rw [h.ahead] at hatEnd
        rw [if_neg (by rw [hatEnd]; exact not_endsBlock hahead rfl)]
        refine Runs.isAt ?_
        rw [h.ahead, hahead]
        refine h.sub (fun g later hg _ hlength => ?_) fun s _ _ h => ?_
        · have hreturn : (Word.ahead (g.words ++ (later.words ++ ws))).cls =
              some (.token .kwReturn) := by
            rw [hg.ahead_words]
            exact ahead_return hg
          exact .ofPeekKind hreturn (accepts_returnStatement hd hg (by omega))
        refine h.phrase (fun _ _ hg _ _ => accepts_semicolons hg) fun _ _ _ h => ?_
        rw [if_pos (by simp)]
        refine h.subRow (fun _ _ hg _ _ => accepts_comments hg) fun after _ _ h => ?_
        obtain ⟨hends, h⟩ := h.look
        refine Runs.atBlockEnd fun atEnd hatEnd => ?_
        rw [if_pos (hatEnd.mpr hends)]
        exact h.pureStep (by simp) false
  · cases rule

theorem accepts_block (hd : d.Complete size) (h : Derives [.sub .block] f (Word.ahead ws))
    (hsize : f.words.length ≤ size + 1) : AcceptsOne (block d) f ws := by
  obtain ⟨parts, rule, -⟩ | ⟨kind, parts, inner, rfl, rule, inside⟩ := h.phrase_cases
  · cases rule
  cases rule
  simp only [Forest.words, List.append_nil] at hsize
  refine accepts_node fun c => ?_
  rw [block]
  refine Runs.bind (run_get.mpr ⟨rfl, rfl⟩) ?_
  refine (Midway.start (c := c) inside).subRow
    (fun _ _ hg _ hlength => accepts_blockItems hd hg (by simp [Forest.words] at hlength; omega))
    fun items _ _ h => ?_
  exact h.finishAt (by simp [Forest.emptyPlace, Cursor.facing]) (by simp)

/-- A level reads rows of as many words. -/
theorem complete_ofDepth (depth : Nat) : (Descent.ofDepth depth).Complete depth := by
  induction depth with
  | zero =>
      constructor
      · intro limit f ws h hsize
        refine absurd ?_ (h.words_ne_nil_of_isExpr rfl)
        simpa using hsize
      · intro f ws _ hsize
        omega
  | succ depth ih =>
      exact ⟨fun limit f ws h hsize => accepts_operand ih limit h hsize,
        fun f ws h hsize => accepts_block ih h (by omega)⟩

theorem accepts_chunk (hd : d.Complete size) (h : Derives [.sub .items] f (Word.ahead []))
    (hsize : f.words.length ≤ size + 1) :
    AcceptsOne (chunk d) (.node (.aux .chunk) f .nil) [] := by
  refine accepts_node fun c => ?_
  rw [chunk]
  refine (Midway.start (c := c) h).subRow
    (fun _ _ hg _ hlength => accepts_blockItems hd hg (by simp [Forest.words] at hlength; omega))
    fun items _ _ h => ?_
  obtain rfl := h.last.1
  refine Runs.bind (run_peek.mpr ⟨rfl, rfl⟩) ?_
  rw [if_neg (by simp [Forest.words, Cursor.upcoming])]
  exact h.finishAt (by simp [Forest.emptyPlace]) (by simp)

end Grammar

/-- The tree of a source over a row that matches the grammar. -/
def SyntaxTree.ofForest (source : Text) (f : Forest) : SyntaxTree where
  source
  nodeCount := f.count + 1
  root :=
    { Node.around f.count (.aux .chunk) 0 (f.nodes 0 0) with start := 0, stop := source.byteLength }
  enclosing := none
  errors := []
  strayComments := f.strays.map fun w => w.toToken.range

/-- A source whose tokens match the grammar parses to the tree over them. -/
theorem parse_of_derives {source : Text} {f : Forest} (h : Derives [.sub .items] f (Word.ahead []))
    (htokens : tokenize source = f.words.map Word.toToken) :
    parse source = .ok (.ofForest source f) := by
  obtain ⟨root, hrun, hroot⟩ := Grammar.accepts_chunk
    (Grammar.complete_ofDepth (tokenize source).length) h (by simp [htokens])
    (Cursor.start source [])
  have hstart : Cursor.start source (tokenize source) =
      (Cursor.start source []).facing ((Forest.node (.aux .chunk) f .nil).words ++ []) := by
    simp [htokens, Cursor.start, Cursor.facing, Forest.words]
  rw [← hstart] at hrun
  obtain rfl : root = Node.around f.count (.aux .chunk) 0 (f.nodes 0 0) := by
    simpa [Forest.nodes, Cursor.start, Forest.emptyPlace] using hroot
  simp only [parse, hrun]
  simp [SyntaxTree.ofForest, Cursor.start, Cursor.pass, Cursor.facing, Forest.count, Forest.strays]

/-- The parser accepts exactly the sources whose tokens match the grammar, and
the tree is the one over the row that matches. -/
theorem parse_eq_ok_iff {source : Text} {t : SyntaxTree} :
    parse source = .ok t ∧ t.errors = [] ↔
      ∃ f : Forest, Derives [.sub .items] f (Word.ahead []) ∧
        tokenize source = f.words.map Word.toToken ∧ t = .ofForest source f := by
  constructor
  · rintro ⟨hparse, herrors⟩
    obtain ⟨f, gap, h⟩ := parse_parsed hparse herrors
    refine ⟨f, h.derives, h.tokenize_eq, ?_⟩
    have hparse' := parse_of_derives h.derives h.tokenize_eq
    rw [hparse, Except.ok.injEq] at hparse'
    exact hparse'
  · rintro ⟨f, h, htokens, rfl⟩
    exact ⟨parse_of_derives h htokens, rfl⟩

/-- The grammar is unambiguous: a source has one row that matches, as its tree
shows it. -/
theorem nodes_unique {source : Text} {f g : Forest} (hf : Derives [.sub .items] f (Word.ahead []))
    (hg : Derives [.sub .items] g (Word.ahead []))
    (hfsource : tokenize source = f.words.map Word.toToken)
    (hgsource : tokenize source = g.words.map Word.toToken) : f.nodes 0 0 = g.nodes 0 0 := by
  have h := (parse_of_derives hf hfsource).symm.trans (parse_of_derives hg hgsource)
  simp only [Except.ok.injEq, SyntaxTree.ofForest, SyntaxTree.mk.injEq, Node.around,
    Node.mk.injEq] at h
  exact h.2.2.1.2.2.2.2

end LuauTidy
