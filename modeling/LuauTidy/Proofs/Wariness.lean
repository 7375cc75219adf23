import LuauTidy.Proofs.StmtSketches

/-!
# No step over an error

A stretch of a source that is no token stops a parse.  A parser takes a token
only when it knows what the token is, or else it asks what has been taken and
stops with a fault.  It may look at what stands behind an error, but that does
not bring it there.  So whatever a parse complains of lies before the first
error or is that error itself: it stands at the next token of a cursor that has
not gone past an error, where the parser is or where it was before.

* `Token.IsLegal`, `Cursor.Clears`, `Cursor.place` — cursors with no error
  between them, and what a complaint may point at;
* `Wary` — a parser that takes no step over an error;
* `Wary.bind`, `glance`, `unexpected`, `bump`, `many`, … — one rule for each
  step, and for each way to put steps together;
* `Wary.operand`, `Wary.statement`, `Wary.chunk` — the grammar.
-/

namespace LuauTidy

/-! ### Cursors without an error between them -/

/-- A token that is no error. -/
def Token.IsLegal (t : Token) : Prop := ∀ cause, t.cls ≠ .error cause

theorem Token.isLegal_of_comment {t : Token} (h : t.isComment) : t.IsLegal := by
  intro cause hcls
  simp [isComment, hcls] at h

namespace Cursor

/-- The second cursor lies behind the first one, and no error between them. -/
structure Clears (c c' : Cursor) : Prop where
  passed : ∃ passed, c.rest = passed ++ c'.rest ∧ ∀ t ∈ passed, t.IsLegal
  sourceEnd : c'.sourceEnd = c.sourceEnd

/-- Where the next token starts, or where the source ends. -/
def place (c : Cursor) : Nat := ((upcoming 0 c.rest).map Token.start).getD c.sourceEnd

variable {c c' c'' : Cursor}

theorem Clears.refl (c : Cursor) : c.Clears c := ⟨⟨[], rfl, by simp⟩, rfl⟩

theorem Clears.trans (h : c.Clears c') (h' : c'.Clears c'') : c.Clears c'' := by
  obtain ⟨passed, hrest, hpassed⟩ := h.passed
  obtain ⟨later, hrest', hlater⟩ := h'.passed
  refine ⟨⟨passed ++ later, ?_, ?_⟩, h'.sourceEnd.trans h.sourceEnd⟩
  · rw [hrest, hrest', List.append_assoc]
  · exact List.forall_mem_append.mpr ⟨hpassed, hlater⟩

/-- Nothing but the tokens ahead matters, and where the source ends. -/
theorem Clears.of_eq (h : c.Clears c') (hrest : c''.rest = c'.rest)
    (hend : c''.sourceEnd = c'.sourceEnd) : c.Clears c'' :=
  ⟨by rw [hrest]; exact h.passed, hend.trans h.sourceEnd⟩

/-- How a parser may end that takes no step over an error: at a cursor that is
reached without one, with a complaint about such a cursor, or with a fault. -/
inductive Halts {α : Type} (c₀ : Cursor) : EStateM.Result Failure Cursor α → Prop
  | ok {a : α} {c : Cursor} (clears : c₀.Clears c) : c₀.Halts (.ok a c)
  | wrong {complaint : Complaint} {d c : Cursor} (clears : c₀.Clears d) :
      c₀.Halts (.error (.wrong complaint d.place) c)
  | fault {cause : Fault} {c : Cursor} : c₀.Halts (.error (.fault cause) c)

end Cursor

/-- A parser that takes no step over an error, from wherever it starts behind a
cursor. -/
def Wary {α : Type} (c₀ : Cursor) (p : Parser α) : Prop := ∀ c, c₀.Clears c → c₀.Halts (p.run c)

namespace Wary

variable {α β : Type} {c₀ : Cursor} {p : Parser α} {q : α → Parser β}

/-! ### Putting steps together -/

/-- One thing after the other. -/
theorem bind (h : Wary c₀ p) (hq : ∀ a, Wary c₀ (q a)) : Wary c₀ (p >>= q) := by
  intro c hc
  have hp := h c hc
  simp only [EStateM.run, Bind.bind, EStateM.bind] at *
  generalize p c = r at *
  cases hp with
  | ok clears => exact hq _ _ clears
  | wrong clears => exact .wrong clears
  | fault => exact .fault

theorem pure {a : α} : Wary c₀ (pure a) := fun _ hc => .ok hc

/-- A result made of the last one. -/
theorem map {f : α → β} (h : Wary c₀ p) : Wary c₀ (p >>= fun a => Pure.pure (f a)) :=
  h.bind fun _ => pure

theorem ite {c : Prop} [Decidable c] {p q : Parser α} (hthen : c → Wary c₀ p)
    (helse : ¬c → Wary c₀ q) : Wary c₀ (if c then p else q) := by
  by_cases h : c
  · rw [if_pos h]
    exact hthen h
  · rw [if_neg h]
    exact helse h

theorem broken {cause : Fault} : Wary c₀ (Parser.broken cause : Parser α) := fun _ _ => .fault

/-- A complaint about where a parser has been. -/
theorem wrong {complaint : Complaint} {d : Cursor} (hd : c₀.Clears d) :
    Wary c₀ (throw (.wrong complaint d.place) : Parser α) := fun _ _ => .wrong hd

/-! ### Looking ahead -/

/-- A look ahead takes no step. -/
theorem look (hlook : ∀ c, ∃ a, p.run c = .ok a c) : Wary c₀ p := by
  intro c hc
  obtain ⟨a, hrun⟩ := hlook c
  rw [hrun]
  exact .ok hc

theorem get : Wary c₀ (MonadState.get : Parser Cursor) := look fun _ => ⟨_, rfl⟩

theorem nth (n : Nat) : Wary c₀ (Parser.nth n) := look fun _ => ⟨_, rfl⟩

theorem peek : Wary c₀ Parser.peek := nth 0

theorem peekClass : Wary c₀ Parser.peekClass := map peek

theorem peekKind : Wary c₀ Parser.peekKind := map peek

theorem isAt (k : TokenKind) : Wary c₀ (Parser.isAt k) := map peekKind

theorem isRightAt (k : TokenKind) : Wary c₀ (Parser.isRightAt k) := map get

theorem atBlockEnd : Wary c₀ Grammar.atBlockEnd := map peek

/-- The offset that is remembered is that of the next token. -/
theorem offset {q : Nat → Parser β} (hq : ∀ d : Cursor, c₀.Clears d → Wary c₀ (q d.place)) :
    Wary c₀ (Parser.offset >>= q) := by
  intro c hc
  have hrun : Parser.offset.run c = .ok c.place c := rfl
  rw [Twin.run_bind_of_ok hrun]
  exact hq c hc c hc

/-- A complaint about the next token. -/
theorem unexpected {what : Expectation} : Wary c₀ (Parser.unexpected what : Parser α) := by
  intro c hc
  rw [Parser.run_unexpected_eq]
  exact .wrong hc

/-! ### Nodes -/

theorem make {kind : Kind} {start stop : Nat} {children : List Node} :
    Wary c₀ (Parser.make kind start stop children) := fun _ hc => .ok (hc.of_eq rfl rfl)

theorem finishAt {place : Nat} {kind : Kind} {children : List Node} :
    Wary c₀ (Parser.finishAt place kind children) := make

theorem finish {kind : Kind} {children : List Node} : Wary c₀ (Parser.finish kind children) :=
  make

theorem leaf {kind : Kind} {t : Token} : Wary c₀ (Parser.leaf kind t) := make

/-! ### Taking tokens -/

/-- The token that is taken, with the comments before it. -/
theorem run_advance {c : Cursor} {t : Token} (ht : Cursor.upcoming 0 c.rest = some t) :
    ∃ c₁, Parser.advance.run c = .ok t c₁ ∧ (t.IsLegal → c.Clears c₁) := by
  obtain ⟨passed, later, hspan, -, -⟩ := Lockstep.span_of_upcoming ht
  let c₁ : Cursor := { c with
    rest := later
    lastEnd := t.stop
    strayComments := c.strayComments ++ passed.map Token.range }
  refine ⟨c₁, ?_, fun hlegal => ⟨⟨passed ++ [t], ?_, ?_⟩, rfl⟩⟩
  · simp only [Parser.advance, EStateM.run, Bind.bind, EStateM.bind, MonadState.get, getThe,
      MonadStateOf.get, EStateM.get, hspan]
    rfl
  · rw [List.span_eq_takeWhile_dropWhile, Prod.mk.injEq] at hspan
    obtain ⟨hpassed, hlater⟩ := hspan
    rw [List.append_assoc, List.singleton_append, ← hpassed, ← hlater,
      List.takeWhile_append_dropWhile]
  · rw [List.span_eq_takeWhile_dropWhile, Prod.mk.injEq] at hspan
    intro u hu
    rw [List.mem_append, List.mem_singleton, ← hspan.1] at hu
    rcases hu with hu | rfl
    · exact Token.isLegal_of_comment (List.mem_takeWhile_imp hu)
    · exact hlegal

/-- Taking the next token is safe where it is no error. -/
theorem advance {c : Cursor} {t : Token} {q : Token → Parser β} (hc : c₀.Clears c)
    (ht : Cursor.upcoming 0 c.rest = some t) (hlegal : t.IsLegal) (hq : Wary c₀ (q t)) :
    c₀.Halts ((Parser.advance >>= q).run c) := by
  obtain ⟨c₁, hrun, hclears⟩ := run_advance ht
  rw [Twin.run_bind_of_ok hrun]
  exact hq c₁ (hc.trans (hclears hlegal))

/-- A look ahead whose success says that the next token is no error. -/
def Knows (p : Parser Bool) : Prop :=
  ∀ c, ∃ b, p.run c = .ok b c ∧
    (b = true → ∃ t, Cursor.upcoming 0 c.rest = some t ∧ t.IsLegal)

/-- A token may be taken after a look at what it is. -/
theorem advanceIf {p : Parser Bool} {q : Token → Parser β} {r : Parser β} (hp : Knows p)
    (hq : ∀ t, Wary c₀ (q t)) (hr : Wary c₀ r) :
    Wary c₀ (p >>= fun b => if b = true then Parser.advance >>= q else r) := by
  intro c hc
  obtain ⟨b, hrun, hnext⟩ := hp c
  rw [Twin.run_bind_of_ok hrun]
  cases b with
  | true =>
      obtain ⟨t, ht, hlegal⟩ := hnext rfl
      exact advance hc ht hlegal (hq t)
  | false => exact hr c hc

theorem knows_isAt (k : TokenKind) : Knows (Parser.isAt k) := by
  intro c
  refine ⟨_, rfl, fun hb => ?_⟩
  have hkind : Parser.kind? (Cursor.upcoming 0 c.rest) = some k := by simpa using hb
  obtain ⟨t, ht, hcls⟩ := Option.map_eq_some_iff.mp (Parser.kind?_eq_some.mp hkind)
  exact ⟨t, ht, by simp [Token.IsLegal, hcls]⟩

theorem knows_isContinue : Knows Grammar.isContinue := by
  intro c
  have hpeek : Parser.peek.run c = .ok (Cursor.upcoming 0 c.rest) c := rfl
  rw [Grammar.isContinue, Twin.run_bind_of_ok hpeek]
  cases ht : Cursor.upcoming 0 c.rest with
  | none => exact ⟨false, rfl, by simp⟩
  | some t =>
      dsimp only
      by_cases hword : (t.cls == .token .name && t.text == "continue".toList) = true
      · rw [if_pos hword]
        refine ⟨_, rfl, fun _ => ⟨t, rfl, ?_⟩⟩
        simp only [Bool.and_eq_true, beq_iff_eq] at hword
        simp [Token.IsLegal, hword.1]
      · rw [if_neg hword]
        exact ⟨false, rfl, by simp⟩

/-- What is taken as a leaf of its own kind is no error, or there is no leaf. -/
theorem bump : Wary c₀ Parser.bump := by
  intro c hc
  cases ht : Cursor.upcoming 0 c.rest with
  | none =>
      have hrun := Twin.run_advance_none ht
      simp only [Parser.bump, EStateM.run, Bind.bind, EStateM.bind] at hrun ⊢
      rw [hrun]
      exact .fault
  | some t =>
      cases hcls : t.cls with
      | token k =>
          have hlegal : t.IsLegal := by simp [Token.IsLegal, hcls]
          refine advance hc ht hlegal ?_
          rw [hcls]
          exact leaf
      | literal k =>
          have hlegal : t.IsLegal := by simp [Token.IsLegal, hcls]
          refine advance hc ht hlegal ?_
          rw [hcls]
          exact leaf
      | comment =>
          obtain ⟨c₁, hrun, -⟩ := run_advance ht
          rw [Parser.bump, Twin.run_bind_of_ok hrun, hcls]
          exact .fault
      | error cause =>
          obtain ⟨c₁, hrun, -⟩ := run_advance ht
          rw [Parser.bump, Twin.run_bind_of_ok hrun, hcls]
          exact .fault

theorem expect {k : TokenKind} : Wary c₀ (Parser.expect k) :=
  (isAt k).bind fun _ => ite (fun _ => bump) fun _ => unexpected

theorem expectName : Wary c₀ Parser.expectName :=
  (isAt .name).bind fun _ => ite (fun _ => bump) fun _ => unexpected

theorem eat {k : TokenKind} : Wary c₀ (Parser.eat k) :=
  (isAt k).bind fun _ => ite (fun _ => map bump) fun _ => pure

/-- Comments may be taken anywhere. -/
theorem comments : Wary c₀ Parser.comments := by
  intro c hc
  let later := c.rest.dropWhile Token.isComment
  have hclears : c.Clears { c with rest := later } := by
    refine ⟨⟨c.rest.takeWhile Token.isComment, ?_, ?_⟩, rfl⟩
    · exact List.takeWhile_append_dropWhile.symm
    · intro t ht
      exact Token.isLegal_of_comment (List.mem_takeWhile_imp ht)
  obtain ⟨nodes, made, hrun, -⟩ := Twin.run_leaves (.stmt .comment)
    (c.rest.takeWhile Token.isComment) { c with rest := later }
  have hget : (MonadState.get : Parser Cursor).run c = .ok c c := rfl
  have hset : (set { c with rest := later } : Parser PUnit).run c =
      .ok ⟨⟩ { c with rest := later } := rfl
  rw [Parser.comments, Twin.run_bind_of_ok hget, List.span_eq_takeWhile_dropWhile,
    Twin.run_bind_of_ok hset, hrun]
  exact .ok ((hc.trans hclears).of_eq rfl rfl)

/-! ### Repetition -/

theorem manyFrom {step : Parser (List Node × Bool)} (hstep : Wary c₀ step) (bound : Nat) :
    Wary c₀ (Parser.manyFrom step bound) := by
  induction bound with
  | zero => exact broken
  | succ bound ih =>
      refine hstep.bind fun result => ?_
      exact ite (fun _ => map ih) fun _ => pure

theorem many {step : Parser (List Node × Bool)} (hstep : Wary c₀ step) :
    Wary c₀ (Parser.many step) :=
  get.bind fun _ => manyFrom hstep _

theorem chainFrom {step : Node → Parser (Option Node)} (hstep : ∀ n, Wary c₀ (step n))
    (bound : Nat) (n : Node) : Wary c₀ (Parser.chainFrom step bound n) := by
  induction bound generalizing n with
  | zero => exact broken
  | succ bound ih =>
      refine (hstep n).bind fun wrapped => ?_
      cases wrapped with
      | none => exact pure
      | some wrapped => exact ih wrapped

theorem chain {step : Node → Parser (Option Node)} (hstep : ∀ n, Wary c₀ (step n)) (n : Node) :
    Wary c₀ (Parser.chain step n) :=
  get.bind fun _ => chainFrom hstep _ n

/-- A mark with what follows it, as often as the mark comes. -/
theorem more {k : TokenKind} {item : Parser α} (nodes : α → List Node) (hitem : Wary c₀ item) :
    Wary c₀
      (Parser.many do
        match ← Parser.eat k with
        | some mark => return (mark :: nodes (← item), true)
        | none => return ([], false)) := by
  refine many (eat.bind fun mark => ?_)
  cases mark with
  | none => exact pure
  | some mark => exact map hitem

theorem separatedBy {k : TokenKind} {item : Parser Node} (hitem : Wary c₀ item) :
    Wary c₀ (Parser.separatedBy k item) :=
  hitem.bind fun _ => map (more (fun n => [n]) hitem)

end Wary

/-! ### Expressions -/

/-- What lies deeper is read without a step over an error. -/
structure Descent.Wary (c₀ : Cursor) (d : Descent) : Prop where
  operand : ∀ limit, LuauTidy.Wary c₀ (d.operand limit)
  block : LuauTidy.Wary c₀ d.block

namespace Wary

variable {c₀ : Cursor} {d : Descent}

theorem expr (hd : d.Wary c₀) : Wary c₀ d.expr := hd.operand 0

theorem exprs (hd : d.Wary c₀) : Wary c₀ (Grammar.exprs d) := separatedBy (expr hd)

theorem parameters : Wary c₀ Grammar.parameters := by
  refine many (peekClass.bind fun cls => ?_)
  split
  · exact map bump
  · refine expectName.bind fun name => eat.bind fun comma => ?_
    cases comma with
    | none => exact pure
    | some comma => exact pure

theorem functionBody (hd : d.Wary c₀) : Wary c₀ (Grammar.functionBody d) := by
  refine expect.bind fun opening => (isAt .rparen).bind fun closed => ?_
  extract_lets tail
  have htail : ∀ params, Wary c₀ (tail params) := by
    intro params
    refine expect.bind fun closing => hd.block.bind fun block => ?_
    exact expect.bind fun last => finish
  refine ite (fun _ => htail []) fun _ => ?_
  exact parameters.bind fun names => finish.bind fun list => htail [list]

theorem anonymousFunction (hd : d.Wary c₀) : Wary c₀ (Grammar.anonymousFunction d) :=
  bump.bind fun _ => (functionBody hd).bind fun _ => finish

theorem branch (hd : d.Wary c₀) : Wary c₀ (Grammar.branch d) :=
  (expr hd).bind fun _ => expect.bind fun _ => map (expr hd)

theorem conditional (hd : d.Wary c₀) : Wary c₀ (Grammar.conditional d) := by
  refine bump.bind fun mark => (branch hd).bind fun first => ?_
  refine (more _ (branch hd)).bind fun others => ?_
  exact expect.bind fun elseMark => (expr hd).bind fun value => finish

theorem field (hd : d.Wary c₀) : Wary c₀ (Grammar.field d) := by
  refine (isAt .lbracket).bind fun bracketed => ?_
  refine ite (fun _ => ?_) fun _ => ?_
  · refine bump.bind fun opening => (expr hd).bind fun key => ?_
    exact expect.bind fun closing => expect.bind fun mark => (expr hd).bind fun value => finish
  · refine (isAt .name).bind fun named => (nth 1).bind fun after => ?_
    refine ite (fun _ => ?_) fun _ => ?_
    · exact bump.bind fun name => bump.bind fun mark => (expr hd).bind fun value => finish
    · exact (expr hd).bind fun value => finish

theorem fieldStep (hd : d.Wary c₀) : Wary c₀ (Grammar.fieldStep d) := by
  refine comments.bind fun before => (isAt .rbrace).bind fun closed => ?_
  refine ite (fun _ => pure) fun _ => ?_
  refine (field hd).bind fun f => comments.bind fun after => ?_
  refine (isAt .comma).bind fun comma => (isAt .semi).bind fun semi => ?_
  exact ite (fun _ => map bump) fun _ => pure

theorem table (hd : d.Wary c₀) : Wary c₀ (Grammar.table d) := by
  refine expect.bind fun opening => (isRightAt .rbrace).bind fun closed => ?_
  extract_lets tail
  have htail : ∀ fields, Wary c₀ (tail fields) := by
    intro fields
    exact expect.bind fun closing => finish
  refine ite (fun _ => htail []) fun _ => ?_
  exact (many (fieldStep hd)).bind fun items => finish.bind fun list => htail [list]

theorem interpolationStep (hd : d.Wary c₀) : Wary c₀ (Grammar.interpolationStep d) := by
  refine peekKind.bind fun kind => ?_
  split
  · exact map bump
  · refine bump.bind fun opening => (expr hd).bind fun value => ?_
    exact expect.bind fun closing => map finish
  · exact map bump
  · exact unexpected

theorem interpolation (hd : d.Wary c₀) : Wary c₀ (Grammar.interpolation d) :=
  bump.bind fun _ => (many (interpolationStep hd)).bind fun _ => finish

theorem arguments (hd : d.Wary c₀) : Wary c₀ (Grammar.arguments d) := by
  refine peekClass.bind fun cls => ?_
  split
  · refine bump.bind fun opening => (isAt .rparen).bind fun closed => ?_
    extract_lets tail
    have htail : ∀ values, Wary c₀ (tail values) := by
      intro values
      exact expect.bind fun closing => finish
    exact ite (fun _ => htail []) fun _ => (exprs hd).bind htail
  · exact bump.bind fun value => finish
  · exact (table hd).bind fun value => finish
  · exact unexpected

theorem base (hd : d.Wary c₀) : Wary c₀ (Grammar.base d) := by
  refine peekKind.bind fun kind => ?_
  split
  · exact bump.bind fun name => finish
  · refine bump.bind fun opening => (expr hd).bind fun inside => ?_
    exact expect.bind fun closing => finish
  · exact unexpected

theorem suffix (hd : d.Wary c₀) (n : Node) : Wary c₀ (Grammar.suffix d n) := by
  refine peekClass.bind fun cls => ?_
  split
  · exact bump.bind fun mark => expectName.bind fun name => map finish
  · refine bump.bind fun opening => (expr hd).bind fun key => ?_
    exact expect.bind fun closing => map finish
  · refine bump.bind fun mark => expectName.bind fun name => ?_
    exact (arguments hd).bind fun values => map finish
  · exact (arguments hd).bind fun values => map finish
  · exact (arguments hd).bind fun values => map finish
  · exact (arguments hd).bind fun values => map finish
  · exact pure

theorem suffixed (hd : d.Wary c₀) : Wary c₀ (Grammar.suffixed d) :=
  (base hd).bind fun first => chain (suffix hd) first

theorem simple (hd : d.Wary c₀) : Wary c₀ (Grammar.simple d) := by
  refine peekClass.bind fun cls => ?_
  split
  · exact bump
  · exact interpolation hd
  · exact table hd
  · exact anonymousFunction hd
  · exact conditional hd
  · exact suffixed hd

theorem unary (hd : d.Wary c₀) : Wary c₀ (Grammar.unary d) :=
  bump.bind fun _ => (hd.operand unaryPower).bind fun _ => finish

theorem binary (hd : d.Wary c₀) (limit : Nat) (left : Node) :
    Wary c₀ (Grammar.binary d limit left) := by
  refine peekKind.bind fun kind => ?_
  split
  · exact pure
  · rename_i leftPower rightPower _
    refine ite (fun _ => pure) fun _ => ?_
    exact bump.bind fun mark => (hd.operand rightPower).bind fun right => map finish

theorem operand (hd : d.Wary c₀) (limit : Nat) : Wary c₀ (Grammar.operand d limit) := by
  refine peekKind.bind fun kind => ?_
  refine ite (fun _ => ?_) fun _ => ?_
  · exact (unary hd).bind fun first => chain (binary hd limit) first
  · exact (simple hd).bind fun first => chain (binary hd limit) first

/-! ### Statements -/

theorem binding : Wary c₀ Grammar.binding := expectName.bind fun _ => finish

theorem localStatement (hd : d.Wary c₀) : Wary c₀ (Grammar.localStatement d) := by
  refine (nth 1).bind fun after => ite (fun _ => ?_) fun _ => ?_
  · refine bump.bind fun mark => bump.bind fun functionMark => ?_
    exact expectName.bind fun name => (functionBody hd).bind fun body => finish
  · refine bump.bind fun mark => (separatedBy binding).bind fun names => ?_
    refine eat.bind fun equals => ?_
    cases equals with
    | none => exact finish
    | some equals => exact (exprs hd).bind fun values => finish

theorem functionName : Wary c₀ Grammar.functionName := by
  refine (separatedBy expectName).bind fun names => eat.bind fun colon => ?_
  cases colon with
  | none => exact finish
  | some colon => exact expectName.bind fun name => finish

theorem functionStatement (hd : d.Wary c₀) : Wary c₀ (Grammar.functionStatement d) :=
  bump.bind fun _ => functionName.bind fun _ => (functionBody hd).bind fun _ => finish

theorem guardedBlock (hd : d.Wary c₀) : Wary c₀ (Grammar.guardedBlock d) :=
  (expr hd).bind fun _ => expect.bind fun _ => map hd.block

theorem ifStatement (hd : d.Wary c₀) : Wary c₀ (Grammar.ifStatement d) := by
  refine bump.bind fun mark => (guardedBlock hd).bind fun first => ?_
  refine (more _ (guardedBlock hd)).bind fun others => eat.bind fun elseMark => ?_
  cases elseMark with
  | none => exact expect.bind fun last => finish
  | some elseMark => exact hd.block.bind fun block => expect.bind fun last => finish

theorem whileStatement (hd : d.Wary c₀) : Wary c₀ (Grammar.whileStatement d) := by
  refine bump.bind fun mark => (expr hd).bind fun condition => ?_
  exact expect.bind fun doMark => hd.block.bind fun block => expect.bind fun last => finish

theorem doStatement (hd : d.Wary c₀) : Wary c₀ (Grammar.doStatement d) :=
  bump.bind fun _ => hd.block.bind fun _ => expect.bind fun _ => finish

theorem repeatStatement (hd : d.Wary c₀) : Wary c₀ (Grammar.repeatStatement d) := by
  refine bump.bind fun mark => hd.block.bind fun block => ?_
  exact expect.bind fun untilMark => (expr hd).bind fun condition => finish

theorem bounds (hd : d.Wary c₀) : Wary c₀ (Grammar.bounds d) := by
  refine expect.bind fun equals => (expr hd).bind fun first => ?_
  refine expect.bind fun comma => (expr hd).bind fun last => eat.bind fun mark => ?_
  cases mark with
  | none => exact pure
  | some mark => exact map (expr hd)

theorem iterators (hd : d.Wary c₀) : Wary c₀ (Grammar.iterators d) := by
  refine (more (fun n => [n]) binding).bind fun names => ?_
  exact expect.bind fun mark => map (exprs hd)

theorem forStatement (hd : d.Wary c₀) : Wary c₀ (Grammar.forStatement d) := by
  refine (nth 2).bind fun after => bump.bind fun mark => binding.bind fun name => ?_
  refine ite (fun _ => ?_) fun _ => ?_
  · refine (bounds hd).bind fun header => expect.bind fun doMark => ?_
    exact hd.block.bind fun block => expect.bind fun last => finish
  · refine (iterators hd).bind fun header => expect.bind fun doMark => ?_
    exact hd.block.bind fun block => expect.bind fun last => finish

theorem returnStatement (hd : d.Wary c₀) : Wary c₀ (Grammar.returnStatement d) := by
  refine bump.bind fun mark => atBlockEnd.bind fun closed => (isAt .semi).bind fun semi => ?_
  exact ite (fun _ => finish) fun _ => (exprs hd).bind fun values => finish

theorem assigned (hd : d.Wary c₀) : Wary c₀ (Grammar.assigned d) := by
  refine offset fun c hc => (suffixed hd).bind fun target => ?_
  exact ite (fun _ => pure) fun _ => wrong hc

theorem callStatement {c : Cursor} (hc : c₀.Clears c) (target : Node) :
    Wary c₀ (Grammar.exprStatement.callStatement c.place target) :=
  ite (fun _ => pure) fun _ => wrong hc

/-- What is no statement is complained of where it starts. -/
theorem exprStatement (hd : d.Wary c₀) : Wary c₀ (Grammar.exprStatement d) := by
  refine offset fun c hc => (suffixed hd).bind fun target => peekKind.bind fun kind => ?_
  split
  · refine ite (fun _ => ?_) fun _ => ite (fun _ => ?_) fun _ => callStatement hc target
    · refine ite (fun _ => (wrong hc).bind fun _ => ?_) fun _ => ?_
      all_goals
        refine (more (fun n => [n]) (assigned hd)).bind fun others => ?_
        refine finish.bind fun targets => expect.bind fun equals => ?_
        exact (exprs hd).bind fun row => finish.bind fun values => finish
    · refine ite (fun _ => (wrong hc).bind fun _ => ?_) fun _ => ?_
      all_goals exact bump.bind fun mark => (expr hd).bind fun value => finish
  · exact callStatement hc target

theorem statement (hd : d.Wary c₀) : Wary c₀ (Grammar.statement d) := by
  refine peekKind.bind fun kind => ?_
  split
  · exact localStatement hd
  · exact functionStatement hd
  · exact ifStatement hd
  · exact whileStatement hd
  · exact doStatement hd
  · exact forStatement hd
  · exact repeatStatement hd
  · exact returnStatement hd
  · exact bump.bind fun mark => finish
  · simp only [Parser.bumpAs, bind_assoc]
    refine advanceIf knows_isContinue (fun t => ?_) (exprStatement hd)
    exact leaf.bind fun mark => finish

/-! ### Blocks -/

theorem semicolons : Wary c₀ Grammar.semicolons := by
  refine (many ?_).bind fun _ => pure
  exact advanceIf (knows_isAt .semi) (fun _ => pure) pure

theorem blockStep (hd : d.Wary c₀) : Wary c₀ (Grammar.blockStep d) := by
  refine comments.bind fun before => atBlockEnd.bind fun closed => ?_
  refine ite (fun _ => pure) fun _ => ?_
  refine (isAt .kwReturn).bind fun isReturn => (statement hd).bind fun s => ?_
  refine semicolons.bind fun _ => ite (fun _ => ?_) fun _ => pure
  refine comments.bind fun after => atBlockEnd.bind fun closed => ?_
  exact ite (fun _ => pure) fun _ => unexpected

theorem blockItems (hd : d.Wary c₀) : Wary c₀ (Grammar.blockItems d) := many (blockStep hd)

theorem block (hd : d.Wary c₀) : Wary c₀ (Grammar.block d) :=
  get.bind fun _ => (blockItems hd).bind fun _ => finishAt

theorem chunk (hd : d.Wary c₀) : Wary c₀ (Grammar.chunk d) := by
  refine (blockItems hd).bind fun items => peek.bind fun next => ?_
  exact ite (fun _ => unexpected) fun _ => finishAt

/-- No level of the grammar takes a step over an error. -/
theorem ofDepth (depth : Nat) : (Descent.ofDepth depth).Wary c₀ := by
  induction depth with
  | zero => exact ⟨fun _ => broken, broken⟩
  | succ depth ih => exact ⟨operand ih, block ih⟩

end Wary

end LuauTidy
