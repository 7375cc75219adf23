import LuauTidy.Proofs.ExprReading

namespace LuauTidy.Grammar

open LuauTidy.Parser LuauTidy.Reading

variable {d : Descent}

/-! ### Names -/

theorem reads_binding : ReadsOne .binding binding := by
  intro c ws node c' hrun
  simp only [binding, run_bind] at hrun
  obtain ⟨name, _, hname, hrun⟩ := hrun
  obtain ⟨_, _, rfl, h⟩ := (start c ws).andName hname
  exact h.finish .binding (by simp) hrun (by simp)

theorem reads_name : ReadsOne .name expectName := by
  intro c ws node c' hrun
  obtain ⟨_, _, rfl, h⟩ := (start c ws).andName hrun
  exact ⟨_, _, rfl, h.flat .name⟩

theorem reads_functionName : ReadsOne .functionName functionName := by
  intro c ws node c' hrun
  simp only [functionName, run_bind] at hrun
  obtain ⟨names, _, hnames, colon, _, heat, hrun⟩ := hrun
  obtain ⟨_, _, rfl, h⟩ := (start c ws).andSeparated (.inr rfl) reads_name hnames
  obtain ⟨rfl, hk, rfl⟩ | ⟨node, _, _, rfl, rfl, h'⟩ := run_eat h heat
  · exact (h.look hk).finish .functionName (by simp) hrun (by simp)
  · simp only [run_bind] at hrun
    obtain ⟨method, _, hmethod, hrun⟩ := hrun
    obtain ⟨_, _, rfl, h'⟩ := h'.andName hmethod
    exact h'.finish .methodName (by simp) hrun (by simp)

/-! ### Declarations -/

theorem reads_localStatement (hd : d.Sound) {c : Cursor} {ws : List Word} {node : Node}
    {c' : Cursor} (hnext : (Word.ahead ws).cls = some (.token .kwLocal))
    (hrun : (localStatement d).run (c.facing ws) = .ok node c') :
    ∃ c₁ ws₁, c' = c₁.facing ws₁ ∧ Reading c ws [.sub .statement] [node] c₁ ws₁ := by
  simp only [localStatement, run_bind] at hrun
  obtain ⟨_, _, hnth, hrun⟩ := hrun
  obtain ⟨rfl, rfl⟩ := run_nth.mp hnth
  split at hrun
  · rename_i hk
    simp only [beq_iff_eq] at hk
    simp only [run_bind] at hrun
    obtain ⟨mark, _, hmark, functionMark, _, hfunction, name, _, hname, body, _, hbody, hrun⟩ :=
      hrun
    obtain ⟨c₁, ws₁, rfl, h⟩ := (start c ws).andBump hnext hmark
    have hnext' : (Word.ahead ws₁).cls = some (.token .kwFunction) := by
      rw [← upcoming_words, ← kind?_eq_some, ← h.upcoming_mark]
      exact hk
    obtain ⟨_, _, rfl, h⟩ := h.andBump hnext' hfunction
    obtain ⟨_, _, rfl, h⟩ := h.andName hname
    obtain ⟨_, _, rfl, h⟩ := h.andThen (reads_functionBody hd) hbody
    exact h.finish .localFunction (by simp) hrun (by simp)
  · simp only [run_bind] at hrun
    obtain ⟨mark, _, hmark, names, _, hnames, equals, _, heat, hrun⟩ := hrun
    obtain ⟨_, _, rfl, h⟩ := (start c ws).andBump hnext hmark
    obtain ⟨_, _, rfl, h⟩ := h.andSeparated (.inl rfl) reads_binding hnames
    obtain ⟨rfl, hk, rfl⟩ | ⟨node, _, _, rfl, rfl, h'⟩ := run_eat h heat
    · exact (h.look hk).finish .declaration (by simp) hrun (by simp)
    · simp only [run_bind] at hrun
      obtain ⟨values, _, hvalues, hrun⟩ := hrun
      obtain ⟨_, _, rfl, h'⟩ := h'.andThen (reads_exprs hd) hvalues
      exact h'.finish .definition (by simp) hrun (by simp)

theorem reads_functionStatement (hd : d.Sound) {c : Cursor} {ws : List Word} {node : Node}
    {c' : Cursor} (hnext : (Word.ahead ws).cls = some (.token .kwFunction))
    (hrun : (functionStatement d).run (c.facing ws) = .ok node c') :
    ∃ c₁ ws₁, c' = c₁.facing ws₁ ∧ Reading c ws [.sub .statement] [node] c₁ ws₁ := by
  simp only [functionStatement, run_bind] at hrun
  obtain ⟨mark, _, hmark, name, _, hname, body, _, hbody, hrun⟩ := hrun
  obtain ⟨_, _, rfl, h⟩ := (start c ws).andBump hnext hmark
  obtain ⟨_, _, rfl, h⟩ := h.andThen reads_functionName hname
  obtain ⟨_, _, rfl, h⟩ := h.andThen (reads_functionBody hd) hbody
  exact h.finish .function (by simp) hrun (by simp)

/-! ### Branches -/

/-- A condition with its block, after the keyword. -/
theorem guardedBlock_reading (hd : d.Sound) {c c₁ c' : Cursor} {ws ws₁ : List Word}
    {symbols : List Symbol} {made nodes : List Node} (h : Reading c ws symbols made c₁ ws₁)
    (hrun : (guardedBlock d).run (c₁.facing ws₁) = .ok nodes c') :
    ∃ c₂ ws₂, c' = c₂.facing ws₂ ∧
      Reading c ws (symbols ++ [.sub .expr] ++ [.mark .kwThen] ++ [.sub .block]) (made ++ nodes)
        c₂ ws₂ := by
  simp only [guardedBlock, run_bind, run_pure] at hrun
  obtain ⟨condition, _, hcondition, mark, _, hmark, block, _, hblock, rfl, rfl⟩ := hrun
  obtain ⟨_, _, rfl, h⟩ := h.andThen (reads_expr hd) hcondition
  obtain ⟨_, _, rfl, h⟩ := h.andExpect hmark
  obtain ⟨_, _, rfl, h⟩ := h.andThen hd.block hblock
  exact ⟨_, _, rfl, by simpa using h⟩

theorem readsStep_elseifBlock (hd : d.Sound) :
    ReadsStep .elseifBlocks (do
      match ← eat .kwElseif with
      | some mark => return (mark :: (← guardedBlock d), true)
      | none => return ([], false)) := by
  intro c ws made more c' hrun
  simp only [run_bind] at hrun
  obtain ⟨mark, _, heat, hrun⟩ := hrun
  obtain ⟨rfl, hk, rfl⟩ | ⟨node, c₁, ws₁, rfl, rfl, h⟩ := run_eat (start c ws) heat
  · simp only [run_pure, Prod.mk.injEq] at hrun
    obtain ⟨⟨rfl, rfl⟩, rfl⟩ := hrun
    exact ⟨c, ws, _, rfl, start c ws, .noElseifBlock⟩
  · simp only [run_bind, run_pure, Prod.mk.injEq] at hrun
    obtain ⟨nodes, _, hbranch, ⟨rfl, rfl⟩, rfl⟩ := hrun
    obtain ⟨_, _, rfl, h⟩ := guardedBlock_reading hd h hbranch
    exact ⟨_, _, _, rfl, h, .elseifBlock⟩

theorem reads_ifStatement (hd : d.Sound) {c : Cursor} {ws : List Word} {node : Node}
    {c' : Cursor} (hnext : (Word.ahead ws).cls = some (.token .kwIf))
    (hrun : (ifStatement d).run (c.facing ws) = .ok node c') :
    ∃ c₁ ws₁, c' = c₁.facing ws₁ ∧ Reading c ws [.sub .statement] [node] c₁ ws₁ := by
  simp only [ifStatement, run_bind] at hrun
  obtain ⟨mark, _, hmark, first, _, hfirst, others, _, hothers, elseMark, _, heat, hrun⟩ := hrun
  obtain ⟨_, _, rfl, h⟩ := (start c ws).andBump hnext hmark
  obtain ⟨_, _, rfl, h⟩ := guardedBlock_reading hd h hfirst
  obtain ⟨_, _, rfl, h⟩ := h.andThen (reads_many (readsStep_elseifBlock hd)) hothers
  obtain ⟨rfl, -, rfl⟩ | ⟨node, _, _, rfl, rfl, h'⟩ := run_eat (start _ _) heat
  · simp only [run_bind, run_pure] at hrun
    obtain ⟨_, _, ⟨rfl, rfl⟩, last, _, hlast, hrun⟩ := hrun
    have h := h.append ((start _ _).flat .noElseBlock)
    obtain ⟨_, _, rfl, h⟩ := h.andExpect hlast
    exact h.finish .ifStatement (by simp) hrun (by simp)
  · simp only [run_bind, run_pure] at hrun
    obtain ⟨block, _, hblock, _, _, ⟨rfl, rfl⟩, last, _, hlast, hrun⟩ := hrun
    obtain ⟨_, _, rfl, h'⟩ := h'.andThen hd.block hblock
    have h := h.append (h'.flat .elseBlock)
    obtain ⟨_, _, rfl, h⟩ := h.andExpect hlast
    exact h.finish .ifStatement (by simp) hrun (by simp)

/-! ### Loops -/

theorem reads_whileStatement (hd : d.Sound) {c : Cursor} {ws : List Word} {node : Node}
    {c' : Cursor} (hnext : (Word.ahead ws).cls = some (.token .kwWhile))
    (hrun : (whileStatement d).run (c.facing ws) = .ok node c') :
    ∃ c₁ ws₁, c' = c₁.facing ws₁ ∧ Reading c ws [.sub .statement] [node] c₁ ws₁ := by
  simp only [whileStatement, run_bind] at hrun
  obtain ⟨mark, _, hmark, condition, _, hcondition, doMark, _, hdo, block, _, hblock, last, _,
    hlast, hrun⟩ := hrun
  obtain ⟨_, _, rfl, h⟩ := (start c ws).andBump hnext hmark
  obtain ⟨_, _, rfl, h⟩ := h.andThen (reads_expr hd) hcondition
  obtain ⟨_, _, rfl, h⟩ := h.andExpect hdo
  obtain ⟨_, _, rfl, h⟩ := h.andThen hd.block hblock
  obtain ⟨_, _, rfl, h⟩ := h.andExpect hlast
  exact h.finish .whileStatement (by simp) hrun (by simp)

theorem reads_doStatement (hd : d.Sound) {c : Cursor} {ws : List Word} {node : Node}
    {c' : Cursor} (hnext : (Word.ahead ws).cls = some (.token .kwDo))
    (hrun : (doStatement d).run (c.facing ws) = .ok node c') :
    ∃ c₁ ws₁, c' = c₁.facing ws₁ ∧ Reading c ws [.sub .statement] [node] c₁ ws₁ := by
  simp only [doStatement, run_bind] at hrun
  obtain ⟨mark, _, hmark, block, _, hblock, last, _, hlast, hrun⟩ := hrun
  obtain ⟨_, _, rfl, h⟩ := (start c ws).andBump hnext hmark
  obtain ⟨_, _, rfl, h⟩ := h.andThen hd.block hblock
  obtain ⟨_, _, rfl, h⟩ := h.andExpect hlast
  exact h.finish .doStatement (by simp) hrun (by simp)

theorem reads_repeatStatement (hd : d.Sound) {c : Cursor} {ws : List Word} {node : Node}
    {c' : Cursor} (hnext : (Word.ahead ws).cls = some (.token .kwRepeat))
    (hrun : (repeatStatement d).run (c.facing ws) = .ok node c') :
    ∃ c₁ ws₁, c' = c₁.facing ws₁ ∧ Reading c ws [.sub .statement] [node] c₁ ws₁ := by
  simp only [repeatStatement, run_bind] at hrun
  obtain ⟨mark, _, hmark, block, _, hblock, untilMark, _, huntil, condition, _, hcondition,
    hrun⟩ := hrun
  obtain ⟨_, _, rfl, h⟩ := (start c ws).andBump hnext hmark
  obtain ⟨_, _, rfl, h⟩ := h.andThen hd.block hblock
  obtain ⟨_, _, rfl, h⟩ := h.andExpect huntil
  obtain ⟨_, _, rfl, h⟩ := h.andThen (reads_expr hd) hcondition
  exact h.finish .repeatStatement (by simp) hrun (by simp)

theorem reads_forStatement (hd : d.Sound) {c : Cursor} {ws : List Word} {node : Node}
    {c' : Cursor} (hnext : (Word.ahead ws).cls = some (.token .kwFor))
    (hrun : (forStatement d).run (c.facing ws) = .ok node c') :
    ∃ c₁ ws₁, c' = c₁.facing ws₁ ∧ Reading c ws [.sub .statement] [node] c₁ ws₁ := by
  simp only [forStatement, run_bind] at hrun
  obtain ⟨_, _, hnth, mark, _, hmark, name, _, hname, hrun⟩ := hrun
  obtain ⟨-, rfl⟩ := run_nth.mp hnth
  obtain ⟨_, _, rfl, h⟩ := (start c ws).andBump hnext hmark
  obtain ⟨_, _, rfl, h⟩ := h.andThen reads_binding hname
  split at hrun
  · simp only [bounds, run_bind] at hrun
    obtain ⟨header, _, ⟨equals, _, hequals, first, _, hfirst, comma, _, hcomma, last, _, hlast,
      comma', _, heat, hheader⟩, doMark, _, hdo, block, _, hblock, endMark, _, hend, hrun⟩ := hrun
    obtain ⟨_, _, rfl, h⟩ := h.andExpect hequals
    obtain ⟨_, _, rfl, h⟩ := h.andThen (reads_expr hd) hfirst
    obtain ⟨_, _, rfl, h⟩ := h.andExpect hcomma
    obtain ⟨_, _, rfl, h⟩ := h.andThen (reads_expr hd) hlast
    obtain ⟨rfl, -, rfl⟩ | ⟨node, _, _, rfl, rfl, h⟩ := run_eat h heat
    · simp only [run_pure] at hheader
      obtain ⟨rfl, rfl⟩ := hheader
      obtain ⟨_, _, rfl, h⟩ := h.andExpect hdo
      obtain ⟨_, _, rfl, h⟩ := h.andThen hd.block hblock
      obtain ⟨_, _, rfl, h⟩ := h.andExpect hend
      exact h.finish .forRange (by simp) hrun (by simp)
    · simp only [run_bind, run_pure] at hheader
      obtain ⟨step, _, hstep, rfl, rfl⟩ := hheader
      obtain ⟨_, _, rfl, h⟩ := h.andThen (reads_expr hd) hstep
      obtain ⟨_, _, rfl, h⟩ := h.andExpect hdo
      obtain ⟨_, _, rfl, h⟩ := h.andThen hd.block hblock
      obtain ⟨_, _, rfl, h⟩ := h.andExpect hend
      exact h.finish .forRangeStep (by simp) hrun (by simp)
  · simp only [iterators, run_bind, run_pure] at hrun
    obtain ⟨header, _, ⟨names, _, hnames, inMark, _, hin, values, _, hvalues, rfl, rfl⟩, doMark, _,
      hdo, block, _, hblock, endMark, _, hend, hrun⟩ := hrun
    obtain ⟨_, _, rfl, h⟩ := h.andThen (reads_many (readsStep_more (.inl rfl) reads_binding)) hnames
    obtain ⟨_, _, rfl, h⟩ := h.andExpect hin
    obtain ⟨_, _, rfl, h⟩ := h.andThen (reads_exprs hd) hvalues
    obtain ⟨_, _, rfl, h⟩ := h.andExpect hdo
    obtain ⟨_, _, rfl, h⟩ := h.andThen hd.block hblock
    obtain ⟨_, _, rfl, h⟩ := h.andExpect hend
    exact h.finish .forIn (by simp) hrun (by simp)

/-! ### Assignments and calls -/

/-- A suffixed expression whose node is a variable. -/
theorem variable_of_suffixed {f : Forest} {next : Ahead} {made lastEnd : Nat}
    {node : Node} (h : Derives [.sub .suffixed] f next) (hnode : [node] = f.nodes made lastEnd)
    (hkind : node.kind = .expr .var) : Derives [.sub .variable] f next := by
  obtain ⟨parts, rule, inside⟩ | ⟨kind, parts, inner, rfl, rule, -⟩ := h.phrase_cases
  · cases rule
    obtain ⟨f, _, rfl, hchain, -, -, rfl⟩ := inside.parted
    rw [Forest.append_nil] at hnode ⊢
    obtain ⟨parts, rule, inside⟩ | ⟨kind, parts, inner, rfl, rule, -⟩ := hchain.phrase_cases
    · cases rule
      exact inside
    · cases rule <;> simp_all [Forest.nodes, Node.around]
  · cases rule

/-- A suffixed expression whose node is a call. -/
theorem callParts_of_suffixed {f : Forest} {next : Ahead} {made lastEnd : Nat}
    {node : Node} (h : Derives [.sub .suffixed] f next) (hnode : [node] = f.nodes made lastEnd)
    (hkind : node.kind = .expr .call) :
    ∃ inner, f = .node (.expr .call) inner .nil ∧ Derives [.sub .callParts] inner next ∧
      EndsChain next := by
  obtain ⟨parts, rule, inside⟩ | ⟨kind, parts, inner, rfl, rule, -⟩ := h.phrase_cases
  · cases rule
    obtain ⟨f, _, rfl, hchain, -, hends, rfl⟩ := inside.parted
    rw [Forest.append_nil] at hnode ⊢
    obtain ⟨parts, rule, inside⟩ | ⟨kind, parts, inner, rfl, rule, inside⟩ := hchain.phrase_cases
    · cases rule
      obtain ⟨parts, rule, -⟩ | ⟨kind, parts, inner, rfl, rule, -⟩ := inside.phrase_cases
      · cases rule
      · cases rule <;> simp_all [Forest.nodes, Node.around]
    · cases rule with
      | chainCall => exact ⟨inner, rfl, inside, hends⟩
      | parens => simp_all [Forest.nodes, Node.around]
  · cases rule

/-- A suffixed expression that can be assigned to. -/
theorem variable_reading {c c₁ : Cursor} {ws ws₁ : List Word} {node : Node}
    (h : Reading c ws [.sub .suffixed] [node] c₁ ws₁) (hkind : node.kind = .expr .var) :
    Reading c ws [.sub .variable] [node] c₁ ws₁ := by
  obtain ⟨f, hws, hc, hmade, hf⟩ := h
  exact ⟨f, hws, hc, hmade, variable_of_suffixed hf hmade hkind⟩

theorem reads_assigned (hd : d.Sound) : ReadsOne .variable (assigned d) := by
  intro c ws node c' hrun
  simp only [assigned, run_bind] at hrun
  obtain ⟨place, _, hplace, target, _, htarget, hrun⟩ := hrun
  obtain rfl := run_offset hplace
  obtain ⟨_, _, rfl, h⟩ := reads_suffixed hd htarget
  split at hrun
  · rename_i hkind
    simp only [run_pure] at hrun
    obtain ⟨rfl, rfl⟩ := hrun
    exact ⟨_, _, rfl, variable_reading h (by simpa using hkind)⟩
  · exact absurd hrun run_throw

/-- A call by itself becomes a statement. -/
theorem callStatement_reading {c c₁ c' : Cursor} {ws ws₁ : List Word} {place : Nat}
    {target node : Node} (h : Reading c ws [.sub .suffixed] [target] c₁ ws₁)
    (hends : EndsCall (Word.ahead ws₁))
    (hrun : (exprStatement.callStatement place target).run (c₁.facing ws₁) = .ok node c') :
    ∃ c₂ ws₂, c' = c₂.facing ws₂ ∧ Reading c ws [.sub .statement] [node] c₂ ws₂ := by
  simp only [exprStatement.callStatement] at hrun
  split at hrun
  · rename_i hkind
    simp only [run_pure] at hrun
    obtain ⟨rfl, rfl⟩ := hrun
    obtain ⟨f, hws, hc, hmade, hf⟩ := h
    obtain ⟨inner, rfl, hinner, hchain⟩ := callParts_of_suffixed hf hmade (by simpa using hkind)
    have hnode : target = Node.around (c.made + inner.count) (.expr .call) 0
        (inner.nodes c.made c.lastEnd) := by
      simpa [Forest.nodes, Forest.emptyPlace] using hmade
    have hparts : Derives [.sub .callParts, .look EndsChain, .look EndsCall] inner
        (Word.ahead ws₁) := by
      have h := hinner.append (.look hchain (.look hends (.nil _)))
      rwa [Forest.append_nil] at h
    refine ⟨c₁, ws₁, rfl, .node (.stmt .call) inner .nil, hws, hc, ?_, .ofNode .callStatement hparts⟩
    rw [hnode]
    rfl
  · exact absurd hrun run_throw

theorem reads_exprStatement (hd : d.Sound) {c : Cursor} {ws : List Word} {node : Node}
    {c' : Cursor} (hrun : (exprStatement d).run (c.facing ws) = .ok node c') :
    ∃ c₁ ws₁, c' = c₁.facing ws₁ ∧ Reading c ws [.sub .statement] [node] c₁ ws₁ := by
  simp only [exprStatement, run_bind] at hrun
  obtain ⟨place, _, hplace, target, _, htarget, kind, _, hpeek, hrun⟩ := hrun
  obtain rfl := run_offset hplace
  obtain ⟨c₁, ws₁, rfl, h⟩ := reads_suffixed hd htarget
  obtain ⟨rfl, rfl⟩ := run_peekKind.mp hpeek
  split at hrun
  · rename_i op hop
    rw [Cursor.facing_rest, kind?_eq_some, upcoming_words] at hop
    split at hrun
    · split at hrun
      · simp only [run_bind] at hrun
        obtain ⟨_, _, hthrow, _⟩ := hrun
        exact absurd hthrow run_throw
      · rename_i hkind
        simp only [run_bind] at hrun
        obtain ⟨others, _, hothers, targets, _, htargets, equals, _, hequals, values, _, hvalues,
          list, _, hlist, hrun⟩ := hrun
        have h := variable_reading h (by simpa using hkind)
        obtain ⟨_, _, rfl, h⟩ := h.andThen (reads_many (readsStep_more (.inl rfl) (reads_assigned hd))) hothers
        obtain ⟨_, _, rfl, h⟩ := h.finish .varList (by simp) htargets (by simp)
        obtain ⟨_, _, rfl, h⟩ := h.andExpect hequals
        obtain ⟨_, _, rfl, h'⟩ := reads_exprs hd hvalues
        obtain ⟨_, _, rfl, h'⟩ := h'.finish .exprList (by simp) hlist (by simp)
        exact (h.append h').finish .assignment (by simp) hrun (by simp)
    · rename_i hassign
      simp only [Bool.or_eq_true, beq_iff_eq, not_or] at hassign
      split at hrun
      · rename_i hcompound
        split at hrun
        · simp only [run_bind] at hrun
          obtain ⟨_, _, hthrow, _⟩ := hrun
          exact absurd hthrow run_throw
        · rename_i hkind
          simp only [run_bind] at hrun
          obtain ⟨mark, _, hmark, value, _, hvalue, hrun⟩ := hrun
          have h := variable_reading h (by simpa using hkind)
          obtain ⟨_, _, rfl, h⟩ := h.andBump hop hmark
          obtain ⟨_, _, rfl, h⟩ := h.andThen (reads_expr hd) hvalue
          exact h.finish (.compoundAssignment op hcompound) (by simp) hrun (by simp)
      · rename_i hcompound
        refine callStatement_reading h ?_ hrun
        intro k hk
        obtain rfl : op = k := by simpa [hop] using hk
        exact ⟨hassign.1, hassign.2, by simpa using hcompound⟩
  · rename_i hnone
    refine callStatement_reading h ?_ hrun
    intro k hk
    rw [← upcoming_words, ← kind?_eq_some] at hk
    rw [Cursor.facing_rest, hk] at hnone
    cases hnone

/-! ### Statements -/

/-- A token, or the end, that closes the block. -/
theorem closesBlock_upcoming (ws : List Word) :
    closesBlock (Cursor.upcoming 0 (ws.map Word.toToken)) = true ↔ EndsBlock (Word.ahead ws) := by
  rw [EndsBlock, ← upcoming_words]
  cases Cursor.upcoming 0 (ws.map Word.toToken) with
  | none => simp [closesBlock]
  | some t =>
      have h : closesBlock (some t) = t.cls.closesBlock := rfl
      simp [h]

/-- A look for the end of the block. -/
theorem run_atBlockEnd {c c' : Cursor} {ws : List Word} {b : Bool}
    (hrun : atBlockEnd.run (c.facing ws) = .ok b c') :
    c' = c.facing ws ∧ (b = true ↔ EndsBlock (Word.ahead ws)) := by
  simp only [atBlockEnd, run_bind, run_peek, run_pure, Cursor.facing_rest] at hrun
  obtain ⟨t, _, ⟨rfl, rfl⟩, rfl, rfl⟩ := hrun
  exact ⟨rfl, closesBlock_upcoming ws⟩

theorem reads_returnStatement (hd : d.Sound) {c : Cursor} {ws : List Word} {node : Node}
    {c' : Cursor} (hnext : (Word.ahead ws).cls = some (.token .kwReturn))
    (hrun : (returnStatement d).run (c.facing ws) = .ok node c') :
    ∃ c₁ ws₁, c' = c₁.facing ws₁ ∧ Reading c ws [.sub .returnStatement] [node] c₁ ws₁ := by
  simp only [returnStatement, run_bind] at hrun
  obtain ⟨mark, _, hmark, atEnd, _, hlook, isSemi, _, hsemi, hrun⟩ := hrun
  obtain ⟨_, _, rfl, h⟩ := (start c ws).andBump hnext hmark
  obtain ⟨rfl, hend⟩ := run_atBlockEnd hlook
  obtain ⟨rfl, rfl⟩ := run_isAt.mp hsemi
  split at hrun
  · rename_i hk
    simp only [run_bind, run_pure] at hrun
    obtain ⟨_, _, ⟨rfl, rfl⟩, hrun⟩ := hrun
    simp only [Bool.or_eq_true, decide_eq_true_eq, hend] at hk
    exact (h.look hk).finish .returnNothing (by simp) hrun (by simp)
  · simp only [run_bind] at hrun
    obtain ⟨values, _, hvalues, hrun⟩ := hrun
    obtain ⟨_, _, rfl, h⟩ := h.andThen (reads_exprs hd) hvalues
    exact h.finish .returnValues (by simp) hrun (by simp)

/-- A statement that begins with `return` is one. -/
theorem run_return {c c' : Cursor} {ws : List Word} {node : Node}
    (hnext : (Word.ahead ws).cls = some (.token .kwReturn))
    (hrun : (statement d).run (c.facing ws) = .ok node c') :
    (returnStatement d).run (c.facing ws) = .ok node c' := by
  simp only [statement, run_bind] at hrun
  obtain ⟨kind, _, hpeek, hrun⟩ := hrun
  obtain ⟨rfl, rfl⟩ := run_peekKind.mp hpeek
  have hkind : kind? (Cursor.upcoming 0 (ws.map Word.toToken)) = some .kwReturn := by
    rw [kind?_eq_some, upcoming_words, hnext]
  rw [Cursor.facing_rest, hkind] at hrun
  exact hrun

/-- The word `continue` stands ahead, and nothing with which it is a variable. -/
def ContinueAhead (ws : List Word) : Prop :=
  ∃ t, Cursor.upcoming 0 (ws.map Word.toToken) = some t ∧ t.cls = .token .name ∧
    t.text = "continue".toList ∧
    ∀ after ∈ Cursor.upcoming 1 (ws.map Word.toToken), continuesExpression after.cls = false

/-- A look for `continue` as a statement. -/
theorem exists_isContinue (c : Cursor) (ws : List Word) :
    ∃ b, isContinue.run (c.facing ws) = .ok b (c.facing ws) ∧ (b = true ↔ ContinueAhead ws) := by
  rw [isContinue, ContinueAhead]
  cases ht : Cursor.upcoming 0 (ws.map Word.toToken) with
  | none =>
      exact ⟨false, run_bind.mpr ⟨none, _, run_peek.mpr ⟨ht.symm, rfl⟩, rfl⟩, by simp⟩
  | some t =>
      by_cases hword : (t.cls == .token .name && t.text == "continue".toList) = true
      · refine ⟨!((Cursor.upcoming 1 (ws.map Word.toToken)).map
          fun after => continuesExpression after.cls).getD false, ?_, ?_⟩
        · refine run_bind.mpr ⟨some t, _, run_peek.mpr ⟨ht.symm, rfl⟩, ?_⟩
          simp only [if_pos hword]
          exact run_bind.mpr ⟨_, _, run_nth.mpr ⟨rfl, rfl⟩, rfl⟩
        · simp only [Bool.and_eq_true, beq_iff_eq] at hword
          cases Cursor.upcoming 1 (ws.map Word.toToken) <;> simp [hword]
      · refine ⟨false, run_bind.mpr ⟨some t, _, run_peek.mpr ⟨ht.symm, rfl⟩, ?_⟩, ?_⟩
        · simp only [if_neg hword]
          rfl
        · simp only [Bool.and_eq_true, beq_iff_eq, not_and] at hword
          simp only [Bool.false_eq_true, false_iff]
          rintro ⟨_, ⟨rfl⟩, hname, htext, -⟩
          exact hword hname htext

theorem run_isContinue {c c' : Cursor} {ws : List Word} {b : Bool}
    (hrun : isContinue.run (c.facing ws) = .ok b c') :
    c' = c.facing ws ∧ (b = true → ContinueAhead ws) := by
  obtain ⟨_, hlook, hb⟩ := exists_isContinue c ws
  rw [hlook, EStateM.Result.ok.injEq] at hrun
  obtain ⟨rfl, rfl⟩ := hrun
  exact ⟨rfl, hb.mp⟩

/-- The word `continue` as a statement. -/
theorem reads_continue {c c' : Cursor} {ws : List Word} {node : Node} (hnext : ContinueAhead ws)
    (hrun : (do Parser.finish (.stmt .continueStmt) [← bumpAs (.token .kwContinue)]).run
      (c.facing ws) = .ok node c') :
    ∃ c₁ ws₁, c' = c₁.facing ws₁ ∧ Reading c ws [.sub .statement] [node] c₁ ws₁ := by
  simp only [bumpAs, run_bind] at hrun
  obtain ⟨word, _, ⟨_, _, hadvance, hleaf⟩, hrun⟩ := hrun
  obtain ⟨passed, w, ws₁, rfl, hpassed, hw, rfl, rfl⟩ := run_advance hadvance
  obtain ⟨t, ht, hcls, htext, hends⟩ := hnext
  rw [upcoming_zero hpassed hw] at ht
  obtain rfl := Option.some.inj ht
  rw [upcoming_passed hpassed hw] at hends
  have hends : EndsContinue (Word.ahead ws₁) := by
    intro cls hcls
    obtain ⟨after, hafter, rfl⟩ := Option.map_eq_some_iff.mp (upcoming_words ws₁ ▸ hcls)
    exact hends after hafter
  obtain ⟨c₁, rfl, h⟩ := leaf_reading hpassed hw
    (fun t => t.cls = .token .name ∧ t.text = "continue".toList) ⟨hcls, htext⟩ hleaf
  have h := (start c _).append h
  exact (h.look hends).finish .continueStatement (by simp) hrun (by simp)

theorem reads_statement (hd : d.Sound) {c : Cursor} {ws : List Word} {node : Node}
    {c' : Cursor} (hnext : (Word.ahead ws).cls ≠ some (.token .kwReturn))
    (hrun : (statement d).run (c.facing ws) = .ok node c') :
    ∃ c₁ ws₁, c' = c₁.facing ws₁ ∧ Reading c ws [.sub .statement] [node] c₁ ws₁ := by
  simp only [statement, run_bind] at hrun
  obtain ⟨kind, _, hpeek, hrun⟩ := hrun
  obtain ⟨hkind, rfl⟩ := run_peekKind.mp hpeek
  have hahead : ∀ {k}, kind = some k → (Word.ahead ws).cls = some (.token k) := by
    intro k hk
    rw [← upcoming_words, ← kind?_eq_some, ← hk, hkind, Cursor.facing_rest]
  split at hrun
  · exact reads_localStatement hd (hahead rfl) hrun
  · exact reads_functionStatement hd (hahead rfl) hrun
  · exact reads_ifStatement hd (hahead rfl) hrun
  · exact reads_whileStatement hd (hahead rfl) hrun
  · exact reads_doStatement hd (hahead rfl) hrun
  · exact reads_forStatement hd (hahead rfl) hrun
  · exact reads_repeatStatement hd (hahead rfl) hrun
  · exact absurd (hahead rfl) hnext
  · simp only [run_bind] at hrun
    obtain ⟨mark, _, hmark, hrun⟩ := hrun
    obtain ⟨_, _, rfl, h⟩ := (start c ws).andBump (hahead rfl) hmark
    exact h.finish .breakStatement (by simp) hrun (by simp)
  · simp only [run_bind] at hrun
    obtain ⟨b, _, hlook, hrun⟩ := hrun
    obtain ⟨rfl, hcontinue⟩ := run_isContinue hlook
    split at hrun
    · rename_i hb
      exact reads_continue (hcontinue hb) hrun
    · exact reads_exprStatement hd hrun

/-! ### Blocks -/

/-- Semicolons leave no node. -/
theorem nodes_semicolons {f : Forest} {next : Ahead}
    (h : Derives [.sub .semicolons] f next) (made lastEnd : Nat) : f.nodes made lastEnd = [] := by
  refine h.phrase_induction
    (M := fun n f _ => n = .semicolons → ∀ made lastEnd, f.nodes made lastEnd = []) ?_ ?_ rfl
    made lastEnd
  · rintro n parts f next rule - holds rfl made lastEnd
    cases rule with
    | noSemicolons =>
        obtain ⟨-, rfl⟩ := holds
        rfl
    | semicolons =>
        obtain ⟨passed, w, later, rfl, -, -, g, _, rfl, -, ih, rfl⟩ := holds
        simpa [Forest.nodes] using ih rfl made w.stop
  · rintro n kind parts f next rule - - rfl
    cases rule

theorem reads_semicolons {c c' : Cursor} {ws : List Word}
    (hrun : semicolons.run (c.facing ws) = .ok () c') :
    ∃ c₁ ws₁, c' = c₁.facing ws₁ ∧ Reading c ws [.sub .semicolons] [] c₁ ws₁ := by
  simp only [semicolons, run_bind, run_pure] at hrun
  obtain ⟨made, _, hmany, -, rfl⟩ := hrun
  have hstep : ReadsStep .semicolons (do
      if ← isAt .semi then
        let _ ← advance
        return ([], true)
      else return ([], false)) := by
    intro c ws made more c' hrun
    simp only [run_bind] at hrun
    obtain ⟨b, _, hat, hrun⟩ := hrun
    obtain ⟨rfl, rfl⟩ := run_isAt.mp hat
    split at hrun
    · rename_i hk
      simp only [run_bind, run_pure, Prod.mk.injEq] at hrun
      obtain ⟨t, _, hadvance, ⟨rfl, rfl⟩, rfl⟩ := hrun
      obtain ⟨passed, w, ws₁, rfl, hpassed, hw, rfl, rfl⟩ := run_advance hadvance
      have hcls : w.cls = .token .semi := by
        simpa [ahead_passed hpassed hw] using hk
      exact ⟨_, ws₁, [.skip .semi], rfl,
        ⟨.skipped passed w .nil, by simp [Forest.words], rfl, rfl, .skip hpassed hcls (.nil _)⟩,
        .semicolons⟩
    · rename_i hk
      simp only [run_pure, Prod.mk.injEq] at hrun
      obtain ⟨⟨rfl, rfl⟩, rfl⟩ := hrun
      exact ⟨c, ws, _, rfl, (start c ws).look (by simpa [LacksToken] using hk), .noSemicolons⟩
  obtain ⟨c₁, ws₁, rfl, f, hws, hc, rfl, hf⟩ := reads_many hstep hmany
  exact ⟨c₁, ws₁, rfl, f, hws, hc, (nodes_semicolons hf _ _).symm, hf⟩

theorem readsStep_block (hd : d.Sound) : ReadsStep .items (blockStep d) := by
  intro c ws made more c' hrun
  simp only [blockStep, run_bind] at hrun
  obtain ⟨before, _, hbefore, atEnd, _, hlook, hrun⟩ := hrun
  obtain ⟨_, _, rfl, h⟩ := (start c ws).andThen reads_comments hbefore
  obtain ⟨rfl, hend⟩ := run_atBlockEnd hlook
  split at hrun
  · rename_i hb
    simp only [run_pure, Prod.mk.injEq] at hrun
    obtain ⟨⟨rfl, rfl⟩, rfl⟩ := hrun
    exact ⟨_, _, _, rfl, h.look (hend.mp hb), .lastItems⟩
  · simp only [run_bind] at hrun
    obtain ⟨isReturn, _, hat, s, _, hs, _, _, hsemi, hrun⟩ := hrun
    obtain ⟨rfl, rfl⟩ := run_isAt.mp hat
    split at hrun
    · rename_i hk
      have hnext := of_decide_eq_true hk
      simp only [run_bind] at hrun
      obtain ⟨after, _, hafter, atEnd, _, hlook', hrun⟩ := hrun
      obtain ⟨_, _, rfl, h'⟩ := reads_returnStatement hd hnext (run_return hnext hs)
      have h := h.append h'
      obtain ⟨_, _, rfl, h'⟩ := reads_semicolons hsemi
      have h := h.append h'
      obtain ⟨_, _, rfl, h⟩ := h.andThen reads_comments hafter
      obtain ⟨rfl, hend⟩ := run_atBlockEnd hlook'
      split at hrun
      · rename_i hb
        simp only [run_pure, Prod.mk.injEq] at hrun
        obtain ⟨⟨rfl, rfl⟩, rfl⟩ := hrun
        exact ⟨_, _, _, rfl, by simpa using h.look (hend.mp hb), .returnItems⟩
      · exact absurd hrun run_unexpected
    · rename_i hk
      simp only [run_pure, Prod.mk.injEq] at hrun
      obtain ⟨⟨rfl, rfl⟩, rfl⟩ := hrun
      obtain ⟨_, _, rfl, h'⟩ := reads_statement hd (by simpa using hk) hs
      have h := h.append h'
      obtain ⟨_, _, rfl, h'⟩ := reads_semicolons hsemi
      have h := h.append h'
      rw [List.append_nil] at h
      exact ⟨_, _, _, rfl, h, .items⟩

/-- A block ends where no comment stands right ahead. -/
theorem blockStep_last {c c' : Cursor} {made : List Node}
    (hrun : (blockStep d).run c = .ok (made, false) c') :
    ∀ t ∈ c'.rest.head?, t.isComment = false := by
  have hcursor : ∀ {c c' : Cursor} {b : Bool}, atBlockEnd.run c = .ok b c' → c' = c := by
    intro c c' b hrun
    obtain ⟨ws, hc⟩ := c.exists_facing
    rw [hc] at hrun ⊢
    exact (run_atBlockEnd hrun).1
  simp only [blockStep, run_bind] at hrun
  obtain ⟨before, _, hbefore, atEnd, _, hlook, hrun⟩ := hrun
  obtain rfl := hcursor hlook
  split at hrun
  · simp only [run_pure, Prod.mk.injEq, and_true] at hrun
    obtain ⟨rfl, rfl⟩ := hrun
    exact comments_last hbefore
  · simp only [run_bind] at hrun
    obtain ⟨isReturn, _, -, s, _, -, _, _, -, hrun⟩ := hrun
    split at hrun
    · simp only [run_bind] at hrun
      obtain ⟨after, _, hafter, atEnd, _, hlook', hrun⟩ := hrun
      obtain rfl := hcursor hlook'
      split at hrun
      · simp only [run_pure, Prod.mk.injEq, and_true] at hrun
        obtain ⟨rfl, rfl⟩ := hrun
        exact comments_last hafter
      · exact absurd hrun run_unexpected
    · simp at hrun

theorem reads_block (hd : d.Sound) : ReadsOne .block (block d) := by
  intro c ws node c' hrun
  simp only [block, blockItems, run_bind, run_get] at hrun
  obtain ⟨_, _, ⟨rfl, rfl⟩, items, _, hitems, hrun⟩ := hrun
  obtain ⟨_, ws₁, rfl, h⟩ := reads_many (readsStep_block hd) hitems
  obtain ⟨c₂, rfl, h⟩ := h.node .block rfl hrun
  exact ⟨c₂, ws₁, rfl, h⟩

/-- A whole source. -/
theorem reads_chunk (hd : d.Sound) {c c' : Cursor} {ws : List Word} {node : Node}
    (hrun : (chunk d).run (c.facing ws) = .ok node c') :
    ∃ c₁, c' = c₁.facing [] ∧ Reading c ws [.sub .chunk] [node] c₁ [] := by
  simp only [chunk, blockItems, run_bind] at hrun
  obtain ⟨items, _, hitems, t, _, hpeek, hrun⟩ := hrun
  have hlast := many_last blockStep_last hitems
  obtain ⟨_, ws₁, rfl, h⟩ := reads_many (readsStep_block hd) hitems
  obtain ⟨rfl, rfl⟩ := run_peek.mp hpeek
  split at hrun
  · exact absurd hrun run_unexpected
  · rename_i hnone
    obtain rfl : ws₁ = [] := by
      cases ws₁ with
      | nil => rfl
      | cons w ws₁ =>
          have hw : w.toToken.isComment = false := hlast w.toToken (by simp)
          simp [Cursor.upcoming, hw] at hnone
    obtain ⟨c₂, rfl, h⟩ := h.node .chunk (by simp [Forest.emptyPlace]) hrun
    exact ⟨c₂, rfl, h⟩

/-- The productions of every level read the grammar. -/
theorem sound_ofDepth (depth : Nat) : (Descent.ofDepth depth).Sound := by
  induction depth with
  | zero =>
      constructor
      · intro limit c ws node c' hrun
        exact absurd hrun run_broken
      · intro c ws node c' hrun
        exact absurd hrun run_broken
  | succ depth ih => exact ⟨reads_operand ih, reads_block ih⟩

end LuauTidy.Grammar

namespace LuauTidy

/-- The row of a source that parses, as its tree shows it: words that spell the
source and match the grammar, and whose node is the root. -/
structure Parsed (source : Text) (t : SyntaxTree) (inner : Forest) (gap : Text) : Prop where
  derives : Derives [.sub .items] inner (Word.ahead [])
  spells : Spells [] inner.words [] gap
  gap_blank : gap.all Lexeme.isBlank
  flat : Word.flat inner.words ++ gap = source
  placed : Word.place 0 inner.words = inner.words
  source_eq : t.source = source
  root_eq : t.root =
    { Node.around inner.count (.aux .chunk) 0 (inner.nodes 0 0) with
      start := 0, stop := source.byteLength }
  nodeCount_eq : t.nodeCount = inner.count + 1
  enclosing_eq : t.enclosing = none
  errors_eq : t.errors = []
  strays_eq : t.strayComments = inner.strays.map fun w => w.toToken.range

/-- A source that parses has a row, of which its tree is made. -/
theorem parse_parsed {source : Text} {t : SyntaxTree} (hparse : parse source = .ok t)
    (herrors : t.errors = []) : ∃ inner gap, Parsed source t inner gap := by
  obtain ⟨ws, last, gap, hsource, hspells, hend, htokens⟩ := exists_words source
  simp only [parse] at hparse
  split at hparse
  · rename_i root c hrun
    rw [Except.ok.injEq] at hparse
    subst hparse
    have hstart : Cursor.start source (tokenize source) =
        (Cursor.start source []).facing (Word.place 0 ws ++ if last.isEmpty then [] else
          [Word.mk (Token.endInside source.byteLength) []]) := by
      rw [htokens]
      rfl
    rw [hstart] at hrun
    obtain ⟨c₁, rfl, f, hwords, rfl, hroot, hf⟩ :=
      Grammar.reads_chunk (Grammar.sound_ofDepth _) hrun
    obtain ⟨parts, rule, -⟩ | ⟨kind, parts, inner, rfl, rule, hinner⟩ := hf.phrase_cases
    · cases rule
    cases rule
    have hlast : last.isEmpty := by
      cases hempty : last.isEmpty with
      | true => rfl
      | false =>
          refine absurd rfl ((hf.fit (by simp)).noError
            (Word.mk (Token.endInside source.byteLength) []) ?_ .unterminatedInterpolation)
          rw [List.append_nil] at hwords
          simp [← hwords, hempty]
    obtain rfl : last = [] := by simpa using hlast
    have hplace : Word.place 0 ws = inner.words := by simpa [Forest.words] using hwords
    refine ⟨inner, gap, hinner, hplace ▸ hspells.place 0, hend.1, ?_, ?_, rfl, ?_, ?_, rfl, rfl, ?_⟩
    · rw [← hplace, Word.flat_place, ← hsource]
    · rw [← hplace, Word.place_place]
    · have hroot : root = Node.around inner.count (.aux .chunk) 0 (inner.nodes 0 0) := by
        simpa [Forest.nodes, Cursor.start, Forest.emptyPlace] using hroot
      rw [hroot]
    · simp [Cursor.start, Cursor.pass, Cursor.facing, Forest.count]
    · simp [Cursor.start, Cursor.pass, Cursor.facing, Forest.strays]
  · simp only [Except.ok.injEq] at hparse
    subst hparse
    simp [SyntaxTree.abandoned] at herrors
  · cases hparse

/-- The tokens of a source that parses. -/
theorem Parsed.tokenize_eq {source : Text} {t : SyntaxTree} {inner : Forest} {gap : Text}
    (h : Parsed source t inner gap) : tokenize source = inner.words.map Word.toToken := by
  rw [← h.flat, tokenize_spells h.spells h.gap_blank, h.placed]

end LuauTidy
