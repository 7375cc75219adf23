import LuauTidy.Proofs.ExprAssembling

/-!
# What a parse into a builder makes: statements and blocks

Every production of a statement goes in lockstep with its counterpart.  A step
of a block takes a token, so as many levels as there are tokens never run out.

* `Assembly.assembles_block` — a block, statement by statement;
* `Assembly.follows_ofDepth` — a number of levels is in lockstep in front of
  fewer tokens than that.
-/

namespace LuauTidy

open Lockstep

namespace Assembly

variable {d : Descent} {d' : Deeper} {size : Nat} {rest : List Token}

/-! ### Declarations -/

theorem assembles_binding : AssemblesPart rest Grammar.binding binding := by
  rintro s rfl hs
  refine .start fun place => ?_
  refine (Bench.Gone.first assembles_expectName).bind ?_
  rintro name _ s₁ ⟨h, -, t₁⟩
  exact h.closePart hs rfl (by simp) t₁

theorem assembles_localStatement (hd : d'.Follows d size) (hsize : rest.length ≤ size)
    (hnext : nextClass rest = some (.token .kwLocal)) :
    AssemblesPart rest (Grammar.localStatement d) (localStatement d') := by
  rintro s rfl hs
  refine .look (run_nth 1) (.ite (fun hfn => ?_) fun _ => ?_)
  · refine .start fun place => ?_
    refine (Bench.Gone.first (assembles_bump hnext rfl)).bind ?_
    rintro mark _ s₁ ⟨h, -, t₁, hahead⟩
    have hfn : nextClass s₁.rest = some (.token .kwFunction) := by
      apply nextClass_of_kind?
      rw [hahead 0]
      exact beq_iff_eq.mp hfn
    refine (h.andThen (assembles_mark hfn)).bind ?_
    rintro functionMark _ s₂ ⟨h, -, t₂⟩
    refine (h.andThen assembles_expectName).bind ?_
    rintro name _ s₃ ⟨h, -, t₃⟩
    refine (h.andThen (assembles_functionBody hd (by omega))).bind ?_
    rintro body _ s₄ ⟨h, t₄⟩
    exact h.closePart hs (by simp) (by simp) (by omega)
  · refine .start fun place => ?_
    refine (Bench.Gone.first (assembles_mark hnext)).bind ?_
    rintro mark _ s₁ ⟨h, -, t₁⟩
    refine (h.andThen (assembles_separatedBy fun _ => assembles_binding)).bind ?_
    rintro names _ s₂ ⟨h, t₂, -⟩
    refine h.andEat (fun equals s₃ h t₃ => ?_) ?_
    · rw [if_pos rfl]
      refine (h.andThen (assembles_exprs hd (by omega))).bind ?_
      rintro values _ s₄ ⟨h, t₄, -⟩
      exact h.closePart hs (by simp) (by simp) (by omega)
    · exact h.closePart hs (by simp) (by simp) (by omega)

theorem assembles_functionName : AssemblesPart rest Grammar.functionName functionName := by
  rintro s rfl hs
  refine .start fun place => ?_
  refine (Bench.Gone.first (assembles_separatedBy fun _ => assembles_expectName.part)).bind ?_
  rintro names _ s₁ ⟨h, t₁, hsome⟩
  refine h.andEat (fun colon s₂ h t₂ => ?_) ?_
  · rw [if_pos rfl]
    refine (h.andThen assembles_expectName.part).bind ?_
    rintro method _ s₃ ⟨h, t₃⟩
    exact h.closePart hs (by simp) (by simp) (by omega)
  · exact h.closePart hs rfl hsome t₁

theorem assembles_functionStatement (hd : d'.Follows d size) (hsize : rest.length ≤ size)
    (hnext : nextClass rest = some (.token .kwFunction)) :
    AssemblesPart rest (Grammar.functionStatement d) (functionStatement d') := by
  rintro s rfl hs
  refine .start fun place => ?_
  refine (Bench.Gone.first (assembles_mark hnext)).bind ?_
  rintro mark _ s₁ ⟨h, -, t₁⟩
  refine (h.andThen assembles_functionName).bind ?_
  rintro name _ s₂ ⟨h, t₂⟩
  refine (h.andThen (assembles_functionBody hd (by omega))).bind ?_
  rintro body _ s₃ ⟨h, t₃⟩
  exact h.closePart hs (by simp) (by simp) (by omega)

/-! ### Conditions and loops -/

theorem assembles_guardedBlock (hd : d'.Follows d size) (hsize : rest.length < size) :
    Assembles rest (Grammar.guardedBlock d) (guardedBlock d') (fun made => made) fun _ _ s' =>
      s'.rest.length ≤ rest.length := by
  rintro s rfl hs
  refine (assembles_expr hd hsize rfl hs).bind ?_
  rintro condition _ s₁ ⟨h, t₁⟩
  refine (h.andThen assembles_expect).bind ?_
  rintro mark _ s₂ ⟨h, -, t₂⟩
  refine .bindPure ((h.andThen (hd.block (by omega))).mono ?_)
  rintro block _ s₃ ⟨h, t₃⟩
  exact ⟨h, by omega⟩

theorem assembles_ifStatement (hd : d'.Follows d size) (hsize : rest.length ≤ size)
    (hnext : nextClass rest = some (.token .kwIf)) :
    AssemblesPart rest (Grammar.ifStatement d) (ifStatement d') := by
  rintro s rfl hs
  refine .start fun place => ?_
  refine (Bench.Gone.first (assembles_mark hnext)).bind ?_
  rintro mark _ s₁ ⟨h, -, t₁⟩
  refine (h.andThen (assembles_guardedBlock hd (by omega))).bind ?_
  rintro first _ s₂ ⟨h, t₂⟩
  refine (h.andThen (assembles_more fun h => assembles_guardedBlock hd (by omega))).bind ?_
  rintro others _ s₃ ⟨h, t₃⟩
  refine h.andEat (fun elseMark s₄ h t₄ => ?_) ?_
  · rw [if_pos rfl]
    refine (h.andThen (hd.block (by omega))).bind ?_
    rintro block _ s₅ ⟨h, t₅⟩
    refine (h.andThen assembles_expect).bind ?_
    rintro last _ s₆ ⟨h, -, t₆⟩
    exact h.closePart hs (by simp) (by simp) (by omega)
  · refine (h.andThen assembles_expect).bind ?_
    rintro last _ s₄ ⟨h, -, t₄⟩
    exact h.closePart hs (by simp) (by simp) (by omega)

theorem assembles_whileStatement (hd : d'.Follows d size) (hsize : rest.length ≤ size)
    (hnext : nextClass rest = some (.token .kwWhile)) :
    AssemblesPart rest (Grammar.whileStatement d) (whileStatement d') := by
  rintro s rfl hs
  refine .start fun place => ?_
  refine (Bench.Gone.first (assembles_mark hnext)).bind ?_
  rintro mark _ s₁ ⟨h, -, t₁⟩
  refine (h.andThen (assembles_expr hd (by omega))).bind ?_
  rintro condition _ s₂ ⟨h, t₂⟩
  refine (h.andThen assembles_expect).bind ?_
  rintro doMark _ s₃ ⟨h, -, t₃⟩
  refine (h.andThen (hd.block (by omega))).bind ?_
  rintro block _ s₄ ⟨h, t₄⟩
  refine (h.andThen assembles_expect).bind ?_
  rintro last _ s₅ ⟨h, -, t₅⟩
  exact h.closePart hs (by simp) (by simp) (by omega)

theorem assembles_doStatement (hd : d'.Follows d size) (hsize : rest.length ≤ size)
    (hnext : nextClass rest = some (.token .kwDo)) :
    AssemblesPart rest (Grammar.doStatement d) (doStatement d') := by
  rintro s rfl hs
  refine .start fun place => ?_
  refine (Bench.Gone.first (assembles_mark hnext)).bind ?_
  rintro mark _ s₁ ⟨h, -, t₁⟩
  refine (h.andThen (hd.block (by omega))).bind ?_
  rintro block _ s₂ ⟨h, t₂⟩
  refine (h.andThen assembles_expect).bind ?_
  rintro last _ s₃ ⟨h, -, t₃⟩
  exact h.closePart hs (by simp) (by simp) (by omega)

theorem assembles_repeatStatement (hd : d'.Follows d size) (hsize : rest.length ≤ size)
    (hnext : nextClass rest = some (.token .kwRepeat)) :
    AssemblesPart rest (Grammar.repeatStatement d) (repeatStatement d') := by
  rintro s rfl hs
  refine .start fun place => ?_
  refine (Bench.Gone.first (assembles_mark hnext)).bind ?_
  rintro mark _ s₁ ⟨h, -, t₁⟩
  refine (h.andThen (hd.block (by omega))).bind ?_
  rintro block _ s₂ ⟨h, t₂⟩
  refine (h.andThen assembles_expect).bind ?_
  rintro untilMark _ s₃ ⟨h, -, t₃⟩
  refine (h.andThen (assembles_expr hd (by omega))).bind ?_
  rintro condition _ s₄ ⟨h, t₄⟩
  exact h.closePart hs (by simp) (by simp) (by omega)

theorem assembles_bounds (hd : d'.Follows d size) (hsize : rest.length ≤ size) :
    Assembles rest (Grammar.bounds d) (bounds d') (fun made => made) fun _ _ s' =>
      s'.rest.length ≤ rest.length := by
  rintro s rfl hs
  refine (assembles_expect rfl hs).bind ?_
  rintro equals _ s₁ ⟨h, -, t₁⟩
  refine (h.andThen (assembles_expr hd (by omega))).bind ?_
  rintro first _ s₂ ⟨h, t₂⟩
  refine (h.andThen assembles_expect).bind ?_
  rintro comma _ s₃ ⟨h, -, t₃⟩
  refine (h.andThen (assembles_expr hd (by omega))).bind ?_
  rintro last _ s₄ ⟨h, t₄⟩
  refine h.andEat (fun comma' s₅ h t₅ => ?_) ?_
  · rw [if_pos rfl]
    refine .bindPure ((h.andThen (assembles_expr hd (by omega))).mono ?_)
    rintro step _ s₆ ⟨h, t₆⟩
    exact ⟨h, by omega⟩
  · exact .pure ⟨h, by omega⟩

theorem assembles_iterators (hd : d'.Follows d size) (hsize : rest.length ≤ size) :
    Assembles rest (Grammar.iterators d) (iterators d') (fun made => made) fun _ _ s' =>
      s'.rest.length ≤ rest.length := by
  rintro s rfl hs
  refine (assembles_more (fun _ => AssemblesPart.weaken assembles_binding) rfl hs).bind ?_
  rintro names _ s₁ ⟨h, t₁⟩
  refine (h.andThen assembles_expect).bind ?_
  rintro mark _ s₂ ⟨h, -, t₂⟩
  refine .bindPure ((h.andThen (assembles_exprs hd (by omega))).mono ?_)
  rintro values _ s₃ ⟨h, t₃, -⟩
  exact ⟨by simpa using h, by omega⟩

theorem assembles_forStatement (hd : d'.Follows d size) (hsize : rest.length ≤ size)
    (hnext : nextClass rest = some (.token .kwFor)) :
    AssemblesPart rest (Grammar.forStatement d) (forStatement d') := by
  rintro s rfl hs
  refine .look (run_nth 2) ?_
  extract_lets numeric tail'
  refine .start fun place => ?_
  refine (Bench.Gone.first (assembles_mark hnext)).bind ?_
  rintro mark _ s₁ ⟨h, -, t₁⟩
  refine (h.andThen assembles_binding).bind ?_
  rintro name _ s₂ ⟨h, t₂⟩
  extract_lets tail
  have htail : ∀ {header s₃}, (s.opening (.stmt (if numeric then .forRange else .forIn)) place).Gone
      s₃ (mark :: name :: header) → s₃.rest.length ≤ s₂.rest.length →
      Lockstep (tail header) (tail' ()) s₃ fun n _ s' =>
        s.Gone s' [n] ∧ s'.rest.length < s.rest.length := by
    intro header s₃ h t₃
    refine (h.andThen assembles_expect).bind ?_
    rintro doMark _ s₄ ⟨h, -, t₄⟩
    refine (h.andThen (hd.block (by omega))).bind ?_
    rintro block _ s₅ ⟨h, t₅⟩
    refine (h.andThen assembles_expect).bind ?_
    rintro last _ s₆ ⟨h, -, t₆⟩
    exact h.closePart hs (by simp) (by simp) (by omega)
  refine .ite (fun _ => ?_) fun _ => ?_
  · refine (h.andThen (assembles_bounds hd (by omega))).bind ?_
    rintro header _ s₃ ⟨h, t₃⟩
    exact htail h t₃
  · refine (h.andThen (assembles_iterators hd (by omega))).bind ?_
    rintro header _ s₃ ⟨h, t₃⟩
    exact htail h t₃

theorem assembles_returnStatement (hd : d'.Follows d size) (hsize : rest.length ≤ size)
    (hnext : nextClass rest = some (.token .kwReturn)) :
    AssemblesPart rest (Grammar.returnStatement d) (returnStatement d') := by
  rintro s rfl hs
  refine .start fun place => ?_
  refine (Bench.Gone.first (assembles_mark hnext)).bind ?_
  rintro mark _ s₁ ⟨h, -, t₁⟩
  refine .look rfl (.look run_isAt (.ite (fun _ => ?_) fun _ => ?_))
  · exact h.closePart hs (by simp) (by simp) (by omega)
  · refine (h.andThen (assembles_exprs hd (by omega))).bind ?_
    rintro values _ s₂ ⟨h, t₂, -⟩
    exact h.closePart hs (by simp) (by simp) (by omega)

/-! ### Assignments and calls -/

theorem assembles_assigned (hd : d'.Follows d size) (hsize : rest.length ≤ size) :
    AssemblesPart rest (Grammar.assigned d) (assigned d') := by
  rintro s rfl hs
  refine .look rfl ?_
  refine (assembles_suffixed hd hsize rfl hs).bind ?_
  rintro target _ s₁ ⟨h, rfl, t₁⟩
  refine .kindOf (h.grows.has target List.mem_cons_self) ?_
  exact .ite (fun _ => .pure ⟨h, t₁⟩) fun _ => .wrong

theorem lockstep_callStatement {s₀ s : Bench} {target : Node} (h : s₀.Gone s [target])
    (place : Nat) :
    Lockstep (Grammar.exprStatement.callStatement place target)
      (exprStatement.callStatement place target.id target.kind) s fun n _ s' =>
        s₀.Gone s' [n] ∧ s'.rest = s.rest := by
  refine .ite (fun _ => ?_) fun _ => .wrong
  exact .retag h _

theorem assembles_exprStatement (hd : d'.Follows d size) (hsize : rest.length ≤ size) :
    AssemblesPart rest (Grammar.exprStatement d) (exprStatement d') := by
  rintro s rfl hs
  refine .checkpoint (.look rfl ?_)
  refine (assembles_suffixed hd hsize rfl hs).bind ?_
  rintro target _ s₁ ⟨h, rfl, t₁⟩
  refine .kindOf (h.grows.has target List.mem_cons_self) ?_
  extract_lets isVar assign compound assign' compound'
  refine .look run_peekKind ?_
  have hassign : Lockstep (assign ()) (assign' ()) s₁ fun n _ s' =>
      s.Gone s' [n] ∧ s'.rest.length < s.rest.length := by
    refine .startAt hs h fun place built h => ?_
    refine (h.andNext (assembles_more fun h =>
      AssemblesPart.weaken (assembles_assigned hd (by omega)))).bind ?_
    rintro others _ s₂ ⟨h, t₂⟩
    refine (h.finish hs (by simp) (by simp)).bind ?_
    rintro targets _ s₃ ⟨h, -, hrest⟩
    refine .startAt hs h fun place' built' h => ?_
    refine (h.andNext assembles_expect).bind ?_
    rintro equals _ s₄ ⟨h, -, t₄⟩
    rw [hrest] at t₄
    refine .start fun place'' => ?_
    refine (Bench.Gone.first (assembles_exprs hd (by omega))).bind ?_
    rintro values _ s₅ ⟨h', t₅, hsome⟩
    refine (Bench.Gone.finish h' h.ready rfl hsome).bind ?_
    rintro list _ s₆ ⟨h', -, hrest'⟩
    rw [← hrest'] at t₅
    exact (h.trans h').closePart hs (by simp) (by simp) (by omega)
  have hcompound : ∀ {op}, Parser.kind? (Cursor.upcoming 0 s₁.rest) = some op →
      Lockstep (compound ()) (compound' ()) s₁ fun n _ s' =>
        s.Gone s' [n] ∧ s'.rest.length < s.rest.length := by
    intro op hop
    refine .startAt hs h fun place built h => ?_
    refine (h.andNext (assembles_mark (nextClass_of_kind? hop))).bind ?_
    rintro mark _ s₂ ⟨h, -, t₂⟩
    refine (h.andThen (assembles_expr hd (by omega))).bind ?_
    rintro value _ s₃ ⟨h, t₃⟩
    exact h.closePart hs (by simp) (by simp) (by omega)
  have hcall : ∀ place, Lockstep (Grammar.exprStatement.callStatement place target)
      (exprStatement.callStatement place target.id target.kind) s₁ fun n _ s' =>
        s.Gone s' [n] ∧ s'.rest.length < s.rest.length := by
    intro place
    refine (lockstep_callStatement h place).mono ?_
    rintro n _ s' ⟨h, hrest⟩
    exact ⟨h, hrest ▸ t₁⟩
  cases hop : Parser.kind? (Cursor.upcoming 0 s₁.rest) with
  | none => exact hcall _
  | some op =>
      refine .ite (fun _ => ?_) fun _ => .ite (fun _ => ?_) fun _ => hcall _
      · exact .ite (fun _ => .wrongBind) fun _ => hassign
      · exact .ite (fun _ => .wrongBind) fun _ => hcompound hop

/-! ### Statements -/

/-- A look whether the word `continue` is a statement.  Only where a token is
ahead, it may be. -/
theorem exists_run_isContinue (s : Bench) :
    ∃ isOne, Grammar.isContinue.run s.cursor = .ok isOne s.cursor ∧
      (isOne = true → ∃ cls, nextClass s.rest = some cls) := by
  simp only [Grammar.isContinue, Parser.run_bind]
  cases hnext : Cursor.upcoming 0 s.rest with
  | none =>
      refine ⟨false, ⟨_, _, hnext ▸ run_nth 0, ?_⟩, by simp⟩
      rfl
  | some t =>
      have hcls : nextClass s.rest = some t.cls := by rw [nextClass, hnext, Option.map_some]
      by_cases hword : (t.cls == .token .name && t.text == "continue".toList) = true
      · let isVariable := ((Cursor.upcoming 1 s.rest).map fun after =>
          Grammar.continuesExpression after.cls).getD false
        refine ⟨!isVariable, ⟨_, _, hnext ▸ run_nth 0, ?_⟩, fun _ => ⟨_, hcls⟩⟩
        simp only [hword, if_true, Parser.run_bind]
        exact ⟨_, _, run_nth 1, rfl⟩
      · refine ⟨false, ⟨_, _, hnext ▸ run_nth 0, ?_⟩, by simp⟩
        simp only [hword]
        rfl

theorem assembles_statement (hd : d'.Follows d size) (hsize : rest.length ≤ size) :
    AssemblesPart rest (Grammar.statement d) (statement d') := by
  rintro s rfl hs
  refine .fork run_peekKind fun production hproduction => ?_
  split
  · rename_i hkind
    rw [← hproduction, hkind]
    exact assembles_localStatement hd hsize (nextClass_of_kind? hkind) rfl hs
  · rename_i hkind
    rw [← hproduction, hkind]
    exact assembles_functionStatement hd hsize (nextClass_of_kind? hkind) rfl hs
  · rename_i hkind
    rw [← hproduction, hkind]
    exact assembles_ifStatement hd hsize (nextClass_of_kind? hkind) rfl hs
  · rename_i hkind
    rw [← hproduction, hkind]
    exact assembles_whileStatement hd hsize (nextClass_of_kind? hkind) rfl hs
  · rename_i hkind
    rw [← hproduction, hkind]
    exact assembles_doStatement hd hsize (nextClass_of_kind? hkind) rfl hs
  · rename_i hkind
    rw [← hproduction, hkind]
    exact assembles_forStatement hd hsize (nextClass_of_kind? hkind) rfl hs
  · rename_i hkind
    rw [← hproduction, hkind]
    exact assembles_repeatStatement hd hsize (nextClass_of_kind? hkind) rfl hs
  · rename_i hkind
    rw [← hproduction, hkind]
    exact assembles_returnStatement hd hsize (nextClass_of_kind? hkind) rfl hs
  · rename_i hkind
    rw [← hproduction, hkind]
    refine .start fun place => ?_
    refine (Bench.Gone.first (assembles_mark (nextClass_of_kind? hkind))).bind ?_
    rintro mark _ s₁ ⟨h, -, t₁⟩
    exact h.closePart hs rfl (by simp) t₁
  · split at hproduction
    any_goals contradiction
    subst hproduction
    obtain ⟨isOne, hrun, hnext⟩ := exists_run_isContinue s
    refine .look hrun (.ite (fun hone => ?_) fun _ => assembles_exprStatement hd hsize rfl hs)
    obtain ⟨cls, hnext⟩ := hnext hone
    refine .start fun place => ?_
    refine (Bench.Gone.first (assembles_bumpAs hnext)).bind ?_
    rintro mark _ s₁ ⟨h, -, t₁⟩
    exact h.closePart hs rfl (by simp) t₁

theorem assembles_semicolons :
    Assembles rest Grammar.semicolons semicolons (fun _ => []) fun _ _ s' =>
      s'.rest.length ≤ rest.length := by
  rintro s rfl hs
  refine .bindPure ((assembles_manyOf (P := (· = [])) ?_ ?_ rfl hs).mono ?_)
  · rintro made later rfl rfl
    rfl
  · rintro later - s rfl hs
    refine .look run_isAt (.ite (fun hk => ?_) fun _ => ?_)
    · obtain ⟨t, ht, -⟩ := Option.map_eq_some_iff.mp (nextClass_of_kind? (beq_iff_eq.mp hk))
      refine (Lockstep.advance hs ht).bind ?_
      rintro _ _ s₁ ⟨rfl, rfl, h, t₁, -⟩
      exact .pure ⟨h, ⟨rfl, t₁⟩, rfl⟩
    · exact .pure ⟨.refl hs, ⟨rfl, Nat.le_refl _⟩, rfl⟩
  · rintro _ _ s₁ ⟨h, t₁, rfl⟩
    exact ⟨h, t₁⟩

theorem assembles_blockStep (hd : d'.Follows d size) (hsize : rest.length ≤ size) :
    AssemblesStep rest (Grammar.blockStep d) (blockStep d') := by
  rintro s rfl hs
  refine (assembles_comments rfl hs).bind ?_
  rintro before _ s₁ ⟨h, t₁, -⟩
  refine .look rfl (.ite (fun _ => .pure ⟨h, rfl, t₁⟩) fun _ => ?_)
  refine .look run_isAt ?_
  refine (h.andThen (assembles_statement hd (by omega))).bind ?_
  rintro n _ s₂ ⟨h, t₂⟩
  refine (h.andThen assembles_semicolons).bind ?_
  rintro _ _ s₃ ⟨h, t₃⟩
  refine .ite (fun _ => ?_) fun _ => ?_
  · refine (h.andThen assembles_comments).bind ?_
    rintro after _ s₄ ⟨h, t₄, -⟩
    refine .look rfl (.ite (fun _ => ?_) fun _ => .unexpected)
    exact .pure ⟨by simpa using h, rfl, by simp only [Bool.toNat_false]; omega⟩
  · exact .pure ⟨by simpa using h, rfl, by simp only [Bool.toNat_true]; omega⟩

theorem assembles_blockItems (hd : d'.Follows d size) (hsize : rest.length ≤ size) :
    Assembles rest (Grammar.blockItems d) (blockItems d') (fun made => made) fun _ _ s' =>
      s'.rest.length ≤ rest.length :=
  assembles_many fun h => assembles_blockStep hd (Nat.le_trans h hsize)

theorem assembles_block (hd : d'.Follows d size) (hsize : rest.length ≤ size) :
    Assembles rest (Grammar.block d) (block d') (fun n => [n]) fun _ _ s' =>
      s'.rest.length ≤ rest.length := by
  rintro s rfl hs
  refine .here (.startPlaced ?_)
  refine (Bench.Gone.first (assembles_blockItems hd hsize)).bind ?_
  rintro items _ s₁ ⟨h, t₁⟩
  refine .discard ((Lockstep.finishAt h.grows rfl fun _ => rfl).mono ?_)
  rintro n _ s₂ ⟨-, hgrows, hrest, -⟩
  exact ⟨.of_grows hgrows hs, (congrArg List.length hrest).trans_le t₁⟩

/-- The productions of a number of levels go in lockstep in front of fewer
tokens than that. -/
theorem follows_ofDepth (depth : Nat) :
    (Deeper.ofDepth depth).Follows (Descent.ofDepth depth) depth := by
  induction depth with
  | zero => exact ⟨fun _ h => absurd h (Nat.not_lt_zero _), fun h => absurd h (Nat.not_lt_zero _)⟩
  | succ depth ih =>
      exact ⟨fun limit h => assembles_operand ih limit (Nat.le_of_lt_succ h),
        fun h => assembles_block ih (Nat.le_of_lt_succ h)⟩

end Assembly

end LuauTidy
