import LuauTidy.Proofs.Assembling

/-!
# What a parse into a builder makes: expressions

Every production of an expression goes in lockstep with its counterpart,
provided that what lies deeper does so while fewer tokens are ahead.

* `Assembly.Deeper.Follows` — what lies deeper is in lockstep;
* `Assembly.assembles_operand` — an expression down to a limit.
-/

namespace LuauTidy

open Lockstep

/-- What lies deeper is read in lockstep, as long as fewer tokens than a
number are ahead. -/
structure Assembly.Deeper.Follows (d' : Assembly.Deeper) (d : Descent) (size : Nat) : Prop where
  operand : ∀ {rest : List Token} (limit : Nat), rest.length < size →
    AssemblesNode rest (d.operand limit) (d'.operand limit)
  block : ∀ {rest : List Token}, rest.length < size →
    Assembles rest d.block d'.block (fun n => [n]) fun _ _ s' => s'.rest.length ≤ rest.length

namespace Assembly

variable {d : Descent} {d' : Deeper} {size : Nat} {rest : List Token}

theorem assembles_expr (hd : d'.Follows d size) (hsize : rest.length < size) :
    AssemblesPart rest d.expr d'.expr :=
  AssemblesNode.part (hd.operand 0 hsize)

theorem assembles_exprs (hd : d'.Follows d size) (hsize : rest.length < size) :
    Assembles rest (Grammar.exprs d) (exprs d') (fun made => made) fun made _ s' =>
      s'.rest.length < rest.length ∧ made ≠ [] :=
  assembles_separatedBy fun h => assembles_expr hd (Nat.lt_of_le_of_lt h hsize)

/-! ### Function bodies -/

theorem assembles_parameters :
    Assembles rest Grammar.parameters parameters (fun made => made) fun made _ s' =>
      s'.rest.length ≤ rest.length ∧ made ≠ [] := by
  refine assembles_manyOf (fun made later hmade _ => by simp [hmade]) ?_
  rintro later - s rfl hs
  refine fork run_peekClass fun production hproduction => ?_
  split
  · rename_i hnext
    rw [← hproduction, hnext]
    refine (assembles_bump hnext rfl rfl hs).bind ?_
    rintro mark _ s₁ ⟨h, -, t₁, -⟩
    exact .pure ⟨h, ⟨rfl, Nat.le_of_lt t₁⟩, by simp⟩
  · split at hproduction
    any_goals contradiction
    subst hproduction
    refine (assembles_expectName rfl hs).bind ?_
    rintro name _ s₁ ⟨h, -, t₁⟩
    rw [← bind_pure (Assembler.eat .comma)]
    refine h.andEat (fun comma s₂ h t₂ => ?_) ?_
    · exact .pure ⟨h, ⟨rfl, by simp only [Bool.toNat_true]; omega⟩, by simp⟩
    · exact .pure ⟨h, ⟨rfl, Nat.le_of_lt t₁⟩, by simp⟩

theorem assembles_functionBody (hd : d'.Follows d size) (hsize : rest.length ≤ size) :
    AssemblesPart rest (Grammar.functionBody d) (functionBody d') := by
  rintro s rfl hs
  refine .start fun place => ?_
  refine (Bench.Gone.first assembles_expect).bind ?_
  rintro opening _ s₁ ⟨h, -, t₁⟩
  refine .look run_isAt ?_
  extract_lets tail tail'
  have htail : ∀ {params s₂}, (s.opening (.aux .funcBody) place).Gone s₂ (opening :: params) →
      s₂.rest.length ≤ s₁.rest.length → Lockstep (tail params) (tail' ()) s₂ fun n _ s' =>
        s.Gone s' [n] ∧ s'.rest.length < s.rest.length := by
    intro params s₂ h t₂
    refine (h.andThen assembles_expect).bind ?_
    rintro closing _ s₃ ⟨h, -, t₃⟩
    refine (h.andThen (hd.block (by omega))).bind ?_
    rintro block _ s₄ ⟨h, t₄⟩
    refine (h.andThen assembles_expect).bind ?_
    rintro last _ s₅ ⟨h, -, t₅⟩
    exact h.closePart hs (by simp) (by simp) (by omega)
  refine .ite (fun _ => htail h (Nat.le_refl _)) fun _ => .start fun place' => ?_
  refine (Bench.Gone.first assembles_parameters).bind ?_
  rintro names _ s₂ ⟨h', t₂, hsome⟩
  refine (Bench.Gone.finishPart h' h.ready rfl hsome).bind ?_
  rintro n _ s₃ ⟨h', hrest⟩
  exact htail (h.trans h') (by rw [hrest]; exact t₂)

theorem assembles_anonymousFunction (hd : d'.Follows d size) (hsize : rest.length ≤ size)
    (hnext : nextClass rest = some (.token .kwFunction)) :
    AssemblesNode rest (Grammar.anonymousFunction d) (anonymousFunction d') := by
  rintro s rfl hs
  refine .start fun place => ?_
  refine (Bench.Gone.first (assembles_mark hnext)).bind ?_
  rintro mark _ s₁ ⟨h, -, t₁⟩
  refine (h.andThen (assembles_functionBody hd (by omega))).bind ?_
  rintro body _ s₂ ⟨h, t₂⟩
  exact h.close hs (by simp) (by simp) (by omega)

/-! ### Conditionals -/

theorem assembles_branch (hd : d'.Follows d size) (hsize : rest.length < size) :
    Assembles rest (Grammar.branch d) (branch d') (fun made => made) fun _ _ s' =>
      s'.rest.length ≤ rest.length := by
  rintro s rfl hs
  refine (assembles_expr hd hsize rfl hs).bind ?_
  rintro condition _ s₁ ⟨h, t₁⟩
  refine (h.andThen assembles_expect).bind ?_
  rintro mark _ s₂ ⟨h, -, t₂⟩
  refine .bindPure ((h.andThen (assembles_expr hd (by omega))).mono ?_)
  rintro value _ s₃ ⟨h, t₃⟩
  exact ⟨h, by omega⟩

theorem assembles_conditional (hd : d'.Follows d size) (hsize : rest.length ≤ size)
    (hnext : nextClass rest = some (.token .kwIf)) :
    AssemblesNode rest (Grammar.conditional d) (conditional d') := by
  rintro s rfl hs
  refine .start fun place => ?_
  refine (Bench.Gone.first (assembles_mark hnext)).bind ?_
  rintro mark _ s₁ ⟨h, -, t₁⟩
  refine (h.andThen (assembles_branch hd (by omega))).bind ?_
  rintro first _ s₂ ⟨h, t₂⟩
  refine (h.andThen (assembles_more fun h => assembles_branch hd (by omega))).bind ?_
  rintro others _ s₃ ⟨h, t₃⟩
  refine (h.andThen assembles_expect).bind ?_
  rintro elseMark _ s₄ ⟨h, -, t₄⟩
  refine (h.andThen (assembles_expr hd (by omega))).bind ?_
  rintro value _ s₅ ⟨h, t₅⟩
  exact h.close hs (by simp) (by simp) (by omega)

/-! ### Tables -/

theorem assembles_field (hd : d'.Follows d size) (hsize : rest.length < size) :
    AssemblesPart rest (Grammar.field d) (field d') := by
  rintro s rfl hs
  refine .start fun place => ?_
  refine .look run_isAt ?_
  extract_lets tail'
  refine .ite (fun hbracket => ?_) fun _ => ?_
  · have hnext : nextClass s.rest = some (.token .lbracket) :=
      nextClass_of_kind? (beq_iff_eq.mp hbracket)
    refine (Bench.Gone.first (assembles_mark hnext)).bind ?_
    rintro opening _ s₁ ⟨h, -, t₁⟩
    refine (h.andThen (assembles_expr hd (by omega))).bind ?_
    rintro key _ s₂ ⟨h, t₂⟩
    refine (h.andThen assembles_expect).bind ?_
    rintro closing _ s₃ ⟨h, -, t₃⟩
    refine (h.andThen assembles_expect).bind ?_
    rintro mark _ s₄ ⟨h, -, t₄⟩
    refine (h.andThen (assembles_expr hd (by omega))).bind ?_
    rintro value _ s₅ ⟨h, t₅⟩
    exact h.closePart hs (by simp) (by simp) (by omega)
  · refine .look run_isAt (.look (run_nth 1) (.ite (fun hnamed => ?_) fun _ => ?_))
    · rw [Bool.and_eq_true, beq_iff_eq, beq_iff_eq] at hnamed
      have hnext : nextClass s.rest = some (.token .name) := nextClass_of_kind? hnamed.1
      refine (Bench.Gone.first (assembles_bump hnext rfl)).bind ?_
      rintro name _ s₁ ⟨h, -, t₁, hahead⟩
      have hassign : nextClass s₁.rest = some (.token .assign) := by
        apply nextClass_of_kind?
        rw [hahead 0]
        exact hnamed.2
      refine (h.andThen (assembles_mark hassign)).bind ?_
      rintro mark _ s₂ ⟨h, -, t₂⟩
      refine (h.andThen (assembles_expr hd (by omega))).bind ?_
      rintro value _ s₃ ⟨h, t₃⟩
      exact h.closePart hs (by simp) (by simp) (by omega)
    · refine (Bench.Gone.first (assembles_expr hd hsize)).bind ?_
      rintro value _ s₁ ⟨h, t₁⟩
      exact h.closePart hs (by simp) (by simp) t₁

/-- A field with the comments around it.  Where no brace closes the table right
ahead, there is a comment or a field. -/
theorem assembles_fieldStep (hd : d'.Follows d size) (hsize : rest.length < size) :
    Assembles rest (Grammar.fieldStep d) (fieldStep d') Prod.fst fun r more s' =>
      (more = r.2 ∧ s'.rest.length + r.2.toNat ≤ rest.length) ∧
        (Parser.kind? rest.head? ≠ some .rbrace → r.1 ≠ []) := by
  rintro s rfl hs
  refine (assembles_comments rfl hs).bind ?_
  rintro before _ s₁ ⟨h, t₁, hnone⟩
  refine .look run_isAt (.ite (fun hclosing => ?_) fun _ => ?_)
  · refine .pure ⟨h, ⟨rfl, t₁⟩, fun hopen hbefore => hopen ?_⟩
    rw [← hnone hbefore]
    exact beq_iff_eq.mp hclosing
  · refine (h.andThen (assembles_field hd (by omega))).bind ?_
    rintro f _ s₂ ⟨h, t₂⟩
    refine (h.andThen assembles_comments).bind ?_
    rintro after _ s₃ ⟨h, t₃, -⟩
    refine .look run_isAt (.look run_isAt (.ite (fun hseparator => ?_) fun _ => ?_))
    · obtain ⟨k, hk⟩ : ∃ k, nextClass s₃.rest = some (.token k) := by
        rw [Bool.or_eq_true, beq_iff_eq, beq_iff_eq] at hseparator
        exact hseparator.elim (fun h => ⟨.comma, nextClass_of_kind? h⟩)
          fun h => ⟨.semi, nextClass_of_kind? h⟩
      refine (h.andThen (assembles_mark hk)).bind ?_
      rintro separator _ s₄ ⟨h, -, t₄⟩
      exact .pure ⟨h, ⟨rfl, by simp only [Bool.toNat_true]; omega⟩, by simp⟩
    · exact .pure ⟨h, ⟨rfl, by simp only [Bool.toNat_false]; omega⟩, by simp⟩

theorem assembles_table (hd : d'.Follows d size) (hsize : rest.length ≤ size) :
    AssemblesNode rest (Grammar.table d) (table d') := by
  rintro s rfl hs
  refine .start fun place => ?_
  refine (Bench.Gone.first assembles_expect).bind ?_
  rintro opening _ s₁ ⟨h, -, t₁⟩
  refine .look run_isRightAt ?_
  extract_lets tail tail'
  have htail : ∀ {fields s₂}, (s.opening (.expr .table) place).Gone s₂ (opening :: fields) →
      s₂.rest.length ≤ s₁.rest.length → Lockstep (tail fields) (tail' ()) s₂ fun n id s' =>
        s.Gone s' [n] ∧ id = n.id ∧ s'.rest.length < s.rest.length := by
    intro fields s₂ h t₂
    refine (h.andThen assembles_expect).bind ?_
    rintro closing _ s₃ ⟨h, -, t₃⟩
    exact h.close hs (by simp) (by simp) (by omega)
  refine .ite (fun _ => htail h (Nat.le_refl _)) fun hopen => .start fun place' => ?_
  have hopen : Parser.kind? s₁.rest.head? ≠ some .rbrace := fun h => hopen (beq_iff_eq.mpr h)
  have hitems : Assembles s₁.rest (Parser.many (Grammar.fieldStep d))
      (Assembler.many (fieldStep d'))
      (fun made => made) fun made _ s' => s'.rest.length ≤ s₁.rest.length ∧ made ≠ [] :=
    assembles_some (fun h => (assembles_fieldStep hd (by omega)).mono fun _ _ _ h => h.1)
      ((assembles_fieldStep hd (by omega)).mono fun _ _ _ h => ⟨h.1, h.2 hopen⟩)
  refine (Bench.Gone.first hitems).bind ?_
  rintro items _ s₂ ⟨h', t₂, hsome⟩
  refine (Bench.Gone.finishPart h' h.ready rfl hsome).bind ?_
  rintro list _ s₃ ⟨h', hrest⟩
  exact htail (h.trans h') (by rw [hrest]; exact t₂)

/-! ### Interpolated strings -/

theorem assembles_interpolationStep (hd : d'.Follows d size) (hsize : rest.length ≤ size) :
    AssemblesStep rest (Grammar.interpolationStep d) (interpolationStep d') := by
  rintro s rfl hs
  refine .fork run_peekKind fun production hproduction => ?_
  split
  · rename_i hkind
    rw [← hproduction, hkind]
    refine (assembles_mark (nextClass_of_kind? hkind) rfl hs).bind ?_
    rintro content _ s₁ ⟨h, -, t₁⟩
    exact .pure ⟨h, rfl, t₁⟩
  · rename_i hkind
    rw [← hproduction, hkind]
    refine .start fun place => ?_
    refine (Bench.Gone.first (assembles_mark (nextClass_of_kind? hkind))).bind ?_
    rintro opening _ s₁ ⟨h, -, t₁⟩
    refine (h.andThen (assembles_expr hd (by omega))).bind ?_
    rintro value _ s₂ ⟨h, t₂⟩
    refine (h.andThen assembles_expect).bind ?_
    rintro closing _ s₃ ⟨h, -, t₃⟩
    refine (h.finish hs (by simp) (by simp)).bind ?_
    rintro piece _ s₄ ⟨h, -, hrest⟩
    exact .pure ⟨h, rfl, by rw [hrest]; simp only [Bool.toNat_true]; omega⟩
  · rename_i hkind
    rw [← hproduction, hkind]
    refine (assembles_mark (nextClass_of_kind? hkind) rfl hs).bind ?_
    rintro last _ s₁ ⟨h, -, t₁⟩
    exact .pure ⟨h, rfl, Nat.le_of_lt t₁⟩
  · split at hproduction
    any_goals contradiction
    subst hproduction
    exact .unexpected

theorem assembles_interpolation (hd : d'.Follows d size) (hsize : rest.length ≤ size)
    (hnext : nextClass rest = some (.token .interpStart)) :
    AssemblesNode rest (Grammar.interpolation d) (interpolation d') := by
  rintro s rfl hs
  refine .start fun place => ?_
  refine (Bench.Gone.first (assembles_mark hnext)).bind ?_
  rintro opening _ s₁ ⟨h, -, t₁⟩
  refine (h.andThen (assembles_many fun h => assembles_interpolationStep hd (by omega))).bind ?_
  rintro pieces _ s₂ ⟨h, t₂⟩
  exact h.close hs (by simp) (by simp) (by omega)

/-! ### Suffixed expressions -/

theorem assembles_arguments (hd : d'.Follows d size) (hsize : rest.length ≤ size) :
    AssemblesPart rest (Grammar.arguments d) (arguments d') := by
  rintro s rfl hs
  refine .start fun place => .fork run_peekClass fun production hproduction => ?_
  extract_lets last' tail' at hproduction
  split
  · rename_i hnext
    rw [← hproduction, hnext]
    have hnext : nextClass s.rest = some (.token .lparen) := hnext
    refine (Bench.Gone.first (assembles_mark hnext)).bind ?_
    rintro opening _ s₁ ⟨h, -, t₁⟩
    refine .look run_isAt ?_
    extract_lets tail
    have htail : ∀ {values s₂}, (s.opening (.aux .argList) place).Gone s₂ (opening :: values) →
        s₂.rest.length ≤ s₁.rest.length → Lockstep (tail values) (tail' ()) s₂ fun n _ s' =>
          s.Gone s' [n] ∧ s'.rest.length < s.rest.length := by
      intro values s₂ h t₂
      refine (h.andThen assembles_expect).bind ?_
      rintro closing _ s₃ ⟨h, -, t₃⟩
      exact h.closePart hs (by simp) (by simp) (by omega)
    refine .ite (fun _ => htail h (Nat.le_refl _)) fun _ => ?_
    refine (h.andThen (assembles_exprs hd (by omega))).bind ?_
    rintro values _ s₂ ⟨h, t₂, -⟩
    exact htail h (Nat.le_of_lt t₂)
  · rename_i hnext
    rw [← hproduction, hnext]
    have hnext : nextClass s.rest = some (.literal .string) := hnext
    refine (Bench.Gone.first (AssemblesNode.part (assembles_literal hnext))).bind ?_
    rintro value _ s₁ ⟨h, t₁⟩
    exact h.closePart hs rfl (by simp) t₁
  · rename_i hnext
    rw [← hproduction, hnext]
    refine (Bench.Gone.first (AssemblesNode.part (assembles_table hd hsize))).bind ?_
    rintro value _ s₁ ⟨h, t₁⟩
    exact h.closePart hs rfl (by simp) t₁
  · split at hproduction
    any_goals contradiction
    subst hproduction
    exact .unexpectedBind

theorem assembles_base (hd : d'.Follows d size) (hsize : rest.length ≤ size) :
    AssemblesNode rest (Grammar.base d) (base d') := by
  rintro s rfl hs
  refine .fork run_peekKind fun production hproduction => ?_
  split
  · rename_i hkind
    rw [← hproduction, hkind]
    refine .start fun place => ?_
    refine (Bench.Gone.first (assembles_mark (nextClass_of_kind? hkind))).bind ?_
    rintro name _ s₁ ⟨h, -, t₁⟩
    exact h.close hs rfl (by simp) t₁
  · rename_i hkind
    rw [← hproduction, hkind]
    refine .start fun place => ?_
    refine (Bench.Gone.first (assembles_mark (nextClass_of_kind? hkind))).bind ?_
    rintro opening _ s₁ ⟨h, -, t₁⟩
    refine (h.andThen (assembles_expr hd (by omega))).bind ?_
    rintro inside _ s₂ ⟨h, t₂⟩
    refine (h.andThen assembles_expect).bind ?_
    rintro closing _ s₃ ⟨h, -, t₃⟩
    exact h.close hs (by simp) (by simp) (by omega)
  · split at hproduction
    any_goals contradiction
    subst hproduction
    exact .unexpected

/-- The arguments of a call of the last node. -/
theorem lockstep_call (hd : d'.Follows d size) {s₀ s : Bench} {node : Node} (hs₀ : s₀.Ready)
    (hsize : s.rest.length ≤ size) (h : s₀.Gone s [node]) :
    Lockstep
      (do
        let values ← Grammar.arguments d
        return some (← Parser.finish (.expr .call) [node, values]))
      (do
        Assembler.startAt s₀.builder.checkpoint (.expr .call)
        arguments d'
        return some (← Assembler.finish))
      s (Wraps s₀ s node) := by
  refine .startAt hs₀ h fun place built h => ?_
  refine (h.andNext (assembles_arguments hd hsize)).bind ?_
  rintro values _ s₁ ⟨h, t₁⟩
  exact h.wrap hs₀ (by simp) (by simp) t₁

/-- A step that may put the last node into another one. -/
theorem lockstep_suffix (hd : d'.Follows d size) {s₀ s : Bench} {node : Node} (hs₀ : s₀.Ready)
    (hsize : s.rest.length ≤ size) (h : s₀.Gone s [node]) :
    Lockstep (Grammar.suffix d node) (suffix d' s₀.builder.checkpoint) s (Wraps s₀ s node) := by
  refine .fork run_peekClass fun production hproduction => ?_
  split
  · rename_i hnext
    rw [← hproduction, hnext]
    refine .startAt hs₀ h fun place built h => ?_
    refine (h.andNext (assembles_mark hnext)).bind ?_
    rintro mark _ s₁ ⟨h, -, t₁⟩
    refine (h.andThen assembles_expectName).bind ?_
    rintro name _ s₂ ⟨h, -, t₂⟩
    exact h.wrap hs₀ (by simp) (by simp) (by omega)
  · rename_i hnext
    rw [← hproduction, hnext]
    refine .startAt hs₀ h fun place built h => ?_
    refine (h.andNext (assembles_mark hnext)).bind ?_
    rintro opening _ s₁ ⟨h, -, t₁⟩
    refine (h.andThen (assembles_expr hd (by omega))).bind ?_
    rintro key _ s₂ ⟨h, t₂⟩
    refine (h.andThen assembles_expect).bind ?_
    rintro closing _ s₃ ⟨h, -, t₃⟩
    exact h.wrap hs₀ (by simp) (by simp) (by omega)
  · rename_i hnext
    rw [← hproduction, hnext]
    refine .startAt hs₀ h fun place built h => ?_
    refine (h.andNext (assembles_mark hnext)).bind ?_
    rintro mark _ s₁ ⟨h, -, t₁⟩
    refine (h.andThen assembles_expectName).bind ?_
    rintro name _ s₂ ⟨h, -, t₂⟩
    refine (h.andThen (assembles_arguments hd (by omega))).bind ?_
    rintro values _ s₃ ⟨h, t₃⟩
    exact h.wrap hs₀ (by simp) (by simp) (by omega)
  · rename_i hnext
    rw [← hproduction, hnext]
    exact lockstep_call hd hs₀ hsize h
  · rename_i hnext
    rw [← hproduction, hnext]
    exact lockstep_call hd hs₀ hsize h
  · rename_i hnext
    rw [← hproduction, hnext]
    exact lockstep_call hd hs₀ hsize h
  · split at hproduction
    any_goals contradiction
    subst hproduction
    exact .pure ⟨rfl, h, Nat.le_refl _⟩

theorem assembles_suffixed (hd : d'.Follows d size) (hsize : rest.length ≤ size) :
    AssemblesNode rest (Grammar.suffixed d) (suffixed d') := by
  rintro s rfl hs
  refine .checkpoint ?_
  refine (assembles_base hd hsize rfl hs).bind ?_
  rintro first _ s₁ ⟨h, rfl, t₁⟩
  refine (lockstep_chain (fun t h => lockstep_suffix hd hs (by omega) h) h).mono ?_
  rintro n id s₂ ⟨h, rfl, t₂⟩
  exact ⟨h, rfl, by omega⟩

/-! ### Operators -/

theorem assembles_simple (hd : d'.Follows d size) (hsize : rest.length ≤ size) :
    AssemblesNode rest (Grammar.simple d) (simple d') := by
  rintro s rfl hs
  refine .fork run_peekClass fun production hproduction => ?_
  split
  · rename_i hnext
    rw [← hproduction, hnext]
    exact assembles_literal hnext rfl hs
  · rename_i hnext
    rw [← hproduction, hnext]
    exact assembles_interpolation hd hsize hnext rfl hs
  · rename_i hnext
    rw [← hproduction, hnext]
    exact assembles_table hd hsize rfl hs
  · rename_i hnext
    rw [← hproduction, hnext]
    exact assembles_anonymousFunction hd hsize hnext rfl hs
  · rename_i hnext
    rw [← hproduction, hnext]
    exact assembles_conditional hd hsize hnext rfl hs
  · rename_i hliteral _ _ _ _
    split at hproduction
    · rename_i k hnext
      exact absurd hnext (hliteral k)
    any_goals contradiction
    subst hproduction
    exact assembles_suffixed hd hsize rfl hs

theorem assembles_unary (hd : d'.Follows d size) (hsize : rest.length ≤ size) {k : TokenKind}
    (hnext : nextClass rest = some (.token k)) :
    AssemblesNode rest (Grammar.unary d) (unary d') := by
  rintro s rfl hs
  refine .start fun place => ?_
  refine (Bench.Gone.first (assembles_mark hnext)).bind ?_
  rintro mark _ s₁ ⟨h, -, t₁⟩
  refine (h.andThen (hd.operand unaryPower (by omega))).bind ?_
  rintro value _ s₂ ⟨h, -, t₂⟩
  exact h.close hs (by simp) (by simp) (by omega)

/-- A binary operator whose left operand is the last node. -/
theorem lockstep_binary (hd : d'.Follows d size) {s₀ s : Bench} {left : Node} (hs₀ : s₀.Ready)
    (limit : Nat) (hsize : s.rest.length ≤ size) (h : s₀.Gone s [left]) :
    Lockstep (Grammar.binary d limit left) (binary d' s₀.builder.checkpoint limit) s
      (Wraps s₀ s left) := by
  refine .fork run_peekKind fun production hproduction => ?_
  split
  · rename_i hpowers
    rw [← hproduction, hpowers]
    exact .pure ⟨rfl, h, Nat.le_refl _⟩
  · rename_i leftPower rightPower hpowers
    rw [← hproduction, hpowers]
    refine .ite (fun _ => .pure ⟨rfl, h, Nat.le_refl _⟩) fun _ => ?_
    obtain ⟨k, hkind, -⟩ := Option.bind_eq_some_iff.mp hpowers
    refine .startAt hs₀ h fun place built h => ?_
    refine (h.andNext (assembles_mark (nextClass_of_kind? hkind))).bind ?_
    rintro mark _ s₁ ⟨h, -, t₁⟩
    refine (h.andThen (hd.operand rightPower (by omega))).bind ?_
    rintro right _ s₂ ⟨h, -, t₂⟩
    exact h.wrap hs₀ (by simp) (by simp) (by omega)

theorem assembles_operand (hd : d'.Follows d size) (limit : Nat) (hsize : rest.length ≤ size) :
    AssemblesNode rest (Grammar.operand d limit) (operand d' limit) := by
  rintro s rfl hs
  refine .checkpoint (.look run_peekKind ?_)
  extract_lets tail tail'
  have htail : ∀ {first s₁}, s.Gone s₁ [first] → s₁.rest.length < s.rest.length →
      Lockstep (tail first) (tail' first.id) s₁ fun n id s' =>
        s.Gone s' [n] ∧ id = n.id ∧ s'.rest.length < s.rest.length := by
    intro first s₁ h t₁
    refine (lockstep_chain (fun t h => lockstep_binary hd hs limit (by omega) h) h).mono ?_
    rintro n id s₂ ⟨h, rfl, t₂⟩
    exact ⟨h, rfl, by omega⟩
  refine .ite (fun hunary => ?_) fun _ => ?_
  · obtain ⟨k, hkind⟩ : ∃ k, Parser.kind? (Cursor.upcoming 0 s.rest) = some k := by
      cases hkind : Parser.kind? (Cursor.upcoming 0 s.rest) with
      | none => simp [hkind] at hunary
      | some k => exact ⟨k, rfl⟩
    refine (assembles_unary hd hsize (nextClass_of_kind? hkind) rfl hs).bind ?_
    rintro first _ s₁ ⟨h, rfl, t₁⟩
    exact htail h t₁
  · refine (assembles_simple hd hsize rfl hs).bind ?_
    rintro first _ s₁ ⟨h, rfl, t₁⟩
    exact htail h t₁

end Assembly

end LuauTidy
