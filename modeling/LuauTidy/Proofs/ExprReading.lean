import LuauTidy.Proofs.Reading

namespace LuauTidy

open LuauTidy.Parser LuauTidy.Reading

/-- What lies deeper is read by the grammar. -/
structure Descent.Sound (d : Descent) : Prop where
  operand : ∀ limit, ReadsOne (.operand limit) (d.operand limit)
  block : ReadsOne .block d.block

namespace Grammar

variable {d : Descent}

theorem reads_expr (hd : d.Sound) : ReadsOne .expr d.expr := hd.operand 0

theorem reads_exprs (hd : d.Sound) : ReadsRow .exprs (exprs d) := by
  intro c ws made c' hrun
  obtain ⟨c₁, ws₁, rfl, h⟩ := (start c ws).andSeparated (.inl rfl) (reads_expr hd) hrun
  exact ⟨c₁, ws₁, rfl, h.flat .exprs⟩

/-! ### Function bodies -/

theorem reads_parameters : ReadsRow .params parameters := by
  refine reads_many ?_
  intro c ws made more c' hrun
  simp only [run_bind, run_peekClass, Cursor.facing_rest, upcoming_words] at hrun
  obtain ⟨_, _, ⟨rfl, rfl⟩, hrun⟩ := hrun
  split at hrun
  · rename_i hcls
    simp only [run_bind, run_pure, Prod.mk.injEq] at hrun
    obtain ⟨node, _, hbump, ⟨rfl, rfl⟩, rfl⟩ := hrun
    obtain ⟨c₁, ws₁, rfl, h⟩ := (start c ws).andLiteral hcls hbump
    exact ⟨c₁, ws₁, _, rfl, h, .varargParam⟩
  · simp only [run_bind] at hrun
    obtain ⟨name, _, hname, mark, _, heat, hrun⟩ := hrun
    obtain ⟨c₁, ws₁, rfl, h⟩ := (start c ws).andName hname
    obtain ⟨rfl, hk, rfl⟩ | ⟨node, c₂, ws₂, rfl, rfl, h'⟩ := run_eat h heat
    · simp only [run_pure, Prod.mk.injEq] at hrun
      obtain ⟨⟨rfl, rfl⟩, rfl⟩ := hrun
      exact ⟨c₁, ws₁, _, rfl, h.look hk, .lastParam⟩
    · simp only [run_pure, Prod.mk.injEq] at hrun
      obtain ⟨⟨rfl, rfl⟩, rfl⟩ := hrun
      exact ⟨c₂, ws₂, _, rfl, h', .params⟩

theorem reads_functionBody (hd : d.Sound) : ReadsOne .functionBody (functionBody d) := by
  intro c ws made c' hrun
  simp only [functionBody, run_bind] at hrun
  obtain ⟨opening, _, hopening, empty, _, hat, hrun⟩ := hrun
  obtain ⟨_, _, rfl, h⟩ := (start c ws).andExpect hopening
  rw [run_isAt] at hat
  obtain ⟨rfl, rfl⟩ := hat
  split at hrun
  · simp only [run_bind, run_pure] at hrun
    obtain ⟨_, _, ⟨rfl, rfl⟩, closing, _, hclosing, block, _, hblock, last, _, hlast, hrun⟩ := hrun
    have h := h.append ((start _ _).flat .noParams)
    obtain ⟨_, _, rfl, h⟩ := h.andExpect hclosing
    obtain ⟨_, _, rfl, h⟩ := h.andThen hd.block hblock
    obtain ⟨_, _, rfl, h⟩ := h.andExpect hlast
    exact h.finish .functionBody (by simp) hrun (by simp)
  · simp only [run_bind, run_pure] at hrun
    obtain ⟨names, _, hnames, list, _, hlist, _, _, ⟨rfl, rfl⟩, closing, _, hclosing, block, _,
      hblock, last, _, hlast, hrun⟩ := hrun
    obtain ⟨_, _, rfl, h'⟩ := reads_parameters hnames
    obtain ⟨_, _, rfl, h'⟩ := h'.finish .someParams rfl hlist (by simp)
    have h := h.append (h'.flat .paramList)
    obtain ⟨_, _, rfl, h⟩ := h.andExpect hclosing
    obtain ⟨_, _, rfl, h⟩ := h.andThen hd.block hblock
    obtain ⟨_, _, rfl, h⟩ := h.andExpect hlast
    exact h.finish .functionBody (by simp) hrun (by simp)

theorem reads_anonymousFunction (hd : d.Sound) {c : Cursor} {ws : List Word} {node : Node}
    {c' : Cursor} (hnext : (Word.ahead ws).cls = some (.token .kwFunction))
    (hrun : (anonymousFunction d).run (c.facing ws) = .ok node c') :
    ∃ c₁ ws₁, c' = c₁.facing ws₁ ∧ Reading c ws [.sub .simple] [node] c₁ ws₁ := by
  simp only [anonymousFunction, run_bind] at hrun
  obtain ⟨mark, _, hmark, body, _, hbody, hrun⟩ := hrun
  obtain ⟨_, _, rfl, h⟩ := (start c ws).andBump hnext hmark
  obtain ⟨_, _, rfl, h⟩ := h.andThen (reads_functionBody hd) hbody
  exact h.finish .anonymousFunction (by simp) hrun (by simp)

/-! ### Conditionals -/

/-- A condition with its value, after the keyword. -/
theorem branch_reading (hd : d.Sound) {c c₁ c' : Cursor} {ws ws₁ : List Word}
    {symbols : List Symbol} {made nodes : List Node} (h : Reading c ws symbols made c₁ ws₁)
    (hrun : (branch d).run (c₁.facing ws₁) = .ok nodes c') :
    ∃ c₂ ws₂, c' = c₂.facing ws₂ ∧
      Reading c ws (symbols ++ [.sub .expr] ++ [.mark .kwThen] ++ [.sub .expr]) (made ++ nodes)
        c₂ ws₂ := by
  simp only [branch, run_bind, run_pure] at hrun
  obtain ⟨condition, _, hcondition, mark, _, hmark, value, _, hvalue, rfl, rfl⟩ := hrun
  obtain ⟨_, _, rfl, h⟩ := h.andThen (reads_expr hd) hcondition
  obtain ⟨_, _, rfl, h⟩ := h.andExpect hmark
  obtain ⟨_, _, rfl, h⟩ := h.andThen (reads_expr hd) hvalue
  exact ⟨_, _, rfl, by simpa using h⟩

theorem readsStep_elseif (hd : d.Sound) :
    ReadsStep .elseifs (do
      match ← eat .kwElseif with
      | some mark => return (mark :: (← branch d), true)
      | none => return ([], false)) := by
  intro c ws made more c' hrun
  simp only [run_bind] at hrun
  obtain ⟨mark, _, heat, hrun⟩ := hrun
  obtain ⟨rfl, hk, rfl⟩ | ⟨node, c₁, ws₁, rfl, rfl, h⟩ := run_eat (start c ws) heat
  · simp only [run_pure, Prod.mk.injEq] at hrun
    obtain ⟨⟨rfl, rfl⟩, rfl⟩ := hrun
    exact ⟨c, ws, _, rfl, start c ws, .noElseif⟩
  · simp only [run_bind, run_pure, Prod.mk.injEq] at hrun
    obtain ⟨nodes, _, hbranch, ⟨rfl, rfl⟩, rfl⟩ := hrun
    obtain ⟨_, _, rfl, h⟩ := branch_reading hd h hbranch
    exact ⟨_, _, _, rfl, h, .elseif⟩

theorem reads_conditional (hd : d.Sound) {c : Cursor} {ws : List Word} {node : Node}
    {c' : Cursor} (hnext : (Word.ahead ws).cls = some (.token .kwIf))
    (hrun : (conditional d).run (c.facing ws) = .ok node c') :
    ∃ c₁ ws₁, c' = c₁.facing ws₁ ∧ Reading c ws [.sub .simple] [node] c₁ ws₁ := by
  simp only [conditional, run_bind] at hrun
  obtain ⟨mark, _, hmark, first, _, hfirst, others, _, hothers, elseMark, _, helse, value, _,
    hvalue, hrun⟩ := hrun
  obtain ⟨_, _, rfl, h⟩ := (start c ws).andBump hnext hmark
  obtain ⟨_, _, rfl, h⟩ := branch_reading hd h hfirst
  obtain ⟨_, _, rfl, h⟩ := h.andThen (reads_many (readsStep_elseif hd)) hothers
  obtain ⟨_, _, rfl, h⟩ := h.andExpect helse
  obtain ⟨_, _, rfl, h⟩ := h.andThen (reads_expr hd) hvalue
  exact h.finish .conditional (by simp) hrun (by simp)

/-! ### Tables -/

theorem reads_field (hd : d.Sound) : ReadsOne .field (field d) := by
  intro c ws node c' hrun
  simp only [field, run_bind] at hrun
  obtain ⟨_, _, hat, hrun⟩ := hrun
  obtain ⟨rfl, rfl⟩ := run_isAt.mp hat
  split at hrun
  · rename_i hk
    simp only [run_bind] at hrun
    obtain ⟨opening, _, hopening, key, _, hkey, closing, _, hclosing, mark, _, hmark, value, _,
      hvalue, hrun⟩ := hrun
    obtain ⟨_, _, rfl, h⟩ := (start c ws).andBump (of_decide_eq_true hk) hopening
    obtain ⟨_, _, rfl, h⟩ := h.andThen (reads_expr hd) hkey
    obtain ⟨_, _, rfl, h⟩ := h.andExpect hclosing
    obtain ⟨_, _, rfl, h⟩ := h.andExpect hmark
    obtain ⟨_, _, rfl, h⟩ := h.andThen (reads_expr hd) hvalue
    exact h.finish .keyedField (by simp) hrun (by simp)
  · simp only [run_bind] at hrun
    obtain ⟨_, _, hat', _, _, hnth, hrun⟩ := hrun
    obtain ⟨rfl, rfl⟩ := run_isAt.mp hat'
    obtain ⟨rfl, rfl⟩ := run_nth.mp hnth
    split at hrun
    · rename_i hk
      simp only [Bool.and_eq_true, decide_eq_true_eq, beq_iff_eq] at hk
      simp only [run_bind] at hrun
      obtain ⟨name, _, hname, mark, _, hmark, value, _, hvalue, hrun⟩ := hrun
      obtain ⟨c₁, ws₁, rfl, h⟩ := (start c ws).andBump hk.1 hname
      have hassign : (Word.ahead ws₁).cls = some (.token .assign) := by
        rw [← upcoming_words, ← kind?_eq_some, ← h.upcoming_mark]
        exact hk.2
      obtain ⟨_, _, rfl, h⟩ := h.andBump hassign hmark
      obtain ⟨_, _, rfl, h⟩ := h.andThen (reads_expr hd) hvalue
      exact h.finish .namedField (by simp) hrun (by simp)
    · simp only [run_bind] at hrun
      obtain ⟨value, _, hvalue, hrun⟩ := hrun
      obtain ⟨_, _, rfl, h⟩ := (start c ws).andThen (reads_expr hd) hvalue
      exact h.finish .itemField (by simp) hrun (by simp)

theorem readsStep_field (hd : d.Sound) : ReadsStep .fields (fieldStep d) := by
  intro c ws made more c' hrun
  simp only [fieldStep, run_bind] at hrun
  obtain ⟨before, _, hbefore, _, _, hat, hrun⟩ := hrun
  obtain ⟨_, _, rfl, h⟩ := (start c ws).andThen reads_comments hbefore
  obtain ⟨rfl, rfl⟩ := run_isAt.mp hat
  split at hrun
  · simp only [run_pure, Prod.mk.injEq] at hrun
    obtain ⟨⟨rfl, rfl⟩, rfl⟩ := hrun
    exact ⟨_, _, _, rfl, h, .noFields⟩
  · simp only [run_bind] at hrun
    obtain ⟨f, _, hf, after, _, hafter, _, _, hcomma, _, _, hsemi, hrun⟩ := hrun
    obtain ⟨_, _, rfl, h⟩ := h.andThen (reads_field hd) hf
    obtain ⟨_, _, rfl, h⟩ := h.andThen reads_comments hafter
    obtain ⟨rfl, rfl⟩ := run_isAt.mp hcomma
    obtain ⟨rfl, rfl⟩ := run_isAt.mp hsemi
    split at hrun
    · rename_i hk
      simp only [Bool.or_eq_true, decide_eq_true_eq] at hk
      simp only [run_bind, run_pure, Prod.mk.injEq] at hrun
      obtain ⟨separator, _, hseparator, ⟨rfl, rfl⟩, rfl⟩ := hrun
      obtain ⟨k, hahead, hk⟩ : ∃ k, (Word.ahead _).cls = some (.token k) ∧ (k = .comma ∨ k = .semi) :=
        hk.elim (fun h => ⟨_, h, .inl rfl⟩) fun h => ⟨_, h, .inr rfl⟩
      obtain ⟨_, _, rfl, h⟩ := h.andBump hahead hseparator
      exact ⟨_, _, _, rfl, h, .fields k hk⟩
    · simp only [run_pure, Prod.mk.injEq] at hrun
      obtain ⟨⟨rfl, rfl⟩, rfl⟩ := hrun
      exact ⟨_, _, _, rfl, h, .lastField⟩

/-- Fields that are not none are the fields of a list. -/
theorem fieldList_of_fields {f : Forest} {next : Ahead}
    (h : Derives [.sub .fields] f next) (hf : f ≠ .nil) :
    ∃ parts, Production .fieldList (some (.aux .fieldList)) parts ∧ Derives parts f next := by
  obtain ⟨parts, rule, inside⟩ | ⟨kind, parts, inner, rfl, rule, -⟩ := h.phrase_cases
  · cases rule with
    | noFields =>
        obtain ⟨parts, rule, inside⟩ | ⟨kind, parts, inner, rfl, rule, -⟩ := inside.phrase_cases
        · cases rule with
          | noComments =>
              obtain ⟨-, rfl⟩ := inside.parted
              exact absurd rfl hf
          | comments => exact ⟨_, .commentFields, inside⟩
        · cases rule
    | lastField => exact ⟨_, .lastFieldOnly, inside⟩
    | fields separator separates => exact ⟨_, .fieldList separator separates, inside⟩
  · cases rule

/-- A field list ends where no comment stands right ahead. -/
theorem fieldStep_last {c c' : Cursor} {made : List Node}
    (hrun : (fieldStep d).run c = .ok (made, false) c') :
    ∀ t ∈ c'.rest.head?, t.isComment = false := by
  simp only [fieldStep, run_bind] at hrun
  obtain ⟨before, c₁, hbefore, _, _, hat, hrun⟩ := hrun
  obtain ⟨ws, hc⟩ := c₁.exists_facing
  rw [hc] at hat hbefore
  obtain ⟨rfl, rfl⟩ := run_isAt.mp hat
  split at hrun
  · simp only [run_pure, Prod.mk.injEq, and_true] at hrun
    obtain ⟨rfl, rfl⟩ := hrun
    exact comments_last hbefore
  · simp only [run_bind] at hrun
    obtain ⟨f, _, hf, after, c₂, hafter, _, _, hcomma, _, _, hsemi, hrun⟩ := hrun
    obtain ⟨ws₂, hc₂⟩ := c₂.exists_facing
    rw [hc₂] at hcomma hafter
    obtain ⟨rfl, rfl⟩ := run_isAt.mp hcomma
    obtain ⟨rfl, rfl⟩ := run_isAt.mp hsemi
    split at hrun
    · simp only [run_bind, run_pure, Prod.mk.injEq] at hrun
      obtain ⟨_, _, _, ⟨_, h⟩, _⟩ := hrun
      simp at h
    · simp only [run_pure, Prod.mk.injEq, and_true] at hrun
      obtain ⟨rfl, rfl⟩ := hrun
      exact comments_last hafter

/-- A token that stands right ahead has no comment before it. -/
theorem endsComments_of_right {ws : List Word} {k : TokenKind}
    (h : kind? (ws.map Word.toToken).head? = some k) : EndsComments (Word.ahead ws) := by
  rw [EndsComments, Word.ahead_comment_eq_false]
  intro w hw
  have hcls : w.cls = .token k := by
    simpa [kind?_eq_some, Option.mem_def.mp hw] using h
  simp [Token.isComment, hcls]

theorem reads_table (hd : d.Sound) {c : Cursor} {ws : List Word} {node : Node} {c' : Cursor}
    (hrun : (table d).run (c.facing ws) = .ok node c') :
    ∃ c₁ ws₁, c' = c₁.facing ws₁ ∧ Reading c ws [.sub .table] [node] c₁ ws₁ := by
  simp only [table, isRightAt, run_bind, run_get, run_pure] at hrun
  obtain ⟨opening, _, hopening, _, _, ⟨_, _, ⟨rfl, rfl⟩, rfl, rfl⟩, hrun⟩ := hrun
  obtain ⟨c₁, ws₁, rfl, h⟩ := (start c ws).andExpect hopening
  split at hrun
  · rename_i hright
    simp only [run_bind, run_pure] at hrun
    obtain ⟨_, _, ⟨rfl, rfl⟩, closing, _, hclosing, hrun⟩ := hrun
    have h := h.look (endsComments_of_right (by simpa using hright))
    obtain ⟨_, _, rfl, h⟩ := h.andExpect hclosing
    exact h.finish .emptyTable (by simp) hrun (by simp)
  · rename_i hright
    simp only [run_bind, run_pure] at hrun
    obtain ⟨items, c₂, hitems, list, _, hlist, _, _, ⟨rfl, rfl⟩, closing, _, hclosing, hrun⟩ := hrun
    have hlast := many_last fieldStep_last hitems
    obtain ⟨c₂, ws₂, rfl, f, hws, rfl, hmade, hf⟩ := reads_many (readsStep_field hd) hitems
    have hnil : f ≠ .nil := by
      rintro rfl
      obtain rfl : ws₁ = ws₂ := hws
      obtain ⟨c₃, rfl⟩ := finish_facing hlist
      have hahead := expect_ahead hclosing
      cases ws₁ with
      | nil => simp [Word.ahead] at hahead
      | cons w ws =>
          have hw : w.isComment = false := hlast w.toToken (by simp)
          simp only [Word.ahead, hw, Bool.false_eq_true, if_false, Option.some.injEq] at hahead
          simp [kind?_eq_some, hahead] at hright
    obtain ⟨parts, rule, hf⟩ := fieldList_of_fields hf hnil
    have h' : Reading c₁ ws₁ parts items (c₁.pass f) ws₂ := ⟨f, hws, rfl, hmade, hf⟩
    obtain ⟨_, _, rfl, h'⟩ := h'.finish rule rfl hlist (by simp)
    obtain ⟨_, _, rfl, h⟩ := (h.append h').andExpect hclosing
    exact h.finish .table (by simp) hrun (by simp)

/-! ### Interpolated strings -/

theorem readsStep_interpolation (hd : d.Sound) : ReadsStep .pieces (interpolationStep d) := by
  intro c ws made more c' hrun
  simp only [interpolationStep, run_bind, run_peekKind] at hrun
  obtain ⟨_, _, ⟨rfl, rfl⟩, hrun⟩ := hrun
  split at hrun
  · rename_i hk
    rw [Cursor.facing_rest, kind?_eq_some, upcoming_words] at hk
    simp only [run_bind, run_pure, Prod.mk.injEq] at hrun
    obtain ⟨node, _, hnode, ⟨rfl, rfl⟩, rfl⟩ := hrun
    obtain ⟨_, _, rfl, h⟩ := (start c ws).andBump hk hnode
    exact ⟨_, _, _, rfl, h, .content⟩
  · rename_i hk
    rw [Cursor.facing_rest, kind?_eq_some, upcoming_words] at hk
    simp only [run_bind, run_pure, Prod.mk.injEq] at hrun
    obtain ⟨opening, _, hopening, value, _, hvalue, closing, _, hclosing, piece, _, hpiece,
      ⟨rfl, rfl⟩, rfl⟩ := hrun
    obtain ⟨_, _, rfl, h⟩ := (start c ws).andBump hk hopening
    obtain ⟨_, _, rfl, h⟩ := h.andThen (reads_expr hd) hvalue
    obtain ⟨_, _, rfl, h⟩ := h.andExpect hclosing
    obtain ⟨_, _, rfl, h⟩ := h.finish .interpolatedExpr (by simp) hpiece (by simp)
    exact ⟨_, _, _, rfl, h, .interpolated⟩
  · rename_i hk
    rw [Cursor.facing_rest, kind?_eq_some, upcoming_words] at hk
    simp only [run_bind, run_pure, Prod.mk.injEq] at hrun
    obtain ⟨node, _, hnode, ⟨rfl, rfl⟩, rfl⟩ := hrun
    obtain ⟨_, _, rfl, h⟩ := (start c ws).andBump hk hnode
    exact ⟨_, _, _, rfl, h, .interpolationEnd⟩
  · exact absurd hrun run_unexpected

theorem reads_interpolation (hd : d.Sound) {c : Cursor} {ws : List Word} {node : Node}
    {c' : Cursor} (hnext : (Word.ahead ws).cls = some (.token .interpStart))
    (hrun : (interpolation d).run (c.facing ws) = .ok node c') :
    ∃ c₁ ws₁, c' = c₁.facing ws₁ ∧ Reading c ws [.sub .simple] [node] c₁ ws₁ := by
  simp only [interpolation, run_bind] at hrun
  obtain ⟨opening, _, hopening, pieces, _, hpieces, hrun⟩ := hrun
  obtain ⟨_, _, rfl, h⟩ := (start c ws).andBump hnext hopening
  obtain ⟨_, _, rfl, h⟩ := h.andThen (reads_many (readsStep_interpolation hd)) hpieces
  exact h.finish .interpolation (by simp) hrun (by simp)

/-! ### Suffixed expressions -/

theorem reads_arguments (hd : d.Sound) : ReadsOne .arguments (arguments d) := by
  intro c ws node c' hrun
  simp only [arguments, run_bind, run_peekClass, Cursor.facing_rest, upcoming_words] at hrun
  obtain ⟨_, _, ⟨rfl, rfl⟩, hrun⟩ := hrun
  split at hrun
  · rename_i hk
    simp only [run_bind] at hrun
    obtain ⟨opening, _, hopening, _, _, hat, hrun⟩ := hrun
    obtain ⟨_, _, rfl, h⟩ := (start c ws).andBump hk hopening
    obtain ⟨rfl, rfl⟩ := run_isAt.mp hat
    split at hrun
    · simp only [run_bind, run_pure] at hrun
      obtain ⟨_, _, ⟨rfl, rfl⟩, closing, _, hclosing, hrun⟩ := hrun
      obtain ⟨_, _, rfl, h⟩ := h.andExpect hclosing
      exact h.finish .noArguments (by simp) hrun (by simp)
    · simp only [run_bind] at hrun
      obtain ⟨values, _, hvalues, closing, _, hclosing, hrun⟩ := hrun
      obtain ⟨_, _, rfl, h⟩ := h.andThen (reads_exprs hd) hvalues
      obtain ⟨_, _, rfl, h⟩ := h.andExpect hclosing
      exact h.finish .arguments (by simp) hrun (by simp)
  · rename_i hk
    simp only [run_bind] at hrun
    obtain ⟨literal, _, hliteral, hrun⟩ := hrun
    obtain ⟨_, _, rfl, h⟩ := (start c ws).andLiteral hk hliteral
    exact h.finish .stringArgument (by simp) hrun (by simp)
  · simp only [run_bind] at hrun
    obtain ⟨inside, _, hinside, hrun⟩ := hrun
    obtain ⟨_, _, rfl, h⟩ := reads_table hd hinside
    exact h.finish .tableArgument (by simp) hrun (by simp)
  · exact absurd hrun run_unexpected

theorem reads_base (hd : d.Sound) : ReadsOne .chain (base d) := by
  intro c ws node c' hrun
  simp only [base, run_bind, run_peekKind] at hrun
  obtain ⟨_, _, ⟨rfl, rfl⟩, hrun⟩ := hrun
  split at hrun
  · rename_i hk
    rw [Cursor.facing_rest, kind?_eq_some, upcoming_words] at hk
    simp only [run_bind] at hrun
    obtain ⟨name, _, hname, hrun⟩ := hrun
    obtain ⟨_, _, rfl, h⟩ := (start c ws).andBump hk hname
    obtain ⟨_, _, rfl, h⟩ := h.finish .variableName (by simp) hrun (by simp)
    exact ⟨_, _, rfl, h.flat .chainVariable⟩
  · rename_i hk
    rw [Cursor.facing_rest, kind?_eq_some, upcoming_words] at hk
    simp only [run_bind] at hrun
    obtain ⟨opening, _, hopening, inside, _, hinside, closing, _, hclosing, hrun⟩ := hrun
    obtain ⟨_, _, rfl, h⟩ := (start c ws).andBump hk hopening
    obtain ⟨_, _, rfl, h⟩ := h.andThen (reads_expr hd) hinside
    obtain ⟨_, _, rfl, h⟩ := h.andExpect hclosing
    exact h.finish .parens (by simp) hrun (by simp)
  · exact absurd hrun run_unexpected

/-- A suffix, if there is one, wraps what was read so far. -/
theorem suffix_reading (hd : d.Sound) {c c₁ c' : Cursor} {ws ws₁ : List Word} {node : Node}
    {wrapped : Option Node} (h : Reading c ws [.sub .chain] [node] c₁ ws₁)
    (hrun : (suffix d node).run (c₁.facing ws₁) = .ok wrapped c') :
    ∃ c₂ ws₂, c' = c₂.facing ws₂ ∧ Wraps .chain .suffixed c ws node wrapped c₂ ws₂ := by
  simp only [suffix, run_bind, run_peekClass, Cursor.facing_rest, upcoming_words] at hrun
  obtain ⟨_, _, ⟨rfl, rfl⟩, hrun⟩ := hrun
  split at hrun
  · rename_i hk
    simp only [run_bind, run_pure] at hrun
    obtain ⟨mark, _, hmark, name, _, hname, node', _, hnode, rfl, rfl⟩ := hrun
    obtain ⟨_, _, rfl, h⟩ := h.andBump hk hmark
    obtain ⟨_, _, rfl, h⟩ := h.andName hname
    obtain ⟨_, _, rfl, h⟩ := h.finish .access (by simp) hnode (by simp)
    exact ⟨_, _, rfl, h.flat .chainVariable⟩
  · rename_i hk
    simp only [run_bind, run_pure] at hrun
    obtain ⟨opening, _, hopening, key, _, hkey, closing, _, hclosing, node', _, hnode, rfl, rfl⟩ :=
      hrun
    obtain ⟨_, _, rfl, h⟩ := h.andBump hk hopening
    obtain ⟨_, _, rfl, h⟩ := h.andThen (reads_expr hd) hkey
    obtain ⟨_, _, rfl, h⟩ := h.andExpect hclosing
    obtain ⟨_, _, rfl, h⟩ := h.finish .index (by simp) hnode (by simp)
    exact ⟨_, _, rfl, h.flat .chainVariable⟩
  · rename_i hk
    simp only [run_bind, run_pure] at hrun
    obtain ⟨mark, _, hmark, name, _, hname, values, _, hvalues, node', _, hnode, rfl, rfl⟩ := hrun
    obtain ⟨_, _, rfl, h⟩ := h.andBump hk hmark
    obtain ⟨_, _, rfl, h⟩ := h.andName hname
    obtain ⟨_, _, rfl, h⟩ := h.andThen (reads_arguments hd) hvalues
    obtain ⟨_, _, rfl, h⟩ := (h.flat .methodCall).finish .chainCall (by simp) hnode (by simp)
    exact ⟨_, _, rfl, h⟩
  · simp only [run_bind, run_pure] at hrun
    obtain ⟨values, _, hvalues, node', _, hnode, rfl, rfl⟩ := hrun
    obtain ⟨_, _, rfl, h⟩ := h.andThen (reads_arguments hd) hvalues
    obtain ⟨_, _, rfl, h⟩ := (h.flat .call).finish .chainCall (by simp) hnode (by simp)
    exact ⟨_, _, rfl, h⟩
  · simp only [run_bind, run_pure] at hrun
    obtain ⟨values, _, hvalues, node', _, hnode, rfl, rfl⟩ := hrun
    obtain ⟨_, _, rfl, h⟩ := h.andThen (reads_arguments hd) hvalues
    obtain ⟨_, _, rfl, h⟩ := (h.flat .call).finish .chainCall (by simp) hnode (by simp)
    exact ⟨_, _, rfl, h⟩
  · simp only [run_bind, run_pure] at hrun
    obtain ⟨values, _, hvalues, node', _, hnode, rfl, rfl⟩ := hrun
    obtain ⟨_, _, rfl, h⟩ := h.andThen (reads_arguments hd) hvalues
    obtain ⟨_, _, rfl, h⟩ := (h.flat .call).finish .chainCall (by simp) hnode (by simp)
    exact ⟨_, _, rfl, h⟩
  · rename_i hdot hbracket hcolon hparen hbrace hstring
    simp only [run_pure] at hrun
    obtain ⟨rfl, rfl⟩ := hrun
    have hends : EndsChain (Word.ahead ws₁) := by
      intro cls hcls
      unfold TokenClass.startsSuffix
      split <;> simp_all
    exact ⟨_, _, rfl, (h.look hends).flat .suffixed⟩

theorem reads_suffixed (hd : d.Sound) : ReadsOne .suffixed (suffixed d) := by
  intro c ws node c' hrun
  simp only [suffixed, chain, run_bind, run_get] at hrun
  obtain ⟨first, _, hfirst, _, _, ⟨rfl, rfl⟩, hrun⟩ := hrun
  obtain ⟨_, _, rfl, h⟩ := reads_base hd hfirst
  exact chainFrom_reading (suffix_reading hd) h hrun

/-! ### Operators -/

theorem reads_simple (hd : d.Sound) : ReadsOne .simple (simple d) := by
  intro c ws node c' hrun
  simp only [simple, run_bind, run_peekClass, Cursor.facing_rest, upcoming_words] at hrun
  obtain ⟨_, _, ⟨rfl, rfl⟩, hrun⟩ := hrun
  split at hrun
  · rename_i k hk
    obtain ⟨_, _, rfl, h⟩ := (start c ws).andLiteral hk hrun
    exact ⟨_, _, rfl, h.flat (.literal k)⟩
  · rename_i hk
    exact reads_interpolation hd hk hrun
  · obtain ⟨_, _, rfl, h⟩ := reads_table hd hrun
    exact ⟨_, _, rfl, h.flat .simpleTable⟩
  · rename_i hk
    exact reads_anonymousFunction hd hk hrun
  · rename_i hk
    exact reads_conditional hd hk hrun
  · obtain ⟨_, _, rfl, h⟩ := reads_suffixed hd hrun
    exact ⟨_, _, rfl, h.flat .simpleSuffixed⟩

/-- An operator, if there is one that binds tighter than the limit, wraps what
was read so far. -/
theorem binary_reading (hd : d.Sound) {limit : Nat} {c c₁ c' : Cursor} {ws ws₁ : List Word}
    {node : Node} {wrapped : Option Node}
    (h : Reading c ws [.sub (.climb limit)] [node] c₁ ws₁)
    (hrun : (binary d limit node).run (c₁.facing ws₁) = .ok wrapped c') :
    ∃ c₂ ws₂, c' = c₂.facing ws₂ ∧
      Wraps (.climb limit) (.operand limit) c ws node wrapped c₂ ws₂ := by
  simp only [binary, run_bind, run_peekKind, Cursor.facing_rest] at hrun
  obtain ⟨_, _, ⟨rfl, rfl⟩, hrun⟩ := hrun
  split at hrun
  · rename_i hnone
    simp only [run_pure] at hrun
    obtain ⟨rfl, rfl⟩ := hrun
    have hends : EndsOperand limit (Word.ahead ws₁) := by
      intro k l r hk hpowers
      rw [← upcoming_words, ← kind?_eq_some] at hk
      simp [hk, hpowers] at hnone
    exact ⟨_, _, rfl, (h.look hends).flat (.operand limit)⟩
  · rename_i left right hsome
    obtain ⟨op, hop, hpowers⟩ := Option.bind_eq_some_iff.mp hsome
    rw [kind?_eq_some, upcoming_words] at hop
    split at hrun
    · rename_i hle
      simp only [run_pure] at hrun
      obtain ⟨rfl, rfl⟩ := hrun
      have hends : EndsOperand limit (Word.ahead ws₁) := by
        intro k l r hk hpowers'
        obtain rfl : op = k := by simpa [hop] using hk
        obtain ⟨rfl, rfl⟩ : left = l ∧ right = r := by simpa [hpowers] using hpowers'
        exact hle
      exact ⟨_, _, rfl, (h.look hends).flat (.operand limit)⟩
    · rename_i hlt
      simp only [run_bind, run_pure] at hrun
      obtain ⟨mark, _, hmark, value, _, hvalue, node', _, hnode, rfl, rfl⟩ := hrun
      obtain ⟨_, _, rfl, h⟩ := h.andBump hop hmark
      obtain ⟨_, _, rfl, h⟩ := h.andThen (hd.operand right) hvalue
      exact h.finish (.binary limit op left right hpowers (by omega)) (by simp) hnode (by simp)

theorem reads_unary (hd : d.Sound) (limit : Nat) {c : Cursor} {ws : List Word} {node : Node}
    {c' : Cursor} {op : TokenKind} (hop : (Word.ahead ws).cls = some (.token op)) (hunary : op.isUnary)
    (hrun : (unary d).run (c.facing ws) = .ok node c') :
    ∃ c₁ ws₁, c' = c₁.facing ws₁ ∧ Reading c ws [.sub (.climb limit)] [node] c₁ ws₁ := by
  simp only [unary, run_bind] at hrun
  obtain ⟨mark, _, hmark, value, _, hvalue, hrun⟩ := hrun
  obtain ⟨_, _, rfl, h⟩ := (start c ws).andBump hop hmark
  obtain ⟨_, _, rfl, h⟩ := h.andThen (hd.operand unaryPower) hvalue
  exact h.finish (.unary limit op hunary) (by simp) hrun (by simp)

theorem reads_operand (hd : d.Sound) (limit : Nat) :
    ReadsOne (.operand limit) (operand d limit) := by
  intro c ws node c' hrun
  simp only [operand, chain, run_bind, run_peekKind] at hrun
  obtain ⟨_, _, ⟨rfl, rfl⟩, hrun⟩ := hrun
  split at hrun
  · rename_i hk
    simp only [run_bind, run_get] at hrun
    obtain ⟨first, _, hfirst, _, _, ⟨rfl, rfl⟩, hrun⟩ := hrun
    cases hop : kind? (Cursor.upcoming 0 (ws.map Word.toToken)) with
    | none => simp [hop] at hk
    | some op =>
        have hunary : op.isUnary := by simpa [hop] using hk
        rw [kind?_eq_some, upcoming_words] at hop
        obtain ⟨_, _, rfl, h⟩ := reads_unary hd limit hop hunary hfirst
        exact chainFrom_reading (binary_reading hd) h hrun
  · simp only [run_bind, run_get] at hrun
    obtain ⟨first, _, hfirst, _, _, ⟨rfl, rfl⟩, hrun⟩ := hrun
    obtain ⟨_, _, rfl, h⟩ := reads_simple hd hfirst
    exact chainFrom_reading (binary_reading hd) (h.flat (.plain limit)) hrun

end Grammar

end LuauTidy
