import LuauTidy.Proofs.Sketches

/-!
# Expressions without a look at the layout

Every production of an expression does the same on both sides, if what lies
deeper does.  Only a table looks at the comments ahead: where a comment stands
between its braces and nothing else, it makes a list of fields, of which a
sketch knows nothing.

* `Descent.Twins` — what lies deeper, on both sides;
* `Twin.operand` — an expression down to a limit.
-/

namespace LuauTidy

/-- What lies deeper is read alike on both sides. -/
structure Descent.Twins (z : Sides) (d d' : Descent) : Prop where
  operand : ∀ limit, Twin z Node.Alike (d.operand limit) (d'.operand limit)
  block : Twin z Node.Alike d.block d'.block

namespace Twin

variable {z : Sides} {d d' : Descent}

theorem expr (hd : d.Twins z d') : Twin z Node.Alike d.expr d'.expr := hd.operand 0

theorem exprs (hd : d.Twins z d') : Twin z RowsAlike (Grammar.exprs d) (Grammar.exprs d') :=
  separatedBy (expr hd)

/-! ### Function bodies -/

theorem parameters : Twin z RowsAlike Grammar.parameters Grammar.parameters := by
  refine rows (peekClass.look fun cls => ?_)
  split
  · refine map (bump.mono fun mark mark' hmark => ?_)
    exact ⟨hmark.single, rfl⟩
  · refine expectName.bind fun name name' hname => ?_
    refine eat (fun comma comma' hcomma => ?_) ?_
    · exact .pure ⟨hname.cons hcomma.single, rfl⟩
    · exact .pure ⟨hname.single, rfl⟩

theorem functionBody (hd : d.Twins z d') :
    Twin z Node.Alike (Grammar.functionBody d) (Grammar.functionBody d') := by
  refine expect.bind fun opening opening' hopening => ?_
  refine (isAt .rparen).look fun closing => ?_
  extract_lets tail tail'
  have htail : ∀ {params params'}, RowsAlike params params' →
      Twin z Node.Alike (tail params) (tail' params') := by
    intro params params' hparams
    refine expect.bind fun closing closing' hclosing => ?_
    refine hd.block.bind fun block block' hblock => ?_
    refine expect.bind fun last last' hlast => ?_
    refine finish (by decide) ?_
    exact (hopening.cons hparams).append (hclosing.cons (hblock.cons hlast.single))
  refine ite (fun _ => htail .nil) fun _ => ?_
  refine parameters.bind fun names names' hnames => ?_
  refine (finish (by decide) hnames).bind fun list list' hlist => ?_
  exact htail hlist.single

theorem anonymousFunction (hd : d.Twins z d') :
    Twin z Node.Alike (Grammar.anonymousFunction d) (Grammar.anonymousFunction d') := by
  refine bump.bind fun mark mark' hmark => ?_
  refine (functionBody hd).bind fun body body' hbody => ?_
  exact finish (by decide) (hmark.cons hbody.single)

/-! ### Conditionals -/

theorem branch (hd : d.Twins z d') :
    Twin z RowsAlike (Grammar.branch d) (Grammar.branch d') := by
  refine (expr hd).bind fun condition condition' hcondition => ?_
  refine expect.bind fun mark mark' hmark => ?_
  refine map ((expr hd).mono fun value value' hvalue => ?_)
  exact hcondition.cons (hmark.cons hvalue.single)

theorem conditional (hd : d.Twins z d') :
    Twin z Node.Alike (Grammar.conditional d) (Grammar.conditional d') := by
  refine bump.bind fun mark mark' hmark => ?_
  refine (branch hd).bind fun first first' hfirst => ?_
  refine (more (branch hd)).bind fun others others' hothers => ?_
  refine expect.bind fun elseMark elseMark' helseMark => ?_
  refine (expr hd).bind fun value value' hvalue => ?_
  refine finish (by decide) ?_
  exact ((hmark.cons hfirst).append hothers).append (helseMark.cons hvalue.single)

/-! ### Tables -/

theorem field (hd : d.Twins z d') : Twin z Node.Alike (Grammar.field d) (Grammar.field d') := by
  refine (isAt .lbracket).look fun bracketed => ?_
  refine ite (fun _ => ?_) fun _ => ?_
  · refine bump.bind fun opening opening' hopening => ?_
    refine (expr hd).bind fun key key' hkey => ?_
    refine expect.bind fun closing closing' hclosing => ?_
    refine expect.bind fun mark mark' hmark => ?_
    refine (expr hd).bind fun value value' hvalue => ?_
    refine finish (by decide) ?_
    exact hopening.cons (hkey.cons (hclosing.cons (hmark.cons hvalue.single)))
  · refine (isAt .name).look fun named => ?_
    refine (nth 1).bind fun after after' hafter => ?_
    rw [hafter.kind?]
    refine ite (fun _ => ?_) fun _ => ?_
    · refine bump.bind fun name name' hname => ?_
      refine bump.bind fun mark mark' hmark => ?_
      refine (expr hd).bind fun value value' hvalue => ?_
      exact finish (by decide) (hname.cons (hmark.cons hvalue.single))
    · refine (expr hd).bind fun value value' hvalue => ?_
      exact finish (by decide) hvalue.single

/-- Two rows of nodes that are alike, without lists of fields. -/
structure Items (row row' : List Node) : Prop where
  rows : RowsAlike row row'
  left : ∀ n ∈ row, n.kind ≠ .aux .fieldList
  right : ∀ n ∈ row', n.kind ≠ .aux .fieldList

namespace Items

variable {row row' later later' : List Node}

theorem append (h : Items row row') (hlater : Items later later') :
    Items (row ++ later) (row' ++ later') where
  rows := h.rows.append hlater.rows
  left := List.forall_mem_append.mpr ⟨h.left, hlater.left⟩
  right := List.forall_mem_append.mpr ⟨h.right, hlater.right⟩

theorem of_comments (h : Comments row row') : Items row row' where
  rows := h.rows
  left := by
    intro n hn hkind
    simpa [Node.isComment, hkind] using h.1 n hn
  right := by
    intro n hn hkind
    simpa [Node.isComment, hkind] using h.2 n hn

theorem of_alike {n n' : Node} (h : n.Alike n') : Items [n] [n'] where
  rows := h.single
  left := List.forall_mem_singleton.mpr h.plain.2
  right := List.forall_mem_singleton.mpr h.plain'.2

/-- A row without lists of fields has a sketch as soon as there is no comment. -/
theorem all_comments {row : List Node} (h : ∀ n ∈ row, n.kind ≠ .aux .fieldList) :
    row.all Node.isComment = (sketchAll row).isEmpty := by
  induction row with
  | nil => rfl
  | cons n row ih =>
      rw [List.forall_mem_cons] at h
      have hmargin : n.isMargin = n.isComment := by simp [Node.isMargin, h.1]
      rw [List.all_cons, ih h.2, sketchAll, hmargin]
      cases n.isComment <;> rfl

/-- The lists of fields around such rows have both a part in a sketch, or neither
has. -/
theorem list (h : Items row row') {list list' : Node} (hkind : list.kind = .aux .fieldList)
    (hkind' : list'.kind = .aux .fieldList) (hrow : list.children = row)
    (hrow' : list'.children = row') : RowsAlike [list] [list'] := by
  have hmargin : list.isMargin = list'.isMargin := by
    have hall : row.all Node.isComment = row'.all Node.isComment := by
      rw [all_comments h.left, all_comments h.right, h.rows]
    simp [Node.isMargin, Node.isComment, hkind, hkind', hrow, hrow', hall]
  have hsketch : list.sketch = list'.sketch := by
    rw [Node.sketch_eq, Node.sketch_eq, hkind, hkind', hrow, hrow', h.rows]
  simp only [RowsAlike, sketchAll, hmargin, hsketch]

end Items

theorem fieldStep (hd : d.Twins z d') :
    Twin z (Steps Items) (Grammar.fieldStep d) (Grammar.fieldStep d') := by
  refine comments.bind fun before before' hbefore => ?_
  refine (isAt .rbrace).look fun closing => ?_
  refine ite (fun _ => .pure ⟨.of_comments hbefore, rfl⟩) fun _ => ?_
  refine (field hd).bind fun f f' hf => ?_
  refine comments.bind fun after after' hafter => ?_
  refine (isAt .comma).look fun comma => ?_
  refine (isAt .semi).look fun semi => ?_
  have hrow : Items (before ++ [f] ++ after) (before' ++ [f'] ++ after') :=
    ((Items.of_comments hbefore).append (.of_alike hf)).append (.of_comments hafter)
  refine ite (fun _ => ?_) fun _ => .pure ⟨hrow, rfl⟩
  refine map (bump.mono fun separator separator' hseparator => ?_)
  exact ⟨hrow.append (.of_alike hseparator), rfl⟩

/-- The first part of a parser is run, and the rest goes on from there. -/
theorem run_bind_of_ok {α β : Type} {p : Parser α} {q : α → Parser β} {a : α} {c c₁ : Cursor}
    (h : p.run c = .ok a c₁) : (p >>= q).run c = (q a).run c₁ := by
  simp only [EStateM.run, Bind.bind, EStateM.bind] at *
  rw [h]

/-- Before a brace that closes the table, all fields are comments. -/
theorem run_fields_of_rbrace {c : Cursor}
    (hnext : Parser.kind? (Cursor.upcoming 0 c.rest) = some .rbrace) :
    ∃ nodes c₁, (Parser.many (Grammar.fieldStep d)).run c = .ok nodes c₁ ∧
      (∀ n ∈ nodes, n.isComment) ∧ Token.solid c₁.rest = Token.solid c.rest ∧
        c₁.sourceEnd = c.sourceEnd := by
  obtain ⟨nodes, c₁, hrun, hnodes, hrest, hend⟩ := run_comments c
  refine ⟨nodes, c₁, ?_, hnodes, hrest, hend⟩
  have hat : (Parser.isAt .rbrace).run c₁ = .ok true c₁ := by
    have hsame : Cursor.upcoming 0 c₁.rest = Cursor.upcoming 0 c.rest := by
      rw [Cursor.upcoming_eq, Cursor.upcoming_eq, hrest]
    have hkind : (Parser.kind? (Cursor.upcoming 0 c₁.rest) == some .rbrace) = true := by
      rw [hsame, hnext]
      rfl
    exact congrArg (EStateM.Result.ok · c₁) hkind
  have hstep : (Grammar.fieldStep d).run c = .ok (nodes, false) c₁ := by
    rw [Grammar.fieldStep, run_bind_of_ok hrun, run_bind_of_ok hat]
    rfl
  have hget : (MonadState.get : Parser Cursor).run c = .ok c c := rfl
  rw [Parser.many, run_bind_of_ok hget, Parser.manyFrom, run_bind_of_ok hstep]
  rfl

/-- Where a brace comes right ahead, it is the next token. -/
theorem upcoming_of_isRightAt {tokens : List Token}
    (h : (Parser.kind? tokens.head? == some .rbrace) = true) :
    Parser.kind? (Cursor.upcoming 0 tokens) = some .rbrace := by
  rw [beq_iff_eq] at h
  cases tokens with
  | nil => cases h
  | cons t tokens =>
      have hcls : t.cls = .token .rbrace := by simpa using Parser.kind?_eq_some.mp h
      have ht : t.isComment = false := by simp [Token.isComment, hcls]
      simpa [Cursor.upcoming, ht] using h

/-- The part of a table after its opening brace.  One side may have comments
between braces that hold nothing else. -/
theorem tableFields {tail tail' : List Node → Parser Node} (hd : d.Twins z d')
    (htail : ∀ {row row'}, RowsAlike row row' → Twin z Node.Alike (tail row) (tail' row')) :
    Twin z Node.Alike
      (do
        if ← Parser.isRightAt .rbrace then tail []
        else
          let items ← Parser.many (Grammar.fieldStep d)
          let list ← Parser.finish (.aux .fieldList) items
          tail [list])
      (do
        if ← Parser.isRightAt .rbrace then tail' []
        else
          let items ← Parser.many (Grammar.fieldStep d')
          let list ← Parser.finish (.aux .fieldList) items
          tail' [list]) := by
  have hlist : ∀ {nodes : List Node} {id start stop : Nat}, (∀ n ∈ nodes, n.isComment) →
      sketchAll [⟨id, .aux .fieldList, start, stop, nodes⟩] = [] := by
    intro nodes id start stop hnodes
    have hmargin : Node.isMargin ⟨id, .aux .fieldList, start, stop, nodes⟩ := by
      simpa [Node.isMargin] using .inr hnodes
    rw [sketchAll, if_pos hmargin, sketchAll]
  intro c c' hlevel
  have hlook : (Parser.isRightAt .rbrace).run c =
      .ok (Parser.kind? c.rest.head? == some .rbrace) c := rfl
  have hlook' : (Parser.isRightAt .rbrace).run c' =
      .ok (Parser.kind? c'.rest.head? == some .rbrace) c' := rfl
  have hsame := (hlevel.upcoming 0).kind?
  obtain ⟨i, hleft, hright⟩ := hlevel.ahead
  rw [run_bind_of_ok hlook, run_bind_of_ok hlook']
  cases hclosed : Parser.kind? c.rest.head? == some .rbrace with
  | true =>
      cases hclosed' : Parser.kind? c'.rest.head? == some .rbrace with
      | true => exact htail .nil c c' hlevel
      | false =>
          obtain ⟨nodes, c₁, hrun, hnodes, hrest, hend⟩ :=
            run_fields_of_rbrace (d := d') (hsame ▸ upcoming_of_isRightAt hclosed)
          simp only [if_true, Bool.false_eq_true, if_false]
          rw [run_bind_of_ok hrun]
          refine @htail [] _ (hlist hnodes).symm c _ ⟨⟨i, hleft, ?_⟩, hlevel.leftEnd, ?_⟩
          · exact hrest.trans hright
          · exact hend.trans hlevel.rightEnd
  | false =>
      cases hclosed' : Parser.kind? c'.rest.head? == some .rbrace with
      | true =>
          obtain ⟨nodes, c₁, hrun, hnodes, hrest, hend⟩ :=
            run_fields_of_rbrace (d := d) (hsame ▸ upcoming_of_isRightAt hclosed')
          simp only [if_true, Bool.false_eq_true, if_false]
          rw [run_bind_of_ok hrun]
          refine @htail _ [] (hlist hnodes) _ c' ⟨⟨i, ?_, hright⟩, ?_, hlevel.rightEnd⟩
          · exact hrest.trans hleft
          · exact hend.trans hlevel.leftEnd
      | false =>
          refine (many (fun _ _ _ _ => Items.append) (fieldStep hd)).bind
            (fun row row' hrow => ?_) c c' hlevel
          intro c c' hlevel
          exact htail (hrow.list rfl rfl rfl rfl) _ _
            ⟨hlevel.ahead, hlevel.leftEnd, hlevel.rightEnd⟩

theorem table (hd : d.Twins z d') : Twin z Node.Alike (Grammar.table d) (Grammar.table d') := by
  refine expect.bind fun opening opening' hopening => ?_
  have htail : ∀ {fields fields' : List Node}, RowsAlike fields fields' →
      Twin z Node.Alike
        (Parser.expect .rbrace >>= fun closing =>
          Parser.finish (.expr .table) (opening :: fields ++ [closing]))
        (Parser.expect .rbrace >>= fun closing =>
          Parser.finish (.expr .table) (opening' :: fields' ++ [closing])) := by
    intro fields fields' hfields
    refine expect.bind fun closing closing' hclosing => ?_
    exact finish (by decide) ((hopening.cons hfields).append hclosing.single)
  exact tableFields hd htail

/-! ### Interpolated strings -/

theorem interpolationStep (hd : d.Twins z d') :
    Twin z (Steps RowsAlike) (Grammar.interpolationStep d) (Grammar.interpolationStep d') := by
  refine peekKind.look fun kind => ?_
  split
  · refine map (bump.mono fun content content' hcontent => ?_)
    exact ⟨hcontent.single, rfl⟩
  · refine bump.bind fun opening opening' hopening => ?_
    refine (expr hd).bind fun value value' hvalue => ?_
    refine expect.bind fun closing closing' hclosing => ?_
    refine map ((finish (by decide) ?_).mono fun piece piece' hpiece => ?_)
    · exact hopening.cons (hvalue.cons hclosing.single)
    · exact ⟨hpiece.single, rfl⟩
  · refine map (bump.mono fun last last' hlast => ?_)
    exact ⟨hlast.single, rfl⟩
  · exact unexpected

theorem interpolation (hd : d.Twins z d') :
    Twin z Node.Alike (Grammar.interpolation d) (Grammar.interpolation d') := by
  refine bump.bind fun opening opening' hopening => ?_
  refine (rows (interpolationStep hd)).bind fun pieces pieces' hpieces => ?_
  exact finish (by decide) (hopening.cons hpieces)

/-! ### Suffixed expressions -/

theorem arguments (hd : d.Twins z d') :
    Twin z Node.Alike (Grammar.arguments d) (Grammar.arguments d') := by
  refine peekClass.look fun cls => ?_
  split
  · refine bump.bind fun opening opening' hopening => ?_
    refine (isAt .rparen).look fun closing => ?_
    extract_lets tail tail'
    have htail : ∀ {values values'}, RowsAlike values values' →
        Twin z Node.Alike (tail values) (tail' values') := by
      intro values values' hvalues
      refine expect.bind fun closing closing' hclosing => ?_
      exact finish (by decide) ((hopening.cons hvalues).append hclosing.single)
    refine ite (fun _ => htail .nil) fun _ => ?_
    exact (exprs hd).bind fun values values' hvalues => htail hvalues
  · refine bump.bind fun value value' hvalue => ?_
    exact finish (by decide) hvalue.single
  · refine (table hd).bind fun value value' hvalue => ?_
    exact finish (by decide) hvalue.single
  · exact unexpected

theorem base (hd : d.Twins z d') : Twin z Node.Alike (Grammar.base d) (Grammar.base d') := by
  refine peekKind.look fun kind => ?_
  split
  · refine bump.bind fun name name' hname => ?_
    exact finish (by decide) hname.single
  · refine bump.bind fun opening opening' hopening => ?_
    refine (expr hd).bind fun inside inside' hinside => ?_
    refine expect.bind fun closing closing' hclosing => ?_
    exact finish (by decide) (hopening.cons (hinside.cons hclosing.single))
  · exact unexpected

/-- A step that ends with a node around the last one. -/
theorem wrap {kind : Kind} {row row' : List Node} (hkind : kind.IsPlain)
    (h : RowsAlike row row') :
    Twin z (Option.Rel Node.Alike) (do return some (← Parser.finish kind row))
      (do return some (← Parser.finish kind row')) :=
  map ((finish hkind h).mono fun _ _ hn => .some hn)

/-- The arguments of a call of the last node. -/
theorem call (hd : d.Twins z d') {n n' : Node} (hn : n.Alike n') :
    Twin z (Option.Rel Node.Alike)
      (do
        let values ← Grammar.arguments d
        return some (← Parser.finish (.expr .call) [n, values]))
      (do
        let values ← Grammar.arguments d'
        return some (← Parser.finish (.expr .call) [n', values])) := by
  refine (arguments hd).bind fun values values' hvalues => ?_
  exact wrap (by decide) (hn.cons hvalues.single)

theorem suffix (hd : d.Twins z d') (n n' : Node) (hn : n.Alike n') :
    Twin z (Option.Rel Node.Alike) (Grammar.suffix d n) (Grammar.suffix d' n') := by
  refine peekClass.look fun cls => ?_
  split
  · refine bump.bind fun mark mark' hmark => ?_
    refine expectName.bind fun name name' hname => ?_
    exact wrap (by decide) (hn.cons (hmark.cons hname.single))
  · refine bump.bind fun opening opening' hopening => ?_
    refine (expr hd).bind fun key key' hkey => ?_
    refine expect.bind fun closing closing' hclosing => ?_
    exact wrap (by decide) (hn.cons (hopening.cons (hkey.cons hclosing.single)))
  · refine bump.bind fun mark mark' hmark => ?_
    refine expectName.bind fun name name' hname => ?_
    refine (arguments hd).bind fun values values' hvalues => ?_
    exact wrap (by decide) (hn.cons (hmark.cons (hname.cons hvalues.single)))
  · exact call hd hn
  · exact call hd hn
  · exact call hd hn
  · exact .pure .none

theorem suffixed (hd : d.Twins z d') :
    Twin z Node.Alike (Grammar.suffixed d) (Grammar.suffixed d') :=
  (base hd).bind fun _ _ hfirst => chain (suffix hd) hfirst

/-! ### Operators -/

theorem simple (hd : d.Twins z d') : Twin z Node.Alike (Grammar.simple d) (Grammar.simple d') := by
  refine peekClass.look fun cls => ?_
  split
  · exact bump
  · exact interpolation hd
  · exact table hd
  · exact anonymousFunction hd
  · exact conditional hd
  · exact suffixed hd

theorem unary (hd : d.Twins z d') : Twin z Node.Alike (Grammar.unary d) (Grammar.unary d') := by
  refine bump.bind fun mark mark' hmark => ?_
  refine (hd.operand unaryPower).bind fun value value' hvalue => ?_
  exact finish (by decide) (hmark.cons hvalue.single)

theorem binary (hd : d.Twins z d') (limit : Nat) (left left' : Node) (hleft : left.Alike left') :
    Twin z (Option.Rel Node.Alike) (Grammar.binary d limit left)
      (Grammar.binary d' limit left') := by
  refine peekKind.look fun kind => ?_
  split
  · exact .pure .none
  · rename_i leftPower rightPower _
    refine ite (fun _ => .pure .none) fun _ => ?_
    refine bump.bind fun mark mark' hmark => ?_
    refine (hd.operand rightPower).bind fun right right' hright => ?_
    exact wrap (by decide) (hleft.cons (hmark.cons hright.single))

theorem operand (hd : d.Twins z d') (limit : Nat) :
    Twin z Node.Alike (Grammar.operand d limit) (Grammar.operand d' limit) := by
  refine peekKind.look fun kind => ?_
  extract_lets tail tail'
  have htail : ∀ {first first'}, Node.Alike first first' →
      Twin z Node.Alike (tail first) (tail' first') :=
    fun hfirst => chain (binary hd limit) hfirst
  refine ite (fun _ => ?_) fun _ => ?_
  · exact (unary hd).bind fun first first' hfirst => htail hfirst
  · exact (simple hd).bind fun first first' hfirst => htail hfirst

end Twin

end LuauTidy
