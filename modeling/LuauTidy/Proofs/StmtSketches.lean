import LuauTidy.Proofs.Assembled
import LuauTidy.Proofs.ExprSketches
import LuauTidy.Proofs.Passes

/-!
# Sources without a look at the layout

The productions of statements do the same on both sides as well, and so does a
whole parse.  Two sources that differ in nothing but blanks and comments both
parse, to trees of one sketch, or neither of them does, for the same reason and
at the same token.

* `Twin.statement`, `Twin.blockItems` — a statement, a block;
* `solidTokens`, `solidPlace` — the tokens of a source that are no comments, and
  their places;
* `parse_ignores_layout` — two sources.
-/

namespace LuauTidy

namespace Twin

variable {z : Sides} {d d' : Descent}

/-! ### Looking ahead -/

theorem atBlockEnd : Twin z Eq Grammar.atBlockEnd Grammar.atBlockEnd := by
  refine peek.bind fun t t' ht => ?_
  have hcloses : Grammar.closesBlock t = Grammar.closesBlock t' := by
    cases t with
    | none =>
        cases t' with
        | none => rfl
        | some => cases ht
    | some t =>
        cases t' with
        | none => cases ht
        | some t' =>
            have hcls : t.cls = t'.cls := (Prod.mk.inj (Option.some.inj ht)).1
            simp only [Grammar.closesBlock, hcls]
  exact .pure hcloses

/-- The word `continue` is a statement on both sides or a variable on both. -/
theorem isContinue : Twin z Eq Grammar.isContinue Grammar.isContinue := by
  refine peek.bind fun t t' ht => ?_
  cases t with
  | none =>
      cases t' with
      | none => exact .pure rfl
      | some => cases ht
  | some t =>
      cases t' with
      | none => cases ht
      | some t' =>
          obtain ⟨hcls, htext⟩ := Prod.mk.inj (Option.some.inj ht)
          simp only [hcls, htext]
          refine ite (fun _ => ?_) fun _ => .pure rfl
          refine (nth 1).bind fun after after' hafter => ?_
          have hcls : after.map (fun after => Grammar.continuesExpression after.cls) =
              after'.map (fun after => Grammar.continuesExpression after.cls) := by
            have hmap := congrArg (Option.map Grammar.continuesExpression) hafter.cls
            simpa [Option.map_map, Function.comp_def] using hmap
          exact .pure (by rw [hcls])

/-! ### Declarations -/

theorem binding : Twin z Node.Alike Grammar.binding Grammar.binding := by
  refine expectName.bind fun name name' hname => ?_
  exact finish (by decide) hname.single

theorem localStatement (hd : d.Twins z d') :
    Twin z Node.Alike (Grammar.localStatement d) (Grammar.localStatement d') := by
  refine (nth 1).bind fun after after' hafter => ?_
  rw [hafter.kind?]
  refine ite (fun _ => ?_) fun _ => ?_
  · refine bump.bind fun mark mark' hmark => ?_
    refine bump.bind fun functionMark functionMark' hfunctionMark => ?_
    refine expectName.bind fun name name' hname => ?_
    refine (functionBody hd).bind fun body body' hbody => ?_
    exact finish (by decide) (hmark.cons (hfunctionMark.cons (hname.cons hbody.single)))
  · refine bump.bind fun mark mark' hmark => ?_
    refine (separatedBy binding).bind fun names names' hnames => ?_
    refine eat (fun equals equals' hequals => ?_) ?_
    · refine (exprs hd).bind fun values values' hvalues => ?_
      exact finish (by decide) ((hmark.cons hnames).append (hequals.cons hvalues))
    · exact finish (by decide) (hmark.cons hnames)

theorem functionName : Twin z Node.Alike Grammar.functionName Grammar.functionName := by
  refine (separatedBy expectName).bind fun names names' hnames => ?_
  refine eat (fun colon colon' hcolon => ?_) ?_
  · refine expectName.bind fun name name' hname => ?_
    exact finish (by decide) (hnames.append (hcolon.cons hname.single))
  · exact finish (by decide) hnames

theorem functionStatement (hd : d.Twins z d') :
    Twin z Node.Alike (Grammar.functionStatement d) (Grammar.functionStatement d') := by
  refine bump.bind fun mark mark' hmark => ?_
  refine functionName.bind fun name name' hname => ?_
  refine (functionBody hd).bind fun body body' hbody => ?_
  exact finish (by decide) (hmark.cons (hname.cons hbody.single))

/-! ### Control -/

theorem guardedBlock (hd : d.Twins z d') :
    Twin z RowsAlike (Grammar.guardedBlock d) (Grammar.guardedBlock d') := by
  refine (expr hd).bind fun condition condition' hcondition => ?_
  refine expect.bind fun mark mark' hmark => ?_
  refine map (hd.block.mono fun block block' hblock => ?_)
  exact hcondition.cons (hmark.cons hblock.single)

theorem ifStatement (hd : d.Twins z d') :
    Twin z Node.Alike (Grammar.ifStatement d) (Grammar.ifStatement d') := by
  refine bump.bind fun mark mark' hmark => ?_
  refine (guardedBlock hd).bind fun first first' hfirst => ?_
  refine (more (guardedBlock hd)).bind fun others others' hothers => ?_
  have hlast : ∀ {final final' : List Node}, RowsAlike final final' →
      Twin z Node.Alike
        (Parser.expect .kwEnd >>= fun last =>
          Parser.finish (.stmt .ifStmt) (mark :: first ++ others ++ final ++ [last]))
        (Parser.expect .kwEnd >>= fun last =>
          Parser.finish (.stmt .ifStmt) (mark' :: first' ++ others' ++ final' ++ [last])) := by
    intro final final' hfinal
    refine expect.bind fun last last' hlast => ?_
    refine finish (by decide) ?_
    exact (((hmark.cons hfirst).append hothers).append hfinal).append hlast.single
  refine eat (fun elseMark elseMark' helseMark => ?_) ?_
  · exact hd.block.bind fun block block' hblock => hlast (helseMark.cons hblock.single)
  · exact hlast .nil

theorem whileStatement (hd : d.Twins z d') :
    Twin z Node.Alike (Grammar.whileStatement d) (Grammar.whileStatement d') := by
  refine bump.bind fun mark mark' hmark => ?_
  refine (expr hd).bind fun condition condition' hcondition => ?_
  refine expect.bind fun doMark doMark' hdoMark => ?_
  refine hd.block.bind fun block block' hblock => ?_
  refine expect.bind fun last last' hlast => ?_
  refine finish (by decide) ?_
  exact hmark.cons (hcondition.cons (hdoMark.cons (hblock.cons hlast.single)))

theorem doStatement (hd : d.Twins z d') :
    Twin z Node.Alike (Grammar.doStatement d) (Grammar.doStatement d') := by
  refine bump.bind fun mark mark' hmark => ?_
  refine hd.block.bind fun block block' hblock => ?_
  refine expect.bind fun last last' hlast => ?_
  exact finish (by decide) (hmark.cons (hblock.cons hlast.single))

theorem repeatStatement (hd : d.Twins z d') :
    Twin z Node.Alike (Grammar.repeatStatement d) (Grammar.repeatStatement d') := by
  refine bump.bind fun mark mark' hmark => ?_
  refine hd.block.bind fun block block' hblock => ?_
  refine expect.bind fun untilMark untilMark' huntilMark => ?_
  refine (expr hd).bind fun condition condition' hcondition => ?_
  exact finish (by decide) (hmark.cons (hblock.cons (huntilMark.cons hcondition.single)))

theorem bounds (hd : d.Twins z d') :
    Twin z RowsAlike (Grammar.bounds d) (Grammar.bounds d') := by
  refine expect.bind fun equals equals' hequals => ?_
  refine (expr hd).bind fun first first' hfirst => ?_
  refine expect.bind fun comma comma' hcomma => ?_
  refine (expr hd).bind fun last last' hlast => ?_
  refine eat (fun mark mark' hmark => ?_) ?_
  · refine map ((expr hd).mono fun step step' hstep => ?_)
    exact hequals.cons (hfirst.cons (hcomma.cons (hlast.cons (hmark.cons hstep.single))))
  · exact .pure (hequals.cons (hfirst.cons (hcomma.cons hlast.single)))

theorem iterators (hd : d.Twins z d') :
    Twin z RowsAlike (Grammar.iterators d) (Grammar.iterators d') := by
  refine (moreNodes binding).bind fun names names' hnames => ?_
  refine expect.bind fun mark mark' hmark => ?_
  refine map ((exprs hd).mono fun values values' hvalues => ?_)
  exact hnames.append (hmark.cons hvalues)

theorem forStatement (hd : d.Twins z d') :
    Twin z Node.Alike (Grammar.forStatement d) (Grammar.forStatement d') := by
  refine (nth 2).bind fun after after' hafter => ?_
  rw [hafter.kind?]
  generalize (Parser.kind? after' == some .assign) = numeric
  refine bump.bind fun mark mark' hmark => ?_
  refine binding.bind fun name name' hname => ?_
  have htail : ∀ {header header' : List Node}, RowsAlike header header' →
      Twin z Node.Alike
        (Parser.expect .kwDo >>= fun doMark => d.block >>= fun block =>
          Parser.expect .kwEnd >>= fun last =>
            Parser.finish (.stmt (if numeric then .forRange else .forIn))
              (mark :: name :: header ++ [doMark, block, last]))
        (Parser.expect .kwDo >>= fun doMark => d'.block >>= fun block =>
          Parser.expect .kwEnd >>= fun last =>
            Parser.finish (.stmt (if numeric then .forRange else .forIn))
              (mark' :: name' :: header' ++ [doMark, block, last])) := by
    intro header header' hheader
    refine expect.bind fun doMark doMark' hdoMark => ?_
    refine hd.block.bind fun block block' hblock => ?_
    refine expect.bind fun last last' hlast => ?_
    refine finish (by cases numeric <;> decide) ?_
    exact (hmark.cons (hname.cons hheader)).append (hdoMark.cons (hblock.cons hlast.single))
  refine ite (fun _ => ?_) fun _ => ?_
  · exact (bounds hd).bind fun header header' hheader => htail hheader
  · exact (iterators hd).bind fun header header' hheader => htail hheader

theorem returnStatement (hd : d.Twins z d') :
    Twin z Node.Alike (Grammar.returnStatement d) (Grammar.returnStatement d') := by
  refine bump.bind fun mark mark' hmark => ?_
  refine atBlockEnd.look fun closing => ?_
  refine (isAt .semi).look fun semi => ?_
  have htail : ∀ {values values' : List Node}, RowsAlike values values' →
      Twin z Node.Alike (Parser.finish (.stmt .returnStmt) (mark :: values))
        (Parser.finish (.stmt .returnStmt) (mark' :: values')) :=
    fun hvalues => finish (by decide) (hmark.cons hvalues)
  refine ite (fun _ => htail .nil) fun _ => ?_
  exact (exprs hd).bind fun values values' hvalues => htail hvalues

/-! ### Assignments and calls -/

theorem assigned (hd : d.Twins z d') :
    Twin z Node.Alike (Grammar.assigned d) (Grammar.assigned d') := by
  refine offset.bind fun place place' hplace => ?_
  refine (suffixed hd).bind fun target target' htarget => ?_
  rw [htarget.kind]
  exact ite (fun _ => .pure htarget) fun _ => wrong hplace

theorem callStatement {place place' : Nat} (hplace : z.Places place place') {n n' : Node}
    (hn : n.Alike n') :
    Twin z Node.Alike (Grammar.exprStatement.callStatement place n)
      (Grammar.exprStatement.callStatement place' n') := by
  rw [Grammar.exprStatement.callStatement, Grammar.exprStatement.callStatement, hn.kind]
  refine ite (fun _ => .pure ?_) fun _ => wrong hplace
  have hplain : Kind.IsPlain (.stmt .call) := by decide
  exact Node.alike_of_rows rfl hplain hn.children

theorem exprStatement (hd : d.Twins z d') :
    Twin z Node.Alike (Grammar.exprStatement d) (Grammar.exprStatement d') := by
  refine offset.bind fun place place' hplace => ?_
  refine (suffixed hd).bind fun target target' htarget => ?_
  simp only [htarget.kind]
  refine peekKind.look fun kind => ?_
  split
  · refine ite (fun _ => ?_) fun _ => ?_
    · refine ite (fun _ => wrongBind hplace) fun _ => ?_
      refine (moreNodes (assigned hd)).bind fun others others' hothers => ?_
      refine (finish (by decide) (htarget.cons hothers)).bind fun targets targets' htargets => ?_
      refine expect.bind fun equals equals' hequals => ?_
      refine (exprs hd).bind fun row row' hrow => ?_
      refine (finish (by decide) hrow).bind fun values values' hvalues => ?_
      exact finish (by decide) (htargets.cons (hequals.cons hvalues.single))
    · refine ite (fun _ => ?_) fun _ => callStatement hplace htarget
      refine ite (fun _ => wrongBind hplace) fun _ => ?_
      refine bump.bind fun mark mark' hmark => ?_
      refine (expr hd).bind fun value value' hvalue => ?_
      exact finish (by decide) (htarget.cons (hmark.cons hvalue.single))
  · exact callStatement hplace htarget

/-! ### Blocks -/

theorem statement (hd : d.Twins z d') :
    Twin z Node.Alike (Grammar.statement d) (Grammar.statement d') := by
  refine peekKind.look fun kind => ?_
  split
  · exact localStatement hd
  · exact functionStatement hd
  · exact ifStatement hd
  · exact whileStatement hd
  · exact doStatement hd
  · exact forStatement hd
  · exact repeatStatement hd
  · exact returnStatement hd
  · refine bump.bind fun mark mark' hmark => ?_
    exact finish (by decide) hmark.single
  · refine isContinue.look fun continues => ?_
    refine ite (fun _ => ?_) fun _ => exprStatement hd
    refine (bumpAs (by decide)).bind fun mark mark' hmark => ?_
    exact finish (by decide) hmark.single

theorem semicolons : Twin z (fun _ _ => True) Grammar.semicolons Grammar.semicolons := by
  refine (rows ((isAt .semi).look fun semi => ?_)).bind fun _ _ _ => .pure trivial
  refine ite (fun _ => ?_) fun _ => .pure ⟨RowsAlike.nil, rfl⟩
  exact advance.bind fun _ _ _ => .pure ⟨RowsAlike.nil, rfl⟩

theorem blockStep (hd : d.Twins z d') :
    Twin z (Steps RowsAlike) (Grammar.blockStep d) (Grammar.blockStep d') := by
  refine comments.bind fun before before' hbefore => ?_
  refine atBlockEnd.look fun closing => ?_
  refine ite (fun _ => .pure ⟨hbefore.rows, rfl⟩) fun _ => ?_
  refine (isAt .kwReturn).look fun isReturn => ?_
  refine (statement hd).bind fun s s' hs => ?_
  refine semicolons.bind fun _ _ _ => ?_
  refine ite (fun _ => ?_) fun _ => ?_
  · refine comments.bind fun after after' hafter => ?_
    refine atBlockEnd.look fun closing => ?_
    refine ite (fun _ => .pure ⟨?_, rfl⟩) fun _ => unexpected
    exact (hbefore.rows.append hs.single).append hafter.rows
  · exact .pure ⟨hbefore.rows.append hs.single, rfl⟩

theorem blockItems (hd : d.Twins z d') :
    Twin z RowsAlike (Grammar.blockItems d) (Grammar.blockItems d') :=
  rows (blockStep hd)

theorem block (hd : d.Twins z d') : Twin z Node.Alike (Grammar.block d) (Grammar.block d') := by
  refine get.bind fun _ _ _ => ?_
  exact (blockItems hd).bind fun items items' hitems => finishAt (by decide) hitems

theorem chunk (hd : d.Twins z d') : Twin z Node.Alike (Grammar.chunk d) (Grammar.chunk d') := by
  refine (blockItems hd).bind fun items items' hitems => ?_
  refine peek.bind fun t t' ht => ?_
  have hsome : t.isSome = t'.isSome := by
    have hmap := congrArg Option.isSome ht
    simpa using hmap
  rw [hsome]
  exact ite (fun _ => unexpected) fun _ => finishAt (by decide) hitems

/-- The levels of the grammar do the same, however many there are on each side. -/
theorem ofDepth (depth depth' : Nat) : (Descent.ofDepth depth).Twins z (.ofDepth depth') := by
  induction depth generalizing depth' with
  | zero => exact ⟨fun _ => brokenLeft, brokenLeft⟩
  | succ depth ih =>
      cases depth' with
      | zero => exact ⟨fun _ => brokenRight, brokenRight⟩
      | succ depth' => exact ⟨operand (ih depth'), block (ih depth')⟩

end Twin

/-! ### Sources -/

/-- The tokens of a source that are no comments. -/
def solidTokens (source : Text) : List Token := Token.solid (tokenize source)

/-- Where the token with a number starts, comments not counted, or where the
source ends. -/
def solidPlace (source : Text) (i : Nat) : Nat :=
  Token.placeOf (solidTokens source) source.byteLength i

/-- Two trees of sources that differ in their layout: they have a diagnostic
each, with the same message and at the same token, or none and one sketch. -/
inductive SyntaxTree.Alike (t u : SyntaxTree) : Prop
  | wrong (message : String) (i : Nat)
      (left : t.errors = [⟨message, solidPlace t.source i⟩])
      (right : u.errors = [⟨message, solidPlace u.source i⟩])
  | parsed (left : t.errors = []) (right : u.errors = []) (sketch : t.root.sketch = u.root.sketch)

/-- Blanks and comments do not matter to whether a source parses, to what it is
read as, and to the reason why it is not. -/
theorem parse_ignores_layout {source other : Text}
    (hsame : (solidTokens source).map Token.content = (solidTokens other).map Token.content) :
    ∃ t u, parse source = .ok t ∧ parse other = .ok u ∧ t.source = source ∧ u.source = other ∧
      t.Alike u := by
  obtain ⟨t, hparse, -⟩ := exists_assembled source
  obtain ⟨u, hparse', -⟩ := exists_assembled other
  let z : Sides :=
    ⟨solidTokens source, solidTokens other, source.byteLength, other.byteLength, hsame⟩
  have hlevel : z.Level (Cursor.start source (tokenize source))
      (Cursor.start other (tokenize other)) :=
    ⟨⟨0, by simp [z, solidTokens, Cursor.start], by simp [z, solidTokens, Cursor.start]⟩, rfl, rfl⟩
  have hends := Twin.chunk (Twin.ofDepth (tokenize source).length (tokenize other).length) _ _ hlevel
  refine ⟨t, u, hparse, hparse', ?_⟩
  simp only [parse] at hparse hparse'
  generalize (Grammar.chunk (.ofDepth (tokenize source).length)).run
    (Cursor.start source (tokenize source)) = r at hends hparse
  generalize (Grammar.chunk (.ofDepth (tokenize other).length)).run
    (Cursor.start other (tokenize other)) = r' at hends hparse'
  cases hends with
  | ok level fits =>
      cases hparse
      cases hparse'
      refine ⟨rfl, rfl, .parsed rfl rfl ?_⟩
      have hsketch := fits.sketch
      rw [Node.sketch_eq, Node.sketch_eq] at hsketch ⊢
      exact hsketch
  | wrong places =>
      cases hparse
      cases hparse'
      obtain ⟨i, hplace, hplace'⟩ := places
      exact ⟨rfl, rfl, .wrong _ i (by rw [hplace]; rfl) (by rw [hplace']; rfl)⟩
  | faultLeft => cases hparse
  | faultRight => cases hparse'

/-- Comments between the braces of a table make a list of fields, which is all
that two trees differ in. -/
theorem parse_ignores_layout_table :
    (solidTokens "x=\x7b\x7d".toList).map Token.content =
        (solidTokens "x = \x7b -- none\n\x7d -- yet".toList).map Token.content ∧
      ∃ t u, parse "x=\x7b\x7d".toList = .ok t ∧ parse "x = \x7b -- none\n\x7d -- yet".toList = .ok u ∧
        t.errors = [] ∧ t.nodeCount < u.nodeCount ∧ t.root.sketch = u.root.sketch := by
  have hsame : (solidTokens "x=\x7b\x7d".toList).map Token.content =
      (solidTokens "x = \x7b -- none\n\x7d -- yet".toList).map Token.content := by decide +kernel
  obtain ⟨t, ht, herrors, hcount⟩ := exists_tree_with "x=\x7b\x7d".toList
    (p := fun t => t.errors = [] ∧ t.nodeCount = 10) (by decide +kernel)
  obtain ⟨u, hu, hcount'⟩ := exists_tree_with "x = \x7b -- none\n\x7d -- yet".toList
    (p := fun t => t.nodeCount = 13) (by decide +kernel)
  obtain ⟨t', u', ht', hu', -, -, halike⟩ := parse_ignores_layout hsame
  obtain rfl := Except.ok.inj (ht.symm.trans ht')
  obtain rfl := Except.ok.inj (hu.symm.trans hu')
  refine ⟨hsame, t, u, ht, hu, herrors, by omega, ?_⟩
  cases halike with
  | wrong message i left => simp [herrors] at left
  | parsed _ _ sketch => exact sketch

end LuauTidy
