import LuauTidy.Proofs.Lockstep

/-!
# Parsing without a look at the layout

Two sources may differ in nothing but blanks and comments.  Then one parser
goes through both of them and does the same: it takes the same tokens, makes
the same nodes but for comments, and complains of the same at the same token.
What the two parses need not have in common is how many tokens they count, so
a bound on a repetition may be reached by one of them alone; that either
stops with a fault is left open here.

* `Sketch`, `Node.sketch` — a tree without places, numbers and comments;
* `Sides`, `Sides.Level` — two rows of tokens, and cursors at the same token;
* `Twin` — a parser on both sides;
* `Twin.bind`, `nth`, `unexpected`, `bump`, `comments`, `many`, … — one rule for
  each step, and for each way to put steps together.
-/

namespace LuauTidy

/-! ### Sketches -/

/-- A tree without places and numbers. -/
inductive Sketch
  | mk (kind : Kind) (children : List Sketch)

/-- A node of a comment. -/
def Node.isComment (n : Node) : Bool := n.kind == .stmt .comment

/-- A node of a comment, or a list of fields that holds nothing but comments. -/
def Node.isMargin (n : Node) : Bool :=
  n.isComment || (n.kind == .aux .fieldList && n.children.all Node.isComment)

mutual

/-- A subtree without places and numbers, and without what comments alone have
made. -/
def Node.sketch : Node → Sketch
  | ⟨_, kind, _, _, children⟩ => ⟨kind, sketchAll children⟩

/-- The subtrees of siblings but for what comments alone have made. -/
def sketchAll : List Node → List Sketch
  | [] => []
  | n :: rest => if n.isMargin then sketchAll rest else n.sketch :: sketchAll rest

end

theorem Node.sketch_eq (n : Node) : n.sketch = ⟨n.kind, sketchAll n.children⟩ := by
  cases n
  rfl

theorem sketchAll_append (before after : List Node) :
    sketchAll (before ++ after) = sketchAll before ++ sketchAll after := by
  induction before with
  | nil => simp [sketchAll]
  | cons n before ih =>
      rw [List.cons_append, sketchAll, sketchAll, ih]
      split <;> rfl

/-- Comments have no part in a sketch. -/
theorem sketchAll_of_comments {comments : List Node} (h : ∀ n ∈ comments, n.isComment) :
    sketchAll comments = [] := by
  induction comments with
  | nil => rw [sketchAll]
  | cons n comments ih =>
      rw [List.forall_mem_cons] at h
      have hn : n.isMargin := by simp [Node.isMargin, h.1]
      rw [sketchAll, if_pos hn]
      exact ih h.2

/-- A kind of nodes that comments alone do not make. -/
def Kind.IsPlain (k : Kind) : Prop := k ≠ .stmt .comment ∧ k ≠ .aux .fieldList

instance (k : Kind) : Decidable k.IsPlain := inferInstanceAs (Decidable (_ ∧ _))

theorem Kind.isPlain_token (k : TokenKind) : Kind.IsPlain (.token k) := by simp [IsPlain]

theorem Kind.isPlain_expr (k : ExprKind) : Kind.IsPlain (.expr k) := by simp [IsPlain]

theorem Kind.IsPlain.isMargin {n : Node} (h : n.kind.IsPlain) : n.isMargin = false := by
  simp [Node.isMargin, Node.isComment, h.1, h.2]

/-- Two nodes with the same sketch, which has a part in that of the node around
them. -/
structure Node.Alike (n n' : Node) : Prop where
  sketch : n.sketch = n'.sketch
  plain : n.kind.IsPlain

/-- Two rows of nodes with the same sketches. -/
def RowsAlike (row row' : List Node) : Prop := sketchAll row = sketchAll row'

namespace Node.Alike

variable {n n' : Node} {row row' : List Node}

theorem kind (h : n.Alike n') : n.kind = n'.kind := by
  have hsketch := h.sketch
  rw [sketch_eq, sketch_eq, Sketch.mk.injEq] at hsketch
  exact hsketch.1

theorem children (h : n.Alike n') : RowsAlike n.children n'.children := by
  have hsketch := h.sketch
  rw [sketch_eq, sketch_eq, Sketch.mk.injEq] at hsketch
  exact hsketch.2

theorem plain' (h : n.Alike n') : n'.kind.IsPlain := h.kind ▸ h.plain

theorem cons (h : n.Alike n') (hrow : RowsAlike row row') :
    RowsAlike (n :: row) (n' :: row') := by
  have hleft : sketchAll (n :: row) = n.sketch :: sketchAll row := by
    rw [sketchAll, h.plain.isMargin]
    rfl
  have hright : sketchAll (n' :: row') = n'.sketch :: sketchAll row' := by
    rw [sketchAll, h.plain'.isMargin]
    rfl
  rw [RowsAlike, hleft, hright, h.sketch, hrow]

end Node.Alike

theorem Node.alike_of_rows {n n' : Node} (hkind : n.kind = n'.kind) (hplain : n.kind.IsPlain)
    (h : RowsAlike n.children n'.children) : n.Alike n' := by
  refine ⟨?_, hplain⟩
  rw [sketch_eq, sketch_eq, hkind, h]

theorem RowsAlike.nil : RowsAlike [] [] := rfl

theorem Node.Alike.single {n n' : Node} (h : n.Alike n') : RowsAlike [n] [n'] := h.cons .nil

theorem RowsAlike.append {row row' later later' : List Node} (h : RowsAlike row row')
    (hlater : RowsAlike later later') : RowsAlike (row ++ later) (row' ++ later') := by
  rw [RowsAlike, sketchAll_append, sketchAll_append, h, hlater]

/-! ### Sides -/

/-- What a token is, without its place. -/
def Token.content (t : Token) : TokenClass × Text := (t.cls, t.text)

/-- The tokens that are no comments. -/
def Token.solid (tokens : List Token) : List Token := tokens.filter fun t => !t.isComment

/-- Where a token of a row starts, or where the source ends. -/
def Token.placeOf (tokens : List Token) (sourceEnd i : Nat) : Nat :=
  (tokens[i]?.map Token.start).getD sourceEnd

/-- The tokens of two sources that are no comments, which differ in their places
only. -/
structure Sides where
  left : List Token
  right : List Token
  leftEnd : Nat
  rightEnd : Nat
  same : left.map Token.content = right.map Token.content

namespace Sides

/-- Two cursors before the same token. -/
structure Level (z : Sides) (c c' : Cursor) : Prop where
  ahead : ∃ i, Token.solid c.rest = z.left.drop i ∧ Token.solid c'.rest = z.right.drop i
  leftEnd : c.sourceEnd = z.leftEnd
  rightEnd : c'.sourceEnd = z.rightEnd

/-- Two places of the same token, or of the ends. -/
def Places (z : Sides) (place place' : Nat) : Prop :=
  ∃ i, place = Token.placeOf z.left z.leftEnd i ∧ place' = Token.placeOf z.right z.rightEnd i

end Sides

/-- The tokens ahead are the ones that are no comments. -/
theorem Cursor.upcoming_eq (n : Nat) (tokens : List Token) :
    upcoming n tokens = (Token.solid tokens)[n]? := by
  induction tokens generalizing n with
  | nil => rfl
  | cons t tokens ih =>
      cases ht : t.isComment with
      | true => simpa [upcoming, Token.solid, ht] using ih n
      | false =>
          cases n with
          | zero => simp [upcoming, Token.solid, ht]
          | succ n => simpa [upcoming, Token.solid, ht] using ih n

/-- Two tokens that are the same but for their places, or none. -/
def SameContent (t t' : Option Token) : Prop := t.map Token.content = t'.map Token.content

namespace SameContent

variable {t t' : Option Token}

theorem cls (h : SameContent t t') : t.map Token.cls = t'.map Token.cls := by
  have hcls := congrArg (Option.map Prod.fst) h
  simpa [Option.map_map, Function.comp_def, Token.content] using hcls

theorem kind? (h : SameContent t t') : Parser.kind? t = Parser.kind? t' := by
  cases t with
  | none =>
      cases t' with
      | none => rfl
      | some => cases h
  | some t =>
      cases t' with
      | none => cases h
      | some t' =>
          obtain ⟨cls, start, text⟩ := t
          obtain ⟨cls', start', text'⟩ := t'
          obtain rfl : cls = cls' := (Prod.mk.inj (Option.some.inj h)).1
          cases cls <;> rfl

end SameContent

theorem Sides.Level.upcoming {z : Sides} {c c' : Cursor} (h : z.Level c c') (n : Nat) :
    SameContent (Cursor.upcoming n c.rest) (Cursor.upcoming n c'.rest) := by
  obtain ⟨i, hleft, hright⟩ := h.ahead
  rw [SameContent, Cursor.upcoming_eq, Cursor.upcoming_eq, hleft, hright, List.getElem?_drop,
    List.getElem?_drop, ← List.getElem?_map, ← List.getElem?_map, z.same]

/-- The next token stands at the same place on both sides. -/
theorem Sides.Level.places {z : Sides} {c c' : Cursor} (h : z.Level c c') :
    z.Places (((Cursor.upcoming 0 c.rest).map Token.start).getD c.sourceEnd)
      (((Cursor.upcoming 0 c'.rest).map Token.start).getD c'.sourceEnd) := by
  obtain ⟨i, hleft, hright⟩ := h.ahead
  refine ⟨i, ?_, ?_⟩
  · rw [Cursor.upcoming_eq, hleft, List.getElem?_drop, h.leftEnd]
    rfl
  · rw [Cursor.upcoming_eq, hright, List.getElem?_drop, h.rightEnd]
    rfl

/-! ### Two runs -/

/-- How a parser ends on both sides: with results that fit, with the same
complaint at the same place, or with a fault on one side. -/
inductive Sides.Ends {α β : Type} (z : Sides) (R : α → β → Prop) :
    EStateM.Result Failure Cursor α → EStateM.Result Failure Cursor β → Prop
  | ok {a : α} {b : β} {c c' : Cursor} (level : z.Level c c') (fits : R a b) :
      z.Ends R (.ok a c) (.ok b c')
  | wrong {complaint : Complaint} {place place' : Nat} {c c' : Cursor}
      (places : z.Places place place') :
      z.Ends R (.error (.wrong complaint place) c) (.error (.wrong complaint place') c')
  | faultLeft {cause : Fault} {c : Cursor} {r : EStateM.Result Failure Cursor β} :
      z.Ends R (.error (.fault cause) c) r
  | faultRight {cause : Fault} {c' : Cursor} {r : EStateM.Result Failure Cursor α} :
      z.Ends R r (.error (.fault cause) c')

/-- A parser on both sides: from the same token it comes to results that fit. -/
def Twin {α β : Type} (z : Sides) (R : α → β → Prop) (p : Parser α) (p' : Parser β) : Prop :=
  ∀ c c', z.Level c c' → z.Ends R (p.run c) (p'.run c')

namespace Twin

variable {α β γ δ : Type} {z : Sides} {R : α → β → Prop} {S : γ → δ → Prop} {p : Parser α}
  {p' : Parser β} {q : α → Parser γ} {q' : β → Parser δ}

theorem mono {R' : α → β → Prop} (h : Twin z R p p') (hR : ∀ a b, R a b → R' a b) :
    Twin z R' p p' := by
  intro c c' hlevel
  have hends := h c c' hlevel
  generalize p.run c = r at *
  generalize p'.run c' = r' at *
  cases hends with
  | ok level fits => exact .ok level (hR _ _ fits)
  | wrong places => exact .wrong places
  | faultLeft => exact .faultLeft
  | faultRight => exact .faultRight

/-- One thing after the other. -/
theorem bind (h : Twin z R p p') (hq : ∀ a b, R a b → Twin z S (q a) (q' b)) :
    Twin z S (p >>= q) (p' >>= q') := by
  intro c c' hlevel
  have hends := h c c' hlevel
  simp only [EStateM.run, Bind.bind, EStateM.bind] at *
  generalize p c = r at *
  generalize p' c' = r' at *
  cases hends with
  | ok level fits => exact hq _ _ fits _ _ level
  | wrong places => exact .wrong places
  | faultLeft => exact .faultLeft
  | faultRight => exact .faultRight

theorem pure {a : α} {b : β} (h : R a b) : Twin z R (pure a) (pure b) := by
  intro c c' hlevel
  exact .ok hlevel h

/-- A result made of the last one. -/
theorem map {f : α → γ} {f' : β → δ} (h : Twin z (fun a b => S (f a) (f' b)) p p') :
    Twin z S (p >>= fun a => Pure.pure (f a)) (p' >>= fun b => Pure.pure (f' b)) :=
  h.bind fun _ _ hfits => .pure hfits

/-- Both stop with a complaint about the same place. -/
theorem wrong {complaint : Complaint} {place place' : Nat} (h : z.Places place place') :
    Twin z R (throw (.wrong complaint place)) (throw (.wrong complaint place')) := by
  intro c c' _
  exact .wrong h

/-- Both stop with a complaint, and nothing comes after it. -/
theorem wrongBind {complaint : Complaint} {place place' : Nat} (h : z.Places place place') :
    Twin z S (throw (.wrong complaint place) >>= q) (throw (.wrong complaint place') >>= q') :=
  (wrong (R := fun _ _ => False) h).bind fun _ _ hnone => hnone.elim

theorem brokenLeft {cause : Fault} : Twin z R (Parser.broken cause) p' := by
  intro c c' _
  exact .faultLeft

theorem brokenRight {cause : Fault} : Twin z R p (Parser.broken cause) := by
  intro c c' _
  exact .faultRight

theorem get : Twin z (fun _ _ => True) (MonadState.get : Parser Cursor) MonadState.get := by
  intro c c' hlevel
  exact .ok hlevel trivial

theorem ite {c : Prop} [Decidable c] {p q : Parser α} {p' q' : Parser β}
    (hthen : c → Twin z R p p') (helse : ¬c → Twin z R q q') :
    Twin z R (if c then p else q) (if c then p' else q') := by
  split
  · rename_i h
    exact hthen h
  · rename_i h
    exact helse h

/-! #### Looking ahead -/

theorem nth (n : Nat) : Twin z SameContent (Parser.nth n) (Parser.nth n) := by
  intro c c' hlevel
  exact .ok hlevel (hlevel.upcoming n)

theorem peek : Twin z SameContent Parser.peek Parser.peek := nth 0

theorem peekClass : Twin z Eq Parser.peekClass Parser.peekClass := by
  refine peek.bind fun t t' ht => ?_
  exact .pure ht.cls

theorem peekKind : Twin z Eq Parser.peekKind Parser.peekKind := by
  refine peek.bind fun t t' ht => ?_
  exact .pure ht.kind?

theorem isAt (k : TokenKind) : Twin z Eq (Parser.isAt k) (Parser.isAt k) := by
  refine peekKind.bind fun kind kind' hkind => ?_
  exact .pure (by rw [hkind])

/-- A look ahead that both take alike, and then the same way. -/
theorem look {p p' : Parser α} {q : α → Parser γ} {q' : α → Parser δ} (h : Twin z Eq p p')
    (hq : ∀ a, Twin z S (q a) (q' a)) : Twin z S (p >>= q) (p' >>= q') := by
  refine h.bind fun a b hab => ?_
  subst hab
  exact hq a

theorem offset : Twin z z.Places Parser.offset Parser.offset := by
  intro c c' hlevel
  exact .ok hlevel hlevel.places

/-- Both complain of the next token. -/
theorem unexpected {what : Expectation} :
    Twin z R (Parser.unexpected what) (Parser.unexpected what) := by
  intro c c' hlevel
  rw [Parser.run_unexpected_eq, Parser.run_unexpected_eq]
  have hsame := hlevel.upcoming 0
  have hplaces := hlevel.places
  cases ht : Cursor.upcoming 0 c.rest with
  | none =>
      cases ht' : Cursor.upcoming 0 c'.rest with
      | none =>
          rw [ht, ht'] at hplaces
          exact .wrong hplaces
      | some t' =>
          rw [ht, ht'] at hsame
          cases hsame
  | some t =>
      cases ht' : Cursor.upcoming 0 c'.rest with
      | none =>
          rw [ht, ht'] at hsame
          cases hsame
      | some t' =>
          rw [ht, ht'] at hsame hplaces
          obtain ⟨hcls, htext⟩ := Prod.mk.inj (Option.some.inj hsame)
          simp only [hcls, htext]
          exact .wrong hplaces

/-! #### Nodes -/

/-- The node around nodes that are alike. -/
theorem make {kind : Kind} {start stop start' stop' : Nat} {row row' : List Node}
    (hkind : kind.IsPlain) (h : RowsAlike row row') :
    Twin z Node.Alike (Parser.make kind start stop row) (Parser.make kind start' stop' row') := by
  intro c c' hlevel
  exact .ok ⟨hlevel.ahead, hlevel.leftEnd, hlevel.rightEnd⟩ (Node.alike_of_rows rfl hkind h)

theorem finishAt {kind : Kind} {place place' : Nat} {row row' : List Node}
    (hkind : kind.IsPlain) (h : RowsAlike row row') :
    Twin z Node.Alike (Parser.finishAt place kind row) (Parser.finishAt place' kind row') :=
  make hkind h

theorem finish {kind : Kind} {row row' : List Node}
    (hkind : kind.IsPlain) (h : RowsAlike row row') :
    Twin z Node.Alike (Parser.finish kind row) (Parser.finish kind row') :=
  make hkind h

theorem leaf {kind : Kind} (t t' : Token)
    (hkind : kind.IsPlain) : Twin z Node.Alike (Parser.leaf kind t) (Parser.leaf kind t') :=
  make hkind .nil

/-! #### Taking tokens -/

/-- The next token is taken, if there is one. -/
theorem run_advance_some {c : Cursor} {t : Token} (ht : Cursor.upcoming 0 c.rest = some t) :
    ∃ c₁, Parser.advance.run c = .ok t c₁ ∧ Token.solid c₁.rest = (Token.solid c.rest).tail ∧
      c₁.sourceEnd = c.sourceEnd := by
  obtain ⟨passed, later, hspan, -, hahead⟩ := Lockstep.span_of_upcoming ht
  let c₁ : Cursor := { c with
    rest := later
    lastEnd := t.stop
    strayComments := c.strayComments ++ passed.map Token.range }
  have hsolid : Token.solid later = (Token.solid c.rest).tail := by
    refine List.ext_getElem? fun m => ?_
    rw [List.getElem?_tail, ← Cursor.upcoming_eq, ← Cursor.upcoming_eq, hahead]
  refine ⟨c₁, ?_, hsolid, rfl⟩
  simp only [Parser.advance, EStateM.run, Bind.bind, EStateM.bind, MonadState.get, getThe,
    MonadStateOf.get, EStateM.get, hspan]
  rfl

theorem run_advance_none {c : Cursor} (hnone : Cursor.upcoming 0 c.rest = none) :
    Parser.advance.run c = .error (.fault .noTokenLeft) c := by
  have hall : ∀ t ∈ c.rest, t.isComment := by
    rw [Cursor.upcoming_eq, List.getElem?_eq_none_iff, Nat.le_zero, List.length_eq_zero_iff,
      Token.solid, List.filter_eq_nil_iff] at hnone
    simpa using hnone
  have hspan : c.rest.span Token.isComment = (c.rest, []) := by
    rw [List.span_eq_takeWhile_dropWhile, List.takeWhile_eq_self_iff.mpr hall,
      List.dropWhile_eq_nil_iff.mpr hall]
  simp only [Parser.advance, EStateM.run, Bind.bind, EStateM.bind, MonadState.get, getThe,
    MonadStateOf.get, EStateM.get, hspan]
  rfl

/-- Both take the next token. -/
theorem advance :
    Twin z (fun t t' => t.content = t'.content) Parser.advance Parser.advance := by
  intro c c' hlevel
  have hsame := hlevel.upcoming 0
  cases ht : Cursor.upcoming 0 c.rest with
  | none =>
      rw [run_advance_none ht]
      exact .faultLeft
  | some t =>
      cases ht' : Cursor.upcoming 0 c'.rest with
      | none =>
          rw [run_advance_none ht']
          exact .faultRight
      | some t' =>
          obtain ⟨c₁, hrun, hrest, hend⟩ := run_advance_some ht
          obtain ⟨c₁', hrun', hrest', hend'⟩ := run_advance_some ht'
          obtain ⟨i, hleft, hright⟩ := hlevel.ahead
          rw [ht, ht'] at hsame
          rw [hrun, hrun']
          refine .ok ⟨⟨i + 1, ?_, ?_⟩, ?_, ?_⟩ (Option.some.inj hsame)
          · rw [hrest, hleft, List.tail_drop]
          · rw [hrest', hright, List.tail_drop]
          · rw [hend, hlevel.leftEnd]
          · rw [hend', hlevel.rightEnd]

theorem bumpAs {kind : Kind} (hkind : kind.IsPlain) :
    Twin z Node.Alike (Parser.bumpAs kind) (Parser.bumpAs kind) := by
  refine advance.bind fun t t' _ => ?_
  exact leaf t t' hkind

/-- Both take the next token as a leaf. -/
theorem bump : Twin z Node.Alike Parser.bump Parser.bump := by
  refine advance.bind fun t t' ht => ?_
  obtain ⟨hcls, -⟩ := Prod.mk.inj ht
  rw [← hcls]
  cases t.cls with
  | token k => exact leaf t t' (Kind.isPlain_token k)
  | literal k => exact leaf t t' (Kind.isPlain_expr k)
  | comment => exact brokenLeft
  | error => exact brokenLeft

theorem expect {k : TokenKind} : Twin z Node.Alike (Parser.expect k) (Parser.expect k) := by
  refine (isAt k).look fun here => ?_
  exact ite (fun _ => bump) fun _ => unexpected

theorem expectName : Twin z Node.Alike Parser.expectName Parser.expectName := by
  refine (isAt .name).look fun here => ?_
  exact ite (fun _ => bump) fun _ => unexpected

/-- The next token, if it is of a kind, and what follows in both cases. -/
theorem eat {k : TokenKind} {q : Option Node → Parser γ} {q' : Option Node → Parser δ}
    (hsome : ∀ n n', Node.Alike n n' → Twin z S (q (some n)) (q' (some n')))
    (hnone : Twin z S (q none) (q' none)) :
    Twin z S (Parser.eat k >>= q) (Parser.eat k >>= q') := by
  rw [Parser.eat, bind_assoc, bind_assoc]
  refine (isAt k).look fun here => ?_
  split
  · rw [bind_assoc, bind_assoc]
    refine bump.bind fun n n' hn => ?_
    rw [pure_bind, pure_bind]
    exact hsome n n' hn
  · rw [pure_bind, pure_bind]
    exact hnone

/-- Leaves of one kind. -/
theorem run_leaves (kind : Kind) (here : List Token) (c : Cursor) :
    ∃ nodes made, (here.mapM (Parser.leaf kind)).run c = .ok nodes { c with made } ∧
      ∀ n ∈ nodes, n.kind = kind := by
  induction here generalizing c with
  | nil => exact ⟨[], c.made, rfl, by simp⟩
  | cons t here ih =>
      obtain ⟨nodes, made, hrun, hnodes⟩ := ih { c with made := c.made + 1 }
      refine ⟨⟨c.made, kind, t.start, t.stop, []⟩ :: nodes, made, ?_, ?_⟩
      · rw [List.mapM_cons, Parser.run_bind]
        refine ⟨_, _, rfl, ?_⟩
        rw [Parser.run_bind]
        exact ⟨nodes, _, hrun, rfl⟩
      · rw [List.forall_mem_cons]
        exact ⟨rfl, hnodes⟩

/-- Taking comments leaves the other tokens where they are. -/
theorem run_comments (c : Cursor) :
    ∃ nodes c₁, Parser.comments.run c = .ok nodes c₁ ∧ (∀ n ∈ nodes, n.isComment) ∧
      Token.solid c₁.rest = Token.solid c.rest ∧ c₁.sourceEnd = c.sourceEnd := by
  let later := c.rest.dropWhile Token.isComment
  obtain ⟨nodes, made, hrun, hnodes⟩ :=
    run_leaves (.stmt .comment) (c.rest.takeWhile Token.isComment) { c with rest := later }
  refine ⟨nodes, { c with rest := later, made }, ?_, fun n hn => ?_, ?_, rfl⟩
  · rw [Parser.comments, Parser.run_bind]
    refine ⟨c, c, rfl, ?_⟩
    rw [List.span_eq_takeWhile_dropWhile, Parser.run_bind]
    exact ⟨_, _, rfl, hrun⟩
  · simp [Node.isComment, hnodes n hn]
  · have hfilter : ∀ tokens : List Token,
        Token.solid (tokens.dropWhile Token.isComment) = Token.solid tokens := by
      intro tokens
      induction tokens with
      | nil => rfl
      | cons t tokens ih =>
          cases ht : t.isComment with
          | true => simpa [Token.solid, ht] using ih
          | false => simp [ht]
    exact hfilter c.rest

/-- Two rows of nothing but comments. -/
def Comments (row row' : List Node) : Prop :=
  (∀ n ∈ row, n.isComment) ∧ ∀ n ∈ row', n.isComment

theorem comments : Twin z Comments Parser.comments Parser.comments := by
  intro c c' hlevel
  obtain ⟨nodes, c₁, hrun, hnodes, hrest, hend⟩ := run_comments c
  obtain ⟨nodes', c₁', hrun', hnodes', hrest', hend'⟩ := run_comments c'
  obtain ⟨i, hleft, hright⟩ := hlevel.ahead
  rw [hrun, hrun']
  refine .ok ⟨⟨i, ?_, ?_⟩, ?_, ?_⟩ ⟨hnodes, hnodes'⟩
  · rw [hrest, hleft]
  · rw [hrest', hright]
  · rw [hend, hlevel.leftEnd]
  · rw [hend', hlevel.rightEnd]

theorem Comments.rows {row row' : List Node} (h : Comments row row') : RowsAlike row row' := by
  rw [RowsAlike, sketchAll_of_comments h.1, sketchAll_of_comments h.2]

/-! #### Repetition -/

/-- What the nodes of a step are, on both sides, and that both go on or stop. -/
def Steps (P : List Node → List Node → Prop) (r r' : List Node × Bool) : Prop :=
  P r.1 r'.1 ∧ r.2 = r'.2

/-- A step that is repeated, by whatever bounds. -/
theorem manyFrom {P : List Node → List Node → Prop} {step step' : Parser (List Node × Bool)}
    (happend : ∀ row row' later later', P row row' → P later later' →
      P (row ++ later) (row' ++ later'))
    (hstep : Twin z (Steps P) step step') (bound bound' : Nat) :
    Twin z P (Parser.manyFrom step bound) (Parser.manyFrom step' bound') := by
  induction bound generalizing bound' with
  | zero => exact brokenLeft
  | succ bound ih =>
      cases bound' with
      | zero => exact brokenRight
      | succ bound' =>
          refine hstep.bind ?_
          rintro ⟨row, more⟩ ⟨row', _⟩ ⟨hrow, rfl⟩
          refine ite (fun _ => ?_) fun _ => .pure hrow
          exact map ((ih bound').mono fun later later' hlater =>
            happend row row' later later' hrow hlater)

theorem many {P : List Node → List Node → Prop} {step step' : Parser (List Node × Bool)}
    (happend : ∀ row row' later later', P row row' → P later later' →
      P (row ++ later) (row' ++ later'))
    (hstep : Twin z (Steps P) step step') :
    Twin z P (Parser.many step) (Parser.many step') :=
  get.bind fun _ _ _ => manyFrom happend hstep _ _

/-- A step whose rows are alike, repeated. -/
theorem rows {step step' : Parser (List Node × Bool)}
    (hstep : Twin z (Steps RowsAlike) step step') :
    Twin z RowsAlike (Parser.many step) (Parser.many step') :=
  many (fun _ _ _ _ hrow hlater => hrow.append hlater) hstep

/-- A step that may put the last node into another one. -/
theorem chain {step step' : Node → Parser (Option Node)} {n n' : Node}
    (hstep : ∀ n n', Node.Alike n n' → Twin z (Option.Rel Node.Alike) (step n) (step' n'))
    (h : n.Alike n') : Twin z Node.Alike (Parser.chain step n) (Parser.chain step' n') := by
  have hfrom : ∀ (bound bound' : Nat) (n n' : Node), n.Alike n' →
      Twin z Node.Alike (Parser.chainFrom step bound n) (Parser.chainFrom step' bound' n') := by
    intro bound
    induction bound with
    | zero =>
        intro bound' n n' _
        exact brokenLeft
    | succ bound ih =>
        intro bound' n n' hn
        cases bound' with
        | zero => exact brokenRight
        | succ bound' =>
            refine (hstep n n' hn).bind ?_
            rintro _ _ (hwrapped | -)
            · exact ih bound' _ _ hwrapped
            · exact .pure hn
  exact get.bind fun _ _ _ => hfrom _ _ n n' h

/-- A mark with what follows it, as often as the mark comes. -/
theorem more {k : TokenKind} {item : Parser α} {item' : Parser β} {nodes : α → List Node}
    {nodes' : β → List Node}
    (hitem : Twin z (fun a b => RowsAlike (nodes a) (nodes' b)) item item') :
    Twin z RowsAlike
      (Parser.many do
        match ← Parser.eat k with
        | some mark => return (mark :: nodes (← item), true)
        | none => return ([], false))
      (Parser.many do
        match ← Parser.eat k with
        | some mark => return (mark :: nodes' (← item'), true)
        | none => return ([], false)) := by
  refine rows (eat (fun mark mark' hmark => ?_) (.pure ⟨RowsAlike.nil, rfl⟩))
  exact map (hitem.mono fun a b hrow => ⟨hmark.cons hrow, rfl⟩)

/-- A mark with one node behind it, as often as the mark comes. -/
theorem moreNodes {k : TokenKind} {item item' : Parser Node}
    (hitem : Twin z Node.Alike item item') :
    Twin z RowsAlike
      (Parser.many do
        match ← Parser.eat k with
        | some mark => return ([mark, ← item], true)
        | none => return ([], false))
      (Parser.many do
        match ← Parser.eat k with
        | some mark => return ([mark, ← item'], true)
        | none => return ([], false)) := by
  have hrow : Twin z (fun n n' => RowsAlike [n] [n']) item item' :=
    hitem.mono fun n n' hn => hn.single
  exact more hrow

theorem separatedBy {k : TokenKind} {item item' : Parser Node}
    (hitem : Twin z Node.Alike item item') :
    Twin z RowsAlike (Parser.separatedBy k item) (Parser.separatedBy k item') := by
  refine hitem.bind fun first first' hfirst => ?_
  refine map ((moreNodes hitem).mono fun row row' hrow => ?_)
  exact hfirst.cons hrow

end Twin

end LuauTidy
