import LuauTidy.Proofs.Lockstep

/-!
# What a parse into a builder makes

A production that makes its nodes and its counterpart that drives a builder go
in lockstep, and the records that the builder has got are those of the nodes.

* `Assembles` — a production with its counterpart;
* `Bench.Gone.andThen`, `andEat`, `finish` — the next part of a production;
* `assembles_many`, `assembles_separatedBy`, `lockstep_chain` — repetitions.
-/

namespace LuauTidy

variable {α β γ δ : Type} {s s₀ s₁ s' : Bench} {rest : List Token} {made : List Node}

/-- What the next token is, comments not counted. -/
def nextClass (rest : List Token) : Option TokenClass := (Cursor.upcoming 0 rest).map Token.cls

/-- In front of some tokens, a parser and one that drives a builder are in
lockstep, the builder gets the nodes of the result, and both ends fit. -/
def Assembles (rest : List Token) (p : Parser α) (p' : Assembler β) (nodes : α → List Node)
    (Q : α → β → Bench → Prop) : Prop :=
  ∀ ⦃s : Bench⦄, s.rest = rest → s.Ready →
    Lockstep p p' s fun a b s' => s.Gone s' (nodes a) ∧ Q a b s'

/-- Productions of a node, of which the builder knows the number. -/
abbrev AssemblesNode (rest : List Token) (p : Parser Node) (p' : Assembler Nat) : Prop :=
  Assembles rest p p' (fun n => [n]) fun n id s' => id = n.id ∧ s'.rest.length < rest.length

/-- Productions of a node. -/
abbrev AssemblesPart (rest : List Token) (p : Parser Node) (p' : Assembler Unit) : Prop :=
  Assembles rest p p' (fun n => [n]) fun _ _ s' => s'.rest.length < rest.length

/-- Steps of a repetition. -/
abbrev AssemblesStep (rest : List Token) (p : Parser (List Node × Bool)) (p' : Assembler Bool) :
    Prop :=
  Assembles rest p p' Prod.fst fun r more s' =>
    more = r.2 ∧ s'.rest.length + r.2.toNat ≤ rest.length

theorem Assembles.mono {p : Parser α} {p' : Assembler β} {nodes : α → List Node}
    {Q Q' : α → β → Bench → Prop} (h : Assembles rest p p' nodes Q)
    (hQ : ∀ a b s', Q a b s' → Q' a b s') : Assembles rest p p' nodes Q' := by
  intro s hs hready
  refine (h hs hready).mono ?_
  rintro a b s' ⟨hgone, hfits⟩
  exact ⟨hgone, hQ a b s' hfits⟩

/-- A node that is read leaves no more tokens than there were. -/
theorem AssemblesPart.weaken {p : Parser Node} {p' : Assembler Unit}
    (h : AssemblesPart rest p p') :
    Assembles rest p p' (fun n => [n]) fun _ _ s' => s'.rest.length ≤ rest.length :=
  h.mono fun _ _ _ htaken => Nat.le_of_lt htaken

/-- A node whose number nothing uses. -/
theorem AssemblesNode.part {p : Parser Node} {p' : Assembler Nat} (h : AssemblesNode rest p p') :
    AssemblesPart rest p (Functor.discard p') := by
  intro s hs hready
  refine .discard ((h hs hready).mono ?_)
  rintro n _ s' ⟨hgone, -, htaken⟩
  exact ⟨hgone, htaken⟩

/-! ### From part to part -/

namespace Bench.Gone

variable {p : Parser α} {p' : Assembler β} {nodes : α → List Node} {Q : α → β → Bench → Prop}
  {kind : Kind} {place : Nat}

theorem refl (hs : s.Ready) : s.Gone s [] := ⟨.refl _, hs⟩

/-- Nothing is made yet in a node that has just been opened. -/
theorem start : (s.opening kind place).Gone (s.opening kind place) [] := by
  refine refl ?_
  simp [Ready, Builder.startNode]

theorem trans {later : List Node} (h : s.Gone s₁ made) (h' : s₁.Gone s' later) :
    s.Gone s' (made ++ later) :=
  ⟨h.grows.trans h'.grows, h'.ready⟩

/-- The next part of a production. -/
theorem andThen (h : s₀.Gone s made) (hp : Assembles s.rest p p' nodes Q) :
    Lockstep p p' s fun a b s' => s₀.Gone s' (made ++ nodes a) ∧ Q a b s' := by
  refine (hp rfl h.ready).mono ?_
  rintro a b s' ⟨hgone, hfits⟩
  exact ⟨h.trans hgone, hfits⟩

/-- The first part of a production. -/
theorem first (hp : Assembles s.rest p p' nodes Q) :
    Lockstep p p' (s.opening kind place) fun a b s' =>
      (s.opening kind place).Gone s' (nodes a) ∧ Q a b s' :=
  start.andThen hp

/-- The next part of a production whose node has been opened late. -/
theorem andNext {built : Builder} (h : s₀.Gone (s.withBuilder built) made)
    (hp : Assembles s.rest p p' nodes Q) :
    Lockstep p p' (s.withBuilder built) fun a b s' => s₀.Gone s' (made ++ nodes a) ∧ Q a b s' :=
  h.andThen hp

/-- The node is finished around its parts. -/
theorem finish (h : (s.opening kind place).Gone s' made) (hs : s.Ready) {parts : List Node}
    (hparts : parts = made) (hsome : parts ≠ []) :
    Lockstep (Parser.finish kind parts) Assembler.finish s' fun n id s'' =>
      s.Gone s'' [n] ∧ id = n.id ∧ s''.rest = s'.rest := by
  refine (Lockstep.finishAt h.grows hparts ?_).mono ?_
  · rintro rfl
    exact absurd hparts hsome
  · rintro n id s'' ⟨hid, hgrows, hrest, -⟩
    exact ⟨.of_grows hgrows hs, hid, hrest⟩

/-- A production ends with its node. -/
theorem close (h : (s.opening kind place).Gone s' made) (hs : s.Ready) {parts : List Node}
    (hparts : parts = made) (hsome : parts ≠ []) (htaken : s'.rest.length < s.rest.length) :
    Lockstep (Parser.finish kind parts) Assembler.finish s' fun n id s'' =>
      s.Gone s'' [n] ∧ id = n.id ∧ s''.rest.length < s.rest.length := by
  refine (h.finish hs hparts hsome).mono ?_
  rintro n id s'' ⟨hgone, hid, hrest⟩
  exact ⟨hgone, hid, hrest ▸ htaken⟩

/-- The node is finished around its parts, and nothing uses its number. -/
theorem finishPart (h : (s.opening kind place).Gone s' made) (hs : s.Ready) {parts : List Node}
    (hparts : parts = made) (hsome : parts ≠ []) :
    Lockstep (Parser.finish kind parts) (Functor.discard Assembler.finish) s' fun n _ s'' =>
      s.Gone s'' [n] ∧ s''.rest = s'.rest := by
  refine .discard ((h.finish hs hparts hsome).mono ?_)
  rintro n id s'' ⟨hgone, -, hrest⟩
  exact ⟨hgone, hrest⟩

/-- A production ends with its node, whose number nothing uses. -/
theorem closePart (h : (s.opening kind place).Gone s' made) (hs : s.Ready) {parts : List Node}
    (hparts : parts = made) (hsome : parts ≠ []) (htaken : s'.rest.length < s.rest.length) :
    Lockstep (Parser.finish kind parts) (Functor.discard Assembler.finish) s' fun n _ s'' =>
      s.Gone s'' [n] ∧ s''.rest.length < s.rest.length := by
  refine (h.finishPart hs hparts hsome).mono ?_
  rintro n _ s'' ⟨hgone, hrest⟩
  exact ⟨hgone, hrest ▸ htaken⟩

end Bench.Gone

/-! ### Looking ahead -/

namespace Lockstep

variable {k : TokenKind}

theorem run_peekClass : Parser.peekClass.run s.cursor = .ok (nextClass s.rest) s.cursor := rfl

theorem run_peekKind : Parser.peekKind.run s.cursor =
    .ok (Parser.kind? (Cursor.upcoming 0 s.rest)) s.cursor := rfl

theorem run_isAt : (Parser.isAt k).run s.cursor =
    .ok (Parser.kind? (Cursor.upcoming 0 s.rest) == some k) s.cursor := rfl

theorem run_isRightAt : (Parser.isRightAt k).run s.cursor =
    .ok (Parser.kind? s.rest.head? == some k) s.cursor := rfl

theorem run_nth (n : Nat) :
    (Parser.nth n).run s.cursor = .ok (Cursor.upcoming n s.rest) s.cursor := rfl

theorem nextClass_of_kind? (h : Parser.kind? (Cursor.upcoming 0 rest) = some k) :
    nextClass rest = some (.token k) :=
  Parser.kind?_eq_some.mp h

end Lockstep

/-! ### Tokens -/

open Lockstep

section Tokens

variable {k : TokenKind} {cls : TokenClass} {kind : Kind}

/-- The next token, as a leaf of a kind. -/
theorem assembles_bumpAs (hnext : nextClass rest = some cls) :
    AssemblesNode rest (Parser.bumpAs kind) (Assembler.bumpAs kind) := by
  rintro s rfl hs
  obtain ⟨t, ht, rfl⟩ := Option.map_eq_some_iff.mp hnext
  refine (Lockstep.advance hs ht).bind ?_
  rintro _ _ s₁ ⟨rfl, rfl, hgone, htaken, -⟩
  refine (Lockstep.leaf hgone.ready kind _).mono ?_
  rintro n id s₂ ⟨rfl, hgone', hrest⟩
  exact ⟨hgone.trans hgone', rfl, hrest ▸ htaken⟩

/-- The next token, as a leaf of its own kind, if there is one. -/
theorem assembles_bump (hnext : nextClass rest = some cls) (hleaf : cls.leafKind? = some kind) :
    Assembles rest Parser.bump Assembler.bump (fun n => [n]) fun n id s' =>
      id = n.id ∧ s'.rest.length < rest.length ∧
        ∀ m, Cursor.upcoming m s'.rest = Cursor.upcoming (m + 1) rest := by
  rintro s rfl hs
  obtain ⟨t, ht, rfl⟩ := Option.map_eq_some_iff.mp hnext
  refine (Lockstep.advance hs ht).bind ?_
  rintro _ t s₁ ⟨rfl, rfl, hgone, htaken, hahead⟩
  have hmade : Lockstep (Parser.leaf kind t) (Assembler.leaf kind t) s₁ fun n id s' =>
      s.Gone s' [n] ∧ id = n.id ∧ s'.rest.length < s.rest.length ∧
        ∀ m, Cursor.upcoming m s'.rest = Cursor.upcoming (m + 1) s.rest := by
    refine (Lockstep.leaf hgone.ready kind t).mono ?_
    rintro n id s₂ ⟨rfl, hgone', hrest⟩
    rw [hrest]
    exact ⟨hgone.trans hgone', rfl, htaken, hahead⟩
  cases hcls : t.cls with
  | token k =>
      obtain rfl : Kind.token k = kind := by simpa [hcls, TokenClass.leafKind?] using hleaf
      exact hmade
  | literal k =>
      obtain rfl : Kind.expr k = kind := by simpa [hcls, TokenClass.leafKind?] using hleaf
      exact hmade
  | comment => simp [hcls, TokenClass.leafKind?] at hleaf
  | error cause => simp [hcls, TokenClass.leafKind?] at hleaf

/-- The next token, which is of a kind. -/
theorem assembles_mark (hnext : nextClass rest = some (.token k)) :
    AssemblesNode rest Parser.bump Assembler.bump :=
  (assembles_bump hnext rfl).mono fun _ _ _ h => ⟨h.1, h.2.1⟩

/-- The next token, which is a literal. -/
theorem assembles_literal {k : ExprKind} (hnext : nextClass rest = some (.literal k)) :
    AssemblesNode rest Parser.bump Assembler.bump :=
  (assembles_bump hnext rfl).mono fun _ _ _ h => ⟨h.1, h.2.1⟩

/-- The next token, which has to be of a kind. -/
theorem assembles_expect : AssemblesNode rest (Parser.expect k) (Assembler.expect k) := by
  rintro s rfl hs
  refine look run_isAt (ite (fun hk => ?_) fun _ => unexpected)
  exact assembles_mark (nextClass_of_kind? (beq_iff_eq.mp hk)) rfl hs

/-- The next token, which has to be a name. -/
theorem assembles_expectName : AssemblesNode rest Parser.expectName Assembler.expectName := by
  rintro s rfl hs
  refine look run_isAt (ite (fun hk => ?_) fun _ => unexpected)
  exact assembles_mark (nextClass_of_kind? (beq_iff_eq.mp hk)) rfl hs

/-- The next token, if it is of a kind, and what follows in both cases. -/
theorem Bench.Gone.andEat {q : Option Node → Parser γ} {q' : Bool → Assembler δ}
    {R : γ → δ → Bench → Prop} (h : s₀.Gone s made)
    (hsome : ∀ mark s', s₀.Gone s' (made ++ [mark]) → s'.rest.length < s.rest.length →
      Lockstep (q (some mark)) (q' true) s' R)
    (hnone : Lockstep (q none) (q' false) s R) :
    Lockstep (Parser.eat k >>= q) (Assembler.eat k >>= q') s R := by
  rw [Parser.eat, Assembler.eat, bind_assoc, bind_assoc]
  refine look run_isAt ?_
  split
  · rename_i hk
    rw [bind_assoc, bind_assoc]
    refine (h.andThen (assembles_mark (nextClass_of_kind? (beq_iff_eq.mp hk)))).bind ?_
    rintro mark _ s' ⟨hgone, -, htaken⟩
    rw [pure_bind, pure_bind]
    exact hsome mark s' hgone htaken
  · rw [pure_bind, pure_bind]
    exact hnone

/-- Tokens as leaves of one kind. -/
theorem assembles_leaves (here : List Token) :
    Assembles rest (here.mapM (Parser.leaf kind))
      (here.forM fun t => Functor.discard (Assembler.leaf kind t))
      (fun made => made)
      fun made _ s' => s'.rest = rest ∧ (made = [] → here = []) := by
  intro s hrest hs
  induction here generalizing s with
  | nil => exact .pure ⟨.refl hs, hrest, fun _ => rfl⟩
  | cons t here ih =>
      rw [List.mapM_cons]
      refine (Lockstep.discard (Q := fun n _ s' => s.Gone s' [n] ∧ s'.rest = s.rest) ?_).bind ?_
      · exact (Lockstep.leaf hs kind t).mono fun _ _ _ h => h.2
      · rintro n _ s₁ ⟨hgone, hrest'⟩
        refine .bindPure ((ih (hrest'.trans hrest) hgone.ready).mono ?_)
        rintro made _ s₂ ⟨hgone', hrest, -⟩
        exact ⟨hgone.trans hgone', hrest, fun h => nomatch h⟩

/-- The comments that stand right ahead. -/
theorem assembles_comments :
    Assembles rest Parser.comments Assembler.comments (fun made => made) fun made _ s' =>
      s'.rest.length ≤ rest.length ∧ (made = [] → Cursor.upcoming 0 s'.rest = rest.head?) := by
  rintro s rfl hs
  let later := s.rest.dropWhile Token.isComment
  have hspan : s.rest.span Token.isComment = (s.rest.takeWhile Token.isComment, later) :=
    List.span_eq_takeWhile_dropWhile _ _
  have hspan' : s.cursor.rest.span Token.isComment = (s.rest.takeWhile Token.isComment, later) :=
    hspan
  refine .here ?_
  simp only [hspan, hspan']
  let s₁ : Bench := { s with rest := later }
  have hs₁ : s₁.Ready := hs
  refine .move s₁ ⟨rfl, rfl⟩ ((assembles_leaves _ rfl hs₁).mono ?_)
  rintro made _ s₂ ⟨hgone, hrest, hnone⟩
  refine ⟨⟨hgone.grows, hgone.ready⟩, ?_, fun hmade => ?_⟩
  · rw [hrest]
    exact (List.dropWhile_sublist _).length_le
  · have hall : s.rest.takeWhile Token.isComment = [] := hnone hmade
    rw [hrest]
    show Cursor.upcoming 0 (s.rest.dropWhile Token.isComment) = _
    cases hcons : s.rest with
    | nil => rfl
    | cons t rest =>
        have ht : t.isComment = false := by simpa [hcons, List.takeWhile_cons] using hall
        simp [ht, Cursor.upcoming]

end Tokens

/-! ### Repetition -/

section Repetition

variable {step : Parser (List Node × Bool)} {step' : Assembler Bool}

/-- A step that is repeated: each that goes on takes a token, so the bound is
not reached.  What holds of the nodes of each step holds of all. -/
theorem assembles_manyFrom {size : Nat} {P : List Node → Prop}
    (happend : ∀ made later, P made → P later → P (made ++ later))
    (hstep : ∀ {rest}, rest.length ≤ size → Assembles rest step step' Prod.fst fun r more s' =>
      (more = r.2 ∧ s'.rest.length + r.2.toNat ≤ rest.length) ∧ P r.1)
    {bound : Nat} (hsize : rest.length ≤ size) (hbound : rest.length < bound) :
    Assembles rest (Parser.manyFrom step bound) (Assembler.manyFrom step' bound)
      (fun made => made) fun made _ s' => s'.rest.length ≤ rest.length ∧ P made := by
  induction bound generalizing rest with
  | zero => omega
  | succ bound ih =>
      rintro s rfl hs
      refine (hstep hsize rfl hs).bind ?_
      rintro ⟨nodes, _⟩ more s₁ ⟨h, ⟨rfl, htaken⟩, hnodes⟩
      cases more with
      | true =>
          simp only [Bool.toNat_true] at htaken
          refine .bindPure ((h.andThen (ih (by omega) (by omega))).mono ?_)
          rintro later _ s₂ ⟨h, htaken', hlater⟩
          exact ⟨h, by omega, happend nodes later hnodes hlater⟩
      | false => exact .pure ⟨h, by simpa using htaken, hnodes⟩

/-- A step that is repeated as often as there are tokens. -/
theorem assembles_manyOf {P : List Node → Prop}
    (happend : ∀ made later, P made → P later → P (made ++ later))
    (hstep : ∀ {later}, later.length ≤ rest.length →
      Assembles later step step' Prod.fst fun r more s' =>
        (more = r.2 ∧ s'.rest.length + r.2.toNat ≤ later.length) ∧ P r.1) :
    Assembles rest (Parser.many step) (Assembler.many step') (fun made => made) fun made _ s' =>
      s'.rest.length ≤ rest.length ∧ P made := by
  rintro s rfl hs
  exact .here
    (assembles_manyFrom happend hstep (Nat.le_refl _) (Nat.lt_succ_self _) rfl hs)

/-- A step that is repeated, whatever it makes. -/
theorem assembles_many
    (hstep : ∀ {later}, later.length ≤ rest.length → AssemblesStep later step step') :
    Assembles rest (Parser.many step) (Assembler.many step') (fun made => made) fun _ _ s' =>
      s'.rest.length ≤ rest.length :=
  (assembles_manyOf (P := fun _ => True) (fun _ _ _ _ => trivial)
    fun h => (hstep h).mono fun _ _ _ h => ⟨h, trivial⟩).mono fun _ _ _ h => h.1

/-- A repeated step of which the first makes something. -/
theorem assembles_some
    (hstep : ∀ {later}, later.length ≤ rest.length → AssemblesStep later step step')
    (hfirst : Assembles rest step step' Prod.fst fun r more s' =>
      (more = r.2 ∧ s'.rest.length + r.2.toNat ≤ rest.length) ∧ r.1 ≠ []) :
    Assembles rest (Parser.many step) (Assembler.many step') (fun made => made) fun made _ s' =>
      s'.rest.length ≤ rest.length ∧ made ≠ [] := by
  rintro s rfl hs
  refine .here ((hfirst rfl hs).bind ?_)
  rintro ⟨nodes, _⟩ more s₁ ⟨h, ⟨rfl, htaken⟩, hsome⟩
  cases more with
  | true =>
      simp only [Bool.toNat_true] at htaken
      have hmore := assembles_manyFrom (P := fun _ => True) (fun _ _ _ _ => trivial)
        (fun h => (hstep h).mono fun _ _ _ h => ⟨h, trivial⟩) (Nat.le_of_lt htaken) htaken
      refine .bindPure ((h.andThen hmore).mono ?_)
      rintro later _ s₂ ⟨h, htaken', -⟩
      exact ⟨h, by omega, by simp [hsome]⟩
  | false => exact .pure ⟨h, by simpa using htaken, hsome⟩

/-- A mark with what follows it, as often as the mark comes. -/
theorem assembles_more {k : TokenKind} {item : Parser α} {item' : Assembler Unit}
    {nodes : α → List Node}
    (hitem : ∀ {later}, later.length < rest.length →
      Assembles later item item' nodes fun _ _ s' => s'.rest.length ≤ later.length) :
    Assembles rest
      (Parser.many do
        match ← Parser.eat k with
        | some mark => return (mark :: nodes (← item), true)
        | none => return ([], false))
      (Assembler.many do
        if ← Assembler.eat k then
          item'
          return true
        else return false)
      (fun made => made) fun _ _ s' => s'.rest.length ≤ rest.length := by
  refine assembles_many ?_
  rintro later hlater s rfl hs
  refine (Bench.Gone.refl hs).andEat (fun mark s₁ h htaken => ?_) ?_
  · rw [if_pos rfl]
    refine (h.andThen (hitem (by omega))).bind ?_
    rintro a _ s₂ ⟨h, htaken'⟩
    exact .pure ⟨h, rfl, by simp only [Bool.toNat_true]; omega⟩
  · exact .pure ⟨.refl hs, rfl, Nat.le_refl _⟩

/-- Items between separators. -/
theorem assembles_separatedBy {k : TokenKind} {item : Parser Node} {item' : Assembler Unit}
    (hitem : ∀ {later}, later.length ≤ rest.length → AssemblesPart later item item') :
    Assembles rest (Parser.separatedBy k item) (Assembler.separatedBy k item')
      (fun made => made)
      fun made _ s' => s'.rest.length < rest.length ∧ made ≠ [] := by
  rintro s rfl hs
  refine (hitem (Nat.le_refl _) rfl hs).bind ?_
  rintro first _ s₁ ⟨h, htaken⟩
  refine .bindPure ((h.andThen (assembles_more fun h => (hitem (by omega)).weaken)).mono ?_)
  rintro later _ s₂ ⟨h, htaken'⟩
  exact ⟨h, by omega, by simp⟩

end Repetition

/-! ### The last node put into another one -/

section Chain

variable {kind : Kind} {node : Node}

/-- What a step leaves that may put the last node into another one. -/
def Wraps (s₀ s : Bench) (node : Node) (wrapped : Option Node) (id : Option Nat) (s' : Bench) :
    Prop :=
  id = wrapped.map Node.id ∧ s₀.Gone s' [wrapped.getD node] ∧
    s'.rest.length + wrapped.toList.length ≤ s.rest.length

/-- A step ends with the node around the last one. -/
theorem Bench.Gone.wrap {place : Nat} (h : (s₀.opening kind place).Gone s' made) (hs₀ : s₀.Ready)
    {parts : List Node} (hparts : parts = made) (hsome : parts ≠ [])
    (htaken : s'.rest.length < s.rest.length) :
    Lockstep (do return some (← Parser.finish kind parts)) (do return some (← Assembler.finish)) s'
      (Wraps s₀ s node) := by
  refine (h.finish hs₀ hparts hsome).bind ?_
  rintro n _ s'' ⟨h, rfl, hrest⟩
  refine .pure ⟨rfl, h, ?_⟩
  rw [hrest]
  exact htaken

/-- A step that may put the last node into another one, repeated until it
declines.  What it has made is one node all the while. -/
theorem lockstep_chain {step : Node → Parser (Option Node)} {step' : Assembler (Option Nat)}
    (hstep : ∀ {s₁ : Bench} {node : Node}, s₁.rest.length ≤ s.rest.length → s₀.Gone s₁ [node] →
      Lockstep (step node) step' s₁ (Wraps s₀ s₁ node))
    (h : s₀.Gone s [node]) :
    Lockstep (Parser.chain step node) (Assembler.chain step' node.id) s fun n id s' =>
      s₀.Gone s' [n] ∧ id = n.id ∧ s'.rest.length ≤ s.rest.length := by
  have hfrom : ∀ {bound : Nat} {s₁ : Bench} {node : Node}, s₁.rest.length ≤ s.rest.length →
      s₁.rest.length < bound → s₀.Gone s₁ [node] →
      Lockstep (Parser.chainFrom step bound node) (Assembler.chainFrom step' bound node.id) s₁
        fun n id s' => s₀.Gone s' [n] ∧ id = n.id ∧ s'.rest.length ≤ s.rest.length := by
    intro bound
    induction bound with
    | zero =>
        intro s₁ node _ hbound
        omega
    | succ bound ih =>
        intro s₁ node hs₁ hbound h
        refine (hstep hs₁ h).bind ?_
        rintro wrapped _ s₂ ⟨rfl, h, htaken⟩
        cases wrapped with
        | some wrapped =>
            simp only [Option.toList_some, List.length_singleton] at htaken
            exact ih (by omega) (by omega) h
        | none => exact .pure ⟨h, rfl, Nat.le_trans htaken hs₁⟩
  exact .here (hfrom (Nat.le_refl _) (Nat.lt_succ_self _) h)

end Chain

end LuauTidy
