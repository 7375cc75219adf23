import LuauTidy.Proofs.Composition

/-!
# Places

In the text of a tree the statements of a block stand one behind the other, each behind
a blank or at the start of a line.  What stands before and behind them is told by a
place, which can be seen from a longer text as well.

* `Joint`, `Item` — statements, with what stands before them;
* `Item.IsJoined` — where comments and blank lines go;
* `Place`, `Place.Holds` — the statements of a block in a text;
* `Place.IsBetween` — a place between the tokens around the block;
* `Shows` — a text in which blocks have their places;
* `exists_items` — the statements of a block.
-/

namespace LuauTidy

open Typeset (word lineStart sharesLine)
open Layout (needsBlankLine setsApart)
open Enclosure (levels)

/-! ### Statements in a row -/

/-- What stands before a statement. -/
inductive Joint
  /-- A blank, behind what is on the line. -/
  | sameLine
  /-- The start of a line, and before it a blank line or none. -/
  | ownLine (blank : Bool)
  deriving DecidableEq

/-- A joint in a block that is indented by so many tabs. -/
def Joint.text (d : Nat) : Joint → Text
  | .sameLine => " ".toList
  | .ownLine blank => (if blank then "\n".toList else []) ++ lineStart d

/-- A statement with what stands before it. -/
structure Item where
  joint : Joint
  node : Node

namespace Item

/-- An item in a block that is indented by so many tabs. -/
def text (s : Setting) (d : Nat) (i : Item) : Text := i.joint.text d ++ Typeset.node s d i.node

/-- What is before a statement: the one before it, or what opens the block. -/
def behind? (opener : Option Node) (earlier : List Item) : Option Node :=
  (earlier.getLast?.map Item.node).or opener

/-- The last statement that started a line. -/
def line? (earlier : List Item) : Option Item :=
  (earlier.filter fun i => i.joint != .sameLine).getLast?

/-- How a statement is joined to those before it.  A comment is on the line of what is
before it if no line feed is between them in the source.  A blank line is before a comment
that starts a line behind a statement, and before a call or an assignment if the last
statement that started a line was a declaration. -/
structure IsJoined (s : Setting) (opener : Option Node) (earlier : List Item) (i : Item) :
    Prop where
  sameLine : i.joint = .sameLine ↔ i.node.kind = .stmt .comment ∧ ∃ m gap,
    behind? opener earlier = some m ∧ s.source.slice? m.stop i.node.start = some gap ∧ '\n' ∉ gap
  blank : ∀ blank, i.joint = .ownLine blank → (blank = true ↔
    (i.node.kind = .stmt .comment ∧
      ∃ m, earlier.getLast? = some m ∧ m.node.kind ≠ .stmt .comment) ∨
    (i.node.kind ∈ [.stmt .call, .stmt .assign, .stmt .compoundAssign] ∧
      ∃ m, line? earlier = some m ∧ m.node.kind = .stmt .localVar))

end Item

/-! ### Places -/

/-- Where the statements of a block are in a text: what is around the block, the token
that opens it, what is before the statements and what is behind them. -/
structure Place where
  block : Node
  around : List Enclosure
  opener : Option Node
  before : Text
  items : List Item
  after : Text

namespace Place

/-- The number of tabs that a line of the block starts with. -/
def indent (p : Place) : Nat := levels (.node p.block :: p.around)

/-- The whole text. -/
def text (s : Setting) (p : Place) : Text :=
  p.before ++ (p.items.flatMap (Item.text s p.indent) ++ p.after)

/-- The statements of the block are in the text, in order, and are joined as they should
be. -/
structure Holds (s : Setting) (root : Node) (t : Text) (p : Place) : Prop where
  enclosed : root.Encloses p.around p.block
  text : p.text s = t
  nodes : p.items.map Item.node = p.block.children
  joined : ∀ earlier i later, p.items = earlier ++ i :: later → i.IsJoined s p.opener earlier

/-- The statements are all there is, up to the last line feed. -/
def IsWhole (root : Node) (p : Place) : Prop :=
  p.block = root ∧ p.opener = none ∧ p.before = [] ∧ p.after = ['\n']

/-- Before the statements is the token before the block, and behind them the one behind it,
on a line that is indented one level less. -/
def IsBetween (root : Node) (p : Place) : Prop :=
  ∃ parent ∈ root.preorder, ∃ front opener closer back, ∃ k l : TokenKind,
    parent.children = front ++ opener :: p.block :: closer :: back ∧ p.opener = some opener ∧
    opener.kind = .token k ∧ closer.kind = .token l ∧ k.grammarName.toList <:+ p.before ∧
    lineStart (p.indent - 1) ++ l.grammarName.toList <+: p.after

/-- The same place in a longer text. -/
def within (p : Place) (pre post : Text) : Place :=
  { p with before := pre ++ p.before, after := p.after ++ post }

variable {s : Setting} {root : Node} {t pre post : Text} {p : Place}

theorem Holds.within (h : p.Holds s root t) (pre post : Text) :
    (p.within pre post).Holds s root (pre ++ t ++ post) where
  enclosed := h.enclosed
  text := by
    rw [← h.text, Place.text, Place.text]
    simp [Place.within, indent]
  nodes := h.nodes
  joined := h.joined

/-- No blank line is before the first statement. -/
theorem Holds.opens (h : p.Holds s root t) : ∀ i ∈ p.items.head?, i.joint ≠ .ownLine true := by
  intro i hi hjoint
  obtain ⟨later, hitems⟩ := List.head?_eq_some_iff.mp hi
  have hblank := ((h.joined [] i later hitems).blank true hjoint).mp rfl
  simp [Item.line?] at hblank

theorem IsBetween.within (h : p.IsBetween root) : (p.within pre post).IsBetween root := by
  obtain ⟨parent, hparent, front, opener, closer, back, k, l, hchildren, hopener, hk, hl, hbefore,
    hafter⟩ := h
  exact ⟨parent, hparent, front, opener, closer, back, k, l, hchildren, hopener, hk, hl,
    hbefore.trans (List.suffix_append _ _), hafter.trans (List.prefix_append _ _)⟩

/-- A token stands before the statements. -/
theorem IsBetween.before_ne_nil (h : p.IsBetween root) : p.before ≠ [] := by
  obtain ⟨_, _, _, _, _, _, k, _, _, _, _, _, ⟨front, hbefore⟩, _⟩ := h
  rw [← hbefore]
  have hname : k.grammarName.toList ≠ [] := by
    cases k <;> decide
  simp [hname]

theorem Holds.before_le (h : p.Holds s root t) : p.before.length ≤ t.length := by
  rw [← h.text, Place.text, List.length_append]
  exact Nat.le_add_right _ _

end Place

/-! ### Blocks -/

/-- The blocks of a subtree. -/
def Node.blocks (n : Node) : List Node := n.preorder.filter Node.isHollow

/-- The blocks of the subtrees of siblings. -/
def blocksOfAll (nodes : List Node) : List Node := (preorderOfAll nodes).filter Node.isHollow

@[simp] theorem blocksOfAll_nil : blocksOfAll [] = [] := rfl

@[simp] theorem blocksOfAll_cons (n : Node) (rest : List Node) :
    blocksOfAll (n :: rest) = n.blocks ++ blocksOfAll rest := by
  simp [blocksOfAll, preorderOfAll, Node.blocks]

theorem blocksOfAll_eq_nil {nodes : List Node} (h : ∀ c ∈ nodes, c.blocks = []) :
    blocksOfAll nodes = [] := by
  induction nodes with
  | nil => rfl
  | cons n rest ih =>
      rw [List.forall_mem_cons] at h
      rw [blocksOfAll_cons, h.1, ih h.2, List.append_nil]

theorem Node.blocks_of_isHollow {n : Node} (h : n.isHollow) :
    n.blocks = n :: blocksOfAll n.children := by
  rw [Node.blocks, Node.preorder_eq, List.filter_cons_of_pos h]
  rfl

theorem Node.blocks_eq {n : Node} (h : n.isHollow = false) :
    n.blocks = blocksOfAll n.children := by
  rw [Node.blocks, Node.preorder_eq, List.filter_cons_of_neg (by simp [h])]
  rfl

/-! ### Texts with places -/

/-- A text in which the blocks have their places, each before the next one. -/
def Shows (s : Setting) (root : Node) (blocks : List Node) (t : Text) : Prop :=
  ∃ places : List Place, places.map Place.block = blocks ∧
    (∀ p ∈ places, p.Holds s root t ∧ p.IsBetween root) ∧
    places.Pairwise fun p q => p.before.length < q.before.length

namespace Shows

variable {s : Setting} {root : Node} {t u pre post : Text} {blocks later : List Node}

/-- A text without blocks. -/
theorem plain (t : Text) : Shows s root [] t := ⟨[], rfl, List.forall_mem_nil _, .nil⟩

/-- Places of two texts, one behind the other.  A place of the second text starts behind
a token there, and so behind the whole first text. -/
theorem append (h : Shows s root blocks t) (h' : Shows s root later u) :
    Shows s root (blocks ++ later) (t ++ u) := by
  obtain ⟨places, hblocks, hplaces, hsorted⟩ := h
  obtain ⟨others, hlater, hothers, hsorted'⟩ := h'
  refine ⟨places.map (·.within [] u) ++ others.map (·.within t []), ?_, ?_, ?_⟩
  · rw [List.map_append, List.map_map, List.map_map, ← hblocks, ← hlater]
    rfl
  · rw [List.forall_mem_append, List.forall_mem_map, List.forall_mem_map]
    constructor
    · intro p hp
      exact ⟨by simpa using (hplaces p hp).1.within [] u, (hplaces p hp).2.within⟩
    · intro p hp
      exact ⟨by simpa using (hothers p hp).1.within t [], (hothers p hp).2.within⟩
  · rw [List.pairwise_append, List.pairwise_map, List.pairwise_map]
    refine ⟨by simpa [Place.within] using hsorted, by simpa [Place.within] using hsorted', ?_⟩
    simp only [List.forall_mem_map, Place.within, List.nil_append, List.length_append]
    intro p hp q hq
    have hle := (hplaces p hp).1.before_le
    have hpos := List.length_pos_iff.mpr (hothers q hq).2.before_ne_nil
    omega

theorem behind (pre : Text) (h : Shows s root blocks t) : Shows s root blocks (pre ++ t) :=
  (plain pre).append h

theorem before (post : Text) (h : Shows s root blocks t) : Shows s root blocks (t ++ post) := by
  have happend := h.append (plain post)
  rwa [List.append_nil] at happend

/-- A block behind a token, with what is in it and what comes behind it. -/
theorem cons {p : Place} (h : p.Holds s root (p.before ++ t)) (hbetween : p.IsBetween root)
    (h' : Shows s root blocks t) : Shows s root (p.block :: blocks) (p.before ++ t) := by
  obtain ⟨places, hblocks, hplaces, hsorted⟩ := h'
  refine ⟨p :: places.map (·.within p.before []), ?_, ?_, ?_⟩
  · rw [List.map_cons, List.map_map, ← hblocks]
    rfl
  · rw [List.forall_mem_cons, List.forall_mem_map]
    refine ⟨⟨h, hbetween⟩, fun q hq => ?_⟩
    exact ⟨by simpa using (hplaces q hq).1.within p.before [], (hplaces q hq).2.within⟩
  · rw [List.pairwise_cons, List.forall_mem_map, List.pairwise_map]
    refine ⟨fun q hq => ?_, by simpa [Place.within] using hsorted⟩
    have hpos := List.length_pos_iff.mpr (hplaces q hq).2.before_ne_nil
    simpa [Place.within] using hpos

end Shows

/-! ### The statements of a block -/

theorem Kind.stmt?_eq_some {k : Kind} {e : StmtKind} : k.stmt? = some e ↔ k = .stmt e := by
  cases k <;> simp [Kind.stmt?]

namespace Item

variable {s : Setting} {opener : Option Node} {earlier : List Item} {n : Node} {kind : StmtKind}

/-- The kind of the last item. -/
def kind? (earlier : List Item) : Option StmtKind := earlier.getLast?.bind (·.node.kind.stmt?)

/-- The kind of the last item that started a line. -/
def lineKind? (earlier : List Item) : Option StmtKind := (line? earlier).bind (·.node.kind.stmt?)

/-- The joint of a statement behind others. -/
def joint? (s : Setting) (opener : Option Node) (earlier : List Item) (n : Node)
    (kind : StmtKind) : Joint :=
  if kind == .comment && sharesLine s ((behind? opener earlier).map Node.stop) n then .sameLine
  else .ownLine (needsBlankLine (kind? earlier) (lineKind? earlier) kind)

theorem sharesLine_iff
    (hgap : ∀ m ∈ behind? opener earlier, ∃ gap, s.source.slice? m.stop n.start = some gap) :
    sharesLine s ((behind? opener earlier).map Node.stop) n ↔ ∃ m gap,
      behind? opener earlier = some m ∧ s.source.slice? m.stop n.start = some gap ∧ '\n' ∉ gap := by
  cases hbehind : behind? opener earlier with
  | none => simp [sharesLine]
  | some m =>
      obtain ⟨gap, hslice⟩ := hgap m hbehind
      simp [sharesLine, hslice]

theorem kind_any_iff (hearlier : ∀ i ∈ earlier, i.node.kind.isStmt) :
    (kind? earlier).any (· != .comment) ↔
      ∃ m, earlier.getLast? = some m ∧ m.node.kind ≠ .stmt .comment := by
  rw [kind?]
  cases hlast : earlier.getLast? with
  | none => simp
  | some m =>
      have hstmt := hearlier m (List.mem_of_getLast? hlast)
      cases hk : m.node.kind with
      | stmt k => simp [hk, Kind.stmt?]
      | _ => simp [hk, Kind.isStmt, Kind.stmt?] at hstmt

theorem setsApart_iff : setsApart (lineKind? earlier) kind ↔
    kind ∈ [.call, .assign, .compoundAssign] ∧
      ∃ m, line? earlier = some m ∧ m.node.kind = .stmt .localVar := by
  rw [lineKind?]
  cases hline : line? earlier with
  | none => simp [setsApart]
  | some m =>
      by_cases hlocal : m.node.kind = .stmt .localVar
      · cases kind <;> simp [setsApart, hlocal, Kind.stmt?]
      · have hother : setsApart m.node.kind.stmt? kind = false := by
          unfold setsApart
          split <;> first | rfl | exact absurd (Kind.stmt?_eq_some.mp ‹_›) hlocal
        simp [hother, hlocal]

theorem behind?_concat (i : Item) : behind? opener (earlier ++ [i]) = some i.node := by
  simp [behind?]

theorem kind?_concat (i : Item) : kind? (earlier ++ [i]) = i.node.kind.stmt? := by
  simp [kind?]

theorem lineKind?_concat (i : Item) : lineKind? (earlier ++ [i]) =
    if i.joint = .sameLine then lineKind? earlier else i.node.kind.stmt? := by
  rw [lineKind?, lineKind?, line?, line?]
  cases hjoint : i.joint with
  | sameLine => simp [hjoint]
  | ownLine blank => simp [hjoint]

theorem isJoined (hkind : n.kind = .stmt kind) (hearlier : ∀ i ∈ earlier, i.node.kind.isStmt)
    (hgap : ∀ m ∈ behind? opener earlier, ∃ gap, s.source.slice? m.stop n.start = some gap) :
    Item.IsJoined s opener earlier ⟨joint? s opener earlier n kind, n⟩ := by
  have hshares := sharesLine_iff hgap
  constructor
  · rw [← hshares, hkind, joint?]
    by_cases hcomment : kind = .comment
    · cases hline : sharesLine s ((behind? opener earlier).map Node.stop) n <;> simp [hcomment]
    · simp [hcomment]
  · intro blank hjoint
    have hblank : blank = needsBlankLine (kind? earlier) (lineKind? earlier) kind := by
      rw [joint?] at hjoint
      split at hjoint
      · cases hjoint
      · exact (Joint.ownLine.inj hjoint).symm
    rw [hblank, needsBlankLine, Bool.or_eq_true, Bool.and_eq_true, kind_any_iff hearlier,
      setsApart_iff, hkind]
    simp

end Item

/-- What comes before a statement ends before it, at a cut of the source. -/
def Node.Precedes (source : Text) (m : Node) (low : Nat) : Prop :=
  source.IsCut m.stop ∧ m.stop ≤ low

open Item (behind? line? kind? lineKind? joint?)

variable {s : Setting} {opener : Option Node} {nodes : List Node} {low high : Nat}

/-- Statements behind others. -/
theorem exists_items_behind (d : Nat) (hstmt : ∀ n ∈ nodes, n.kind.isStmt)
    (hcut : ∀ n ∈ nodes, s.source.IsCut n.start ∧ s.source.IsCut n.stop)
    (hlined : Lined low nodes high) {earlier : List Item}
    (hearlier : ∀ i ∈ earlier, i.node.kind.isStmt)
    (hbehind : ∀ m ∈ behind? opener earlier, m.Precedes s.source low) :
    ∃ items, items.map Item.node = nodes ∧
      Typeset.statements s d ((behind? opener earlier).map Node.stop) (kind? earlier)
        (lineKind? earlier) nodes = items.flatMap (Item.text s d) ∧
      ∀ before i later, items = before ++ i :: later → i.IsJoined s opener (earlier ++ before) := by
  induction nodes generalizing low earlier with
  | nil => exact ⟨[], rfl, by rw [Typeset.statements, List.flatMap_nil], by simp⟩
  | cons n rest ih =>
      rw [List.forall_mem_cons] at hstmt hcut
      obtain ⟨hlow, hle, hrest⟩ := hlined
      obtain ⟨kind, hkind⟩ : ∃ kind, n.kind = .stmt kind := by
        cases hk : n.kind <;> first | exact ⟨_, rfl⟩ | simp [hk, Kind.isStmt, Kind.stmt?] at hstmt
      have hgap : ∀ m ∈ behind? opener earlier,
          ∃ gap, s.source.slice? m.stop n.start = some gap := fun m hm =>
        (hbehind m hm).1.slice hcut.1.1 (Nat.le_trans (hbehind m hm).2 hlow)
      have hfirst := Item.isJoined hkind hearlier hgap
      have hnext : ∀ i ∈ earlier ++ [⟨joint? s opener earlier n kind, n⟩], i.node.kind.isStmt := by
        rw [List.forall_mem_append]
        exact ⟨hearlier, by simpa using hstmt.1⟩
      obtain ⟨items, hnodes, htext, hjoined⟩ := ih hstmt.2 hcut.2 hrest hnext
        (by simp [behind?, Node.Precedes, hcut.1.2])
      refine ⟨⟨joint? s opener earlier n kind, n⟩ :: items, by rw [List.map_cons, hnodes], ?_, ?_⟩
      · rw [List.flatMap_cons, ← htext, Item.behind?_concat, Item.kind?_concat,
          Item.lineKind?_concat, Typeset.statements, hkind, Item.text, joint?]
        simp only [Kind.stmt?]
        split
        · have hcomment : kind = .comment := by simp_all
          have hword : Typeset.node s d n = word s n :=
            Typeset.node_word (.inl (by rw [hkind, hcomment]; exact ⟨rfl, by simp⟩))
          simp [Joint.text, hword]
        · simp [Joint.text]
      · intro before i later heq
        cases before with
        | nil =>
            obtain ⟨rfl, -⟩ := List.cons.inj heq
            rwa [List.append_nil]
        | cons first before =>
            obtain ⟨rfl, hitems⟩ := List.cons.inj heq
            have hi := hjoined before i later hitems
            rwa [List.append_assoc] at hi

/-- The statements of a block. -/
theorem exists_items (d : Nat) (hstmt : ∀ n ∈ nodes, n.kind.isStmt)
    (hcut : ∀ n ∈ nodes, s.source.IsCut n.start ∧ s.source.IsCut n.stop)
    (hlined : Lined low nodes high) (hopener : ∀ m ∈ opener, m.Precedes s.source low) :
    ∃ items, items.map Item.node = nodes ∧
      Typeset.statements s d (opener.map Node.stop) none none nodes =
        items.flatMap (Item.text s d) ∧
      ∀ before i later, items = before ++ i :: later → i.IsJoined s opener before :=
  exists_items_behind d hstmt hcut hlined (List.forall_mem_nil _) hopener

/-- The places of the blocks in statements. -/
theorem Shows.items {root : Node} {d : Nat} {items : List Item}
    (h : ∀ i ∈ items, Shows s root i.node.blocks (Typeset.node s d i.node)) :
    Shows s root (blocksOfAll (items.map Item.node)) (items.flatMap (Item.text s d)) := by
  induction items with
  | nil => exact .plain _
  | cons i rest ih =>
      rw [List.forall_mem_cons] at h
      rw [List.map_cons, blocksOfAll_cons, List.flatMap_cons]
      exact (h.1.behind _).append (ih h.2)

end LuauTidy
