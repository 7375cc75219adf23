import LuauTidy.Proofs.Convergence
import LuauTidy.Proofs.Counterparts

/-!
# Levels

What takes the place of a construct is made of parts of the construct, put
together by nodes that are no constructs.  So a local pass leaves a level less,
and every construct of its tree stood below a construct of the source.  What goes
for the constructs of a source goes for those of all texts on the way, and the
source is lowered within one pass more than it has levels.

* `Content.Over` — contents put together of known parts;
* `Node.Becomes.over` — what a pass makes of a node is put together of parts of
  its constructs;
* `lowersNesting_of_local`, `construct_inherited` — a local pass;
* `convergesInDepth_of_local` — lowering by local passes.
-/

namespace LuauTidy

variable {options : LoweringOptions} {source code text : Text} {t t' : SyntaxTree}

/-! ### Constructs of a content -/

namespace Content

/-- What is right below a content. -/
def parts : Content → List Content
  | ⟨_, _, parts⟩ => parts

/-- The token kind of the operator, which is the second part. -/
def operator? (c : Content) : Option TokenKind := c.parts[1]?.bind fun op => op.kind.token?

/-- The form that a content is, if it is to be lowered. -/
def construct? (options : LoweringOptions) (c : Content) : Option Construct :=
  match c.kind with
  | .expr .conditional => if options.conditionals then some .conditional else none
  | .expr .binary =>
    if options.floorDivision && c.operator? == some .doubleSlash then some .floorDivision
    else none
  | .stmt .compoundAssign =>
    if options.compoundFloorDivision && c.operator? == some .doubleSlashAssign then
      some .compoundFloorDivision
    else none
  | _ => none

@[simp] theorem kind_mk (kind : Kind) (text : Text) (parts : List Content) :
    Content.kind ⟨kind, text, parts⟩ = kind := rfl

@[simp] theorem parts_mk (kind : Kind) (text : Text) (parts : List Content) :
    Content.parts ⟨kind, text, parts⟩ = parts := rfl

/-- Whether a content is a construct is told by its kind and its operator. -/
theorem construct?_congr {c c' : Content} (hkind : c.kind = c'.kind)
    (hop : c.operator? = c'.operator?) : c.construct? options = c'.construct? options := by
  rw [construct?, construct?, hkind, hop]

end Content

@[simp] theorem Node.kind_of_content (source : Text) (n : Node) :
    (n.content source).kind = n.kind := by
  rw [Node.content_eq, Content.kind_mk]

@[simp] theorem Node.parts_content (source : Text) (n : Node) :
    (n.content source).parts = contentsOf source n.children := by
  rw [Node.content_eq, Content.parts_mk]

@[simp] theorem Node.operator?_content (source : Text) (n : Node) :
    (n.content source).operator? = n.operator? := by
  rw [Content.operator?, Node.parts_content, contentsOf_eq_map, List.getElem?_map, Node.operator?,
    Node.child?]
  cases n.children[1]? <;> simp

/-- A node is the construct that its content is. -/
@[simp] theorem Node.construct?_content (source : Text) (n : Node) :
    (n.content source).construct? options = Construct.of? options n := by
  rw [Content.construct?, Node.kind_of_content, Node.operator?_content]
  rfl

/-! ### Contents put together -/

/-- A content made of known contents, which are put together by nodes that are no
constructs. -/
inductive Content.Over (options : LoweringOptions) (Known : Content → Prop) : Content → Prop
  | known {c : Content} (h : Known c) : Content.Over options Known c
  | plain {c : Content} (plain : c.construct? options = none)
      (parts : ∀ x ∈ c.parts, Content.Over options Known x) : Content.Over options Known c

namespace Content.Over

variable {Known Known' : Content → Prop} {c left right : Content} {cs : List Content}

theorem mono (h : c.Over options Known) (hle : ∀ x, Known x → Known' x) :
    c.Over options Known' := by
  induction h with
  | known h => exact .known (hle _ h)
  | plain plain _ ih => exact .plain plain ih

theorem mark (k : TokenKind) : (Content.mark k).Over options Known :=
  .plain rfl fun _ hx => absurd hx List.not_mem_nil

theorem name (text : Text) : (Content.name text).Over options Known :=
  .plain rfl fun _ hx => absurd hx List.not_mem_nil

theorem parens (h : c.Over options Known) : (Content.parens c).Over options Known :=
  .plain rfl (by simpa [Content.parens, mark] using h)

theorem parensIf (enclosed : Bool) (h : c.Over options Known) :
    (Content.parensIf enclosed c).Over options Known := by
  cases enclosed with
  | false => exact h
  | true => exact h.parens

theorem binary {op : TokenKind} (hop : op ≠ .doubleSlash) (hleft : left.Over options Known)
    (hright : right.Over options Known) : (Content.binary op left right).Over options Known := by
  refine .plain ?_ (by simpa [Content.binary, mark] using ⟨hleft, hright⟩)
  simp [Content.construct?, Content.binary, Content.operator?, Content.mark, Kind.token?, hop]

theorem quotient (hleft : left.Over options Known) (hright : right.Over options Known) :
    (Content.quotient left right).Over options Known := by
  have hslash : (Content.binary .slash left right).Over options Known :=
    binary (by decide) hleft hright
  have hvariable : ∀ cs : List Content, (∀ x ∈ cs, x.Over options Known) →
      Content.Over options Known ⟨.expr .var, [], cs⟩ := fun cs h => .plain rfl h
  refine .plain rfl ?_
  simp only [Content.quotient, parts_mk, List.forall_mem_cons, List.not_mem_nil, false_implies,
    implies_true, and_true]
  refine ⟨hvariable _ ?_, .plain rfl ?_⟩
  · simpa [mark, name] using hvariable _ (by simp [name])
  · simpa [mark] using hslash

theorem assignment (hleft : left.Over options Known) (hright : right.Over options Known) :
    (Content.assignment left right).Over options Known := by
  have hlist : ∀ kind c, Content.Over options Known c →
      Content.Over options Known ⟨.aux kind, [], [c]⟩ := fun kind c h => .plain rfl (by simpa using h)
  refine .plain rfl ?_
  simpa [Content.assignment, mark] using ⟨hlist _ _ hleft, hlist _ _ hright⟩

theorem returned (h : c.Over options Known) : (Content.returned c).Over options Known := by
  refine .plain rfl ?_
  have hstatement : Content.Over options Known ⟨.stmt .returnStmt, [], [.mark .kwReturn, c]⟩ :=
    .plain rfl (by simpa [mark] using h)
  simpa [Content.returned] using hstatement

theorem branches (h : ∀ x ∈ cs, x.Over options Known) :
    ∀ x ∈ Content.branches cs, x.Over options Known := by
  induction cs using Content.branches.induct with
  | case1 keyword part rest ih =>
      simp only [List.forall_mem_cons] at h
      obtain ⟨hkeyword, hpart, hrest⟩ := h
      simp only [Content.branches, List.forall_mem_cons]
      refine ⟨hkeyword, ?_, ih hrest⟩
      split
      · exact hpart.returned
      · exact hpart
  | case2 parts hshort =>
      rw [Content.branches.eq_2 _ hshort]
      exact h

theorem closure (h : ∀ x ∈ cs, x.Over options Known) :
    (Content.closure cs).Over options Known := by
  have hnode : ∀ kind : Kind, (∀ cs, Content.construct? options ⟨kind, [], cs⟩ = none) →
      ∀ cs : List Content, (∀ x ∈ cs, x.Over options Known) →
        Content.Over options Known ⟨kind, [], cs⟩ := fun _ hkind cs h => .plain (hkind cs) h
  have hbody := hnode (.aux .block) (fun _ => rfl) [⟨.stmt .ifStmt, [],
    Content.branches cs ++ [.mark .kwEnd]⟩] (by
      have hif := hnode (.stmt .ifStmt) (fun _ => rfl) (Content.branches cs ++ [.mark .kwEnd]) (by
        simpa [or_imp, forall_and, mark] using branches h)
      simpa using hif)
  have hfunction := hnode (.aux .funcBody) (fun _ => rfl) _ (by
    simpa [mark] using hbody : ∀ x ∈ [Content.mark .lparen, .mark .rparen, _, .mark .kwEnd], _)
  have hcallee := hnode (.expr .function) (fun _ => rfl) [.mark .kwFunction, _] (by
    simpa [mark] using hfunction)
  have harguments := hnode (.aux .argList) (fun _ => rfl) [.mark .lparen, .mark .rparen] (by
    simp [mark])
  refine .plain rfl ?_
  simpa [Content.closure, Content.called] using ⟨hcallee.parens, harguments⟩

end Content.Over

/-- The contents of what stands below a node. -/
def Node.PartOf (source : Text) (n : Node) (x : Content) : Prop :=
  ∃ child ∈ n.children, ∃ y ∈ child.preorder, x = y.content source

/-- A child is a part of its parent, with all that stands below it. -/
theorem Node.partOf_child {n child y : Node} (hchild : child ∈ n.children)
    (hy : y ∈ child.preorder) : n.PartOf source (y.content source) := ⟨child, hchild, y, hy, rfl⟩

/-- A head before an alternative is put together of the head and of what stands below
the alternative. -/
theorem Content.Over.orElse {Known : Content → Prop} {head : Content} {n : Node}
    (hhead : head.Over options Known)
    (hn : ∀ y ∈ n.preorder, (y.content source).Over options Known) :
    (head.orElse (n.content source)).Over options Known := by
  generalize halternative : n.content source = alternative
  induction alternative using Content.orElse.induct generalizing n with
  | case1 word left mark below right ih =>
      obtain ⟨-, x, y, z, hchildren, hx, hy, hz⟩ := Node.exists_parts halternative
      have hchild : ∀ c ∈ n.children, ∀ k ∈ c.preorder, (k.content source).Over options Known :=
        fun c hc k hk => hn k (Node.mem_preorder_of_child hc hk)
      have hself : ∀ c ∈ n.children, (c.content source).Over options Known :=
        fun c hc => hchild c hc c (by simp [Node.preorder_eq])
      have hleft := ih (hchild x (by simp [hchildren])) hx
      rw [Content.orElse]
      refine .plain ?_ ?_
      · simp [Content.construct?, Content.operator?, Kind.token?]
      · simp only [Content.parts_mk, List.forall_mem_cons, List.not_mem_nil, false_implies,
          implies_true, and_true]
        exact ⟨hleft, hy ▸ hself y (by simp [hchildren]), hz ▸ hself z (by simp [hchildren])⟩
  | case2 alternative hnot =>
      rw [Content.orElse.eq_2 _ _ hnot, ← halternative]
      exact .binary (by decide) hhead (hn n (by simp [Node.preorder_eq]))

/-- What takes the place of a construct is put together of what stood below it. -/
theorem Construct.Gives.over {n : Node} {c : Construct} {content : Content}
    (h : c.Gives t n content) : content.Over options (n.PartOf t.source) := by
  have hchild : ∀ x ∈ n.children, (x.content t.source).Over options (n.PartOf t.source) :=
    fun x hx => .known (Node.partOf_child hx (by simp [Node.preorder_eq]))
  cases h with
  | quotient hchildren =>
      exact .quotient (hchild _ (by simp [hchildren])) (hchild _ (by simp [hchildren]))
  | assignment enclosed hchildren =>
      have htarget := hchild _ (by rw [hchildren]; exact List.mem_cons_self)
      exact .assignment htarget (.quotient htarget (.parensIf _ (hchild _ (by simp [hchildren]))))
  | @choice condition value alternative enclosed guarded hshort =>
      obtain ⟨_, _, _, hchildren, -⟩ := SyntaxTree.shortConditional?_eq_some hshort
      have halternative : ∀ y ∈ alternative.preorder,
          (y.content t.source).Over options (n.PartOf t.source) :=
        fun y hy => .known (Node.partOf_child (by simp [hchildren]) hy)
      exact .parensIf _ (.orElse (.binary (by decide)
        (.parensIf _ (hchild _ (by simp [hchildren]))) (hchild _ (by simp [hchildren])))
        halternative)
  | closure =>
      refine .closure ?_
      rw [contentsOf_eq_map]
      simpa using hchild

/-- A choice is a binary operation. -/
@[simp] theorem Content.kind_choice (guard value alternative : Content) :
    (Content.choice guard value alternative).kind = .expr .binary := by
  obtain ⟨_, _, hbinary⟩ := Content.orElse_eq_binary (.binary .kwAnd guard value) alternative
  rw [Content.choice, hbinary, Content.kind_mk]

/-- The kinds of what takes the place of a construct. -/
def Construct.giveKinds : List Kind := [.expr .call, .expr .binary, .expr .parens, .stmt .assign]

theorem Construct.Gives.kind_mem {n : Node} {c : Construct} {content : Content}
    (h : c.Gives t n content) : content.kind ∈ giveKinds := by
  cases h with
  | quotient | assignment | closure => exact List.mem_of_elem_eq_true rfl
  | choice enclosed guarded hshort =>
      cases enclosed with
      | true => exact List.mem_of_elem_eq_true rfl
      | false => simp [SyntaxTree.choiceOf, Content.parensIf, giveKinds]

/-- The kinds of constructs. -/
theorem Construct.kind_mem {n : Node} {c : Construct} (h : Construct.of? options n = some c) :
    n.kind ∈ [Kind.expr .conditional, .expr .binary, .stmt .compoundAssign] := by
  obtain ⟨-, hkind⟩ | ⟨-, hkind, -⟩ | ⟨-, hkind, -⟩ := Construct.of?_cases h <;> simp [hkind]

namespace Node.Becomes

variable {n : Node} {content : Content}

/-- Every kind that is none of a construct and of what takes its place is kept. -/
theorem kind_iff (h : n.Becomes t options content) {k : Kind}
    (hconstruct : k ∉ [Kind.expr .conditional, .expr .binary, .stmt .compoundAssign])
    (hgive : k ∉ Construct.giveKinds) : content.kind = k ↔ n.kind = k := by
  cases h with
  | same => simp
  | site construct gives =>
      have hkind := Construct.kind_mem construct
      have hkind' := gives.kind_mem
      constructor
      · rintro rfl
        exact absurd hkind' hgive
      · rintro rfl
        exact absurd hkind hconstruct

/-- Tokens are kept. -/
theorem token?_eq (h : n.Becomes t options content) : content.kind.token? = n.kind.token? := by
  cases h with
  | same => simp
  | site construct gives =>
      have hkind := Construct.kind_mem construct
      have hkind' := gives.kind_mem
      simp only [Construct.giveKinds, List.mem_cons, List.not_mem_nil, or_false] at hkind hkind'
      obtain h | h | h := hkind <;> obtain h' | h' | h' | h' := hkind' <;> rw [h, h'] <;> rfl

end Node.Becomes

theorem AllBecome.getElem? {nodes : List Node} {contents : List Content}
    (h : AllBecome t options nodes contents) (index : Nat) :
    (nodes[index]? = none ∧ contents[index]? = none) ∨ ∃ n content, nodes[index]? = some n ∧
      contents[index]? = some content ∧ n.Becomes t options content := by
  cases h with
  | nil => simp
  | cons head tail =>
      cases index with
      | zero => exact .inr ⟨_, _, rfl, rfl, head⟩
      | succ index => simpa using tail.getElem? index

/-- Around constructs no new construct comes into being. -/
theorem AllBecome.construct? {n : Node} {contents : List Content}
    (h : AllBecome t options n.children contents) (hn : Construct.of? options n = none)
    (text : Text) : Content.construct? options ⟨n.kind, text, contents⟩ = none := by
  rw [← hn, ← Node.construct?_content t.source n]
  apply Content.construct?_congr
  · simp
  · rw [Node.operator?_content, Content.operator?, Content.parts_mk, Node.operator?, Node.child?]
    obtain ⟨hnone, hnone'⟩ | ⟨c, content, hc, hcontent, hbecomes⟩ := h.getElem? 1
    · rw [hnone, hnone']
      rfl
    · rw [hc, hcontent]
      exact hbecomes.token?_eq

/-- What stood below a construct that is below a node or is the node. -/
def Node.PartBelow (t : SyntaxTree) (options : LoweringOptions) (n : Node) (x : Content) : Prop :=
  ∃ site ∈ n.preorder, (Construct.of? options site).isSome ∧ site.PartOf t.source x

mutual

/-- What a pass makes of a node is put together of what stood below its constructs. -/
theorem Node.Becomes.over {n : Node} {content : Content} (h : n.Becomes t options content) :
    content.Over options (n.PartBelow t options) := by
  cases h with
  | site construct gives =>
      exact gives.over.mono fun x hx => ⟨n, by simp [Node.preorder_eq], by simp [construct], hx⟩
  | same plain children =>
      refine .plain (children.construct? plain _) fun x hx => ?_
      refine (children.over x hx).mono fun x hx => ?_
      obtain ⟨child, hchild, site, hsite, hpart⟩ := hx
      exact ⟨site, Node.mem_preorder_of_child hchild hsite, hpart⟩

theorem AllBecome.over {nodes : List Node} {contents : List Content}
    (h : AllBecome t options nodes contents) : ∀ x ∈ contents, x.Over options
      fun y => ∃ n ∈ nodes, n.PartBelow t options y := by
  cases h with
  | nil => simp
  | cons head tail =>
      rw [List.forall_mem_cons]
      refine ⟨head.over.mono fun y hy => ⟨_, List.mem_cons_self, hy⟩, fun x hx => ?_⟩
      exact (tail.over x hx).mono fun y hy =>
        hy.imp fun n hn => ⟨List.mem_cons_of_mem _ hn.1, hn.2⟩

end

/-! ### The number of levels -/

mutual

/-- The largest number of constructs on a way down a content. -/
def Content.nesting (options : LoweringOptions) : Content → Nat
  | c@⟨_, _, parts⟩ =>
    contentsNesting options parts + if (c.construct? options).isSome then 1 else 0

/-- The largest number of constructs on a way down one of some contents. -/
def contentsNesting (options : LoweringOptions) : List Content → Nat
  | [] => 0
  | c :: rest => max (c.nesting options) (contentsNesting options rest)

end

theorem Content.nesting_eq (c : Content) : c.nesting options =
    contentsNesting options c.parts + if (c.construct? options).isSome then 1 else 0 := by
  cases c
  rfl

theorem contentsNesting_le {cs : List Content} {bound : Nat}
    (h : ∀ c ∈ cs, c.nesting options ≤ bound) : contentsNesting options cs ≤ bound := by
  induction cs with
  | nil => exact Nat.zero_le _
  | cons c cs ih =>
      rw [List.forall_mem_cons] at h
      exact Nat.max_le.mpr ⟨h.1, ih h.2⟩

mutual

/-- A node has as many levels as its content. -/
theorem Node.nesting_content (source : Text) (n : Node) :
    (n.content source).nesting options = n.nesting options := by
  cases n with
  | mk id kind start stop children =>
      rw [Content.nesting_eq, Node.parts_content, nesting_contentsOf source children,
        Node.construct?_content, Node.nesting_eq]

theorem nesting_contentsOf (source : Text) (nodes : List Node) :
    contentsNesting options (contentsOf source nodes) = nestingAmong options nodes := by
  cases nodes with
  | nil => rfl
  | cons n nodes =>
      rw [contentsOf, contentsNesting, nestingAmong, Node.nesting_content source n,
        nesting_contentsOf source nodes]

end

/-- What is put together of contents with few levels has few levels. -/
theorem Content.Over.nesting_le {Known : Content → Prop} {c : Content} {bound : Nat}
    (h : c.Over options Known) (hknown : ∀ x, Known x → x.nesting options ≤ bound) :
    c.nesting options ≤ bound := by
  induction h with
  | known h => exact hknown _ h
  | plain plain _ ih =>
      rw [Content.nesting_eq, plain]
      exact contentsNesting_le ih

mutual

/-- What stands below a node has no more levels. -/
theorem Node.nesting_le_of_mem (n : Node) {m : Node} (hm : m ∈ n.preorder) :
    m.nesting options ≤ n.nesting options := by
  cases n with
  | mk id kind start stop children =>
      rw [Node.preorder, List.mem_cons] at hm
      obtain rfl | hm := hm
      · exact Nat.le_refl _
      · rw [Node.nesting_eq ⟨id, kind, start, stop, children⟩]
        exact (nesting_le_of_mem_children children hm).trans (Nat.le_add_right _ _)

theorem nesting_le_of_mem_children (nodes : List Node) {m : Node} (hm : m ∈ preorderOfAll nodes) :
    m.nesting options ≤ nestingAmong options nodes := by
  cases nodes with
  | nil => cases hm
  | cons n nodes =>
      rw [preorderOfAll, List.mem_append] at hm
      rw [nestingAmong]
      obtain hm | hm := hm
      · exact (n.nesting_le_of_mem hm).trans (Nat.le_max_left _ _)
      · exact (nesting_le_of_mem_children nodes hm).trans (Nat.le_max_right _ _)

end

/-- What a pass makes of a node has a level less. -/
theorem Node.Becomes.nesting_le {n : Node} {content : Content} (h : n.Becomes t options content) :
    content.nesting options ≤ n.nesting options - 1 := by
  refine h.over.nesting_le ?_
  rintro _ ⟨site, hsite, hconstruct, child, hchild, y, hy, rfl⟩
  have hlevel : site.nesting options ≤ n.nesting options := n.nesting_le_of_mem hsite
  have hchildren := nestingAmong_le_iff.mp
    (Nat.le_refl (nestingAmong options site.children)) child hchild
  have hbelow : y.nesting options ≤ child.nesting options := child.nesting_le_of_mem hy
  rw [Node.nesting_eq, if_pos hconstruct] at hlevel
  rw [Node.nesting_content]
  omega

/-! ### Inherited constructs -/

/-- A content is another one or stands below it. -/
inductive Content.Within (x : Content) : Content → Prop
  | here : Content.Within x x
  | part {c part : Content} (mem : part ∈ c.parts) (h : Content.Within x part) :
      Content.Within x c

theorem Content.Within.trans {x y z : Content} (h : x.Within y) (h' : y.Within z) :
    x.Within z := by
  induction h' with
  | here => exact h
  | part mem _ ih => exact .part mem ih

/-- What is within the content of a node is the content of a node below it. -/
theorem Content.Within.exists_node {x : Content} {n : Node} (h : x.Within (n.content source)) :
    ∃ m ∈ n.preorder, m.content source = x := by
  generalize hc : n.content source = c at h
  induction h generalizing n with
  | here => exact ⟨n, by simp [Node.preorder_eq], hc⟩
  | part mem _ ih =>
      rw [← hc, Node.parts_content, contentsOf_eq_map, List.mem_map] at mem
      obtain ⟨child, hchild, hpart⟩ := mem
      obtain ⟨m, hm, hx⟩ := ih hpart
      exact ⟨m, Node.mem_preorder_of_child hchild hm, hx⟩

mutual

/-- The content of a node is within that of every node above it. -/
theorem Node.within_of_mem (source : Text) (n : Node) {m : Node} (hm : m ∈ n.preorder) :
    (m.content source).Within (n.content source) := by
  cases n with
  | mk id kind start stop children =>
      rw [Node.preorder, List.mem_cons] at hm
      obtain rfl | hm := hm
      · exact .here
      · obtain ⟨child, hchild, hwithin⟩ := within_of_mem_children source children hm
        refine .part ?_ hwithin
        rw [Node.parts_content, contentsOf_eq_map]
        exact List.mem_map_of_mem hchild

theorem within_of_mem_children (source : Text) (nodes : List Node) {m : Node}
    (hm : m ∈ preorderOfAll nodes) :
    ∃ child ∈ nodes, (m.content source).Within (child.content source) := by
  cases nodes with
  | nil => cases hm
  | cons n nodes =>
      rw [preorderOfAll, List.mem_append] at hm
      obtain hm | hm := hm
      · exact ⟨n, List.mem_cons_self, n.within_of_mem source hm⟩
      · obtain ⟨child, hchild, hwithin⟩ := within_of_mem_children source nodes hm
        exact ⟨child, List.mem_cons_of_mem n hchild, hwithin⟩

end

/-- A construct in what is put together is within one of the known contents. -/
theorem Content.Over.exists_known {Known : Content → Prop} {c x : Content}
    (h : c.Over options Known) (hx : x.Within c) (hconstruct : (x.construct? options).isSome) :
    ∃ y, Known y ∧ x.Within y := by
  induction h with
  | known h => exact ⟨_, h, hx⟩
  | plain plain _ ih =>
      cases hx with
      | here =>
          rw [plain] at hconstruct
          cases hconstruct
      | part mem h => exact ih _ mem h

section Local

variable (hparse : parse source = .ok t) (herrors : t.errors = [])
  (hclosed : t.ClosesConditions options) (hlocal : IsLocal options source)
  (hpass : t.lowerOnce options = .ok (.produced text)) (hparse' : parse text = .ok t')
  (herrors' : t'.errors = [])

include hparse herrors hclosed hlocal hpass hparse' herrors'

/-- The tree of a local pass is what the pass makes of the tree of the source. -/
theorem local_becomes : t.root.Becomes t options (t'.root.content t'.source) :=
  pass_becomes hparse herrors hclosed hparse' herrors' (by simp [Node.preorder_eq])
    (by simp [Node.preorder_eq]) (hlocal t text t' hparse herrors hpass hparse' herrors')

/-- Every construct that is left by a local pass stood in the source. -/
theorem construct_inherited {m : Node} (hm : m ∈ t'.root.preorder) {c : Construct}
    (hc : Construct.of? options m = some c) : ∃ n ∈ t.root.preorder,
      Construct.of? options n = some c ∧ n.content t.source = m.content t'.source := by
  have hbecomes := local_becomes hparse herrors hclosed hlocal hpass hparse' herrors'
  have hwithin := t'.root.within_of_mem t'.source hm
  obtain ⟨_, ⟨site, hsite, -, child, hchild, y, hy, rfl⟩, hm'⟩ :=
    hbecomes.over.exists_known hwithin (by simp [hc])
  obtain ⟨n, hn, hcontent⟩ := hm'.exists_node
  refine ⟨n, ?_, ?_, hcontent⟩
  · have hbelow := Node.mem_preorder_of_child hchild (child.mem_preorder_trans hy hn)
    exact t.root.mem_preorder_trans hsite hbelow
  · rw [← Node.construct?_content t.source n, hcontent, Node.construct?_content, hc]

end Local

/-- A local pass over a source without open conditions leaves a level less. -/
theorem lowersNesting_of_local
    (hclosed : ∀ t, parse code = .ok t → t.errors = [] → t.ClosesConditions options)
    (hlocal : IsLocal options code) : LowersNesting options code := by
  intro t text t' hparse herrors hnested hpass hparse' herrors'
  have hbecomes := local_becomes hparse herrors (hclosed t hparse herrors) hlocal hpass hparse'
    herrors'
  have hle := hbecomes.nesting_le
  rw [Node.nesting_content] at hle
  simp only [SyntaxTree.nesting] at hnested ⊢
  omega

/-! ### Conditions -/

section Conditions

variable {n m : Node} {source' : Text}

theorem Node.kind_eq_of_content (h : n.content source = m.content source') : n.kind = m.kind := by
  rw [← Node.kind_of_content source, h, Node.kind_of_content]

/-- Nodes with one content have children with the same contents. -/
theorem Node.getElem?_children (h : n.content source = m.content source') (index : Nat) :
    (n.children[index]?).map (content source) = (m.children[index]?).map (content source') := by
  have hparts := congrArg Content.parts h
  rw [parts_content, parts_content, contentsOf_eq_map, contentsOf_eq_map] at hparts
  rw [← List.getElem?_map, hparts, List.getElem?_map]

/-- Whether a condition binds loosely is told by its content. -/
theorem SyntaxTree.bindsLoosely_congr (h : n.content source = m.content source') {loose : Bool}
    (hloose : bindsLoosely n = .ok loose) : bindsLoosely m = .ok loose := by
  have hmark := Node.getElem?_children h 1
  unfold bindsLoosely at hloose ⊢
  rw [← Node.kind_eq_of_content h]
  split
  · simp_all
  · rename_i hkind
    simp only [hkind, Node.expectChild, Node.child?] at hloose ⊢
    cases hn : n.children[1]? with
    | none => simp [hn, bind, Except.bind] at hloose
    | some mark =>
        rw [hn, Option.map_some] at hmark
        obtain ⟨mark', hm, hsame⟩ := Option.map_eq_some_iff.mp hmark.symm
        have htoken : mark'.isToken .kwOr = mark.isToken .kwOr := by
          rw [Node.isToken, Node.isToken, Node.kind_eq_of_content hsame]
        simpa [hm, hn, htoken, bind, Except.bind, pure, Except.pure] using hloose
  · rename_i hconditional hbinary
    split at hloose
    · simp_all
    · simp_all
    · exact hloose

/-- Whether a condition is open is told by its content. -/
theorem SyntaxTree.openCondition_congr (h : n.content source = m.content source')
    (hopen : OpenCondition n) : OpenCondition m := by
  refine ⟨bindsLoosely_congr h hopen.1, ?_⟩
  have hends : (n.content source).endsOpen := by
    rw [Node.endsOpen_content]
    simpa using hopen.2
  rw [h, Node.endsOpen_content] at hends
  simpa using hends

/-- Whether the condition of a conditional is open is told by its content. -/
theorem Node.closesCondition_congr (h : n.content source = m.content source')
    (hn : n.ClosesCondition) : m.ClosesCondition := by
  intro condition value alternative hshort hopen
  have hparts := congrArg Content.parts h
  rw [parts_content, parts_content, contentsOf_eq_map, contentsOf_eq_map] at hparts
  unfold SyntaxTree.shortConditional? at hshort
  split at hshort
  · rename_i ifMark condition' thenMark value' elseMark alternative' hchildren
    split at hshort
    · rename_i htruthy
      obtain ⟨rfl, rfl, rfl⟩ : condition' = condition ∧ value' = value ∧
          alternative' = alternative := by simpa using hshort
      rw [hchildren] at hparts
      simp only [List.map_cons, List.map_nil, List.map_eq_cons_iff, List.map_eq_nil_iff] at hparts
      obtain ⟨a, _, hn', -, b, _, rfl, hb, c, _, rfl, -, d, _, rfl, hd, e, _, rfl, he, f, _, rfl,
        -, rfl⟩ := hparts
      rw [Bool.and_eq_true, Node.isToken, ← kind_eq_of_content he, ← kind_eq_of_content hd]
        at htruthy
      have hshort : SyntaxTree.shortConditional? n.children = some (b, d, f) := by
        rw [hn', SyntaxTree.shortConditional?, Node.isToken, htruthy.1, htruthy.2]
        rfl
      exact hn b d f hshort (SyntaxTree.openCondition_congr hb.symm hopen)
    · cases hshort
  · cases hshort

end Conditions

/-- On a way of local passes every text is without open conditions if the source is. -/
theorem Way.closesConditions
    (hclosed : ∀ t, parse source = .ok t → t.errors = [] → t.ClosesConditions options)
    (hlocal : ∀ code, Way options source code → IsLocal options code)
    (h : Way options source code) :
    ∀ t, parse code = .ok t → t.errors = [] → t.ClosesConditions options := by
  induction h with
  | start => exact hclosed
  | @pass code text t before parsed errors pass ih =>
      intro t' hparse' herrors' m hm hc
      obtain ⟨n, hn, hn', hcontent⟩ := construct_inherited parsed errors (ih t parsed errors)
        (hlocal code before) pass hparse' herrors' hm hc
      exact Node.closesCondition_congr hcontent (ih t parsed errors n hn hn')

/-- A source without open conditions is lowered within one pass more than it has
levels if its passes are local. -/
theorem convergesInDepth_of_local
    (hclosed : ∀ t, parse source = .ok t → t.errors = [] → t.ClosesConditions options)
    (hlocal : ∀ code, Way options source code → IsLocal options code) :
    ConvergesInDepth options source :=
  convergesInDepth_of_way fun code hway =>
    lowersNesting_of_local (hway.closesConditions hclosed hlocal) (hlocal code hway)

/-- Texts that hold the source and what a pass makes of each of them are all that is
on the way. -/
theorem Way.mem {texts : List Text} (hsource : source ∈ texts)
    (hpasses : ∀ code ∈ texts, ∀ t ∈ tree? code, ∀ text ∈ t.lowered? options, text ∈ texts)
    (h : Way options source code) : code ∈ texts := by
  induction h with
  | start => exact hsource
  | pass _ parsed errors pass ih =>
      exact hpasses _ ih _ (tree?_eq_some.mpr ⟨parsed, errors⟩) _
        (SyntaxTree.lowered?_eq_some.mpr pass)

/-- A floor division in the alternative of a conditional: two levels, three passes. -/
theorem convergesInDepth_of_local_nested :
    ConvergesInDepth .standard "x = if a then 1 else b // c".toList := by
  refine convergesInDepth_of_local ?_ fun code hway => ?_
  · intro t hparse herrors
    have hclosed : ∀ t ∈ tree? "x = if a then 1 else b // c".toList,
        t.ClosesConditions .standard := by
      decide +kernel
    exact hclosed t (tree?_eq_some.mpr ⟨hparse, herrors⟩)
  · have hlocal : ∀ code ∈ ["x = if a then 1 else b // c".toList,
        "x = a and 1 or b // c\n".toList, "x = a and 1 or math.floor(b/c)\n".toList],
        IsLocal .standard code := by
      decide +kernel
    exact hlocal code (hway.mem (by simp) (by decide +kernel))

end LuauTidy
