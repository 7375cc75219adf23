import LuauTidy.Proofs.Levels
import LuauTidy.Proofs.Values

/-!
# Scopes of further arguments

A conditional that is lowered to a function is the only construct that puts a
function around parts of the source.  So it counts as a function without further
arguments from the start: a source in which every `...` then still stands in a
function that takes it is the same after each local pass, and of its lowered text
nothing else is asked than of any source.

* `Content.binds` — `...` stands where a function takes it, conditionals counted;
* `Node.Becomes.binds` — a pass changes nothing about it;
* `bindsVarargs_lowered_iff` — which lowered texts bind every `...`.
-/

namespace LuauTidy

variable {options : LoweringOptions} {source code text : Text} {t t' : SyntaxTree}

namespace Content

/-- The parameters among some contents end in `...`. -/
def takeVarargs (cs : List Content) : Bool :=
  cs.any fun c => c.kind == .aux .paramList && c.parts.getLast?.any (·.kind == .expr .vararg)

/-- The parts of a conditional that is lowered to operators. -/
def isShort : List Content → Bool
  | [_, _, _, value, elseMark, _] =>
    elseMark.kind == .token .kwElse && isTruthyLiteral value.kind
  | _ => false

/-- A conditional that is to be lowered to a function. -/
def isClosure (options : LoweringOptions) (c : Content) : Bool :=
  c.construct? options == some .conditional && !isShort c.parts

/-- Whether the function around the parts of a content takes `...`.  A conditional
that is to be lowered to a function counts as one that takes none. -/
def takesInside (options : LoweringOptions) (takes : Bool) (c : Content) : Bool :=
  if c.kind = .aux .funcBody then takeVarargs c.parts else takes && !c.isClosure options

mutual

/-- Every `...` of a content, other than a parameter, stands in a function that takes
it, where `takes` tells whether the function around the content does. -/
def binds (options : LoweringOptions) (takes : Bool) : Content → Bool
  | c@⟨kind, _, parts⟩ => (kind != .expr .vararg || takes) &&
    (kind == .aux .paramList || allBind options (c.takesInside options takes) parts)

/-- Every `...` of some contents stands in a function that takes it. -/
def allBind (options : LoweringOptions) (takes : Bool) : List Content → Bool
  | [] => true
  | c :: rest => c.binds options takes && allBind options takes rest

end

theorem binds_eq (takes : Bool) (c : Content) : c.binds options takes =
    ((c.kind != .expr .vararg || takes) && (c.kind == .aux .paramList ||
      allBind options (c.takesInside options takes) c.parts)) := by
  cases c
  rfl

@[simp] theorem allBind_append (takes : Bool) (a b : List Content) :
    allBind options takes (a ++ b) = (allBind options takes a && allBind options takes b) := by
  induction a with
  | nil => rfl
  | cons c a ih => simp [allBind, ih, Bool.and_assoc]

/-! ### What takes the place of a construct -/

section Gives

variable {takes : Bool} {c left right : Content}

/-- A content of a kind that neither reads `...` nor is a function or a construct. -/
theorem binds_of_plain {kind : Kind} {text : Text} {cs : List Content}
    (hvararg : kind ≠ .expr .vararg) (hparameters : kind ≠ .aux .paramList)
    (hbody : kind ≠ .aux .funcBody) (hconditional : kind ≠ .expr .conditional) :
    binds options takes ⟨kind, text, cs⟩ = allBind options takes cs := by
  have hclosure : isClosure options ⟨kind, text, cs⟩ = false := by
    have hnone : construct? options ⟨kind, text, cs⟩ ≠ some .conditional := by
      unfold construct?
      split
      · exact absurd ‹_› hconditional
      · split <;> simp
      · split <;> simp
      · simp
    simp [isClosure, hnone]
  have hreads : (kind != .expr .vararg) = true := bne_iff_ne.mpr hvararg
  have hlists : (kind == .aux .paramList) = false := beq_eq_false_iff_ne.mpr hparameters
  simp [binds_eq, takesInside, hclosure, hreads, hlists, hbody]

/-- The body of a function looks at the parameters. -/
theorem binds_body (text : Text) (cs : List Content) :
    binds options takes ⟨.aux .funcBody, text, cs⟩ = allBind options (takeVarargs cs) cs := rfl

@[simp] theorem binds_mark (k : TokenKind) : (mark k).binds options takes = true := by
  simp [mark, binds_of_plain, allBind]

@[simp] theorem binds_name (text : Text) : (name text).binds options takes = true := by
  simp [name, binds_of_plain, allBind]

@[simp] theorem binds_parens : (parens c).binds options takes = c.binds options takes := by
  simp [parens, binds_of_plain, allBind]

@[simp] theorem binds_parensIf (enclosed : Bool) :
    (parensIf enclosed c).binds options takes = c.binds options takes := by
  cases enclosed <;> simp [parensIf]

@[simp] theorem binds_binary (op : TokenKind) : (binary op left right).binds options takes =
    (left.binds options takes && right.binds options takes) := by
  simp [binary, binds_of_plain, allBind]

@[simp] theorem binds_quotient : (quotient left right).binds options takes =
    (left.binds options takes && right.binds options takes) := by
  simp [quotient, binds_of_plain, allBind]

@[simp] theorem binds_assignment : (assignment left right).binds options takes =
    (left.binds options takes && right.binds options takes) := by
  simp [assignment, binds_of_plain, allBind]

@[simp] theorem binds_orElse (head alternative : Content) :
    (head.orElse alternative).binds options takes =
      (head.binds options takes && alternative.binds options takes) := by
  induction alternative using orElse.induct with
  | case1 word left mark below right ih =>
      simp [orElse, binds_of_plain, allBind, ih, Bool.and_assoc]
  | case2 alternative hnot => rw [orElse.eq_2 _ _ hnot, binds_binary]

theorem allBind_branches (cs : List Content) :
    allBind options takes (branches cs) = allBind options takes cs := by
  induction cs using branches.induct with
  | case1 keyword part rest ih =>
      simp only [branches, allBind, ih]
      split
      · simp [returned, binds_of_plain, allBind]
      · rfl
  | case2 parts hshort => rw [branches.eq_2 _ hshort]

/-- The function takes no `...`. -/
@[simp] theorem binds_closure (cs : List Content) :
    (closure cs).binds options takes = allBind options false cs := by
  have hbody : ∀ statement, binds options takes ⟨.aux .funcBody, [],
      [mark .lparen, mark .rparen, ⟨.aux .block, [], [statement]⟩, mark .kwEnd]⟩ =
        statement.binds options false := by
    intro statement
    have htakes : takeVarargs [mark .lparen, mark .rparen, ⟨.aux .block, [], [statement]⟩,
        mark .kwEnd] = false := rfl
    rw [binds_body, htakes]
    simp [allBind, binds_of_plain]
  simp [closure, called, binds_of_plain, allBind, hbody, allBind_branches]

end Gives

end Content

/-! ### Passes -/

open Content

section Nodes

variable {n : Node} {content : Content}

/-- A token reads no `...`. -/
theorem Node.IsFormed.binds_token (h : n.IsFormed) {k : TokenKind} (hkind : n.kind = .token k)
    (source : Text) (takes : Bool) : (n.content source).binds options takes = true := by
  rw [IsFormed, hkind] at h
  have hleaf : n.children = [] := by
    generalize hchildren : n.children.map Node.kind = kinds at h
    cases h
    simpa using hchildren
  rw [Node.content_eq, hkind, hleaf, binds_of_plain (by simp) (by simp) (by simp) (by simp)]
  rfl

theorem Content.isShort_contentsOf (source : Text) (nodes : List Node) :
    isShort (contentsOf source nodes) = (SyntaxTree.shortConditional? nodes).isSome := by
  unfold SyntaxTree.shortConditional?
  split
  · rename_i elseMark alternative
    simp only [contentsOf, isShort, Node.kind_of_content]
    change (elseMark.isToken .kwElse && _) = _
    split <;> simp_all
  · rename_i hsix
    rw [Option.isSome_none]
    unfold isShort
    split
    · rename_i a b c value elseMark d hcontents
      rw [contentsOf_eq_map] at hcontents
      have hlength := congrArg List.length hcontents
      obtain ⟨a', b', c', d', e', f', rfl⟩ : ∃ a b c d e f, nodes = [a, b, c, d, e, f] := by
        match nodes, hlength with
        | [a, b, c, d, e, f], _ => exact ⟨a, b, c, d, e, f, rfl⟩
      exact absurd rfl (hsix _ _ _ _ _ _)
    · rfl

/-- A conditional counts as a function if it is to be lowered to one. -/
theorem Node.binds_conditional (hconstruct : Construct.of? options n = some .conditional)
    (source : Text) (takes : Bool) : (n.content source).binds options takes =
      allBind options (takes && (SyntaxTree.shortConditional? n.children).isSome)
        (contentsOf source n.children) := by
  have hkind : n.kind = .expr .conditional := by
    obtain ⟨-, hkind⟩ | ⟨h, -⟩ | ⟨h, -⟩ := Construct.of?_cases hconstruct
    · exact hkind
    · cases h
    · cases h
  have hclosure : (n.content source).isClosure options =
      !(SyntaxTree.shortConditional? n.children).isSome := by
    rw [isClosure, Node.construct?_content, hconstruct, Node.parts_content, isShort_contentsOf]
    rfl
  rw [binds_eq, takesInside, Node.kind_of_content, Node.parts_content, hclosure, hkind,
    Bool.not_not]
  rfl

/-- The child of a node that is formed is formed. -/
theorem Node.isFormed_child {child : Node} (hformed : ∀ x ∈ n.preorder, x.IsFormed)
    (hchild : child ∈ n.children) : child.IsFormed :=
  hformed child (mem_preorder_of_child hchild (by simp [preorder_eq]))

/-- An operation binds what its operands bind. -/
theorem Node.binds_operation {left mark right : Node} (hformed : ∀ x ∈ n.preorder, x.IsFormed)
    (hkind : n.kind = .expr .binary ∨ n.kind = .stmt .compoundAssign)
    (hchildren : n.children = [left, mark, right]) (source : Text) (takes : Bool) :
    (n.content source).binds options takes =
      ((left.content source).binds options takes &&
        (right.content source).binds options takes) := by
  have hmark : mark.IsFormed := isFormed_child hformed (by simp [hchildren])
  have htoken : ∃ k, mark.kind = .token k := by
    have hn := hformed n (by simp [preorder_eq])
    rw [IsFormed, hchildren] at hn
    generalize hkinds : [left, mark, right].map Node.kind = kinds at hn
    obtain hkind | hkind := hkind
    · rw [hkind] at hn
      cases hn with
      | binary =>
          simp only [List.map_cons, List.cons.injEq] at hkinds
          exact ⟨_, hkinds.2.1⟩
      | literal => simp at hkinds
    · rw [hkind] at hn
      cases hn
      simp only [List.map_cons, List.cons.injEq] at hkinds
      exact ⟨_, hkinds.2.1⟩
  obtain ⟨k, hk⟩ := htoken
  rw [content_eq, hchildren, binds_of_plain]
  · simp [contentsOf, allBind, hmark.binds_token hk]
  all_goals
    obtain hkind | hkind := hkind
    · simp [hkind]
    · simp [hkind]

/-- A conditional that is lowered to operators binds what its condition, its value and
its alternative bind. -/
theorem Node.binds_short {condition value alternative : Node}
    (hformed : ∀ x ∈ n.preorder, x.IsFormed)
    (hconstruct : Construct.of? options n = some .conditional)
    (hshort : SyntaxTree.shortConditional? n.children = some (condition, value, alternative))
    (source : Text) (takes : Bool) : (n.content source).binds options takes =
      ((condition.content source).binds options takes &&
        ((value.content source).binds options takes &&
          (alternative.content source).binds options takes)) := by
  obtain ⟨ifMark, thenMark, elseMark, hchildren, -⟩ := SyntaxTree.shortConditional?_eq_some hshort
  have hchild : ∀ x ∈ n.children, x.IsFormed := fun x hx => isFormed_child hformed hx
  rw [hchildren] at hchild
  have hmarks : ifMark.kind = .token .kwIf ∧ thenMark.kind = .token .kwThen ∧
      elseMark.kind = .token .kwElse := by
    have hkind : n.kind = .expr .conditional := by simpa using Construct.of?_cases hconstruct
    have hn := hformed n (by simp [preorder_eq])
    rw [IsFormed, hchildren, hkind] at hn
    generalize hkinds : [ifMark, condition, thenMark, value, elseMark, alternative].map Node.kind =
      kinds at hn
    cases hn with
    | literal => simp at hkinds
    | conditional _ _ hbranches =>
        cases hbranches with
        | nil => simp_all
        | cons => simp at hkinds
  simp only [List.forall_mem_cons] at hchild
  rw [binds_conditional hconstruct, hshort, hchildren]
  simp [contentsOf, allBind, hchild.1.binds_token hmarks.1, hchild.2.2.1.binds_token hmarks.2.1,
    hchild.2.2.2.2.1.binds_token hmarks.2.2]

/-- What takes the place of a construct binds what the construct bound. -/
theorem Construct.Gives.binds {c : Construct} (h : c.Gives t n content)
    (hconstruct : Construct.of? options n = some c) (hformed : ∀ x ∈ n.preorder, x.IsFormed)
    (takes : Bool) : content.binds options takes = (n.content t.source).binds options takes := by
  have hcases := Construct.of?_cases hconstruct
  cases h with
  | quotient hchildren =>
      have hkind : n.kind = .expr .binary := by simp_all
      rw [Node.binds_operation hformed (.inl hkind) hchildren, binds_quotient]
  | assignment enclosed hchildren =>
      have hkind : n.kind = .stmt .compoundAssign := by simp_all
      rw [Node.binds_operation hformed (.inr hkind) hchildren, binds_assignment,
        binds_quotient, binds_parensIf, ← Bool.and_assoc, Bool.and_self]
  | choice enclosed guarded hshort =>
      rw [Node.binds_short hformed hconstruct hshort, SyntaxTree.choiceOf, binds_parensIf, Content.choice,
        binds_orElse, binds_binary, binds_parensIf, Bool.and_assoc]
  | closure hlong =>
      rw [Node.binds_conditional hconstruct, hlong, binds_closure, Option.isSome_none,
        Bool.and_false]

end Nodes

/-- Whether the last of some siblings is `...` is kept. -/
theorem AllBecome.lastVararg {nodes : List Node} {contents : List Content}
    (h : AllBecome t options nodes contents) :
    contents.getLast?.any (·.kind == .expr .vararg) =
      (contentsOf t.source nodes).getLast?.any (·.kind == .expr .vararg) := by
  cases h with
  | nil => rfl
  | @cons n rest content contents head tail =>
      have hrest := tail.lastVararg
      have hkind := head.kind_iff (k := .expr .vararg) (by decide) (by decide)
      cases tail with
      | nil =>
          rw [Bool.eq_iff_iff]
          simp [contentsOf, hkind]
      | cons =>
          rw [contentsOf, List.getLast?_cons_cons, contentsOf, List.getLast?_cons_cons, ← contentsOf]
          exact hrest

/-- Whether the parameters end in `...` is kept. -/
theorem AllBecome.takeVarargs {nodes : List Node} {contents : List Content}
    (h : AllBecome t options nodes contents) :
    Content.takeVarargs contents = Content.takeVarargs (contentsOf t.source nodes) := by
  cases h with
  | nil => rfl
  | @cons n rest content contents head tail =>
      have hrest := tail.takeVarargs
      have hkind := head.kind_iff (k := .aux .paramList) (by decide) (by decide)
      rw [Content.takeVarargs] at hrest ⊢
      rw [contentsOf, Content.takeVarargs, List.any_cons, List.any_cons, hrest,
        Node.kind_of_content, Content.takeVarargs]
      by_cases hlist : n.kind = .aux .paramList
      · cases head with
        | site construct _ =>
            have hconstruct := Construct.kind_mem construct
            rw [hlist] at hconstruct
            exact absurd hconstruct (by decide)
        | same _ children =>
            rw [Node.parts_content, Content.parts_mk, Content.kind_mk, children.lastVararg]
      · have hlist' : content.kind ≠ .aux .paramList := fun h => hlist (hkind.mp h)
        rw [beq_eq_false_iff_ne.mpr hlist, beq_eq_false_iff_ne.mpr hlist', Bool.false_and,
          Bool.false_and]

mutual

/-- A pass changes nothing about which `...` stand in a function that takes them. -/
theorem Node.Becomes.binds {n : Node} {content : Content} (h : n.Becomes t options content)
    (hformed : ∀ x ∈ n.preorder, x.IsFormed) (takes : Bool) :
    content.binds options takes = (n.content t.source).binds options takes := by
  cases h with
  | site construct gives => exact gives.binds construct hformed takes
  | @same _ contents plain children =>
      have hplain : (n.content t.source).construct? options = none := by simp [plain]
      have hplain' := children.construct? plain (n.leafText t.source)
      have hchildren : ∀ x ∈ preorderOfAll n.children, x.IsFormed :=
        fun x hx => hformed x (by simp [Node.preorder_eq, hx])
      rw [binds_eq, binds_eq, takesInside, takesInside, isClosure, isClosure, hplain, hplain',
        Content.kind_mk, Content.parts_mk, Node.kind_of_content, Node.parts_content,
        children.takeVarargs, children.binds hchildren]
      rfl

theorem AllBecome.binds {nodes : List Node} {contents : List Content}
    (h : AllBecome t options nodes contents) (hformed : ∀ x ∈ preorderOfAll nodes, x.IsFormed)
    (takes : Bool) :
    allBind options takes contents = allBind options takes (contentsOf t.source nodes) := by
  cases h with
  | nil => rfl
  | cons head tail =>
      rw [contentsOf, allBind, allBind,
        head.binds (fun x hx => hformed x (by simp [preorderOfAll, hx])),
        tail.binds fun x hx => hformed x (by simp [preorderOfAll, hx])]

end

/-! ### Lowered texts -/

theorem Content.takeVarargs_contentsOf (source : Text) (nodes : List Node) :
    Content.takeVarargs (contentsOf source nodes) = takesVarargs nodes := by
  rw [Content.takeVarargs, takesVarargs, contentsOf_eq_map, List.any_map]
  congr 1
  funext n
  rw [Function.comp_apply, Node.kind_of_content, Node.parts_content, contentsOf_eq_map,
    List.getLast?_map, Option.any_map]
  simp only [Node.kind_of_content]

mutual

/-- Without conditionals to be lowered, a content binds what its node binds. -/
theorem Node.binds_content (source : Text) (n : Node)
    (h : ∀ x ∈ n.preorder, Construct.of? options x ≠ some .conditional) (takes : Bool) :
    (n.content source).binds options takes = n.bindsVarargs takes := by
  cases n with
  | mk id kind start stop children =>
      have hchildren := fun takes => allBind_contentsOf source children
        (fun x hx => h x (by simp [Node.preorder, hx])) takes
      have hplain := h ⟨id, kind, start, stop, children⟩ (by simp [Node.preorder])
      rw [← Node.construct?_content source] at hplain
      rw [Bool.eq_iff_iff, Node.bindsVarargs_iff_children, binds_eq, takesInside, isClosure,
        Node.parts_content, Content.takeVarargs_contentsOf, hchildren, Node.kind_of_content,
        Node.takesWithin, beq_eq_false_iff_ne.mpr hplain, Bool.false_and, Bool.not_false,
        Bool.and_true]
      simp only [Bool.and_eq_true, Bool.or_eq_true, bne_iff_ne, beq_iff_eq]
      grind

theorem allBind_contentsOf (source : Text) (nodes : List Node)
    (h : ∀ x ∈ preorderOfAll nodes, Construct.of? options x ≠ some .conditional) (takes : Bool) :
    allBind options takes (contentsOf source nodes) = allBindVarargs takes nodes := by
  cases nodes with
  | nil => rfl
  | cons n nodes =>
      rw [contentsOf, allBind, allBindVarargs,
        Node.binds_content source n fun x hx => h x (by simp [preorderOfAll, hx]),
        allBind_contentsOf source nodes fun x hx => h x (by simp [preorderOfAll, hx])]

end

/-- Every `...` of the tree stands in a function that takes it, where conditionals
that are to be lowered to functions count as functions that take none. -/
def SyntaxTree.BindsLowered (t : SyntaxTree) (options : LoweringOptions) : Prop :=
  (t.root.content t.source).binds options true

instance (t : SyntaxTree) : Decidable (t.BindsLowered options) := by
  unfold SyntaxTree.BindsLowered
  infer_instance

/-- The text that lowering ends in is on the way. -/
theorem Way.of_lower (h : lower source options = .ok (.ok (.produced text))) :
    Way options source text := by
  have hfrom : ∀ {left made : Nat} {code : Text}, Way options source code →
      lowerFrom options left made code = .ok (.ok (.produced text)) → Way options source text := by
    intro left
    induction left with
    | zero => simp [lowerFrom]
    | succ left ih =>
        intro made code hcode hlater
        obtain ⟨t, hparse, ⟨_, _, -, -, hresult⟩ | ⟨_, _, -, -, hresult⟩ | ⟨-, -, hresult⟩ |
          ⟨next, herrors, hpass, -, hlater⟩⟩ := lowerFrom_succ_iff.mp hlater
        · cases hresult
        · cases hresult
        · cases hresult
          exact hcode
        · exact ih (hcode.pass hparse herrors hpass) hlater
  exact hfrom .start h

section Ways

variable (hparse : parse source = .ok t) (hclosed : t.ClosesConditions options)
  (hlocal : ∀ code, Way options source code → IsLocal options code)

include hparse hclosed hlocal

/-- On a way of local passes nothing changes about which `...` stand in a function that
takes them. -/
theorem Way.bindsLowered_iff (h : Way options source code) (hparse' : parse code = .ok t')
    (herrors' : t'.errors = []) : t'.BindsLowered options ↔ t.BindsLowered options := by
  have hclosed' : ∀ t', parse source = .ok t' → t'.errors = [] → t'.ClosesConditions options := by
    intro t' hparse' _
    rw [hparse, Except.ok.injEq] at hparse'
    exact hparse' ▸ hclosed
  induction h generalizing t' with
  | start =>
      rw [hparse, Except.ok.injEq] at hparse'
      rw [hparse']
  | @pass code text u before parsed errors pass ih =>
      obtain ⟨inner, gap, hparsed⟩ := parse_parsed parsed errors
      have hbecomes := local_becomes parsed errors
        (before.closesConditions hclosed' hlocal u parsed errors) (hlocal code before) pass hparse'
        herrors'
      refine Iff.trans ?_ (ih parsed errors)
      rw [SyntaxTree.BindsLowered, hbecomes.binds hparsed.formed, SyntaxTree.BindsLowered]

/-- A text that lowering by local passes ends in binds every `...` if and only if the
source does, with each conditional that is lowered to a function counted as a function
that takes none. -/
theorem bindsVarargs_lowered_iff
    (hlower : lower source options = .ok (.ok (.produced text)))
    (hparse' : parse text = .ok t') (herrors' : t'.errors = []) :
    t'.BindsVarargs ↔ t.BindsLowered options := by
  obtain ⟨u, hu, -, hlowered, -⟩ := lower_isLowered hlower
  rw [hparse', Except.ok.injEq] at hu
  subst hu
  have hplain : ∀ x ∈ t'.root.preorder, Construct.of? options x ≠ some .conditional := by
    intro x hx
    rw [← Node.map_visits t'.root t'.rootVisit.parent t'.rootVisit.previous, List.mem_map] at hx
    obtain ⟨v, hv, rfl⟩ := hx
    simp [hlowered v hv]
  have hway : Way options source text := Way.of_lower hlower
  rw [← hway.bindsLowered_iff hparse hclosed hlocal hparse' herrors',
    SyntaxTree.BindsVarargs, SyntaxTree.BindsLowered, Node.binds_content t'.source t'.root hplain]

end Ways

/-- The alternative holds `...`, and the conditional is lowered to a disjunction. -/
theorem bindsVarargs_lowered_iff_disjunction :
    ∃ t', parse "x = a and 1 or ...\n".toList = .ok t' ∧ t'.BindsVarargs := by
  have h : ∃ t ∈ tree? "x = if a then 1 else ...".toList,
      t.ClosesConditions .standard ∧ t.BindsLowered .standard ∧
      lowering? .standard "x = if a then 1 else ...".toList =
        some "x = a and 1 or ...\n".toList := by
    decide +kernel
  obtain ⟨t, ht, hclosed, hbinds, hlower⟩ := h
  obtain ⟨t', ht'⟩ : ∃ t', tree? "x = a and 1 or ...\n".toList = some t' :=
    Option.isSome_iff_exists.mp (by decide +kernel)
  obtain ⟨hparse, herrors⟩ := tree?_eq_some.mp ht
  obtain ⟨hparse', herrors'⟩ := tree?_eq_some.mp ht'
  have hlocal : ∀ code ∈ ["x = if a then 1 else ...".toList, "x = a and 1 or ...\n".toList],
      IsLocal .standard code := by
    decide +kernel
  refine ⟨t', hparse', (bindsVarargs_lowered_iff hparse hclosed (fun code hway => ?_)
    (lowering?_eq_some.mp hlower) hparse' herrors').mpr hbinds⟩
  exact hlocal code (hway.mem (by simp) (by decide +kernel))

end LuauTidy
