import LuauTidy.Proofs.Locality

/-!
# Values

What takes the place of a conditional should have the values of the
conditional.  A conditional has one value, wherever it stands, and it reads the
further arguments of the function around it.  A conditional that becomes a
function of its own, called at once, keeps neither: the call has as many values
as the branch taken, which shows at the end of a list, and the further arguments
are those of the new function, which has none.

* `Node.bindsVarargs`, `KeepsVarargs` — `...` stands where a function takes it;
* `Node.bindsVarargs_iff` — what that means for every `...` below a node;
* `Node.lastValue?`, `KeepsSingleValues` — what may have several values;
* `not_keepsVarargs_closure`, `not_keepsSingleValues_closure` — sources where
  lowering does not keep the values.
-/

namespace LuauTidy

variable {options : LoweringOptions}

/-! ### Further arguments -/

/-- The parameters among the children of a function end in `...`. -/
def takesVarargs (children : List Node) : Bool :=
  children.any fun n =>
    n.kind == .aux .paramList && n.children.getLast?.any (·.kind == .expr .vararg)

mutual

/-- Every `...` below the node, other than a parameter, stands in a function that
takes it, where `takes` tells whether the function around the node does. -/
def Node.bindsVarargs (takes : Bool) : Node → Bool
  | ⟨_, .expr .vararg, _, _, children⟩ => takes && allBindVarargs takes children
  | ⟨_, .aux .paramList, _, _, _⟩ => true
  | ⟨_, .aux .funcBody, _, _, children⟩ => allBindVarargs (takesVarargs children) children
  | ⟨_, _, _, _, children⟩ => allBindVarargs takes children

/-- Every `...` below some siblings stands in a function that takes it. -/
def allBindVarargs (takes : Bool) : List Node → Bool
  | [] => true
  | n :: rest => n.bindsVarargs takes && allBindVarargs takes rest

end

/-- Every `...` of the tree stands in a function that takes it; the whole source
is such a function. -/
def SyntaxTree.BindsVarargs (t : SyntaxTree) : Prop := t.root.bindsVarargs true

instance (t : SyntaxTree) : Decidable t.BindsVarargs := by
  unfold SyntaxTree.BindsVarargs
  infer_instance

theorem allBindVarargs_iff {takes : Bool} {nodes : List Node} :
    allBindVarargs takes nodes ↔ ∀ n ∈ nodes, n.bindsVarargs takes := by
  induction nodes with
  | nil => simp [allBindVarargs]
  | cons n nodes ih => simp [allBindVarargs, ih]

/-- Whether the function around the children of a node takes `...`. -/
def Node.takesWithin (takes : Bool) (n : Node) : Bool :=
  if n.kind = .aux .funcBody then takesVarargs n.children else takes

/-- The way from a node down to another one that is no parameter: `takes` and
`takes'` tell whether the function around the one and the other takes `...`. -/
inductive Node.Leads : (takes : Bool) → Node → (takes' : Bool) → Node → Prop
  | here (takes : Bool) (n : Node) : Node.Leads takes n takes n
  | child {takes takes' : Bool} {n child m : Node} (mem : child ∈ n.children)
      (parameter : n.kind ≠ .aux .paramList)
      (down : Node.Leads (n.takesWithin takes) child takes' m) : Node.Leads takes n takes' m

theorem Node.bindsVarargs_iff_children {takes : Bool} {n : Node} : n.bindsVarargs takes ↔
    (n.kind = .expr .vararg → takes = true) ∧
      (n.kind ≠ .aux .paramList → allBindVarargs (n.takesWithin takes) n.children) := by
  obtain ⟨id, kind, start, stop, children⟩ := n
  rcases kind with k | k | k | k <;> cases k <;>
    simp [Node.bindsVarargs, Node.takesWithin]

/-- On the way down every node binds what it has to. -/
theorem Node.Leads.bindsVarargs {takes takes' : Bool} {n m : Node} (h : Node.Leads takes n takes' m)
    (hn : n.bindsVarargs takes) : m.bindsVarargs takes' := by
  induction h with
  | here => exact hn
  | @child takes takes' n child m mem parameter _ ih =>
      have hchildren := (Node.bindsVarargs_iff_children.mp hn).2 parameter
      exact ih (allBindVarargs_iff.mp hchildren child mem)

mutual

theorem Node.bindsVarargs_of_leads {takes : Bool} (n : Node)
    (h : ∀ takes' m, Node.Leads takes n takes' m → m.kind = .expr .vararg → takes' = true) :
    n.bindsVarargs takes := by
  cases n with
  | mk id kind start stop children =>
      refine Node.bindsVarargs_iff_children.mpr ⟨h takes _ (.here takes _), fun parameter => ?_⟩
      exact allBindVarargs_of_leads children fun child mem takes' m hleads =>
        h takes' m (.child mem parameter hleads)

theorem allBindVarargs_of_leads {takes : Bool} (nodes : List Node)
    (h : ∀ n ∈ nodes, ∀ takes' m, Node.Leads takes n takes' m → m.kind = .expr .vararg →
      takes' = true) : allBindVarargs takes nodes := by
  cases nodes with
  | nil => rfl
  | cons n nodes =>
      rw [List.forall_mem_cons] at h
      rw [allBindVarargs, Bool.and_eq_true]
      exact ⟨Node.bindsVarargs_of_leads n h.1, allBindVarargs_of_leads nodes h.2⟩

end

/-- Every `...` below a node stands in a function that takes it if the way to
each `...` says so. -/
theorem Node.bindsVarargs_iff {takes : Bool} {n : Node} : n.bindsVarargs takes ↔
    ∀ takes' m, Node.Leads takes n takes' m → m.kind = .expr .vararg → takes' = true := by
  refine ⟨fun h takes' m hleads hkind => ?_, n.bindsVarargs_of_leads⟩
  exact (Node.bindsVarargs_iff_children.mp (hleads.bindsVarargs h)).1 hkind

/-- If every `...` of a source stands in a function that takes it, the same goes
for the text that lowering makes of it. -/
def KeepsVarargs (options : LoweringOptions) (source : Text) : Prop :=
  ∀ t text t', parse source = .ok t → t.errors = [] → t.BindsVarargs →
    lower source options = .ok (.ok (.produced text)) → parse text = .ok t' → t'.errors = [] →
    t'.BindsVarargs

/-! ### Several values -/

/-- An expression that may have several values. -/
def Node.mayExpand (n : Node) : Bool := n.kind == .expr .call || n.kind == .expr .vararg

/-- The index of the last expression among some siblings, with the expression. -/
def lastExpr? : List Node → Option (Nat × Node)
  | [] => none
  | n :: rest => match lastExpr? rest with
    | some (index, value) => some (index + 1, value)
    | none => if n.isExpr then some (0, n) else none

/-- The value that all its values are taken of: the last one of a list of values,
with the way to it. -/
def Node.lastValue? (n : Node) : Option (List Nat × Node) :=
  match n.kind with
  | .aux .argList | .aux .exprList | .stmt .returnStmt | .stmt .localVar | .stmt .forIn =>
    (lastExpr? n.children).map fun (index, value) => ([index], value)
  | .aux .fieldList =>
    match n.children.reverse.dropWhile fun child => child.kind != .aux .field with
    | ⟨_, _, _, _, [value]⟩ :: before => some ([before.length, 0], value)
    | _ => none
  | _ => none

/-- The values of the branches of a conditional. -/
def branchValues : List Node → List Node
  | mark :: value :: rest =>
    if mark.isToken .kwThen || mark.isToken .kwElse then value :: branchValues rest
    else branchValues (value :: rest)
  | _ => []

/-- A conditional with a branch that may have several values is lowered to an
expression that has one, wherever its values are taken. -/
def KeepsSingleValues (options : LoweringOptions) (source : Text) : Prop :=
  ∀ t text t', parse source = .ok t → t.errors = [] → t.lowerOnce options = .ok (.produced text) →
    parse text = .ok t' → t'.errors = [] →
    ∀ path visit rest value, SyntaxTree.follow t.rootVisit path = .ok visit →
      visit.node.lastValue? = some (rest, value) →
      (∃ site ∈ t.sites options, site.construct = .conditional ∧ site.node.id = value.id) →
      (branchValues value.children).any Node.mayExpand →
      ∃ visit', SyntaxTree.follow t'.rootVisit (path ++ rest) = .ok visit' ∧
        visit'.node.mayExpand = false

/-! ### Tests -/

/-- The text that lowering produces, if it does. -/
def lowering? (options : LoweringOptions) (source : Text) : Option Text :=
  match lower source options with
  | .ok (.ok (.produced text)) => some text
  | _ => none

theorem lowering?_eq_some {source text : Text} :
    lowering? options source = some text ↔ lower source options = .ok (.ok (.produced text)) := by
  unfold lowering?
  split <;> simp_all

instance (source : Text) : Decidable (KeepsVarargs options source) :=
  decidable_of_iff
    (∀ t ∈ tree? source, t.BindsVarargs → ∀ text ∈ lowering? options source, ∀ t' ∈ tree? text,
      t'.BindsVarargs) <| by
    simp only [KeepsVarargs, Option.mem_def, tree?_eq_some, lowering?_eq_some, and_imp]
    constructor
    · exact fun h t text t' hparse herrors hbinds hlower => h t hparse herrors hbinds text hlower t'
    · exact fun h t hparse herrors hbinds text hlower t' => h t text t' hparse herrors hbinds hlower

/-- The function that takes the place of the conditional takes no `...`. -/
theorem not_keepsVarargs_closure :
    ¬KeepsVarargs .standard "x = if a then ... else b".toList := by
  decide +kernel

/-- The node at the end of a path. -/
def SyntaxTree.nodeAt? (t : SyntaxTree) (path : List Nat) : Option Node :=
  (follow t.rootVisit path).toOption.map Visit.node

/-- A conditional at the end of the path and the list of values there that may
have several values in the text of a pass, which it should not have. -/
def SyntaxTree.ExpandsAt (t : SyntaxTree) (options : LoweringOptions) (path : List Nat) : Prop :=
  ∃ text ∈ t.lowered? options, ∃ t' ∈ tree? text, ∃ n ∈ t.nodeAt? path, ∃ last ∈ n.lastValue?,
    (∃ site ∈ t.sites options, site.construct = .conditional ∧ site.node.id = last.2.id) ∧
      (branchValues last.2.children).any Node.mayExpand ∧
      ∃ n' ∈ t'.nodeAt? (path ++ last.1), n'.mayExpand

instance (t : SyntaxTree) (path : List Nat) : Decidable (t.ExpandsAt options path) := by
  unfold SyntaxTree.ExpandsAt
  infer_instance

theorem SyntaxTree.nodeAt?_eq_some {t : SyntaxTree} {path : List Nat} {n : Node} :
    t.nodeAt? path = some n ↔ ∃ visit, follow t.rootVisit path = .ok visit ∧ visit.node = n := by
  unfold SyntaxTree.nodeAt?
  cases follow t.rootVisit path <;> simp [Except.toOption]

theorem not_keepsSingleValues_of_expandsAt {source : Text} {t : SyntaxTree} {path : List Nat}
    (ht : tree? source = some t) (h : t.ExpandsAt options path) :
    ¬KeepsSingleValues options source := by
  obtain ⟨hparse, herrors⟩ := tree?_eq_some.mp ht
  obtain ⟨text, htext, t', ht', n, hn, last, hlast, hsite, hvalues, n', hn', hexpands⟩ := h
  obtain ⟨hparse', herrors'⟩ := tree?_eq_some.mp ht'
  obtain ⟨visit, hvisit, rfl⟩ := SyntaxTree.nodeAt?_eq_some.mp hn
  obtain ⟨visit', hvisit', rfl⟩ := SyntaxTree.nodeAt?_eq_some.mp hn'
  intro hkeeps
  obtain ⟨visit'', hvisit'', hsingle⟩ := hkeeps t text t' hparse herrors
    (SyntaxTree.lowered?_eq_some.mp htext) hparse' herrors' path visit last.1 last.2 hvisit hlast
    hsite hvalues
  rw [hvisit', Except.ok.injEq] at hvisit''
  rw [← hvisit'', hexpands] at hsingle
  cases hsingle

/-- The function that takes the place of the conditional is called where all its
values are taken. -/
theorem not_keepsSingleValues_closure :
    ¬KeepsSingleValues .standard "return if c then f() else 1".toList := by
  have h : ∃ t ∈ tree? "return if c then f() else 1".toList, t.ExpandsAt .standard [0] := by
    decide +kernel
  obtain ⟨t, ht, hexpands⟩ := h
  exact not_keepsSingleValues_of_expandsAt ht hexpands

end LuauTidy
