import LuauTidy.Proofs.Fixpoints

/-!
# Locality

A pass exchanges parts of a text and does not look at what stands around them.
It should give a text that parses, and outside of the exchanged parts the tree
should be that of the source.  For a few sources it is not: the lowered text of
a floor division starts with a word, which runs on from a word right before it,
and it ends in a parenthesis, which calls what the next statement starts with.

* `KeepsParsing`, `IsLocal` — what a pass should do;
* `Node.mirrored` — a tree outside of the exchanged parts;
* `lower_unparsable` — lowering stumbles over a text only if a pass broke it;
* `not_keepsParsing_word`, `not_isLocal_call` — sources where a pass does not
  what it should.
-/

namespace LuauTidy

variable {options : LoweringOptions}

/-- A pass over a source that parses gives a text that parses. -/
def KeepsParsing (options : LoweringOptions) (source : Text) : Prop :=
  ∀ t, parse source = .ok t → t.errors = [] →
    ∃ text t', t.lowerOnce options = .ok (.produced text) ∧ parse text = .ok t' ∧ t'.errors = []

/-! ### Unparsable texts -/

/-- The passes that are left stumble over the text they start with, or over one
that a pass over a text that parses gave. -/
theorem lowerFrom_unparsable {left made pass : Nat} {code text : Text} {error : SyntaxError}
    (h : lowerFrom options left made code = .ok (.error (.unparsable pass error text))) :
    (∃ t', parse text = .ok t' ∧ t'.errors.head? = some error) ∧
      ((made ≠ 0 ∧ text = code) ∨ ∃ code t, parse code = .ok t ∧ t.errors = [] ∧
        t.lowerOnce options = .ok (.produced text)) := by
  induction left generalizing made code with
  | zero => simp [lowerFrom] at h
  | succ left ih =>
      obtain ⟨t, hparse, ⟨_, _, -, -, hresult⟩ | ⟨first, more, herrors, hmade, hresult⟩ |
        ⟨-, -, hresult⟩ | ⟨next, herrors, hpass, -, hlater⟩⟩ := lowerFrom_succ_iff.mp h
      · cases hresult
      · cases hresult
        exact ⟨⟨t, hparse, by rw [herrors]; rfl⟩, .inl ⟨hmade, rfl⟩⟩
      · cases hresult
      · obtain ⟨hstops, ⟨-, rfl⟩ | hfrom⟩ := ih hlater
        · exact ⟨hstops, .inr ⟨code, t, hparse, herrors, hpass⟩⟩
        · exact ⟨hstops, .inr hfrom⟩

/-- Lowering stumbles over a text only if a pass broke it. -/
theorem lower_unparsable {source text : Text} {pass : Nat} {error : SyntaxError}
    (h : lower source options = .ok (.error (.unparsable pass error text))) :
    ∃ code t, parse code = .ok t ∧ t.errors = [] ∧ t.lowerOnce options = .ok (.produced text) ∧
      ∃ t', parse text = .ok t' ∧ t'.errors.head? = some error := by
  obtain ⟨hstops, ⟨hmade, -⟩ | ⟨code, t, hparse, herrors, hpass⟩⟩ := lowerFrom_unparsable h
  · exact absurd rfl hmade
  · exact ⟨code, t, hparse, herrors, hpass, hstops⟩

/-- Passes that give texts that parse never make lowering stumble. -/
theorem lower_ne_unparsable (hkeeps : ∀ code, KeepsParsing options code) (source text : Text)
    (pass : Nat) (error : SyntaxError) :
    lower source options ≠ .ok (.error (.unparsable pass error text)) := by
  intro h
  obtain ⟨code, t, hparse, herrors, hpass, t', hparse', herrors'⟩ := lower_unparsable h
  obtain ⟨text', u, hpass', hparse'', hu⟩ := hkeeps code t hparse herrors
  rw [hpass, Except.ok.injEq, Outcome.produced.injEq] at hpass'
  rw [← hpass', hparse', Except.ok.injEq] at hparse''
  rw [hparse'', hu] at herrors'
  cases herrors'

/-! ### Mirrored trees -/

/-- The kinds of node that take the place of a construct. -/
def Construct.givesWay (c : Construct) (kind : Kind) : Bool :=
  match c with
  | .conditional | .floorDivision => kind.isExpr
  | .compoundFloorDivision => kind == .stmt .assign

mutual

/-- A node of `t'` stands for a node of `t`: for a construct it is a node over
the lowered text, and otherwise it is of the same kind, its children stand for
the children, and a leaf has the same text. -/
def Node.mirrored (t t' : SyntaxTree) (options : LoweringOptions) (parent : Option Kind) :
    Node → Node → Bool
  | n@⟨_, kind, start, stop, children⟩, m =>
    let text := t'.source.slice? m.start m.stop
    match Construct.of? options n with
    | some c =>
      match t.loweredSite ⟨c, n, parent⟩ with
      | .ok graft => c.givesWay m.kind && text == some graft
      | .error _ => false
    | none =>
      m.kind == kind && mirroredAll t t' options (some kind) children m.children &&
        (!children.isEmpty || text == t.source.slice? start stop)

/-- Siblings of `t'` stand for siblings of `t`, each for one in the same place. -/
def mirroredAll (t t' : SyntaxTree) (options : LoweringOptions) (parent : Option Kind) :
    List Node → List Node → Bool
  | [], [] => true
  | n :: rest, m :: rest' =>
    n.mirrored t t' options parent m && mirroredAll t t' options parent rest rest'
  | _, _ => false

end

/-- If a pass over a source gives a text that parses, the tree of the text is
that of the source outside of the constructs. -/
def IsLocal (options : LoweringOptions) (source : Text) : Prop :=
  ∀ t text t', parse source = .ok t → t.errors = [] → t.lowerOnce options = .ok (.produced text) →
    parse text = .ok t' → t'.errors = [] → t.root.mirrored t t' options none t'.root

/-! ### Tests -/

/-- The text that a pass produces, if it does. -/
def SyntaxTree.lowered? (t : SyntaxTree) (options : LoweringOptions) : Option Text :=
  match t.lowerOnce options with
  | .ok (.produced text) => some text
  | _ => none

theorem SyntaxTree.lowered?_eq_some {t : SyntaxTree} {text : Text} :
    t.lowered? options = some text ↔ t.lowerOnce options = .ok (.produced text) := by
  unfold SyntaxTree.lowered?
  split <;> simp_all

/-- The tree of a text that parses. -/
def tree? (text : Text) : Option SyntaxTree := (parse text).toOption.filter (·.errors.isEmpty)

theorem tree?_eq_some {text : Text} {t : SyntaxTree} :
    tree? text = some t ↔ parse text = .ok t ∧ t.errors = [] := by
  unfold tree?
  cases parse text with
  | error cause => simp [Except.toOption]
  | ok t' => simp [Except.toOption, Option.filter_eq_some_iff]

instance (source : Text) : Decidable (KeepsParsing options source) :=
  decidable_of_iff
    (∀ t ∈ tree? source, ((t.lowered? options).bind tree?).isSome) <| by
    simp only [KeepsParsing, Option.mem_def, tree?_eq_some, Option.isSome_iff_exists,
      Option.bind_eq_some_iff, SyntaxTree.lowered?_eq_some, and_imp]
    refine forall_congr' fun t => forall_congr' fun _ => forall_congr' fun _ => ?_
    exact exists_comm

instance (source : Text) : Decidable (IsLocal options source) :=
  decidable_of_iff
    (∀ t ∈ tree? source, ∀ text ∈ t.lowered? options, ∀ t' ∈ tree? text,
      t.root.mirrored t t' options none t'.root) <| by
    simp only [IsLocal, Option.mem_def, tree?_eq_some, SyntaxTree.lowered?_eq_some, and_imp]
    constructor
    · exact fun h t text t' hparse herrors hpass => h t hparse herrors text hpass t'
    · exact fun h t hparse herrors text hpass t' => h t text t' hparse herrors hpass

/-- The word and the lowered text are one word. -/
theorem not_keepsParsing_word : ¬KeepsParsing .standard "if(a)//b then end".toList := by
  decide +kernel

/-- The lowered text is called with what the next statement starts with. -/
theorem not_isLocal_call : ¬IsLocal .standard "x = a // 2 (f)()".toList := by
  decide +kernel

end LuauTidy
