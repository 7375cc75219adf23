import LuauTidy.Lowering.Fixpoint
import LuauTidy.Proofs.Passes

/-!
# Fixpoints

Lowering stops when a pass gives back what it was given, and never looks
whether constructs are left.  There are none: the lowered text of the first
site differs from what it replaces in a character that is no line end, and
what stands before the site is kept, so the text that a pass gives differs
from its source as soon as there is a site.
-/

namespace LuauTidy

variable {t : SyntaxTree} {options : LoweringOptions}

/-- What closes a text cuts no text off that ends in another character. -/
theorem Text.prefix_withSingleTrailingNewline {start text : Text} {c : Char}
    (hc : isLineEnd c = false) (h : start ++ [c] <+: text) :
    start ++ [c] <+: text.withSingleTrailingNewline := by
  obtain ⟨rest, rfl⟩ := h
  have hdrop : ((start ++ [c] ++ rest).reverse.dropWhile isLineEnd) =
      rest.reverse.dropWhile isLineEnd ++ (start ++ [c]).reverse := by
    rw [List.reverse_append, List.dropWhile_append]
    split
    · rename_i hempty
      rw [List.isEmpty_iff.mp hempty]
      simp [hc]
    · rfl
  rw [withSingleTrailingNewline, hdrop, List.reverse_append, List.reverse_reverse, List.append_assoc]
  exact List.prefix_append _ _

/-- A pass that gives back its source had no site. -/
theorem Laid.nil_of_eq {before text spliced : Text} {sites : List Site} {grafts : List Text}
    (h : Laid t before text sites grafts spliced) (heq : spliced.withSingleTrailingNewline = text) :
    sites = [] := by
  cases h with
  | nil => rfl
  | @cons _ kept part rest graft spliced _ _ _ _ _ _ _ _ _ altered _ =>
      obtain ⟨start, c, hgraft, hc, hdiffers⟩ := altered
      have hspliced : kept ++ start ++ [c] <+: kept ++ graft ++ spliced := by
        rw [List.append_assoc, List.append_assoc]
        exact (List.prefix_append_right_inj kept).mpr (hgraft.trans (List.prefix_append _ _))
      have htext := Text.prefix_withSingleTrailingNewline hc hspliced
      rw [heq, List.append_assoc] at htext
      exact absurd ((List.prefix_append_right_inj kept).mp htext) (hdiffers rest)

/-! ### Slashes -/

/-- No operator of a floor division is asked for. -/
def Symbol.Quiet : Symbol → Prop
  | .leaf kind _ => kind ≠ .token .doubleSlash ∧ kind ≠ .token .doubleSlashAssign
  | _ => True

@[simp] theorem Symbol.quiet_mark (k : TokenKind) :
    (Symbol.mark k).Quiet ↔ k ≠ .doubleSlash ∧ k ≠ .doubleSlashAssign := by
  simp [Quiet, mark]

@[simp] theorem Symbol.quiet_literal (k : ExprKind) : (Symbol.literal k).Quiet := by
  simp [Quiet, literal]

@[simp] theorem Symbol.quiet_comment : Symbol.comment.Quiet := by simp [Quiet, comment]

@[simp] theorem Symbol.quiet_continueWord : Symbol.continueWord.Quiet := by
  simp [Quiet, continueWord]

@[simp] theorem Symbol.quiet_skip (k : TokenKind) : (Symbol.skip k).Quiet := trivial

@[simp] theorem Symbol.quiet_look (fits : Ahead → Prop) : (Symbol.look fits).Quiet := trivial

@[simp] theorem Symbol.quiet_sub (n : Nonterminal) : (Symbol.sub n).Quiet := trivial

/-- The operators of floor divisions are asked for in two places only. -/
theorem Production.quiet {n : Nonterminal} {kind : Option Kind} {parts : List Symbol}
    (h : Production n kind parts) :
    (∀ s ∈ parts, s.Quiet) ∨
      (∃ limit right, kind = some (.expr .binary) ∧
        parts = [.sub (.climb limit), .mark .doubleSlash, .sub (.operand right)]) ∨
      (kind = some (.stmt .compoundAssign) ∧
        parts = [.sub .variable, .mark .doubleSlashAssign, .sub .expr]) := by
  cases h with
  | unary limit op unary =>
      left
      cases op <;> simp [TokenKind.isUnary] at unary <;> simp
  | binary limit op left right powers tighter =>
      by_cases hop : op = .doubleSlash
      · subst hop
        exact .inr (.inl ⟨limit, right, rfl, rfl⟩)
      · have hassign : op ≠ .doubleSlashAssign := by
          rintro rfl
          simp [TokenKind.bindingPowers?] at powers
        exact .inl (by simp [hop, hassign])
  | compoundAssignment op compound =>
      by_cases hop : op = .doubleSlashAssign
      · subst hop
        exact .inr (.inr ⟨rfl, rfl⟩)
      · have hdivides : op ≠ .doubleSlash := by
          rintro rfl
          simp [TokenKind.isCompoundAssign] at compound
        exact .inl (by simp [hop, hdivides])
  | more separator item separates =>
      left
      rcases separates with rfl | rfl <;> simp
  | fieldList separator separates | fields separator separates =>
      left
      rcases separates with rfl | rfl <;> simp
  | _ =>
      left
      simp

theorem visitsOfAll_append (parent : Node) (previous : Option Node) (a b : List Node) :
    ∃ last, visitsOfAll parent previous (a ++ b) =
      visitsOfAll parent previous a ++ visitsOfAll parent last b := by
  induction a generalizing previous with
  | nil => exact ⟨previous, rfl⟩
  | cons n a ih =>
      obtain ⟨last, h⟩ := ih (some n)
      exact ⟨last, by simp [visitsOfAll, h]⟩

/-- The operator of a floor division. -/
def Node.IsSlashes (n : Node) : Prop :=
  n.kind = .token .doubleSlash ∨ n.kind = .token .doubleSlashAssign

/-- Operators of floor divisions stand in constructs only. -/
theorem Derives.construct_of_slashes {symbols : List Symbol} {f : Forest}
    {next : Ahead} (h : Derives symbols f next) (hquiet : ∀ s ∈ symbols, s.Quiet)
    {ws vs : List Word} (hamong : Word.Among t ws f.words vs)
    (hdivision : options.floorDivision) (hcompound : options.compoundFloorDivision)
    (parent : Node) (previous : Option Node) (made lastEnd : Nat) :
    ∀ v ∈ visitsOfAll parent previous (f.nodes made lastEnd), v.node.IsSlashes →
      ∃ u ∈ visitsOfAll parent previous (f.nodes made lastEnd),
        (Construct.of? options u.node).isSome := by
  induction h generalizing ws vs parent previous made lastEnd with
  | nil => simp [Forest.nodes, visitsOfAll]
  | @leaf kind fits passed w later symbols _ _ _ _ _ ih =>
      simp only [List.mem_cons, forall_eq_or_imp] at hquiet
      intro v hv hslashes
      simp only [Forest.nodes, visitsOfAll, Node.visits, List.cons_append, List.nil_append,
        List.mem_cons] at hv ⊢
      obtain rfl | hv := hv
      · exact absurd hslashes (not_or.mpr hquiet.1)
      · obtain ⟨u, hu, hsome⟩ := ih hquiet.2 hamong.tail parent _ _ _ v hv hslashes
        exact ⟨u, .inr hu, hsome⟩
  | @skip k passed w later _ _ _ _ _ ih =>
      simp only [List.mem_cons, forall_eq_or_imp] at hquiet
      exact ih hquiet.2 hamong.tail parent previous made w.stop
  | look _ _ ih =>
      simp only [List.mem_cons, forall_eq_or_imp] at hquiet
      exact ih hquiet.2 hamong parent previous made lastEnd
  | @flat n parts symbols f later next rule inside tail ihInside ih =>
      simp only [List.mem_cons, forall_eq_or_imp] at hquiet
      rw [Forest.words_append] at hamong
      have hparts : ∀ s ∈ parts, s.Quiet := by
        obtain h | ⟨_, _, h, -⟩ | ⟨h, -⟩ := rule.quiet
        · exact h
        · cases h
        · cases h
      rw [Forest.nodes_append]
      obtain ⟨last, happend⟩ := visitsOfAll_append parent previous (f.nodes made lastEnd)
        (later.nodes (made + f.count) (f.endFrom lastEnd))
      simp only [happend, List.mem_append]
      rintro v (hv | hv) hslashes
      · obtain ⟨u, hu, hsome⟩ := ihInside hparts hamong.left _ _ _ _ v hv hslashes
        exact ⟨u, .inl hu, hsome⟩
      · obtain ⟨u, hu, hsome⟩ := ih hquiet.2 hamong.right _ _ _ _ v hv hslashes
        exact ⟨u, .inr hu, hsome⟩
  | @node n kind parts symbols inner later next rule inside tail ihInside ih =>
      simp only [List.mem_cons, forall_eq_or_imp] at hquiet
      rw [Forest.words] at hamong
      intro v hv hslashes
      simp only [Forest.nodes, visitsOfAll, List.mem_append] at hv ⊢
      generalize hn : Node.around (made + inner.count) kind (Forest.emptyPlace kind lastEnd)
        (inner.nodes made lastEnd) = n at hv
      have hkind : n.kind = kind ∧ n.children = inner.nodes made lastEnd := by
        rw [← hn]
        exact ⟨rfl, rfl⟩
      have hvisits : n.visits (some parent) previous = ⟨n, some parent, previous⟩ ::
          visitsOfAll n none (inner.nodes made lastEnd) := by
        rw [← hn]
        rfl
      rw [hvisits] at hv ⊢
      obtain hv | hv := hv
      · obtain hparts | ⟨limit, right, hbinary, rfl⟩ | ⟨hassign, rfl⟩ := rule.quiet
        · rw [List.mem_cons] at hv
          obtain rfl | hv := hv
          · simp only [Node.IsSlashes, hkind.1] at hslashes
            rcases hslashes with rfl | rfl <;> cases rule
          · obtain ⟨u, hu, hsome⟩ := ihInside hparts hamong.left _ _ _ _ v hv hslashes
            exact ⟨u, .inl (List.mem_cons_of_mem _ hu), hsome⟩
        · refine ⟨⟨n, some parent, previous⟩, .inl (List.mem_cons_self ..), ?_⟩
          have hoperator := operator?_between inside rfl rfl hamong.left hkind.2
          have hkind := hkind.1.trans (Option.some.inj hbinary)
          simp [Construct.of?, hkind, hoperator, hdivision]
        · refine ⟨⟨n, some parent, previous⟩, .inl (List.mem_cons_self ..), ?_⟩
          have hoperator := operator?_between inside rfl rfl hamong.left hkind.2
          have hkind := hkind.1.trans (Option.some.inj hassign)
          simp [Construct.of?, hkind, hoperator, hcompound]
      · obtain ⟨u, hu, hsome⟩ := ih hquiet.2 hamong.right _ _ _ _ v hv hslashes
        exact ⟨u, .inr hu, hsome⟩

/-! ### What is left -/

/-- A tree without constructs. -/
def SyntaxTree.IsLowered (t : SyntaxTree) (options : LoweringOptions) : Prop :=
  ∀ v ∈ t.visits, Construct.of? options v.node = none

/-- A source that parses and that a pass gives back holds no construct. -/
theorem isLowered_of_fixed {source : Text} (hparse : parse source = .ok t) (herrors : t.errors = [])
    (hfixed : t.lowerOnce options = .ok (.produced source)) : t.IsLowered options := by
  obtain ⟨inner, gap, hparsed⟩ := parse_parsed hparse herrors
  obtain ⟨grafts, spliced, hlaid⟩ := hparsed.laid options
  have hnone : t.sites options = [] := by
    have hpass := (hparsed.source_eq ▸ hlaid).pass herrors
    rw [hpass, Except.ok.injEq, Outcome.produced.injEq] at hfixed
    exact hlaid.nil_of_eq hfixed
  intro v hv
  cases hc : Construct.of? options v.node with
  | none => rfl
  | some c =>
      have hsome : (Construct.of? options v.node).isSome := by simp [hc]
      obtain ⟨site, hsite, -⟩ := hparsed.sites_cover v hv hsome
      simp [hnone] at hsite

/-- In a tree without constructs of any form there is none of their tokens. -/
theorem SyntaxTree.IsLowered.noSlashes {source : Text} (hparse : parse source = .ok t)
    (herrors : t.errors = []) (hdivision : options.floorDivision)
    (hcompound : options.compoundFloorDivision) (h : t.IsLowered options) :
    ∀ v ∈ t.visits, ¬v.node.IsSlashes := by
  obtain ⟨inner, gap, hparsed⟩ := parse_parsed hparse herrors
  have hroot : t.visits = ⟨t.root, t.rootVisit.parent, t.rootVisit.previous⟩ ::
      visitsOfAll t.root none (inner.nodes 0 0) := by
    rw [SyntaxTree.visits, hparsed.root_eq]
    rfl
  intro v hv hslashes
  have hv' := hv
  rw [hroot, List.mem_cons] at hv'
  obtain rfl | hv' := hv'
  · rw [hparsed.root_eq] at hslashes
    simp [Node.IsSlashes, Node.around] at hslashes
  · obtain ⟨u, hu, hsome⟩ := hparsed.derives.construct_of_slashes (by simp [Symbol.Quiet])
      hparsed.among hdivision hcompound _ _ _ _ v hv' hslashes
    rw [h u (by rw [hroot]; exact List.mem_cons_of_mem _ hu)] at hsome
    cases hsome

/-- What one more pass over a text leads to. -/
theorem lowerFrom_succ_iff {left made : Nat} {code : Text}
    {result : Except LoweringError Outcome} :
    lowerFrom options (left + 1) made code = .ok result ↔ ∃ t, parse code = .ok t ∧
      ((∃ error more, t.errors = error :: more ∧ made = 0 ∧
          result = .ok (.untouched .parseError code)) ∨
        (∃ error more, t.errors = error :: more ∧ made ≠ 0 ∧
          result = .error (.unparsable made error code)) ∨
        (t.errors = [] ∧ t.lowerOnce options = .ok (.produced code) ∧
          result = .ok (.produced code)) ∨
        ∃ next, t.errors = [] ∧ t.lowerOnce options = .ok (.produced next) ∧ next ≠ code ∧
          lowerFrom options left (made + 1) next = .ok result) := by
  rw [lowerFrom]
  cases hparse : parse code with
  | error cause => simp [bind, Except.bind]
  | ok t =>
      simp only [bind, Except.bind, Except.ok.injEq, exists_eq_left']
      cases herrors : t.errors with
      | cons error more =>
          by_cases hmade : made = 0
          · simp [hmade, pure, Except.pure, eq_comm]
          · simp [hmade, pure, Except.pure, eq_comm]
      | nil =>
          obtain ⟨-, grafts, spliced, hpass⟩ := exists_spliced options hparse herrors
          by_cases hfixed : spliced.withSingleTrailingNewline = code
          · simp [hpass.byMarks, hfixed, Outcome.text, pure, Except.pure, eq_comm]
          · simp [hpass.byMarks, hfixed, Outcome.text]

/-- The passes that are left end in a text that parses and that a pass gives
back. -/
theorem lowerFrom_fixed {left made : Nat} {code text : Text}
    (h : lowerFrom options left made code = .ok (.ok (.produced text))) :
    ∃ t, parse text = .ok t ∧ t.errors = [] ∧ t.lowerOnce options = .ok (.produced text) := by
  induction left generalizing made code with
  | zero => simp [lowerFrom] at h
  | succ left ih =>
      obtain ⟨t, hparse, ⟨_, _, -, -, hresult⟩ | ⟨_, _, -, -, hresult⟩ |
        ⟨herrors, hpass, hresult⟩ | ⟨next, -, -, -, hlater⟩⟩ := lowerFrom_succ_iff.mp h
      · cases hresult
      · cases hresult
      · cases hresult
        exact ⟨t, hparse, herrors, hpass⟩
      · exact ih hlater

/-- The passes that are left end in a text that parses and holds no construct. -/
theorem lowerFrom_isLowered {left made : Nat} {code text : Text}
    (h : lowerFrom options left made code = .ok (.ok (.produced text))) :
    ∃ t, parse text = .ok t ∧ t.errors = [] ∧ t.IsLowered options := by
  obtain ⟨t, hparse, herrors, hfixed⟩ := lowerFrom_fixed h
  exact ⟨t, hparse, herrors, isLowered_of_fixed hparse herrors hfixed⟩

/-- Lowering to the end leaves no construct. -/
theorem lower_isLowered {source text : Text}
    (h : lower source options = .ok (.ok (.produced text))) :
    ∃ t, parse text = .ok t ∧ t.errors = [] ∧ t.IsLowered options ∧
      (options.conditionals → options.floorDivision → options.compoundFloorDivision →
        ∀ v ∈ t.visits, ¬v.node.isToken .doubleSlash ∧ ¬v.node.isToken .doubleSlashAssign ∧
          v.node.kind ≠ .expr .conditional) := by
  obtain ⟨t, hparse, herrors, hlowered⟩ := lowerFrom_isLowered h
  refine ⟨t, hparse, herrors, hlowered, fun hconditionals hdivision hcompound v hv => ?_⟩
  have hslashes := hlowered.noSlashes hparse herrors hdivision hcompound v hv
  simp only [Node.IsSlashes, not_or] at hslashes
  refine ⟨by simpa [Node.isToken] using hslashes.1, by simpa [Node.isToken] using hslashes.2, ?_⟩
  intro hkind
  have hnone := hlowered v hv
  simp [Construct.of?, hkind, hconditionals] at hnone

/-- A test for the text that lowering produces. -/
theorem lower_eq_of_test {source : Text} {outcome : Outcome}
    (h : (lower source options).toOption.bind Except.toOption = some outcome) :
    lower source options = .ok (.ok outcome) := by
  cases hlower : lower source options with
  | error => simp [hlower, Except.toOption] at h
  | ok result => cases result <;> simp_all [Except.toOption]

/-- A floor division in a conditional is lowered by the second pass. -/
theorem lower_isLowered_nested :
    lower "x = if a then b // c else d".toList .standard = .ok (.ok (.produced
        ("x = (function() if a then return math.floor(b/c) else return d end end)()".toList ++
          ['\n']))) ∧
      ∃ t, parse ("x = (function() if a then return math.floor(b/c) else return d end end)()".toList
          ++ ['\n']) = .ok t ∧ t.errors = [] ∧ t.IsLowered .standard := by
  have hlower : lower "x = if a then b // c else d".toList .standard = .ok (.ok (.produced
      ("x = (function() if a then return math.floor(b/c) else return d end end)()".toList ++
        ['\n']))) :=
    lower_eq_of_test (by decide +kernel)
  obtain ⟨t, hparse, herrors, hlowered, -⟩ := lower_isLowered hlower
  exact ⟨hlower, t, hparse, herrors, hlowered⟩

end LuauTidy
