import LuauTidy.Proofs.Locality
import LuauTidy.Proofs.Stability

/-!
# Convergence

Constructs stand within constructs, and a pass lowers the outermost ones.  So it
should leave one level less to the next pass, and a source should be lowered
after as many passes as it has levels, with one more pass to see that nothing is
left.  That is so for every source on whose way each pass leaves a level less.

Not every pass does.  A lowered conditional goes on behind its condition, and a
condition that ends in a conditional without parentheses takes in what follows:
its alternative now holds the alternative of the conditional around it, with all
the levels of the latter.

* `Node.nesting` — the number of levels;
* `LowersNesting`, `ConvergesInDepth` — what a pass and what lowering should do;
* `Way`, `convergesInDepth_of_way` — the one follows from the other;
* `not_lowersNesting_openCondition`, `not_convergesInDepth_openCondition` — a
  source for which neither holds.
-/

namespace LuauTidy

variable {options : LoweringOptions} {source code text : Text} {t : SyntaxTree}

/-! ### Levels -/

mutual

/-- The largest number of constructs on a way down from a node. -/
def Node.nesting (options : LoweringOptions) : Node → Nat
  | n@⟨_, _, _, _, children⟩ =>
    nestingAmong options children + if (Construct.of? options n).isSome then 1 else 0

/-- The largest number of constructs on a way down from one of some siblings. -/
def nestingAmong (options : LoweringOptions) : List Node → Nat
  | [] => 0
  | n :: rest => max (n.nesting options) (nestingAmong options rest)

end

/-- The number of levels of constructs in a tree. -/
def SyntaxTree.nesting (t : SyntaxTree) (options : LoweringOptions) : Nat := t.root.nesting options

theorem nestingAmong_le_iff {nodes : List Node} {bound : Nat} :
    nestingAmong options nodes ≤ bound ↔ ∀ n ∈ nodes, n.nesting options ≤ bound := by
  induction nodes with
  | nil => simp [nestingAmong]
  | cons n nodes ih => simp [nestingAmong, ih]

theorem Node.nesting_eq (n : Node) : n.nesting options =
    nestingAmong options n.children + if (Construct.of? options n).isSome then 1 else 0 := by
  cases n
  rfl

/-- A way down from a node, with the number of constructs on it. -/
inductive Node.Descends (options : LoweringOptions) : Node → Nat → Prop
  | here (n : Node) : Node.Descends options n (if (Construct.of? options n).isSome then 1 else 0)
  | child {n c : Node} {levels : Nat} (mem : c ∈ n.children) (down : Node.Descends options c levels) :
      Node.Descends options n (levels + if (Construct.of? options n).isSome then 1 else 0)

/-- No way down has more constructs than there are levels. -/
theorem Node.Descends.le_nesting {n : Node} {levels : Nat} (h : Node.Descends options n levels) :
    levels ≤ n.nesting options := by
  induction h with
  | here n =>
      rw [Node.nesting_eq]
      exact Nat.le_add_left _ _
  | @child n c levels mem _ ih =>
      have hall := nestingAmong_le_iff.mp (Nat.le_refl (nestingAmong options n.children)) c mem
      rw [Node.nesting_eq]
      omega

mutual

/-- Some way down has as many constructs as there are levels. -/
theorem Node.exists_descends (n : Node) : Node.Descends options n (n.nesting options) := by
  cases n with
  | mk id kind start stop children =>
      obtain hnone | ⟨c, hc, hdown⟩ := exists_descendsAmong children
      · rw [Node.nesting_eq, hnone, Nat.zero_add]
        exact .here _
      · rw [Node.nesting_eq]
        exact .child hc hdown

theorem exists_descendsAmong (nodes : List Node) : nestingAmong options nodes = 0 ∨
    ∃ c ∈ nodes, Node.Descends options c (nestingAmong options nodes) := by
  cases nodes with
  | nil => exact .inl rfl
  | cons n nodes =>
      right
      by_cases hle : nestingAmong options nodes ≤ n.nesting options
      · refine ⟨n, List.mem_cons_self, ?_⟩
        rw [nestingAmong, Nat.max_eq_left hle]
        exact Node.exists_descends n
      · obtain hnone | ⟨c, hc, hdown⟩ := exists_descendsAmong nodes
        · omega
        · refine ⟨c, List.mem_cons_of_mem n hc, ?_⟩
          rw [nestingAmong, Nat.max_eq_right (by omega)]
          exact hdown

end

mutual

/-- Without levels there is nothing to lower. -/
theorem Node.sites_of_nesting (n : Node) (parent : Option Kind) (h : n.nesting options = 0) :
    n.sites options parent = [] := by
  cases n with
  | mk id kind start stop children =>
      rw [Node.nesting_eq, Nat.add_eq_zero_iff] at h
      cases hconstruct : Construct.of? options ⟨id, kind, start, stop, children⟩ with
      | some c => simp [hconstruct] at h
      | none =>
          rw [Node.sites, hconstruct]
          exact sitesAmong_of_nesting children _ h.1

theorem sitesAmong_of_nesting (nodes : List Node) (parent : Option Kind)
    (h : nestingAmong options nodes = 0) : sitesAmong options parent nodes = [] := by
  cases nodes with
  | nil => rfl
  | cons n nodes =>
      rw [nestingAmong, Nat.max_eq_zero_iff] at h
      rw [sitesAmong, Node.sites_of_nesting n parent h.1, sitesAmong_of_nesting nodes parent h.2]
      rfl

end

/-! ### Passes -/

/-- The end of a text is normal once it was made so. -/
theorem Text.withSingleTrailingNewline_idem (t : Text) :
    t.withSingleTrailingNewline.withSingleTrailingNewline = t.withSingleTrailingNewline := by
  unfold withSingleTrailingNewline
  rw [List.reverse_append, List.reverse_reverse, List.reverse_singleton, List.singleton_append,
    List.dropWhile_cons_of_pos rfl, List.dropWhile_idempotent]

/-- A pass over a tree without levels only makes the end of the source normal. -/
theorem lowerOnce_of_nesting (hparse : parse source = .ok t) (herrors : t.errors = [])
    (h : t.nesting options = 0) :
    t.lowerOnce options = .ok (.produced source.withSingleTrailingNewline) := by
  have hsites : t.sites options = [] := Node.sites_of_nesting t.root _ h
  obtain ⟨hsource, -⟩ := exists_spliced options hparse herrors
  rw [SyntaxTree.lowerOnce, if_neg (by simp [SyntaxTree.hasError, herrors]), hsites, ← hsource]
  simp [Draft.holdSites, SyntaxTree.releaseSites, bind, Except.bind, pure, Except.pure]

/-- A pass over a text leaves a level less, if its outcome parses. -/
def LowersNesting (options : LoweringOptions) (code : Text) : Prop :=
  ∀ t text t', parse code = .ok t → t.errors = [] → 1 ≤ t.nesting options →
    t.lowerOnce options = .ok (.produced text) → parse text = .ok t' → t'.errors = [] →
    t'.nesting options < t.nesting options

/-- The texts on the way of lowering a source. -/
inductive Way (options : LoweringOptions) (source : Text) : Text → Prop
  | start : Way options source source
  | pass {code text : Text} {t : SyntaxTree} (before : Way options source code)
      (parsed : parse code = .ok t) (errors : t.errors = [])
      (pass : t.lowerOnce options = .ok (.produced text)) : Way options source text

/-- A source with levels is lowered within one pass more than it has levels. -/
def ConvergesInDepth (options : LoweringOptions) (source : Text) : Prop :=
  ∀ t, parse source = .ok t → t.errors = [] → 1 ≤ t.nesting options →
    ∀ passes, lower source (options.withLimit (t.nesting options + 1)) ≠
      .ok (.error (.noFixpoint passes))

/-! ### Runs -/

/-- Once the end of a text is normal, a run from it looks at no more than one text
a level and one more. -/
theorem exists_run_of_way (hway : ∀ code, Way options source code → LowersNesting options code)
    (made : Nat) {levels : Nat} (hcode : Way options source code)
    (hend : code.withSingleTrailingNewline = code)
    (hlevels : ∀ t, parse code = .ok t → t.errors = [] → t.nesting options ≤ levels) :
    ∃ looks result, looks ≤ levels + 1 ∧ Run options (made + 1) code looks result := by
  induction levels generalizing code made with
  | zero =>
      obtain ⟨t, hparse, -⟩ := exists_assembled code
      cases herrors : t.errors with
      | cons error more => exact ⟨1, _, Nat.le_refl _, .unparsable (by simp) hparse herrors⟩
      | nil =>
          have hnone : t.nesting options = 0 := Nat.le_zero.mp (hlevels t hparse herrors)
          have hpass := lowerOnce_of_nesting hparse herrors hnone
          exact ⟨1, _, Nat.le_refl _, .fixed hparse herrors (.byMarks hpass) hend⟩
  | succ levels ih =>
      obtain ⟨t, hparse, -⟩ := exists_assembled code
      cases herrors : t.errors with
      | cons error more => exact ⟨1, _, by omega, .unparsable (by simp) hparse herrors⟩
      | nil =>
          obtain ⟨-, _, spliced, hpass⟩ := exists_spliced options hparse herrors
          have hgives := SyntaxTree.Gives.byMarks hpass.byMarks
          by_cases hsame : spliced.withSingleTrailingNewline = code
          · exact ⟨1, _, by omega, .fixed hparse herrors hgives hsame⟩
          · have hnext : Way options source spliced.withSingleTrailingNewline :=
              hcode.pass hparse herrors hpass.byMarks
            have hless : ∀ t', parse spliced.withSingleTrailingNewline = .ok t' → t'.errors = [] →
                t'.nesting options ≤ levels := by
              intro t' hparse' herrors'
              by_cases hnone : t.nesting options = 0
              · -- a text in normal form without levels is given back
                have hback := lowerOnce_of_nesting hparse herrors hnone
                rw [hpass.byMarks, hend, Except.ok.injEq, Outcome.produced.injEq] at hback
                exact absurd hback hsame
              · have hdrop := hway code hcode t _ t' hparse herrors (Nat.pos_of_ne_zero hnone)
                  hpass.byMarks hparse' herrors'
                have hbound := hlevels t hparse herrors
                omega
            obtain ⟨looks, result, hlooks, hrun⟩ := ih (made + 1) hnext
              (Text.withSingleTrailingNewline_idem spliced) hless
            exact ⟨looks + 1, result, by omega, .next hparse herrors hgives hsame hrun⟩

/-- If every pass on the way of a source leaves a level less, the source is
lowered within one pass more than it has levels. -/
theorem convergesInDepth_of_way
    (hway : ∀ code, Way options source code → LowersNesting options code) :
    ConvergesInDepth options source := by
  intro t hparse herrors hnested passes hnone
  obtain ⟨-, _, spliced, hpass⟩ := exists_spliced options hparse herrors
  have hgives := SyntaxTree.Gives.byMarks hpass.byMarks
  have hrun : ∃ looks result, looks ≤ t.nesting options + 1 ∧
      Run options 0 source looks result := by
    by_cases hsame : spliced.withSingleTrailingNewline = source
    · exact ⟨1, _, Nat.le_add_left _ _, .fixed hparse herrors hgives hsame⟩
    · have hless : ∀ t', parse spliced.withSingleTrailingNewline = .ok t' → t'.errors = [] →
          t'.nesting options ≤ t.nesting options - 1 := by
        intro t' hparse' herrors'
        have hdrop := hway source .start t _ t' hparse herrors hnested hpass.byMarks hparse' herrors'
        omega
      obtain ⟨looks, result, hlooks, hlater⟩ := exists_run_of_way hway 0
        (Way.start.pass hparse herrors hpass.byMarks)
        (Text.withSingleTrailingNewline_idem spliced) hless
      exact ⟨looks + 1, result, by omega, .next hparse herrors hgives hsame hlater⟩
  obtain ⟨looks, result, hle, hrun⟩ := hrun
  have hlower : lower source (options.withLimit (t.nesting options + 1)) = .ok result :=
    lower_eq_iff.mpr (.inl ⟨looks, hle, hrun⟩)
  rw [hnone, Except.ok.injEq] at hlower
  exact hrun.ne_noFixpoint hlower.symm

/-! ### A condition that ends in a conditional -/

/-- The conditional in the condition takes in the alternative, which has a level
of its own. -/
theorem not_lowersNesting_openCondition : ¬LowersNesting .standard
    "x = if not if a then 1 else 2 then 3 else if b then 4 else 5".toList := by
  intro h
  have htext : ∃ t ∈ tree? "x = if not if a then 1 else 2 then 3 else if b then 4 else 5".toList,
      ∃ text ∈ t.lowered? .standard, ∃ t' ∈ tree? text,
        t.nesting .standard = 2 ∧ t'.nesting .standard = 2 := by
    decide +kernel
  obtain ⟨t, ht, text, htext, t', ht', htwo, htwo'⟩ := htext
  obtain ⟨hparse, herrors⟩ := tree?_eq_some.mp ht
  obtain ⟨hparse', herrors'⟩ := tree?_eq_some.mp ht'
  have hless := h t text t' hparse herrors (by omega) (SyntaxTree.lowered?_eq_some.mp htext)
    hparse' herrors'
  omega

/-- Three passes do not lower the two levels. -/
theorem not_convergesInDepth_openCondition : ¬ConvergesInDepth .standard
    "x = if not if a then 1 else 2 then 3 else if b then 4 else 5".toList := by
  intro h
  have htwo : ∃ t ∈ tree? "x = if not if a then 1 else 2 then 3 else if b then 4 else 5".toList,
      t.nesting .standard = 2 := by
    decide +kernel
  have hlower : lower "x = if not if a then 1 else 2 then 3 else if b then 4 else 5".toList
      (LoweringOptions.standard.withLimit 3) = .ok (.error (.noFixpoint 3)) := by
    decide +kernel
  obtain ⟨t, ht, hnesting⟩ := htwo
  obtain ⟨hparse, herrors⟩ := tree?_eq_some.mp ht
  apply h t hparse herrors (by omega) 3
  rw [hnesting]
  exact hlower

end LuauTidy
