import LuauTidy.Lowering.Filler
import LuauTidy.Proofs.Assembled
import LuauTidy.Proofs.Fixpoints

/-!
# Stability

A run of passes ends for one of three reasons: its source does not parse, a
later text does not parse, or a pass gives back its text.  None of them depends
on how many passes are allowed, nor on the fillers that passes draw.  So the
limit only cuts a run off, and a text in which a run ended is where a run over
that text ends at once.

* `SyntaxTree.Gives` — the outcomes of a pass, whatever fillers it draws;
* `Run` — passes without a limit, and how many texts are looked at;
* `lower_eq_iff` — a limited run is a run that ends soon enough or is cut off;
* `lower_stable` — what a text and a limit change.
-/

namespace LuauTidy

variable {t : SyntaxTree} {options : LoweringOptions}

/-! ### Passes -/

/-- A pass over a tree gives an outcome, by marks or by some fillers that are
free for its sites. -/
inductive SyntaxTree.Gives (t : SyntaxTree) (options : LoweringOptions) (outcome : Outcome) : Prop
  | byMarks (pass : t.lowerOnce options = .ok outcome)
  | byFillers (fillers : List Text) (length : fillers.length = (t.sites options).length)
      (free : Filler.areFree t.source [] ((t.sites options).zip fillers))
      (pass : t.lowerOnceWith options fillers = .ok outcome)

/-- The fillers of a pass have no part in its outcome. -/
theorem SyntaxTree.gives_iff {code : Text} {outcome : Outcome} (hparse : parse code = .ok t)
    (herrors : t.errors = []) : t.Gives options outcome ↔ t.lowerOnce options = .ok outcome := by
  constructor
  · intro h
    obtain ⟨-, grafts, spliced, hpass⟩ := exists_spliced options hparse herrors
    cases h with
    | byMarks pass => exact pass
    | byFillers fillers length free pass =>
        rw [hpass.byFillers fillers length free] at pass
        rw [hpass.byMarks, pass]
  · exact .byMarks

/-- The choices with another limit. -/
def LoweringOptions.withLimit (options : LoweringOptions) (limit : Nat) : LoweringOptions :=
  { options with maxPasses := limit }

theorem Construct.of?_withLimit (limit : Nat) (n : Node) :
    Construct.of? (options.withLimit limit) n = Construct.of? options n :=
  rfl

mutual

theorem Node.sites_withLimit (limit : Nat) (parent : Option Kind) (n : Node) :
    n.sites (options.withLimit limit) parent = n.sites options parent := by
  cases n with
  | mk id kind start stop children =>
      rw [Node.sites, Node.sites, Construct.of?_withLimit,
        sitesAmong_withLimit limit (some kind) children]

theorem sitesAmong_withLimit (limit : Nat) (parent : Option Kind) (nodes : List Node) :
    sitesAmong (options.withLimit limit) parent nodes = sitesAmong options parent nodes := by
  cases nodes with
  | nil => rfl
  | cons n rest =>
      rw [sitesAmong, sitesAmong, Node.sites_withLimit limit parent n,
        sitesAmong_withLimit limit parent rest]

end

/-- A pass does not know the limit. -/
theorem SyntaxTree.gives_withLimit {limit : Nat} {outcome : Outcome} :
    t.Gives (options.withLimit limit) outcome ↔ t.Gives options outcome := by
  have hsites : t.sites (options.withLimit limit) = t.sites options := Node.sites_withLimit ..
  have hmarks : t.lowerOnce (options.withLimit limit) = t.lowerOnce options := by
    rw [lowerOnce, lowerOnce, hsites]
  have hfillers : ∀ fillers,
      t.lowerOnceWith (options.withLimit limit) fillers = t.lowerOnceWith options fillers := by
    intro fillers
    rw [lowerOnceWith, lowerOnceWith, hsites]
  constructor
  · intro h
    cases h with
    | byMarks pass => exact .byMarks (hmarks ▸ pass)
    | byFillers fillers length free pass =>
        exact .byFillers fillers (hsites ▸ length) (hsites ▸ free) (hfillers fillers ▸ pass)
  · intro h
    cases h with
    | byMarks pass => exact .byMarks (hmarks ▸ pass)
    | byFillers fillers length free pass =>
        exact .byFillers fillers (hsites ▸ length) (hsites ▸ free) (hfillers fillers ▸ pass)

/-! ### Runs -/

/-- A run without a limit, in which so many passes were made before a text,
looks at so many texts and ends in a result. -/
inductive Run (options : LoweringOptions) :
    (made : Nat) → Text → (looks : Nat) → Except LoweringError Outcome → Prop
  | untouched {code : Text} {t : SyntaxTree} {error : SyntaxError} {more : List SyntaxError}
      (parsed : parse code = .ok t) (errors : t.errors = error :: more) :
      Run options 0 code 1 (.ok (.untouched .parseError code))
  | unparsable {made : Nat} {code : Text} {t : SyntaxTree} {error : SyntaxError}
      {more : List SyntaxError} (later : made ≠ 0) (parsed : parse code = .ok t)
      (errors : t.errors = error :: more) :
      Run options made code 1 (.error (.unparsable made error code))
  | fixed {made : Nat} {code : Text} {t : SyntaxTree} {outcome : Outcome}
      (parsed : parse code = .ok t) (errors : t.errors = []) (pass : t.Gives options outcome)
      (same : outcome.text = code) : Run options made code 1 (.ok (.produced code))
  | next {made looks : Nat} {code : Text} {t : SyntaxTree} {outcome : Outcome}
      {result : Except LoweringError Outcome} (parsed : parse code = .ok t)
      (errors : t.errors = []) (pass : t.Gives options outcome) (differs : outcome.text ≠ code)
      (later : Run options (made + 1) outcome.text looks result) :
      Run options made code (looks + 1) result

/-- Whatever fillers are drawn, a run looks at the same texts and ends in the
same result. -/
theorem Run.unique {made looks looks' : Nat} {code : Text}
    {result result' : Except LoweringError Outcome} (h : Run options made code looks result)
    (h' : Run options made code looks' result') : looks = looks' ∧ result = result' := by
  have hsame : ∀ {code : Text} {t u : SyntaxTree}, parse code = .ok t → parse code = .ok u →
      t = u := by
    intro code t u ht hu
    exact Except.ok.inj (ht.symm.trans hu)
  have hpass : ∀ {code : Text} {t : SyntaxTree} {outcome outcome' : Outcome},
      parse code = .ok t → t.errors = [] → t.Gives options outcome → t.Gives options outcome' →
        outcome = outcome' := by
    intro code t outcome outcome' hparse herrors hgives hgives'
    rw [SyntaxTree.gives_iff hparse herrors] at hgives hgives'
    exact Except.ok.inj (hgives.symm.trans hgives')
  induction h generalizing looks' result' with
  | untouched parsed errors =>
      cases h' with
      | untouched => exact ⟨rfl, rfl⟩
      | unparsable later => exact absurd rfl later
      | fixed parsed' errors' => simp [hsame parsed parsed', errors'] at errors
      | next parsed' errors' => simp [hsame parsed parsed', errors'] at errors
  | unparsable later parsed errors =>
      cases h' with
      | untouched => exact absurd rfl later
      | unparsable _ parsed' errors' =>
          rw [hsame parsed parsed', errors'] at errors
          cases errors
          exact ⟨rfl, rfl⟩
      | fixed parsed' errors' => simp [hsame parsed parsed', errors'] at errors
      | next parsed' errors' => simp [hsame parsed parsed', errors'] at errors
  | fixed parsed errors pass same =>
      cases h' with
      | untouched parsed' errors' => simp [hsame parsed' parsed, errors] at errors'
      | unparsable _ parsed' errors' => simp [hsame parsed' parsed, errors] at errors'
      | fixed => exact ⟨rfl, rfl⟩
      | next parsed' errors' pass' differs =>
          obtain rfl := hsame parsed parsed'
          exact absurd (hpass parsed errors pass pass' ▸ same) differs
  | next parsed errors pass differs later ih =>
      cases h' with
      | untouched parsed' errors' => simp [hsame parsed' parsed, errors] at errors'
      | unparsable _ parsed' errors' => simp [hsame parsed' parsed, errors] at errors'
      | fixed parsed' errors' pass' same =>
          obtain rfl := hsame parsed parsed'
          exact absurd (hpass parsed errors pass pass' ▸ same) differs
      | next parsed' errors' pass' differs' later' =>
          obtain rfl := hsame parsed parsed'
          obtain rfl := hpass parsed errors pass pass'
          obtain ⟨rfl, rfl⟩ := ih later'
          exact ⟨rfl, rfl⟩

/-- A run looks at its text. -/
theorem Run.looks_pos {made looks : Nat} {code : Text} {result : Except LoweringError Outcome}
    (h : Run options made code looks result) : 0 < looks := by
  cases h <;> exact Nat.succ_pos _

/-- A run knows no limit, so it does not fail for one. -/
theorem Run.ne_noFixpoint {made looks passes : Nat} {code : Text}
    {result : Except LoweringError Outcome} (h : Run options made code looks result) :
    result ≠ .error (.noFixpoint passes) := by
  induction h with
  | next _ _ _ _ _ ih => exact ih
  | _ => simp

theorem Run.withLimit {made looks limit : Nat} {code : Text}
    {result : Except LoweringError Outcome} :
    Run (options.withLimit limit) made code looks result ↔ Run options made code looks result := by
  constructor
  · intro h
    induction h with
    | untouched parsed errors => exact .untouched parsed errors
    | unparsable later parsed errors => exact .unparsable later parsed errors
    | fixed parsed errors pass same =>
        exact .fixed parsed errors (SyntaxTree.gives_withLimit.mp pass) same
    | next parsed errors pass differs _ ih =>
        exact .next parsed errors (SyntaxTree.gives_withLimit.mp pass) differs ih
  · intro h
    induction h with
    | untouched parsed errors => exact .untouched parsed errors
    | unparsable later parsed errors => exact .unparsable later parsed errors
    | fixed parsed errors pass same =>
        exact .fixed parsed errors (SyntaxTree.gives_withLimit.mpr pass) same
    | next parsed errors pass differs _ ih =>
        exact .next parsed errors (SyntaxTree.gives_withLimit.mpr pass) differs ih

/-! ### The limit -/

/-- A run that ends within the passes that are left is made to its end. -/
theorem Run.lowerFrom_eq {left made looks : Nat} {code : Text}
    {result : Except LoweringError Outcome} (h : Run options made code looks result)
    (hle : looks ≤ left) : lowerFrom options left made code = .ok result := by
  induction h generalizing left with
  | @untouched code t error more parsed errors =>
      obtain ⟨left, rfl⟩ := Nat.exists_eq_add_of_le' hle
      exact lowerFrom_succ_iff.mpr ⟨t, parsed, .inl ⟨error, more, errors, rfl, rfl⟩⟩
  | @unparsable made code t error more later parsed errors =>
      obtain ⟨left, rfl⟩ := Nat.exists_eq_add_of_le' hle
      exact lowerFrom_succ_iff.mpr ⟨t, parsed, .inr (.inl ⟨error, more, errors, later, rfl⟩)⟩
  | @fixed made code t outcome parsed errors pass same =>
      obtain ⟨left, rfl⟩ := Nat.exists_eq_add_of_le' hle
      have hpass := (SyntaxTree.gives_iff parsed errors).mp pass
      obtain ⟨-, _, _, hspliced⟩ := exists_spliced options parsed errors
      obtain rfl : outcome = _ := Except.ok.inj (hpass.symm.trans hspliced.byMarks)
      rw [Outcome.text] at same
      rw [same] at hpass
      exact lowerFrom_succ_iff.mpr ⟨t, parsed, .inr (.inr (.inl ⟨errors, hpass, rfl⟩))⟩
  | @next made looks code t outcome result parsed errors pass differs later ih =>
      obtain ⟨left, rfl⟩ := Nat.exists_eq_add_of_le' (Nat.le_of_add_left_le hle)
      have hpass := (SyntaxTree.gives_iff parsed errors).mp pass
      obtain ⟨-, _, _, hspliced⟩ := exists_spliced options parsed errors
      obtain rfl : outcome = _ := Except.ok.inj (hpass.symm.trans hspliced.byMarks)
      have hlater := ih (Nat.le_of_succ_le_succ hle)
      exact lowerFrom_succ_iff.mpr
        ⟨t, parsed, .inr (.inr (.inr ⟨_, errors, hpass, differs, hlater⟩))⟩

/-- The passes that are left end in a result. -/
theorem lowerFrom_succeeds (options : LoweringOptions) (left made : Nat) (code : Text) :
    ∃ result, lowerFrom options left made code = .ok result := by
  induction left generalizing made code with
  | zero => exact ⟨_, rfl⟩
  | succ left ih =>
      obtain ⟨t, hparse, -⟩ := exists_assembled code
      cases herrors : t.errors with
      | cons error more =>
          by_cases hmade : made = 0
          · exact ⟨_, lowerFrom_succ_iff.mpr ⟨t, hparse, .inl ⟨error, more, herrors, hmade, rfl⟩⟩⟩
          · exact ⟨_, lowerFrom_succ_iff.mpr
              ⟨t, hparse, .inr (.inl ⟨error, more, herrors, hmade, rfl⟩)⟩⟩
      | nil =>
          obtain ⟨-, _, spliced, hpass⟩ := exists_spliced options hparse herrors
          by_cases hsame : spliced.withSingleTrailingNewline = code
          · exact ⟨_, lowerFrom_succ_iff.mpr ⟨t, hparse, .inr (.inr (.inl
              ⟨herrors, hsame ▸ hpass.byMarks, rfl⟩))⟩⟩
          · obtain ⟨result, hlater⟩ := ih (made + 1) spliced.withSingleTrailingNewline
            exact ⟨result, lowerFrom_succ_iff.mpr ⟨t, hparse, .inr (.inr (.inr
              ⟨_, herrors, hpass.byMarks, hsame, hlater⟩))⟩⟩

/-- The passes that are left make a run or are too few. -/
theorem exists_run_of_lowerFrom {left made : Nat} {code : Text}
    {result : Except LoweringError Outcome} (h : lowerFrom options left made code = .ok result) :
    (∃ looks ≤ left, Run options made code looks result) ∨
      result = .error (.noFixpoint options.maxPasses) := by
  induction left generalizing made code with
  | zero => exact .inr (Except.ok.inj h).symm
  | succ left ih =>
      obtain ⟨t, hparse, ⟨error, more, herrors, rfl, rfl⟩ | ⟨error, more, herrors, hmade, rfl⟩ |
        ⟨herrors, hpass, rfl⟩ | ⟨next, herrors, hpass, hdiffers, hlater⟩⟩ :=
          lowerFrom_succ_iff.mp h
      · exact .inl ⟨1, Nat.le_add_left 1 left, .untouched hparse herrors⟩
      · exact .inl ⟨1, Nat.le_add_left 1 left, .unparsable hmade hparse herrors⟩
      · exact .inl ⟨1, Nat.le_add_left 1 left, .fixed hparse herrors (.byMarks hpass) rfl⟩
      · obtain ⟨looks, hle, hrun⟩ | hnone := ih hlater
        · exact .inl ⟨looks + 1, Nat.succ_le_succ hle,
            .next hparse herrors (.byMarks hpass) hdiffers hrun⟩
        · exact .inr hnone

/-- The passes that are left end as the run does, or the run goes on. -/
theorem lowerFrom_eq_iff {left made : Nat} {code : Text} {result : Except LoweringError Outcome} :
    lowerFrom options left made code = .ok result ↔
      (∃ looks ≤ left, Run options made code looks result) ∨
        (result = .error (.noFixpoint options.maxPasses) ∧
          ∀ looks r, Run options made code looks r → left < looks) := by
  constructor
  · intro h
    obtain hrun | hnone := exists_run_of_lowerFrom h
    · exact .inl hrun
    · refine .inr ⟨hnone, ?_⟩
      intro looks r hrun
      by_contra hle
      have hsame := hrun.lowerFrom_eq (Nat.le_of_not_lt hle)
      rw [h, hnone] at hsame
      exact hrun.ne_noFixpoint (Except.ok.inj hsame).symm
  · rintro (⟨looks, hle, hrun⟩ | ⟨rfl, hmore⟩)
    · exact hrun.lowerFrom_eq hle
    · obtain ⟨result, h⟩ := lowerFrom_succeeds options left made code
      obtain ⟨looks, hle, hrun⟩ | hnone := exists_run_of_lowerFrom h
      · exact absurd hle (Nat.not_le_of_lt (hmore looks result hrun))
      · rw [h, hnone]

/-! ### Sources -/

/-- A run that ends well ends in a text over which a run ends at once. -/
theorem Run.again {made looks : Nat} {code : Text} {outcome : Outcome}
    (h : Run options made code looks (.ok outcome)) :
    Run options 0 outcome.text 1 (.ok outcome) := by
  generalize hresult : Except.ok outcome = result at h
  induction h with
  | untouched parsed errors =>
      cases hresult
      exact .untouched parsed errors
  | unparsable => cases hresult
  | fixed parsed errors pass same =>
      cases hresult
      exact .fixed parsed errors pass same
  | next _ _ _ _ _ ih => exact ih hresult

/-- A source lowered within a limit is a run that ends within it, or one that
is cut off. -/
theorem lower_eq_iff {source : Text} {limit : Nat} {result : Except LoweringError Outcome} :
    lower source (options.withLimit limit) = .ok result ↔
      (∃ looks ≤ limit, Run options 0 source looks result) ∨
        (result = .error (.noFixpoint limit) ∧
          ∀ looks r, Run options 0 source looks r → limit < looks) := by
  rw [lower, lowerFrom_eq_iff]
  simp only [Run.withLimit]
  rfl

/-- What lowering a source does not depend on. -/
structure Stable (source : Text) (options : LoweringOptions) : Prop where
  /-- The limit cuts off a run or lets it come to its end. -/
  limited : ∀ limit result, lower source (options.withLimit limit) = .ok result ↔
    (∃ looks ≤ limit, Run options 0 source looks result) ∨
      (result = .error (.noFixpoint limit) ∧
        ∀ looks r, Run options 0 source looks r → limit < looks)
  /-- There is one run, whatever fillers its passes draw. -/
  unique : ∀ looks looks' result result', Run options 0 source looks result →
    Run options 0 source looks' result' → looks = looks' ∧ result = result'
  /-- The text of an outcome has that outcome again, whatever fillers the
  second run draws. -/
  again : ∀ outcome, lower source options = .ok (.ok outcome) →
    lower outcome.text options = .ok (.ok outcome) ∧
      ∀ looks result, Run options 0 outcome.text looks result → result = .ok outcome
  /-- A result that is not for the limit is the result for every larger one. -/
  larger : ∀ limit result, options.maxPasses ≤ limit → lower source options = .ok result →
    (∀ passes, result ≠ .error (.noFixpoint passes)) →
      lower source (options.withLimit limit) = .ok result
  /-- Two limits give one result, if neither of them cuts the run off. -/
  uncapped : ∀ limit limit' result result', lower source (options.withLimit limit) = .ok result →
    lower source (options.withLimit limit') = .ok result' →
      result = .error (.noFixpoint limit) ∨ result' = .error (.noFixpoint limit') ∨
        result = result'

/-- Lowering is stable, for every source and all choices. -/
theorem lower_stable (source : Text) (options : LoweringOptions) : Stable source options where
  limited _ _ := lower_eq_iff
  unique _ _ _ _ h h' := h.unique h'
  again := by
    intro outcome h
    have hagain : Run options 0 outcome.text 1 (.ok outcome) := by
      obtain ⟨looks, -, hrun⟩ | ⟨hnone, -⟩ := lower_eq_iff.mp h
      · exact hrun.again
      · cases hnone
    have hlimit : 1 ≤ options.maxPasses := by
      obtain ⟨looks, hle, hrun⟩ | ⟨hnone, -⟩ := lower_eq_iff.mp h
      · exact Nat.le_trans hrun.looks_pos hle
      · cases hnone
    constructor
    · exact lower_eq_iff.mpr (.inl ⟨1, hlimit, hagain⟩)
    · intro looks result hrun
      exact (hrun.unique hagain).2
  larger := by
    intro limit result hle h hmade
    obtain ⟨looks, hlooks, hrun⟩ | ⟨hnone, -⟩ := lower_eq_iff.mp h
    · exact lower_eq_iff.mpr (.inl ⟨looks, Nat.le_trans hlooks hle, hrun⟩)
    · exact absurd hnone (hmade _)
  uncapped := by
    intro limit limit' result result' h h'
    obtain ⟨looks, -, hrun⟩ | ⟨hnone, -⟩ := lower_eq_iff.mp h
    · obtain ⟨looks', -, hrun'⟩ | ⟨hnone', -⟩ := lower_eq_iff.mp h'
      · exact .inr (.inr (hrun.unique hrun').2)
      · exact .inr (.inl hnone')
    · exact .inl hnone

/-- The lowered text of nested floor divisions is lowered to itself, and a larger
limit gives the same text. -/
theorem lower_stable_nested :
    lower "x = math.floor(math.floor(a/b)/c)\n".toList .standard =
        .ok (.ok (.produced "x = math.floor(math.floor(a/b)/c)\n".toList)) ∧
      lower "x = a // b // c".toList (LoweringOptions.standard.withLimit 100) =
        .ok (.ok (.produced "x = math.floor(math.floor(a/b)/c)\n".toList)) := by
  have hlower : lower "x = a // b // c".toList .standard =
      .ok (.ok (.produced "x = math.floor(math.floor(a/b)/c)\n".toList)) :=
    lower_eq_of_test (by decide +kernel)
  have hstable := lower_stable "x = a // b // c".toList .standard
  constructor
  · exact (hstable.again _ hlower).1
  · exact hstable.larger 100 _ (by decide) hlower (by simp)

end LuauTidy
