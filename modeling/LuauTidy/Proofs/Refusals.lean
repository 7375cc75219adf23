import LuauTidy.Proofs.Layouts
import LuauTidy.Proofs.Locality
import LuauTidy.Proofs.Stability

/-!
# Sources that are left as they are

The layout, a single pass and lowering to the end each leave a source that does
not parse as it is, byte for byte, and say that it does not parse.  They do so
for no other reason, a stray comment in the way of the layout apart.  The one
exception is a limit of no passes: lowering looks at its source only when it
starts a pass, so it gives up before it knows that there is nothing to lower.

* `Unparsable` — a source with a diagnostic;
* `format_eq_untouched_iff`, `lowerOnce_eq_untouched_iff`, `lower_eq_untouched_iff`
  — when a source is left as it is;
* `LeavesUnparsable`, `leavesUnparsable_iff` — what should happen to a source
  that does not parse, and for which choices it does;
* `not_leavesUnparsable_noPasses` — a limit for which it does not.
-/

namespace LuauTidy

variable {source text : Text} {t : SyntaxTree} {options : LoweringOptions} {layout : LayoutOptions}
  {reason : Obstacle}

/-- A source that does not parse. -/
def Unparsable (source : Text) : Prop := ∃ t, parse source = .ok t ∧ t.errors ≠ []

/-- Parsing decides whether a source parses. -/
theorem Unparsable.iff_of_parse (hparse : parse source = .ok t) :
    Unparsable source ↔ t.errors ≠ [] := by
  constructor
  · intro h
    obtain ⟨u, hu, herrors⟩ := h
    rw [hparse, Except.ok.injEq] at hu
    rw [hu]
    exact herrors
  · intro herrors
    exact ⟨t, hparse, herrors⟩

theorem unparsable_iff_tree? : Unparsable source ↔ tree? source = none := by
  obtain ⟨t, hparse, -⟩ := exists_assembled source
  rw [Unparsable.iff_of_parse hparse, Option.eq_none_iff_forall_ne_some]
  constructor
  · intro herrors u hu
    obtain ⟨hparse', herrors'⟩ := tree?_eq_some.mp hu
    rw [hparse, Except.ok.injEq] at hparse'
    rw [hparse'] at herrors
    exact herrors herrors'
  · intro hnone herrors
    exact hnone t (tree?_eq_some.mpr ⟨hparse, herrors⟩)

instance (source : Text) : Decidable (Unparsable source) :=
  decidable_of_iff _ unparsable_iff_tree?.symm

/-- A tree keeps the source that it was made from. -/
theorem parse_source (hparse : parse source = .ok t) : t.source = source := by
  simp only [parse] at hparse
  split at hparse
  · cases hparse
    rfl
  · cases hparse
    rfl
  · cases hparse

/-! ### One pass -/

/-- The layout leaves a source as it is if it does not parse or has a comment
without a place. -/
theorem format_eq_untouched_iff (hparse : parse source = .ok t) :
    format source layout = .ok (.untouched reason text) ↔ text = source ∧
      ((t.errors ≠ [] ∧ reason = .parseError) ∨
        (t.errors = [] ∧ t.strayComments ≠ [] ∧ reason = .strayComment)) := by
  have hformat : format source layout = t.format layout := by
    rw [format, hparse]
    rfl
  rw [hformat]
  by_cases herrors : t.errors = []
  · obtain ⟨inner, gap, h⟩ := parse_parsed hparse herrors
    by_cases hstrays : t.strayComments = []
    · obtain ⟨laid, hlaid⟩ := (h.format_eq layout).1 hstrays
      rw [hlaid]
      simp [herrors, hstrays]
    · rw [(h.format_eq layout).2 hstrays, h.source_eq]
      simp [herrors, hstrays, eq_comm, and_comm]
  · rw [SyntaxTree.format, if_pos (by simpa [SyntaxTree.hasError] using herrors),
      parse_source hparse]
    simp [herrors, eq_comm, and_comm]

/-- A pass leaves a source as it is only if it does not parse. -/
theorem SyntaxTree.lowerOnce_eq_untouched_iff (hparse : parse source = .ok t) :
    t.lowerOnce options = .ok (.untouched reason text) ↔
      text = source ∧ t.errors ≠ [] ∧ reason = .parseError := by
  by_cases herrors : t.errors = []
  · obtain ⟨-, grafts, spliced, hpass⟩ := exists_spliced options hparse herrors
    rw [hpass.byMarks]
    simp [herrors]
  · rw [lowerOnce, if_pos (by simpa [SyntaxTree.hasError] using herrors), parse_source hparse]
    simp [herrors, eq_comm, and_comm]

/-! ### Lowering to the end -/

/-- A run leaves a text as it is only if the text is its source and does not
parse; it then looks at nothing else. -/
theorem Run.untouched_iff {looks : Nat} :
    Run options 0 source looks (.ok (.untouched reason text)) ↔
      looks = 1 ∧ text = source ∧ Unparsable source ∧ reason = .parseError := by
  have hstart : ∀ {made : Nat} {code : Text} {result : Except LoweringError Outcome},
      Run options made code looks result → result = .ok (.untouched reason text) →
        made = 0 ∧ looks = 1 ∧ text = code ∧ Unparsable code ∧ reason = .parseError := by
    intro made code result h hresult
    induction h with
    | untouched parsed errors =>
        cases hresult
        exact ⟨rfl, rfl, rfl, ⟨_, parsed, by simp [errors]⟩, rfl⟩
    | unparsable => cases hresult
    | fixed => cases hresult
    | next _ _ _ _ _ ih => exact absurd (ih hresult).1 (Nat.succ_ne_zero _)
  constructor
  · intro h
    exact (hstart h rfl).2
  · intro h
    obtain ⟨rfl, rfl, ⟨t, hparse, herrors⟩, rfl⟩ := h
    obtain ⟨error, more, hcons⟩ := List.exists_cons_of_ne_nil herrors
    exact .untouched hparse hcons

/-- Lowering leaves a source as it is if it does not parse and a pass is
allowed, and never for another reason. -/
theorem lower_eq_untouched_iff :
    lower source options = .ok (.ok (.untouched reason text)) ↔
      text = source ∧ Unparsable source ∧ reason = .parseError ∧ 0 < options.maxPasses := by
  have hlimit : lower source options = .ok (.ok (.untouched reason text)) ↔
      ∃ looks ≤ options.maxPasses, Run options 0 source looks (.ok (.untouched reason text)) := by
    have h := @lower_eq_iff options source options.maxPasses (.ok (.untouched reason text))
    change lower source options = _ ↔ _ at h
    rw [h]
    simp
  rw [hlimit]
  simp only [Run.untouched_iff]
  constructor
  · intro h
    obtain ⟨looks, hle, rfl, htext, hsource, hreason⟩ := h
    exact ⟨htext, hsource, hreason, hle⟩
  · intro h
    obtain ⟨htext, hsource, hreason, hpos⟩ := h
    exact ⟨1, hpos, rfl, htext, hsource, hreason⟩

/-! ### All three -/

/-- If a source does not parse, all that is done to sources leaves it as it is
and says why. -/
def LeavesUnparsable (options : LoweringOptions) (source : Text) : Prop :=
  Unparsable source →
    (∀ layout, format source layout = .ok (.untouched .parseError source)) ∧
      (∀ t, parse source = .ok t → t.lowerOnce options = .ok (.untouched .parseError source)) ∧
      lower source options = .ok (.ok (.untouched .parseError source))

/-- A source that does not parse is left as it is if and only if lowering is
allowed a pass. -/
theorem leavesUnparsable_iff (options : LoweringOptions) (source : Text) :
    LeavesUnparsable options source ↔ (Unparsable source → 0 < options.maxPasses) := by
  constructor
  · intro h hsource
    obtain ⟨-, -, hlower⟩ := h hsource
    exact (lower_eq_untouched_iff.mp hlower).2.2.2
  · intro hpasses hsource
    obtain ⟨t, hparse, herrors⟩ := id hsource
    refine ⟨?_, ?_, ?_⟩
    · intro layout
      exact (format_eq_untouched_iff hparse).mpr ⟨rfl, .inl ⟨herrors, rfl⟩⟩
    · intro u hu
      have herrors' := (Unparsable.iff_of_parse hu).mp hsource
      exact (SyntaxTree.lowerOnce_eq_untouched_iff hu).mpr ⟨rfl, herrors', rfl⟩
    · exact lower_eq_untouched_iff.mpr ⟨rfl, hsource, rfl, hpasses hsource⟩

/-- With no pass allowed, lowering gives up on a source that does not parse. -/
theorem not_leavesUnparsable_noPasses :
    ¬LeavesUnparsable (LoweringOptions.standard.withLimit 0) "x = ".toList := by
  intro h
  have hsource : Unparsable "x = ".toList := by decide +kernel
  obtain ⟨-, -, hlower⟩ := h hsource
  have hpasses := (lower_eq_untouched_iff.mp hlower).2.2.2
  exact absurd hpasses (by decide)

end LuauTidy
