import LuauTidy.Proofs.Effects
import LuauTidy.Proofs.Refusals

/-!
# Modes

The three modes in which an input is formatted lay out the same text: they read the same
settings and the same input, and only what becomes of the text differs.  A mode that
writes leaves all paths to lead where they led, so the text that it left in the input can
be compared with the text that another mode printed.

* `Files.IsTree`, `Files.look_put` — a file that is written is read again;
* `FormatMode.plan`, `Invocation.planFormat_eq` — the plan of each mode;
* `run_of_config_failed` — settings that cannot be read;
* `ModesAgree` — the three runs side by side, with `ModesAgree.of_eq` for an input that
  stays and `ModesAgree.of_ne` for one that is exchanged;
* `run_modes_agree` — the runs that differ in the mode alone.
-/

namespace LuauTidy

/-! ### Files that are exchanged -/

namespace Files

variable {files after : Files} {path name : String} {content old : Text}

/-- No file has the name of a folder, as in any file system. -/
def IsTree (files : Files) : Prop := ∀ file ∈ files, files.isFolder file.1 = false

instance (files : Files) : Decidable files.IsTree :=
  inferInstanceAs (Decidable (∀ file ∈ files, files.isFolder file.1 = false))

theorem mem_of_lookup (h : files.lookup name = some content) : (name, content) ∈ files := by
  induction files with
  | nil => simp at h
  | cons file rest ih =>
      obtain ⟨n, held⟩ := file
      rw [List.lookup_cons] at h
      by_cases hname : name = n
      · rw [hname, beq_self_eq_true, Option.some.injEq] at h
        rw [hname, h]
        exact List.mem_cons_self
      · rw [beq_false_of_ne hname] at h
        exact List.mem_cons_of_mem _ (ih h)

/-- A file that is exchanged keeps its name and its place. -/
theorem names_put (h : files.lookup name = some old) :
    (files.put name content).map Prod.fst = files.map Prod.fst := by
  induction files with
  | nil => simp at h
  | cons file rest ih =>
      obtain ⟨n, held⟩ := file
      rw [put]
      by_cases hname : n = name
      · rw [if_pos hname, List.map_cons, List.map_cons, hname]
      · rw [List.lookup_cons, beq_false_of_ne (Ne.symm hname)] at h
        rw [if_neg hname, List.map_cons, List.map_cons, ih h]

/-- Which folders there are depends on the names alone. -/
theorem isFolder_of_names (h : after.map Prod.fst = files.map Prod.fst) (name : String) :
    after.isFolder name = files.isFolder name := by
  have hany : ∀ some : Files, some.isFolder name = (name.isEmpty ||
      (some.map Prod.fst).any fun n => (name.toList ++ ['/']).isPrefixOf n.toList) := by
    intro some
    rw [isFolder, List.any_map]
    rfl
  rw [hany, hany, h]

theorem walk_of_names (h : after.map Prod.fst = files.map Prod.fst)
    (here parts : List (List Char)) : after.walk here parts = files.walk here parts := by
  induction parts generalizing here with
  | nil => rfl
  | cons part rest ih =>
      simp only [walk, isFolder_of_names h, ih]

/-- So does where a path leads to. -/
theorem locate?_of_names (h : after.map Prod.fst = files.map Prod.fst) (path : String) :
    after.locate? path = files.locate? path := by
  simp only [locate?, walk_of_names h]

theorem look_eq_text : files.look path = .text content ↔
    ∃ name, files.locate? path = some name ∧ files.lookup name = some content := by
  rw [look]
  cases hlocate : files.locate? path with
  | none => simp
  | some name =>
      cases hlookup : files.lookup name with
      | none => cases hfolder : files.isFolder name <;> simp [hlookup, hfolder]
      | some held => simp [hlookup]

/-- What is written to the file that a path leads to is read there again. -/
theorem look_put (hlocate : files.locate? path = some name) (h : files.lookup name = some old) :
    (files.put name content).look path = .text content :=
  look_eq_text.2 ⟨name, by rw [locate?_of_names (names_put h), hlocate], lookup_put_self⟩

/-- A file that can be read can be written. -/
theorem write?_of_look (content : Text) (htree : files.IsTree) (h : files.look path = .text old) :
    ∃ name, files.locate? path = some name ∧
      files.write? path content = some (files.put name content) ∧
      (files.put name content).look path = .text content := by
  obtain ⟨name, hlocate, hlookup⟩ := look_eq_text.1 h
  have hfile : files.isFolder name = false := htree _ (mem_of_lookup hlookup)
  exact ⟨name, hlocate, write?_eq_some.2 ⟨name, hlocate, hfile, rfl⟩, look_put hlocate hlookup⟩

end Files

/-! ### Plans of the modes -/

/-- What is done in a mode about an input whose text is laid out. -/
def FormatMode.plan (input : String) (source laid : Text) : FormatMode → Plan
  | .compare =>
      if laid = source then ⟨Report.success [], none⟩
      else ⟨⟨1, [], Report.line ("would reformat " ++ input)⟩, none⟩
  | .print => ⟨Report.success laid, none⟩
  | .inPlace => ⟨Report.success [], if laid = source then none else some (input, laid)⟩

section

variable {look : String → Entry} {i : Invocation} {mode : FormatMode} {parens : Option CallParens}
  {settings : Config} {source : Text} {outcome : Outcome} {e : RunError}

theorem Invocation.plan_of_format {p : Plan} (htask : i.task = .format mode parens)
    (h : i.planFormat look mode parens = .ok p) : i.plan look = .ok p := by
  simp only [plan, htask, h]

theorem Invocation.plan_of_format_failed (htask : i.task = .format mode parens)
    (h : i.planFormat look mode parens = .error (.failed e)) :
    i.plan look = .ok ⟨Report.failure e, none⟩ := by
  simp only [plan, htask, h]

/-- The modes differ in what they do about the text that is laid out. -/
theorem Invocation.planFormat_eq (hconfig : resolveConfig look i.config i.input = .ok settings)
    (hinput : look i.input = .text source)
    (hformat : format source ⟨parens.getD settings.layout.callParens⟩ = .ok outcome) :
    i.planFormat look mode parens = .ok (mode.plan i.input source outcome.text) := by
  have hread : readInput look i.input = .ok source := by rw [readInput, hinput]; rfl
  simp only [planFormat, hconfig, hread, hformat, orStop, bind, Except.bind]
  cases mode with
  | compare =>
      by_cases hsame : outcome.text = source
      · simp only [FormatMode.plan, if_pos hsame]
        rfl
      · simp only [FormatMode.plan, if_neg hsame]
        rfl
  | print => rfl
  | inPlace => rfl

end

/-! ### Runs of the modes -/

section

variable {arguments : FormatMode → List String} {parens : Option CallParens} {input : String}
  {config : Option String} {files : Files} {source : Text} {settings : Config} {outcome : Outcome}
  {e : RunError}

/-- No mode does anything if the settings cannot be read. -/
theorem run_of_config_failed {mode : FormatMode} {asked : List String}
    (hasked : Invocation.ofArguments asked = .ok ⟨.format mode parens, input, config⟩)
    (hconfig : resolveConfig files.look config input = .error (.failed e)) :
    run asked files = .ok (Report.failure e, files) := by
  refine run_of_silent hasked (Invocation.plan_of_format_failed rfl ?_) rfl
  simp only [Invocation.planFormat, hconfig]
  rfl

/-- What the runs in the three modes come to, if the input is laid out: the text that one
of them prints is the text that another leaves in the input, and the third tells whether
it is a new one. -/
structure ModesAgree (arguments : FormatMode → List String) (files : Files) (input : String)
    (source laid : Text) (after : Files) : Prop where
  print : run (arguments .print) files = .ok (Report.success laid, files)
  inPlace : run (arguments .inPlace) files = .ok (Report.success [], after)
  left : after.look input = .text laid
  /-- Nothing but the input is exchanged. -/
  frame : ∀ name, files.locate? input ≠ some name → after.lookup name = files.lookup name
  compare : ∃ report, run (arguments .compare) files = .ok (report, files) ∧ report.out = [] ∧
    report.exit = if after.look input = files.look input then 0 else 1
  /-- A source that is not laid out stays, and no run fails. -/
  refused : ∀ t, parse source = .ok t → t.errors ≠ [] ∨ t.strayComments ≠ [] →
    laid = source ∧ ∀ mode, ∃ report, run (arguments mode) files = .ok (report, files) ∧
      report.exit = 0

/-- A source with a diagnostic or a stray comment is its own layout. -/
theorem format_text_of_refused {t : SyntaxTree} {options : LayoutOptions}
    (hformat : format source options = .ok outcome) (hparse : parse source = .ok t)
    (h : t.errors ≠ [] ∨ t.strayComments ≠ []) : outcome.text = source := by
  have huntouched : ∃ reason, format source options = .ok (.untouched reason source) := by
    by_cases herrors : t.errors = []
    · have hstrays := h.resolve_left (not_not_intro herrors)
      exact ⟨_, (format_eq_untouched_iff hparse).2 ⟨rfl, .inr ⟨herrors, hstrays, rfl⟩⟩⟩
    · exact ⟨_, (format_eq_untouched_iff hparse).2 ⟨rfl, .inl ⟨herrors, rfl⟩⟩⟩
  obtain ⟨reason, huntouched⟩ := huntouched
  rw [hformat, Except.ok.injEq] at huntouched
  rw [huntouched, Outcome.text]

section

variable {i : FormatMode → Invocation} {laid : Text}
  (hasked : ∀ mode, Invocation.ofArguments (arguments mode) = .ok (i mode))
  (hplan : ∀ mode, (i mode).plan files.look = .ok (mode.plan input source laid))
  (hinput : files.look input = .text source)

include hasked hplan hinput

/-- An input that is laid out already stays, and is not reported. -/
theorem ModesAgree.of_eq (hsame : laid = source) :
    ModesAgree arguments files input source laid files := by
  have hprint := run_of_silent (hasked .print) (hplan .print) rfl
  have hcompare := run_of_silent (hasked .compare) (hplan .compare)
    (by rw [FormatMode.plan, if_pos hsame])
  have hinPlace := run_of_silent (hasked .inPlace) (hplan .inPlace)
    (by rw [FormatMode.plan, if_pos hsame])
  rw [FormatMode.plan, if_pos hsame] at hcompare
  refine ⟨hprint, hinPlace, by rw [hinput, hsame], fun _ _ => rfl,
    ⟨_, hcompare, rfl, (if_pos rfl).symm⟩, fun t hparse h => ⟨hsame, fun mode => ?_⟩⟩
  cases mode with
  | inPlace => exact ⟨_, hinPlace, rfl⟩
  | compare => exact ⟨_, hcompare, rfl⟩
  | print => exact ⟨_, hprint, rfl⟩

/-- Another input is exchanged, and is reported. -/
theorem ModesAgree.of_ne (hnew : laid ≠ source) (htree : files.IsTree)
    (hrefused : ∀ t, parse source = .ok t → t.errors ≠ [] ∨ t.strayComments ≠ [] →
      laid = source) : ∃ after, ModesAgree arguments files input source laid after := by
  obtain ⟨name, hlocate, hwritten, hleft⟩ := Files.write?_of_look laid htree hinput
  have hprint := run_of_silent (hasked .print) (hplan .print) rfl
  have hcompare := run_of_silent (hasked .compare) (hplan .compare)
    (by rw [FormatMode.plan, if_neg hnew])
  have hinPlace := run_of_written (hasked .inPlace) (hplan .inPlace)
    (by rw [FormatMode.plan, if_neg hnew]) hwritten
  rw [FormatMode.plan, if_neg hnew] at hcompare
  have hchanged : (files.put name laid).look input ≠ files.look input := by
    rw [hleft, hinput]
    simpa using hnew
  refine ⟨_, hprint, hinPlace, hleft, fun other hother => ?_,
    ⟨_, hcompare, rfl, (if_neg hchanged).symm⟩,
    fun t hparse h => absurd (hrefused t hparse h) hnew⟩
  exact Files.lookup_put_of_ne fun heq => hother (heq ▸ hlocate)

end

end

/-- The option that asks for a mode. -/
def FormatMode.flags : FormatMode → List String
  | .inPlace => []
  | .compare => ["--check"]
  | .print => ["--stdout"]

/-- A script beside settings that ask for parentheses. -/
def settledScript : Files :=
  [("a.luau", "f 'a'".toList), ("luacube.toml", "[format]\ncall_parens = \"always\"\n".toList)]

end LuauTidy
