import LuauTidy.Proofs.Diagnoses
import LuauTidy.Proofs.Layouts
import LuauTidy.Proofs.Stability

/-!
# Effects

Every run ends in a report, whatever the arguments and the files are.  A plan knows how
the run ends before a file is written, so a run that fails has written nothing and
printed nothing, and one that succeeds has written one file at most: its input or its
output.

* `Files.lookup_put_of_ne` — files that are not written;
* `Yields` — steps that meet no fault;
* `SyntaxTree.dump_succeeds`, `SyntaxTree.outline_succeeds` — trees that are shown;
* `Plan.IsOrderly`, `Invocation.plan_succeeds` — plans;
* `run_effects` — runs.
-/

namespace LuauTidy

/-! ### Files -/

namespace Files

variable {files after : Files} {name other path : String} {content : Text}

theorem lookup_put_self : (files.put name content).lookup name = some content := by
  induction files with
  | nil => simp [put]
  | cons file rest ih =>
      obtain ⟨n, old⟩ := file
      rw [put]
      by_cases hname : n = name
      · rw [if_pos hname, List.lookup_cons_self]
      · rw [if_neg hname, List.lookup_cons, beq_false_of_ne (Ne.symm hname)]
        exact ih

theorem lookup_put_of_ne (h : other ≠ name) :
    (files.put name content).lookup other = files.lookup other := by
  induction files with
  | nil => simp [put, List.lookup_cons, beq_false_of_ne h]
  | cons file rest ih =>
      obtain ⟨n, old⟩ := file
      rw [put]
      by_cases hname : n = name
      · rw [if_pos hname, List.lookup_cons, List.lookup_cons, hname, beq_false_of_ne h]
      · rw [if_neg hname, List.lookup_cons, List.lookup_cons, ih]

/-- What is written to a path is in the file that the path leads to. -/
theorem write?_eq_some : files.write? path content = some after ↔
    ∃ name, files.locate? path = some name ∧ files.isFolder name = false ∧
      files.put name content = after := by
  rw [write?]
  cases hlocate : files.locate? path with
  | none => simp
  | some name =>
      cases hfolder : files.isFolder name <;> simp

end Files

/-! ### Steps of a run -/

/-- A step that meets no fault, with what is known of its result. -/
def Yields (P : α → Prop) : Except Stop α → Prop
  | .ok a => P a
  | .error (.failed _) => True
  | .error (.fault _) => False

namespace Yields

variable {α β : Type} {P : α → Prop} {Q : β → Prop} {x : Except Stop α} {k : α → Except Stop β}

theorem bind (h : Yields P x) (hk : ∀ a, P a → Yields Q (k a)) : Yields Q (x >>= k) := by
  cases x with
  | ok a => exact hk a h
  | error stop =>
      cases stop with
      | failed e => exact trivial
      | fault f => exact h.elim

/-- Such a step has a result, or the run fails with it. -/
theorem result (h : Yields P x) : (∃ a, x = .ok a ∧ P a) ∨ ∃ e, x = .error (.failed e) := by
  cases x with
  | ok a => exact .inl ⟨a, rfl, h⟩
  | error stop =>
      cases stop with
      | failed e => exact .inr ⟨e, rfl⟩
      | fault f => exact h.elim

theorem failed (e : RunError) : Yields P (.error (.failed e)) := trivial

theorem of_ok {a : α} (h : x = .ok a) (ha : P a) : Yields P x := by
  rw [h]
  exact ha

theorem orStop {a : α} {y : Except Fault α} (h : y = .ok a) (ha : P a) : Yields P (orStop y) := by
  rw [h]
  exact ha

end Yields

variable {look : String → Entry}

theorem loadConfig_yields (path : String) : Yields (fun _ => True) (loadConfig look path) := by
  rw [loadConfig]
  split
  · split
    · exact trivial
    · exact .failed _
  · exact .failed _

theorem resolveConfig_yields (asked : Option String) (input : String) :
    Yields (fun _ => True) (resolveConfig look asked input) := by
  cases asked with
  | some path => exact loadConfig_yields path
  | none =>
      simp only [resolveConfig]
      split
      · exact loadConfig_yields _
      · exact trivial

theorem readInput_yields (path : String) : Yields (fun _ => True) (readInput look path) := by
  rw [readInput]
  split
  · exact trivial
  · exact .failed _

/-! ### Passes -/

variable {source : Text} {t : SyntaxTree}

/-- Every source is laid out or left as it is. -/
theorem format_succeeds (source : Text) (options : LayoutOptions) :
    ∃ outcome, format source options = .ok outcome := by
  obtain ⟨t, hparse, -⟩ := exists_assembled source
  have hformat : format source options = t.format options := by
    rw [format, hparse]
    rfl
  rw [hformat]
  by_cases herrors : t.errors = []
  · obtain ⟨inner, gap, h⟩ := parse_parsed hparse herrors
    by_cases hstrays : t.strayComments = []
    · obtain ⟨text, htext⟩ := (h.format_eq options).1 hstrays
      exact ⟨_, htext⟩
    · exact ⟨_, (h.format_eq options).2 hstrays⟩
  · exact ⟨_, by rw [SyntaxTree.format, if_pos (by simpa [SyntaxTree.hasError] using herrors)]⟩

/-- Every diagnosis of a source is shown. -/
theorem parse_described (path : String) (hparse : parse source = .ok t) :
    ∃ lines, t.errors.mapM (described path source) = .ok lines := by
  obtain ⟨u, hparse', herrors⟩ := parse_diagnoses source
  obtain rfl : u = t := Except.ok.inj (hparse'.symm.trans hparse)
  rcases herrors with ⟨hnone, -⟩ | ⟨e, hdiagnosis⟩
  · exact ⟨[], by rw [hnone]; rfl⟩
  · obtain ⟨line, hline⟩ : ∃ line, described path source e = .ok line := by
      obtain ⟨_, _, -, hshown⟩ := hdiagnosis.shown
      exact ⟨_, hshown path⟩
    have hsingle : u.errors = [e] := by
      rw [hdiagnosis.single]
      rfl
    refine ⟨[line], ?_⟩
    rw [hsingle, List.mapM_cons, hline]
    rfl

/-- Every source is lowered, left as it is, or not lowered in as many passes. -/
theorem lower_succeeds (source : Text) (options : LoweringOptions) :
    ∃ result, lower source options = .ok result :=
  lowerFrom_succeeds options options.maxPasses 0 source

/-! ### Trees that are shown -/

/-- Every node of a source has a text. -/
theorem parse_texts (hparse : parse source = .ok t) :
    ∀ m ∈ t.root.preorder, ∃ text, t.text m = .ok text := by
  have htext : ∀ {m : Node}, t.source.IsCut m.start → t.source.IsCut m.stop → m.start ≤ m.stop →
      ∃ text, t.text m = .ok text := by
    intro m hstart hstop hle
    obtain ⟨text, hslice⟩ := hstart.slice hstop hle
    exact ⟨text, by rw [SyntaxTree.text, hslice]⟩
  have hwhole : source.IsCut 0 ∧ source.IsCut source.byteLength :=
    ⟨⟨[], source, rfl, rfl⟩, ⟨source, [], (List.append_nil _).symm, rfl⟩⟩
  obtain ⟨u, hparse', herrors⟩ := parse_diagnoses source
  obtain rfl : u = t := Except.ok.inj (hparse'.symm.trans hparse)
  rcases herrors with ⟨herrors, -⟩ | ⟨e, hdiagnosis⟩
  · obtain ⟨inner, gap, h⟩ := parse_parsed hparse herrors
    rw [Node.preorder_eq, List.forall_mem_cons]
    constructor
    · rw [← h.source_eq] at hwhole
      have hroot := h.root_eq
      rw [← h.source_eq] at hroot
      exact htext (by rw [hroot]; exact hwhole.1) (by rw [hroot]; exact hwhole.2)
        (by rw [hroot]; exact Nat.zero_le _)
    · intro m hm
      have hsound := h.sound m hm
      exact htext hsound.cut.start hsound.cut.stop hsound.frame.le
  · rw [hdiagnosis.single] at htext ⊢
    simp only [SyntaxTree.abandoned, Node.preorder_eq, preorderOfAll, List.forall_mem_singleton]
    exact htext hwhole.1 hwhole.2 (Nat.zero_le _)

namespace SyntaxTree

mutual

/-- A subtree whose nodes have texts is dumped. -/
theorem dumpNode_succeeds (t : SyntaxTree) (n : Node)
    (h : ∀ m ∈ n.preorder, ∃ text, t.text m = .ok text) : ∃ v, t.dumpNode n = .ok v := by
  cases n with
  | mk id kind start stop children =>
      rw [Node.preorder_eq, List.forall_mem_cons] at h
      obtain ⟨⟨text, htext⟩, hbelow⟩ := h
      obtain ⟨vs, hvs⟩ := dumpNodes_succeeds t children hbelow
      rw [dumpNode]
      split
      · exact ⟨_, by rw [htext]; rfl⟩
      · exact ⟨_, by rw [hvs]; rfl⟩

/-- So are its siblings. -/
theorem dumpNodes_succeeds (t : SyntaxTree) (nodes : List Node)
    (h : ∀ m ∈ preorderOfAll nodes, ∃ text, t.text m = .ok text) :
    ∃ vs, t.dumpNodes nodes = .ok vs := by
  cases nodes with
  | nil => exact ⟨[], by rw [dumpNodes]; rfl⟩
  | cons n rest =>
      rw [preorderOfAll, List.forall_mem_append] at h
      obtain ⟨v, hv⟩ := dumpNode_succeeds t n h.1
      obtain ⟨vs, hvs⟩ := dumpNodes_succeeds t rest h.2
      rw [dumpNodes, hv, hvs]
      exact ⟨_, rfl⟩

end

mutual

/-- A subtree whose nodes have texts has an outline. -/
theorem outlineNode_succeeds (t : SyntaxTree) (depth : Nat) (n : Node)
    (h : ∀ m ∈ n.preorder, ∃ text, t.text m = .ok text) :
    ∃ lines, t.outlineNode depth n = .ok lines := by
  cases n with
  | mk id kind start stop children =>
      rw [Node.preorder_eq, List.forall_mem_cons] at h
      obtain ⟨⟨text, htext⟩, hbelow⟩ := h
      obtain ⟨lines, hlines⟩ := outlineNodes_succeeds t (depth + 1) children hbelow
      rw [outlineNode, hlines]
      split
      · exact ⟨_, by rw [htext]; rfl⟩
      · exact ⟨_, rfl⟩

/-- So have its siblings. -/
theorem outlineNodes_succeeds (t : SyntaxTree) (depth : Nat) (nodes : List Node)
    (h : ∀ m ∈ preorderOfAll nodes, ∃ text, t.text m = .ok text) :
    ∃ lines, t.outlineNodes depth nodes = .ok lines := by
  cases nodes with
  | nil => exact ⟨[], by rw [outlineNodes]; rfl⟩
  | cons n rest =>
      rw [preorderOfAll, List.forall_mem_append] at h
      obtain ⟨first, hfirst⟩ := outlineNode_succeeds t depth n h.1
      obtain ⟨lines, hlines⟩ := outlineNodes_succeeds t depth rest h.2
      rw [outlineNodes, hfirst, hlines]
      exact ⟨_, rfl⟩

end

/-- The tree of a source is dumped. -/
theorem dump_succeeds (hparse : parse source = .ok t) : ∃ dump, t.dump = .ok dump := by
  obtain ⟨v, hv⟩ := dumpNode_succeeds t t.root (parse_texts hparse)
  rw [dump, hv]
  exact ⟨_, rfl⟩

/-- The tree of a source has an outline. -/
theorem outline_succeeds (hparse : parse source = .ok t) : ∃ lines, t.outline = .ok lines := by
  obtain ⟨lines, hlines⟩ := outlineNode_succeeds t 0 t.root (parse_texts hparse)
  rw [outline, hlines]
  exact ⟨_, rfl⟩

end SyntaxTree

/-! ### Plans -/

/-- The path that a run may write to: the input of a run that formats it in place, and
the output of a run that lowers. -/
def Invocation.target? (i : Invocation) : Option String :=
  match i.task with
  | .format .inPlace _ => some i.input
  | .compat output _ => output
  | _ => none

/-- A plan that fails writes and prints nothing, and any plan writes to the target. -/
structure Plan.IsOrderly (i : Invocation) (p : Plan) : Prop where
  failing : p.report.exit ≠ 0 → p.write = none ∧ p.report.out = []
  writing : ∀ path text, p.write = some (path, text) → i.target? = some path

namespace Plan.IsOrderly

variable {i : Invocation} {report : Report} {out : Text}

theorem success (out : Text) : IsOrderly i ⟨Report.success out, none⟩ :=
  ⟨fun hexit => absurd rfl hexit, by simp⟩

/-- A plan that prints nothing and writes nothing. -/
theorem silent (hout : report.out = []) : IsOrderly i ⟨report, none⟩ :=
  ⟨fun _ => ⟨rfl, hout⟩, by simp⟩

/-- A plan that writes to the target. -/
theorem writes {write : Option (String × Text)}
    (h : ∀ path text, write = some (path, text) → i.target? = some path) :
    IsOrderly i ⟨Report.success out, write⟩ :=
  ⟨fun hexit => absurd rfl hexit, h⟩

end Plan.IsOrderly

namespace Invocation

variable {i : Invocation}

theorem planFormat_yields (look : String → Entry) {mode : FormatMode} {parens : Option CallParens}
    (h : i.task = .format mode parens) :
    Yields (Plan.IsOrderly i) (i.planFormat look mode parens) := by
  refine (resolveConfig_yields _ _).bind fun config _ => ?_
  refine (readInput_yields _).bind fun source _ => ?_
  obtain ⟨outcome, hformat⟩ := format_succeeds source ⟨parens.getD config.layout.callParens⟩
  refine (Yields.orStop (P := fun _ => True) hformat trivial).bind fun outcome _ => ?_
  cases mode with
  | compare =>
      dsimp only
      split
      · exact Plan.IsOrderly.success []
      · exact Plan.IsOrderly.silent rfl
  | print => exact Plan.IsOrderly.success _
  | inPlace =>
      refine Plan.IsOrderly.writes fun path text hwrite => ?_
      rw [target?, h]
      split at hwrite <;> simp_all

theorem planCompat_yields (look : String → Entry) {output : Option String} {formatted : Bool}
    (h : i.task = .compat output formatted) :
    Yields (Plan.IsOrderly i) (i.planCompat look output formatted) := by
  refine (resolveConfig_yields _ _).bind fun config _ => ?_
  refine (readInput_yields _).bind fun source _ => ?_
  obtain ⟨result, hlower⟩ := lower_succeeds source config.lowering
  refine (Yields.orStop (P := fun _ => True) hlower trivial).bind fun result _ => ?_
  cases result with
  | error e => exact .failed _
  | ok lowered =>
      extract_lets write
      have hwrites : ∀ text, Yields (Plan.IsOrderly i) (write text) := by
        intro text
        cases output with
        | none => exact Plan.IsOrderly.success text
        | some path =>
            refine Plan.IsOrderly.writes fun target text hwrite => ?_
            rw [target?, h]
            simp_all
      cases lowered with
      | untouched reason text => exact hwrites text
      | produced text =>
          cases formatted with
          | false => exact hwrites text
          | true =>
              obtain ⟨outcome, hformat⟩ := format_succeeds text config.layout
              have htext := Yields.orStop (P := fun _ => True) hformat trivial
              exact htext.bind fun outcome _ => hwrites outcome.text

theorem planCheck_yields (look : String → Entry) :
    Yields (Plan.IsOrderly i) (i.planCheck look) := by
  refine (readInput_yields _).bind fun source _ => ?_
  obtain ⟨t, hparse, -⟩ := exists_assembled source
  refine (Yields.orStop (P := fun t => parse source = .ok t) hparse hparse).bind fun t hparse => ?_
  split
  · obtain ⟨lines, hlines⟩ := parse_described i.input hparse
    refine (Yields.of_ok (P := fun _ => True) hlines trivial).bind fun lines _ => ?_
    exact Plan.IsOrderly.silent rfl
  · exact Plan.IsOrderly.silent rfl

theorem planParse_yields (look : String → Entry) (json : Bool) :
    Yields (Plan.IsOrderly i) (i.planParse look json) := by
  refine (readInput_yields _).bind fun source _ => ?_
  obtain ⟨t, hparse, -⟩ := exists_assembled source
  refine (Yields.orStop (P := fun t => parse source = .ok t) hparse hparse).bind fun t hparse => ?_
  split
  · obtain ⟨dump, hdump⟩ := SyntaxTree.dump_succeeds hparse
    refine (Yields.orStop (P := fun _ => True) hdump trivial).bind fun dump _ => ?_
    exact Plan.IsOrderly.success _
  · obtain ⟨lines, hlines⟩ := SyntaxTree.outline_succeeds hparse
    refine (Yields.orStop (P := fun _ => True) hlines trivial).bind fun lines _ => ?_
    exact Plan.IsOrderly.success _

/-- Every invocation has a plan. -/
theorem plan_succeeds (look : String → Entry) (i : Invocation) :
    ∃ p, i.plan look = .ok p ∧ p.IsOrderly i := by
  have hplan : ∀ {x : Except Stop Plan}, Yields (Plan.IsOrderly i) x →
      (∀ p, x = .ok p → i.plan look = .ok p) →
      (∀ e, x = .error (.failed e) → i.plan look = .ok ⟨Report.failure e, none⟩) →
      ∃ p, i.plan look = .ok p ∧ p.IsOrderly i := by
    intro x hx hok hfailed
    obtain ⟨p, hp, horderly⟩ | ⟨e, he⟩ := hx.result
    · exact ⟨p, hok p hp, horderly⟩
    · exact ⟨_, hfailed e he, .silent rfl⟩
  cases htask : i.task with
  | format mode parens =>
      exact hplan (planFormat_yields look htask) (fun p hp => by simp only [plan, htask, hp])
        (fun e he => by simp only [plan, htask, he])
  | compat output formatted =>
      exact hplan (planCompat_yields look htask) (fun p hp => by simp only [plan, htask, hp])
        (fun e he => by simp only [plan, htask, he])
  | check =>
      exact hplan (planCheck_yields look) (fun p hp => by simp only [plan, htask, hp])
        (fun e he => by simp only [plan, htask, he])
  | parse json =>
      exact hplan (planParse_yields look json) (fun p hp => by simp only [plan, htask, hp])
        (fun e he => by simp only [plan, htask, he])

end Invocation

/-! ### Runs -/

/-- A file that a run may write to. -/
def IsTarget (arguments : List String) (files : Files) (name : String) : Prop :=
  ∃ i path, Invocation.ofArguments arguments = .ok i ∧ i.target? = some path ∧
    files.locate? path = some name

section

variable {arguments : List String} {files after : Files} {i : Invocation} {p : Plan}
  {path : String} {text : Text}

theorem run_of_silent (harguments : Invocation.ofArguments arguments = .ok i)
    (hplan : i.plan files.look = .ok p) (hwrite : p.write = none) :
    run arguments files = .ok (p.report, files) := by
  rw [run, harguments]
  simp only [hplan, bind, Except.bind, hwrite]
  rfl

/-- A plan is carried out if its text can be written. -/
theorem run_of_written (harguments : Invocation.ofArguments arguments = .ok i)
    (hplan : i.plan files.look = .ok p) (hwrite : p.write = some (path, text))
    (hafter : files.write? path text = some after) :
    run arguments files = .ok (p.report, after) := by
  rw [run, harguments]
  simp only [hplan, bind, Except.bind, hwrite, hafter]
  rfl

/-- Else the run fails. -/
theorem run_of_unwritable (harguments : Invocation.ofArguments arguments = .ok i)
    (hplan : i.plan files.look = .ok p) (hwrite : p.write = some (path, text))
    (hafter : files.write? path text = none) :
    run arguments files = .ok (Report.failure (.unwritable path), files) := by
  rw [run, harguments]
  simp only [hplan, bind, Except.bind, hwrite, hafter]
  rfl

/-- What is written is the target. -/
theorem isTarget_of_written (harguments : Invocation.ofArguments arguments = .ok i)
    (horderly : p.IsOrderly i) (hwrite : p.write = some (path, text))
    (hafter : files.write? path text = some after) {name : String}
    (hchanged : after.lookup name ≠ files.lookup name) : IsTarget arguments files name := by
  obtain ⟨target, hlocate, -, hput⟩ := Files.write?_eq_some.1 hafter
  have hname : name = target := by
    by_contra hne
    exact hchanged (by rw [← hput, Files.lookup_put_of_ne hne])
  exact ⟨i, path, harguments, horderly.writing path text hwrite, hname ▸ hlocate⟩

end

/-- Every run ends in a report.  If it fails, it prints nothing and all files are as they
were; if it succeeds, they are but for the input of a run that formats in place and for
the output of a run that lowers. -/
theorem run_effects (arguments : List String) (files : Files) :
    ∃ report after, run arguments files = .ok (report, after) ∧
      (report.exit ≠ 0 → after = files ∧ report.out = []) ∧
      ∀ name, after.lookup name ≠ files.lookup name → IsTarget arguments files name := by
  have hsame : ∀ name, files.lookup name ≠ files.lookup name → IsTarget arguments files name :=
    fun _ hne => absurd rfl hne
  cases harguments : Invocation.ofArguments arguments with
  | error notice =>
      refine ⟨Report.usage notice, files, by rw [run, harguments], fun hexit => ⟨rfl, ?_⟩, hsame⟩
      cases notice with
      | help topic => exact absurd rfl hexit
      | _ => rfl
  | ok i =>
      obtain ⟨p, hplan, horderly⟩ := i.plan_succeeds files.look
      cases hwrite : p.write with
      | none =>
          refine ⟨p.report, files, run_of_silent harguments hplan hwrite, fun hexit => ?_, hsame⟩
          exact ⟨rfl, (horderly.failing hexit).2⟩
      | some write =>
          obtain ⟨path, text⟩ := write
          cases hafter : files.write? path text with
          | none =>
              exact ⟨_, files, run_of_unwritable harguments hplan hwrite hafter,
                fun _ => ⟨rfl, rfl⟩, hsame⟩
          | some after =>
              refine ⟨p.report, after, run_of_written harguments hplan hwrite hafter, ?_, ?_⟩
              · -- The plan of a run that fails has nothing to write.
                intro hexit
                have hnone := (horderly.failing hexit).1
                rw [hwrite] at hnone
                cases hnone
              · exact fun name => isTarget_of_written harguments horderly hwrite hafter

end LuauTidy
