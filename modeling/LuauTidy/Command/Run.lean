import LuauTidy.Command.Arguments
import LuauTidy.Command.Files
import LuauTidy.Command.Help
import LuauTidy.Layout.Render
import LuauTidy.Lowering.Fixpoint
import LuauTidy.Settings.Config
import LuauTidy.Tree.Dump
import LuauTidy.Tree.Outline

/-!
# Runs

A run reads its settings and its input, and then knows all that it is going
to do: what it prints, how it ends, and at most one file that it writes.  This
plan depends on the files only through what the paths lead to.

* `Report`, `Plan` — what a run does;
* `RunError` — why a run fails, with `RunError.message`;
* `Invocation.plan` — the plan of an invocation;
* `run` — a run on files.
-/

namespace LuauTidy

/-- What a run shows. -/
structure Report where
  exit : Nat
  out : Text
  err : Text
  deriving DecidableEq, Repr

/-- What a run does: it shows a report, after it has written a file. -/
structure Plan where
  report : Report
  write : Option (String × Text)
  deriving DecidableEq, Repr

/-- Why a run fails after its arguments were understood. -/
inductive RunError
  | unreadable (path : String)
  | unwritable (path : String)
  | notLowered (path : String)
  | unreadableConfig (path : String)
  | invalidConfig (path : String)
  deriving DecidableEq, Repr

/-- The wording of a failure. -/
def RunError.message : RunError → String
  | .unreadable path => "failed to read " ++ path
  | .unwritable path => "failed to write " ++ path
  | .notLowered path => "failed to rewrite " ++ path
  | .unreadableConfig path => "failed to read config " ++ path
  | .invalidConfig path => "invalid config " ++ path

namespace Report

/-- A line of text. -/
def line (s : String) : Text := s.toList ++ ['\n']

/-- Success with a text printed. -/
def success (out : Text) : Report := ⟨0, out, []⟩

/-- The report of a failed run. -/
def failure (e : RunError) : Report := ⟨1, [], line ("Error: " ++ e.message)⟩

/-- The report that takes the place of a run: help is a success, and a usage
error is none. -/
def usage : UsageNotice → Report
  | .help topic => success topic.helpText
  | notice => ⟨2, [], line notice.message⟩

end Report

/-- Why there is no plan. -/
inductive Stop
  | failed (e : RunError)
  | fault (f : Fault)
  deriving DecidableEq, Repr

/-- The result of a step that may meet a fault. -/
def orStop : Except Fault α → Except Stop α
  | .ok a => .ok a
  | .error f => .error (.fault f)

/-- A path without the slashes and single points at its end, last character first. -/
def trimPath : List Char → List Char
  | '/' :: rest => trimPath rest
  | '.' :: '/' :: rest => trimPath rest
  | reversed => reversed

/-- The folder that a path lies in, with a slash at its end; for a path of one
part it is the present one. -/
def folderOf (path : String) : String :=
  let outer := (trimPath path.toList.reverse).dropWhile (· != '/')
  if outer.isEmpty then "./" else String.ofList ('/' :: trimPath outer).reverse

/-- The file of the settings that apply to an input by its place. -/
def neighbouringConfig (input : String) : String := folderOf input ++ "luacube.toml"

/-- The settings in a file. -/
def loadConfig (look : String → Entry) (path : String) : Except Stop Config :=
  match look path with
  | .text content =>
    match Config.ofToml? content with
    | some c => .ok c
    | none => .error (.failed (.invalidConfig path))
  | _ => .error (.failed (.unreadableConfig path))

/-- The settings of a run: those of the file that was asked for, or of the
file beside the input, if there is one. -/
def resolveConfig (look : String → Entry) (asked : Option String) (input : String) :
    Except Stop Config :=
  match asked with
  | some path => loadConfig look path
  | none =>
    if (look (neighbouringConfig input)).isFile then loadConfig look (neighbouringConfig input)
    else .ok .standard

/-- The text of the input. -/
def readInput (look : String → Entry) (path : String) : Except Stop Text :=
  match (look path).text? with
  | some t => .ok t
  | none => .error (.failed (.unreadable path))

/-- A diagnostic with its file, line and column. -/
def described (path : String) (source : Text) (e : SyntaxError) : Except Stop Text :=
  match source.position e.offset with
  | some (row, column) =>
    .ok (Report.line
      (path ++ ":" ++ toString row ++ ":" ++ toString column ++ ": " ++ e.message))
  | none => .error (.fault .outOfRange)

namespace Invocation

/-- The plan to format an input. -/
def planFormat (look : String → Entry) (i : Invocation) (mode : FormatMode)
    (parens : Option CallParens) : Except Stop Plan := do
  let config ← resolveConfig look i.config i.input
  let source ← readInput look i.input
  let options : LayoutOptions := ⟨parens.getD config.layout.callParens⟩
  let text := (← orStop (format source options)).text
  match mode with
  | .compare =>
    if text = source then return ⟨Report.success [], none⟩
    else return ⟨⟨1, [], Report.line ("would reformat " ++ i.input)⟩, none⟩
  | .print => return ⟨Report.success text, none⟩
  | .inPlace =>
    return ⟨Report.success [], if text = source then none else some (i.input, text)⟩

/-- The plan to lower an input. -/
def planCompat (look : String → Entry) (i : Invocation) (output : Option String)
    (formatted : Bool) : Except Stop Plan := do
  let config ← resolveConfig look i.config i.input
  let source ← readInput look i.input
  match ← orStop (lower source config.lowering) with
  | .error _ => .error (.failed (.notLowered i.input))
  | .ok lowered =>
    let text ← match lowered with
      | .produced text =>
        if formatted then do pure (← orStop (format text config.layout)).text else pure text
      | .untouched _ text => pure text
    match output with
    | some path => return ⟨Report.success [], some (path, text)⟩
    | none => return ⟨Report.success text, none⟩

/-- The plan to check an input. -/
def planCheck (look : String → Entry) (i : Invocation) : Except Stop Plan := do
  let source ← readInput look i.input
  let tree ← orStop (parse source)
  if tree.hasError then
    let lines ← tree.errors.mapM (described i.input source)
    return ⟨⟨1, [], lines.flatten⟩, none⟩
  else
    return ⟨⟨0, [], Report.line ("OK: " ++ i.input)⟩, none⟩

/-- The plan to show the tree of an input. -/
def planParse (look : String → Entry) (i : Invocation) (json : Bool) : Except Stop Plan := do
  let source ← readInput look i.input
  let tree ← orStop (parse source)
  if json then
    let dump ← orStop tree.dump
    return ⟨Report.success (dump.pretty 0 ++ ['\n']), none⟩
  else
    return ⟨Report.success (← orStop tree.outline), none⟩

/-- The plan of an invocation. -/
def plan (look : String → Entry) (i : Invocation) : Except Fault Plan :=
  let planned := match i.task with
    | .format mode parens => i.planFormat look mode parens
    | .compat output formatted => i.planCompat look output formatted
    | .check => i.planCheck look
    | .parse json => i.planParse look json
  match planned with
  | .ok p => .ok p
  | .error (.failed e) => .ok ⟨Report.failure e, none⟩
  | .error (.fault f) => .error f

/-- The paths that a plan may look at. -/
def paths (i : Invocation) : List String :=
  [i.input, i.config.getD (neighbouringConfig i.input)]

end Invocation

/-- A run on files: what it shows, and the files after it. -/
def run (arguments : List String) (files : Files) : Except Fault (Report × Files) :=
  match Invocation.ofArguments arguments with
  | .error e => .ok (Report.usage e, files)
  | .ok i => do
    let p ← i.plan files.look
    match p.write with
    | none => return (p.report, files)
    | some (path, text) =>
      match files.write? path text with
      | some after => return (p.report, after)
      | none => return (Report.failure (.unwritable path), files)

end LuauTidy
