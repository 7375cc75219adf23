import LuauTidy.Command.Arguments

/-!
# Help

Help on a topic tells what the topic is for, how it is used, and what may be
given.  What may be given stands in rows of two columns: the name, and a
summary that begins in the same column in all rows of a section.

* `Topic.summary`, `OptionName.summary` — what things are for;
* `helpRows` — the two columns;
* `Topic.helpText` — the text of help.
-/

namespace LuauTidy

/-- What a command is for. -/
def CommandName.summary : CommandName → String
  | .format => "Format a file in place"
  | .compat => "Rewrite Luau-only syntax into plain Lua"
  | .check => "Parse the file and report any syntax errors"
  | .parse => "Parse and dump the syntax tree"

/-- What an option is for, in lines. -/
def OptionName.summary : OptionName → List String
  | .config => ["Config file (default: luacube.toml next to the input)"]
  | .verbose => ["Log rewrite passes and other debug output"]
  | .check => ["Exit non-zero if the file is not already formatted"]
  | .stdout => ["Print the result instead of writing the file"]
  | .callParens =>
    ["Parenthesize calls with a single string or table argument",
      "[possible values: omit, always]"]
  | .output => ["Output file (stdout if omitted)"]
  | .format => ["Format the rewritten code"]
  | .json => ["Dump as JSON instead of an outline"]
  | .help => ["Print help"]

/-- An option as a row names it: the letter, or blanks in its place, and the name. -/
def OptionName.rowName (o : OptionName) : String :=
  (match o.short? with
    | some c => "-" ++ c.toString ++ ", "
    | none => "    ") ++ o.display

/-- So many blanks. -/
def blanks (n : Nat) : String := String.ofList (List.replicate n ' ')

/-- A row: the name, and its summary in a column of its own. -/
def helpRow (width : Nat) (name : String) (summary : List String) : List String :=
  match summary with
  | [] => []
  | first :: rest =>
    ("  " ++ name ++ blanks (width - name.length) ++ "  " ++ first) ::
      rest.map (blanks (width + 4) ++ ·)

/-- The rows of a section. -/
def helpRows (rows : List (String × List String)) : List String :=
  let width := (rows.map (·.1.length)).foldl max 0
  rows.flatMap fun (name, summary) => helpRow width name summary

namespace Topic

/-- What a topic is for. -/
def summary : Topic → String
  | .program => programSummary
  | .command name => name.summary
  | .help => "Print this message or the help of the given subcommand(s)"

/-- How a topic is used. -/
def usage : Topic → String
  | .program => "Usage: lc [OPTIONS] <COMMAND>"
  | .command name => "Usage: lc " ++ name.word ++ " [OPTIONS] <INPUT>"
  | .help => "Usage: lc " ++ helpWord ++ " [COMMAND]..."

/-- The section on what a topic takes besides options. -/
def operands : Topic → List String
  | .program =>
    "Commands:" :: helpRows
      (CommandName.all.map (fun c => (c.word, [c.summary])) ++ [(helpWord, [summary .help])])
  | .command _ => "Arguments:" :: helpRows [("<INPUT>", [""])]
  | .help => "Arguments:" :: helpRows [("[COMMAND]...", ["Print help for the subcommand(s)"])]

/-- The section on the options of a topic, after an empty line. -/
def optionLines (t : Topic) : List String :=
  if t.options.isEmpty then []
  else "" :: "Options:" :: helpRows (t.options.map fun o => (o.rowName, o.summary))

/-- The text of help on a topic. -/
def helpText (t : Topic) : Text :=
  ([t.summary, "", t.usage, ""] ++ t.operands ++ t.optionLines).flatMap fun line =>
    line.toList ++ ['\n']

end Topic

end LuauTidy
