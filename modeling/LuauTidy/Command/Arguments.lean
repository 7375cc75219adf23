import LuauTidy.Layout.Rules
import LuauTidy.Text.Terminal

/-!
# Arguments

The arguments of a run are read from left to right: general options, the
command, its options and its input.  An option that takes a value may have it
attached, and else takes the next argument.  Whether a value is right is
looked at when the next argument has shown that it is complete, so of two
faults the later one may be reported.  The reading ends where help is asked
for, whatever would come after that.

* `OptionName`, `CommandName`, `Topic` — what may be given, and where;
* `Task`, `Invocation` — what a run is asked to do;
* `UsageNotice` — what is said about the arguments in place of a run, with
  `UsageNotice.message`;
* `Invocation.ofArguments` — the reading.
-/

namespace LuauTidy

/-- The options. -/
inductive OptionName
  | config | verbose | check | stdout | callParens | output | format | json | help
  deriving DecidableEq, Repr

/-- The commands. -/
inductive CommandName
  | format | compat | check | parse
  deriving DecidableEq, Repr

namespace OptionName

/-- The name after two dashes. -/
def long : OptionName → String
  | .config => "config" | .verbose => "verbose" | .check => "check" | .stdout => "stdout"
  | .callParens => "call-parens" | .output => "output" | .format => "format" | .json => "json"
  | .help => "help"

/-- The letter after one dash. -/
def short? : OptionName → Option Char
  | .verbose => some 'v'
  | .output => some 'o'
  | .help => some 'h'
  | _ => none

/-- The name of the value of an option that takes one. -/
def valueName? : OptionName → Option String
  | .config => some "CONFIG"
  | .callParens => some "CALL_PARENS"
  | .output => some "OUTPUT"
  | _ => none

/-- The option as messages show it. -/
def display (o : OptionName) : String :=
  "--" ++ o.long ++ match o.valueName? with
    | some v => " <" ++ v ++ ">"
    | none => ""

end OptionName

namespace CommandName

/-- The word of a command. -/
def word : CommandName → String
  | .format => "format" | .compat => "compat" | .check => "check" | .parse => "parse"

/-- The commands, in order. -/
def all : List CommandName := [.format, .compat, .check, .parse]

/-- The command of a word. -/
def ofWord? (w : String) : Option CommandName := all.find? (·.word == w)

end CommandName

/-- What options belong to and what help is about. -/
inductive Topic
  /-- The program, before any command. -/
  | program
  | command (name : CommandName)
  /-- The word that asks for help. -/
  | help
  deriving DecidableEq, Repr

namespace Topic

/-- The word that asks for help on the words after it. -/
def helpWord : String := "help"

/-- What a word in the place of a command stands for. -/
def ofWord? (w : String) : Option Topic :=
  if w == helpWord then some .help else (CommandName.ofWord? w).map .command

/-- The options of a topic, in the order in which help shows them. -/
def options : Topic → List OptionName
  | .program => [.config, .verbose, .help]
  | .command .format => [.check, .config, .stdout, .verbose, .callParens, .help]
  | .command .compat => [.config, .output, .format, .verbose, .help]
  | .command .check => [.config, .verbose, .help]
  | .command .parse => [.config, .json, .verbose, .help]
  | .help => []

end Topic

/-- What becomes of the formatted text. -/
inductive FormatMode
  /-- It replaces the input. -/
  | inPlace
  /-- It is compared with the input. -/
  | compare
  /-- It is printed. -/
  | print
  deriving DecidableEq, Repr

/-- What a run is asked to do. -/
inductive Task
  | format (mode : FormatMode) (parens : Option CallParens)
  | compat (output : Option String) (format : Bool)
  | check
  | parse (json : Bool)
  deriving DecidableEq, Repr

/-- What a run is asked to do, with its input and the file of its settings. -/
structure Invocation where
  task : Task
  input : String
  config : Option String
  deriving DecidableEq, Repr

/-- What is said about the arguments in place of a run: help that was asked
for, or why they make no sense. -/
inductive UsageNotice
  | help (topic : Topic)
  | unexpectedArgument (argument : String)
  | unknownCommand (word : String)
  | noArguments
  | noCommand
  | noInput
  | missingValue (shown : String)
  | invalidValue (value shown : String)
  | unexpectedValue (value shown : String)
  | repeated (shown : String)
  | conflict (first second : String)
  deriving DecidableEq, Repr

/-- An argument between single quotes, as a terminal shows it. -/
def quotedArgument (a : String) : String := "'" ++ String.ofList (Text.shown a.toList) ++ "'"

/-- The first line of a summary of the program. -/
def programSummary : String := "luacube: Luau formatter and Lua compatibility rewriter"

/-- The report of arguments that make no sense, of which the first line
matters. -/
def UsageNotice.message : UsageNotice → String
  | .help _ => programSummary
  | .unexpectedArgument a => "error: unexpected argument " ++ quotedArgument a ++ " found"
  | .unknownCommand w => "error: unrecognized subcommand " ++ quotedArgument w
  | .noArguments => programSummary
  | .noCommand => "error: 'lc' requires a subcommand but one was not provided"
  | .noInput => "error: the following required arguments were not provided:"
  | .missingValue shown =>
    "error: a value is required for '" ++ shown ++ "' but none was supplied"
  | .invalidValue value shown =>
    "error: invalid value " ++ quotedArgument value ++ " for '" ++ shown ++ "'"
  | .unexpectedValue value shown =>
    "error: unexpected value " ++ quotedArgument value ++ " for '" ++ shown ++
      "' found; no more were expected"
  | .repeated shown => "error: the argument '" ++ shown ++ "' cannot be used multiple times"
  | .conflict first second =>
    "error: the argument '" ++ first ++ "' cannot be used with '" ++ second ++ "'"

/-- The way to write calls that a word names. -/
def callParensOfArgument? (value : String) : Option CallParens :=
  if value == "omit" then some .omit else if value == "always" then some .always else none

/-- What was read last and is not yet looked at. -/
inductive Pending
  | nothing
  /-- An option, with its value if that was read. -/
  | option (name : OptionName) (value : Option String)
  /-- The input. -/
  | input (value : String)
  deriving DecidableEq, Repr

/-- What was read of the arguments of a command. -/
structure Given where
  /-- The options with their values, in order. -/
  options : List (OptionName × Option String)
  input : Option String
  pending : Pending
  deriving DecidableEq, Repr

namespace Given

/-- Before the first argument. -/
def none : Given := ⟨[], .none, .nothing⟩

/-- An option was given. -/
def has (g : Given) (o : OptionName) : Bool := g.options.any fun (name, _) => name == o

/-- The value of an option. -/
def value? (g : Given) (o : OptionName) : Option String :=
  (g.options.find? fun (name, _) => name == o).bind (·.2)

/-- The option waits for its value. -/
def awaitsValue (g : Given) : Bool :=
  match g.pending with
  | .option _ .none => true
  | _ => false

/-- The input was read. -/
def hasInput (g : Given) : Bool :=
  g.input.isSome || match g.pending with
    | .input _ => true
    | _ => false

/-- A value that an option cannot have. -/
def valueError? (o : OptionName) (value : String) : Option UsageNotice :=
  if value.isEmpty then some (.missingValue o.display)
  else if o = .callParens ∧ (callParensOfArgument? value).isNone then
    some (.invalidValue value o.display)
  else .none

/-- An option accepted with its value. -/
def accept (g : Given) (o : OptionName) (value : Option String) : Except UsageNotice Given :=
  if g.has o then .error (.repeated o.display)
  else match value.bind (valueError? o) with
    | some e => .error e
    | .none => .ok { g with options := g.options ++ [(o, value)], pending := .nothing }

/-- What is pending looked at. -/
def settle (g : Given) : Except UsageNotice Given :=
  match g.pending with
  | .nothing => .ok g
  | .option o .none => .error (.missingValue o.display)
  | .option o (some v) => g.accept o (some v)
  | .input v =>
    if v.isEmpty then .error (.missingValue "<INPUT>")
    else .ok { g with input := some v, pending := .nothing }

/-- A flag, after what was pending. -/
def takeFlag (topic : Topic) (g : Given) (o : OptionName) : Except UsageNotice Given := do
  let g ← g.settle
  if o = .help then .error (.help topic) else g.accept o .none

/-- An option that takes a value, after what was pending. -/
def takeOption (g : Given) (o : OptionName) (attached : Option String) :
    Except UsageNotice Given := do
  let g ← g.settle
  match attached with
  | some v => g.accept o (some v)
  | .none => return { g with pending := .option o .none }

/-- An argument with two dashes, by its name and the value attached to it. -/
def takeLong (topic : Topic) (g : Given) (name : String) (attached : Option String) :
    Except UsageNotice Given :=
  match topic.options.find? (·.long == name) with
  | .none => .error (.unexpectedArgument ("--" ++ name))
  | some o =>
    if o.valueName?.isSome then g.takeOption o attached
    else match attached with
      | some v => .error (.unexpectedValue v o.display)
      | .none => g.takeFlag topic o

/-- An argument with one dash, by its letters.  The letter of an option that
takes a value has the rest attached to it. -/
def takeShort (topic : Topic) (g : Given) : List Char → Except UsageNotice Given
  | [] => .ok g
  | c :: rest =>
    match topic.options.find? (·.short? == some c) with
    | .none => .error (.unexpectedArgument ("-" ++ c.toString))
    | some o =>
      if o.valueName?.isSome then
        g.takeOption o (match rest with
          | [] => .none
          | '=' :: attached => some (String.ofList attached)
          | attached => some (String.ofList attached))
      else do
        takeShort topic (← g.takeFlag topic o) rest

/-- An argument that looks like an option. -/
def takeDashed (topic : Topic) (g : Given) (argument : String) :
    Option (Except UsageNotice Given) :=
  match argument.toList with
  | '-' :: '-' :: rest =>
    let name := rest.takeWhile (· != '=')
    let attached := match rest.dropWhile (· != '=') with
      | _ :: v => some (String.ofList v)
      | [] => .none
    some (takeLong topic g (String.ofList name) attached)
  | '-' :: c :: rest => some (takeShort topic g (c :: rest))
  | _ => .none

/-- The arguments of a command.  `plain` says that options are over. -/
def readCommand (topic : Topic) (plain : Bool) (g : Given) :
    List String → Except UsageNotice Given
  | [] => g.settle
  | argument :: rest =>
    if !plain && argument == "--" then readCommand topic true g rest
    else match if plain then .none else takeDashed topic g argument with
      | some taken => do readCommand topic plain (← taken) rest
      | .none =>
        match plain, g.pending with
        | false, .option o .none =>
          readCommand topic plain { g with pending := .option o (some argument) } rest
        | _, _ =>
          if g.hasInput then .error (.unexpectedArgument argument)
          else do readCommand topic plain { (← g.settle) with pending := .input argument } rest

/-- Help on the words after the one that asks for it.  Only the program has
commands, so of two words the second is unknown. -/
def helpOn : List String → UsageNotice
  | [] => .help .program
  | word :: rest =>
    match Topic.ofWord? word, rest with
    | some topic, [] => .help topic
    | some _, next :: _ => .unknownCommand next
    | .none, _ => .unknownCommand word

/-- The arguments before the command, the command, and the arguments after it.
What is pending before the command stays so. -/
def readGeneral (plain : Bool) (g : Given) :
    List String → Except UsageNotice (Given × CommandName × List String)
  | [] => do
    let g ← g.settle
    .error (if g.options.isEmpty then .noArguments else .noCommand)
  | argument :: rest =>
    match if plain || g.awaitsValue then .none else Topic.ofWord? argument with
    | some (.command name) => .ok (g, name, rest)
    | some _ => .error (helpOn rest)
    | .none =>
      if !plain && argument == "--" then readGeneral true g rest
      else match if plain then .none else takeDashed .program g argument with
        | some taken => do readGeneral plain (← taken) rest
        | .none =>
          match plain, g.pending with
          | false, .option o .none =>
            readGeneral plain { g with pending := .option o (some argument) } rest
          | true, _ =>
            if (Topic.ofWord? argument).isSome then .error (.unexpectedArgument argument)
            else .error (.unknownCommand argument)
          | _, _ => .error (.unknownCommand argument)

/-- The two options that exclude each other, in the order in which they were given. -/
def conflict? (g : Given) : Option UsageNotice :=
  match g.options.filter fun (name, _) => name == .check || name == .stdout with
  | [(first, _), (second, _)] => some (.conflict first.display second.display)
  | _ => .none

/-- What a command with its options is asked to do. -/
def task (g : Given) : CommandName → Task
  | .format =>
    .format (if g.has .check then .compare else if g.has .stdout then .print else .inPlace)
      ((g.value? .callParens).bind callParensOfArgument?)
  | .compat => .compat (g.value? .output) (g.has .format)
  | .check => .check
  | .parse => .parse (g.has .json)

end Given

/-- What arguments ask for.  The faults of a command come before those of what
is still pending before it. -/
def Invocation.ofArguments (arguments : List String) : Except UsageNotice Invocation := do
  let (before, command, rest) ← Given.readGeneral false Given.none arguments
  let g ← Given.readCommand (.command command) false Given.none rest
  match g.conflict?, g.input with
  | some e, _ => .error e
  | none, none => .error .noInput
  | none, some input => do
    let before ← before.settle
    return ⟨g.task command, input, (g.value? .config).orElse fun _ => before.value? .config⟩

end LuauTidy
