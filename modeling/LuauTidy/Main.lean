import LuauTidy.Command.Run

/-!
# The command line

The outer layer of the program: it looks up the paths that a plan refers to,
and then carries the plan out.
-/

namespace LuauTidy

/-- What a path leads to on the disk. -/
def lookOnDisk (path : String) : IO Entry := do
  let place := (← IO.currentDir) / path
  if ← place.isDir then return .folder
  else if ← place.pathExists then
    try
      return .text (← IO.FS.readFile place).toList
    catch _ => return .unreadable
  else return .absent

/-- Prints a report. -/
def report (r : Report) : IO UInt32 := do
  (← IO.getStdout).putStr (String.ofList r.out)
  (← IO.getStderr).putStr (String.ofList r.err)
  return r.exit.toUInt32

/-- Carries a plan out. -/
def carryOut (p : Plan) : IO UInt32 := do
  match p.write with
  | none => report p.report
  | some (path, text) =>
    let written ← try
        IO.FS.writeFile path (String.ofList text)
        pure true
      catch _ => pure false
    report (if written then p.report else Report.failure (.unwritable path))

end LuauTidy

/-- Runs the program. -/
def main (arguments : List String) : IO UInt32 := do
  match LuauTidy.Invocation.ofArguments arguments with
  | .error e => LuauTidy.report (.usage e)
  | .ok i =>
    let entries ← i.paths.mapM fun path => do return (path, ← LuauTidy.lookOnDisk path)
    match i.plan fun path => (entries.lookup path).getD .absent with
    | .ok p => LuauTidy.carryOut p
    | .error f =>
      IO.eprintln (f.message?.getD "a tree has an unexpected shape")
      return 101
