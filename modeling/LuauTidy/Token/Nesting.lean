/-!
# Nesting of interpolated strings

An interpolated string holds code between braces, and that code may hold
further interpolated strings.  The nesting says which strings are open where
the scanner stands, and for each of them whether it is in its literal part or
in the code of an interpolation; there it counts the open braces of the code,
so that the brace which closes the interpolation is known.

* `Level`, `Nesting` — the open strings, innermost first;
* `Nesting.inLiteral` — which way to read on;
* `Nesting.enterCode`, `openBrace`, `closeBrace` — how braces change it.
-/

namespace LuauTidy

/-- Where the scanner stands in one open interpolated string. -/
inductive Level
  /-- In the literal part. -/
  | literal
  /-- In the code of an interpolation, within this many braces of the code. -/
  | code (braces : Nat)
  deriving DecidableEq, Repr

/-- The open interpolated strings, innermost first. -/
abbrev Nesting := List Level

namespace Nesting

/-- The next character belongs to the literal part of a string. -/
def inLiteral : Nesting → Bool
  | .literal :: _ => true
  | _ => false

/-- After the backquote that opens a string. -/
def openString (n : Nesting) : Nesting := .literal :: n

/-- After the innermost string, whether it was closed or given up. -/
def leaveString (n : Nesting) : Nesting := n.tail

/-- After the brace that opens an interpolation. -/
def enterCode : Nesting → Nesting
  | _ :: outer => .code 0 :: outer
  | [] => []

/-- After an opening brace in code. -/
def openBrace : Nesting → Nesting
  | .code braces :: outer => .code (braces + 1) :: outer
  | n => n

/-- A closing brace in code closes an interpolation. -/
def closesInterpolation : Nesting → Bool
  | .code 0 :: _ => true
  | _ => false

/-- After a closing brace in code. -/
def closeBrace : Nesting → Nesting
  | .code 0 :: outer => .literal :: outer
  | .code (braces + 1) :: outer => .code braces :: outer
  | n => n

end Nesting

end LuauTidy
