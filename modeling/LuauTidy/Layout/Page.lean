import LuauTidy.Fault
import LuauTidy.Text.Basic

/-!
# Pages

A page is a text that grows at its end, with the depth of indentation at
which the next line starts.  The characters are kept last first, so the end
of the page is at hand.  What has been written since some length can be read,
and also taken back.

* `Page`, `Layout` — the page, and steps that write on it;
* `Page.text`, `Page.since`, `Page.truncate`, `Page.insert` — the text;
* `Layout.put`, `newline`, `tabs`, `deeper`, `shallower` — writing.
-/

namespace LuauTidy

/-- A text that grows at its end. -/
structure Page where
  /-- The characters, last first. -/
  reversed : Text
  /-- The number of tabs that a new line starts with. -/
  indent : Nat
  deriving DecidableEq, Repr

namespace Page

/-- The page without text. -/
def blank : Page := ⟨[], 0⟩

/-- The text. -/
def text (p : Page) : Text := p.reversed.reverse

/-- The number of characters. -/
def length (p : Page) : Nat := p.reversed.length

/-- The page with a text at its end. -/
def append (p : Page) (t : Text) : Page := { p with reversed := t.reverseAux p.reversed }

/-- The text after the first `mark` characters. -/
def since (p : Page) (mark : Nat) : Text := (p.reversed.take (p.length - mark)).reverse

/-- The page with its first `mark` characters only. -/
def truncate (p : Page) (mark : Nat) : Page :=
  { p with reversed := p.reversed.drop (p.length - mark) }

/-- The page with a character put after the first `mark` characters. -/
def insert (p : Page) (mark : Nat) (c : Char) : Page :=
  { p with
    reversed := p.reversed.take (p.length - mark) ++ c :: p.reversed.drop (p.length - mark) }

/-- The text ends in a character. -/
def endsWith (p : Page) (c : Char) : Bool := p.reversed.head? == some c

end Page

/-- A step that writes on a page, unless it meets a tree of a wrong shape. -/
abbrev Layout := StateT Page (Except Fault)

namespace Layout

/-- Writes a text. -/
def put (t : Text) : Layout Unit := modify fun p => p.append t

/-- Writes a fixed text. -/
def write (s : String) : Layout Unit := put s.toList

/-- Ends the line. -/
def newline : Layout Unit := put ['\n']

/-- Writes the indentation of a new line. -/
def tabs : Layout Unit := do put (List.replicate (← get).indent '\t')

/-- Indents further lines by one more tab. -/
def deeper : Layout Unit := modify fun p => { p with indent := p.indent + 1 }

/-- Indents further lines by one tab less, if there is one. -/
def shallower : Layout Unit := modify fun p => { p with indent := p.indent - 1 }

/-- Ends the line, unless the page ends in a newline. -/
def endLine : Layout Unit := do
  if !(← get).endsWith '\n' then newline

/-- Takes a newline back, if the page ends in one. -/
def rejoinLine : Layout Unit := do
  if (← get).endsWith '\n' then modify fun p => { p with reversed := p.reversed.tail }

end Layout

end LuauTidy
