import LuauTidy.Text.Basic

/-!
# Drafts

While a pass exchanges parts of a text, marks hold the places of the parts.
A draft is a text in which characters have given way to marks.  A mark tells
which part it stands for and takes the room of one byte, so offsets into the
text remain offsets into the draft; and as it is no character, no text that is
put in later can be taken for it.

* `Slot`, `Draft` — characters and marks in order;
* `Draft.ofText`, `Draft.text` — from a text and back;
* `Draft.hold?` — a part overwritten by marks;
* `Draft.release` — the marks of a part exchanged for a text.
-/

namespace LuauTidy

/-- A place in a draft. -/
inductive Slot
  | char (c : Char)
  /-- A mark of the part with a number. -/
  | mark (part : Nat)
  deriving DecidableEq, Repr

namespace Slot

/-- The room of a place, in bytes. -/
def size : Slot → Nat
  | .char c => c.utf8Size
  | .mark _ => 1

/-- The character at a place.  A mark that is never exchanged leaves a dollar
sign, which is in no token of the language. -/
def toChar : Slot → Char
  | .char c => c
  | .mark _ => '$'

end Slot

/-- A text with marks in it. -/
abbrev Draft := List Slot

namespace Draft

/-- A text without marks. -/
def ofText (t : Text) : Draft := t.map .char

/-- The characters of a draft. -/
def text (d : Draft) : Text := d.map Slot.toChar

/-- A text is what a draft of it holds. -/
@[simp] theorem text_ofText (t : Text) : text (ofText t) = t := by
  simp [text, ofText, Function.comp_def, Slot.toChar]

/-- The marks of a part of a length. -/
def marks (part length : Nat) : Draft := List.replicate length (.mark part)

/-- The draft with the range between two offsets overwritten by the marks of
a part. -/
def hold? (d : Draft) (part start stop : Nat) : Option Draft :=
  if start ≤ stop then do
    let (before, rest) ← cutAt? Slot.size start d
    let (_, after) ← cutAt? Slot.size (stop - start) rest
    return before ++ marks part (stop - start) ++ after
  else
    none

/-- The draft with the marks of a part, if they are all there, exchanged for
a text. -/
def release (d : Draft) (part length : Nat) (t : Text) : Draft :=
  replaceFirst (marks part length) (ofText t) d

end Draft

end LuauTidy
