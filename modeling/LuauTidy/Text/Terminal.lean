import LuauTidy.Text.Basic

/-!
# What a terminal shows of a text

A terminal takes control characters for orders, and takes some of them, with
the characters that follow, for longer orders: a control sequence begins with
the escape character and says by its next characters how far it goes.  A
message that quotes a text from outside shows the text without all of these.
White space between characters that are shown is kept, and so is every
character beyond ASCII that is part of no sequence.

* `ControlSequence` — the part of a sequence that comes next;
* `ControlSequence.after` — what one character does to it;
* `Text.shown` — the part of a text that is shown.
-/

namespace LuauTidy

/-- The part of a control sequence that comes next. -/
inductive ControlSequence
  /-- There is no sequence. -/
  | outside
  /-- The character that tells the sequences apart. -/
  | selector
  /-- The last character of a sequence of two or three. -/
  | designator
  /-- The parameters of a sequence, which a letter ends. -/
  | parameters
  /-- The title and the like, which a bell ends. -/
  | command
  /-- The parameters of a string. -/
  | header
  /-- The content of a string, which a terminator ends. -/
  | content
  deriving DecidableEq, Repr

namespace ControlSequence

/-- The code of the character lies in a range. -/
def within (c : Char) (first last : Nat) : Bool := first ≤ c.toNat && c.toNat ≤ last

/-- The string terminator is among the bytes of the character. -/
def holdsTerminator (c : Char) : Bool := (String.utf8EncodeChar c).contains 0x9c

/-- The sequence that a character selects. -/
def selected (c : Char) : ControlSequence :=
  if within c 0x20 0x2f then .designator
  else if c = '[' then .parameters
  else if c = ']' then .command
  else if c = 'P' then .header
  else if c = 'X' ∨ c = '^' ∨ c = '_' then .content
  else if within c 0x30 0x7e then .outside
  else .selector

/-- What comes next after a character of the sequence. -/
def after (s : ControlSequence) (c : Char) : ControlSequence :=
  match s with
  | .outside => .outside
  | .selector => selected c
  | .designator => if within c 0x30 0x7e then .outside else s
  | .parameters => if within c 0x40 0x7e then .outside else s
  | .command => if c.toNat = 0x07 then .outside else s
  | .header => if within c 0x40 0x7e then .content else s
  | .content => if holdsTerminator c then .outside else s

/-- A line end or tabulator inside the sequence is shown. -/
def letsSpaceThrough : ControlSequence → Bool
  | .selector | .designator | .parameters => true
  | _ => false

end ControlSequence

namespace Text

/-- White space that is a control character. -/
def isControlSpace (c : Char) : Bool := c == '\t' || c == '\n' || c == '\x0c' || c == '\r'

/-- A character that is shown outside of sequences. -/
def isShown (c : Char) : Bool :=
  ControlSequence.within c 0x20 0x7e || isControlSpace c || 0x80 ≤ c.toNat

/-- The part of a text that is shown.  `showing` says that the character
before was shown.  White space that is shown inside a sequence breaks it off
up to the next character that is not shown. -/
def shownFrom (showing : Bool) (s : ControlSequence) : Text → Text
  | [] => []
  | c :: rest =>
    if c = '\x1b' then shownFrom false .selector rest
    else if c = '\x18' ∨ c = '\x1a' then shownFrom false .outside rest
    else if showing ∨ s = .outside then
      if isShown c then c :: shownFrom true (if c.toNat < 0x80 then s else .outside) rest
      else shownFrom false s rest
    else if s.letsSpaceThrough && isControlSpace c then c :: shownFrom true s rest
    else shownFrom false (s.after c) rest

/-- The part of a text that is shown. -/
def shown (t : Text) : Text := shownFrom true .outside t

end Text

end LuauTidy
