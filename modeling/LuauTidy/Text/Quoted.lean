import LuauTidy.Text.Basic
import LuauTidy.Text.Invisible

/-!
# Quoted text

A quoted text is shown between double quotes on one line.  A double quote and
a backslash are escaped, the usual control characters have their short
escapes, other characters without a visible form are written by their code
point, and the rest stands for itself.

* `Text.quotedChar` — one character;
* `Text.quoted` — a text.
-/

namespace LuauTidy.Text

/-- The code point of a character in hexadecimal digits. -/
def codePoint (c : Char) : Text := Nat.toDigits 16 c.toNat

/-- A character inside of a quoted text. -/
def quotedChar (c : Char) : Text :=
  if c == '"' || c == '\\' then ['\\', c]
  else if c == '\t' then ['\\', 't']
  else if c == '\r' then ['\\', 'r']
  else if c == '\n' then ['\\', 'n']
  else if c == '\x00' then ['\\', '0']
  else if isInvisible c then ['\\', 'u', '{'] ++ codePoint c ++ ['}']
  else [c]

/-- A text between quotes. -/
def quoted (t : Text) : Text := '"' :: t.flatMap quotedChar ++ ['"']

end LuauTidy.Text
