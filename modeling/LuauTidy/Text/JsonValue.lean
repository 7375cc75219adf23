import LuauTidy.Text.Basic

/-!
# JSON values

The values that a tree is dumped as, and their indented form: two spaces for
each level, one member or element a line, and nothing between the brackets of
an empty array.

* `JsonValue` — values with members in the order in which they are written;
* `JsonValue.pretty` — the indented form.
-/

namespace LuauTidy

/-- A JSON value.  Numbers are the natural ones. -/
inductive JsonValue
  | bool (b : Bool)
  | number (n : Nat)
  | string (t : Text)
  | array (elements : List JsonValue)
  | object (members : List (String × JsonValue))

namespace JsonValue

/-- A hexadecimal digit. -/
def hexDigit (n : Nat) : Char := (Nat.toDigits 16 n).headD '0'

/-- A character inside of a string. -/
def escapedChar (c : Char) : Text :=
  if c == '"' || c == '\\' then ['\\', c]
  else if c == '\x08' then ['\\', 'b']
  else if c == '\x0c' then ['\\', 'f']
  else if c == '\n' then ['\\', 'n']
  else if c == '\r' then ['\\', 'r']
  else if c == '\t' then ['\\', 't']
  else if c.toNat < 0x20 then
    ['\\', 'u', '0', '0', hexDigit (c.toNat / 16), hexDigit (c.toNat % 16)]
  else [c]

/-- A string in its quotes. -/
def writtenString (t : Text) : Text := '"' :: t.flatMap escapedChar ++ ['"']

/-- The start of a line at a level. -/
def lineAt (level : Nat) : Text := '\n' :: List.replicate (2 * level) ' '

mutual

/-- The indented form of a value that stands at a level. -/
def pretty (level : Nat) : JsonValue → Text
  | .bool b => (toString b).toList
  | .number n => (toString n).toList
  | .string t => writtenString t
  | .array [] => ['[', ']']
  | .array (e :: rest) => '[' :: prettyElements (level + 1) (e :: rest) ++ lineAt level ++ [']']
  | .object [] => ['{', '}']
  | .object (m :: rest) => '{' :: prettyMembers (level + 1) (m :: rest) ++ lineAt level ++ ['}']

/-- The elements of an array, each on its line. -/
def prettyElements (level : Nat) : List JsonValue → Text
  | [] => []
  | [e] => lineAt level ++ e.pretty level
  | e :: rest => lineAt level ++ e.pretty level ++ [','] ++ prettyElements level rest

/-- The members of an object, each on its line. -/
def prettyMembers (level : Nat) : List (String × JsonValue) → Text
  | [] => []
  | [(key, value)] => lineAt level ++ writtenString key.toList ++ [':', ' '] ++ value.pretty level
  | (key, value) :: rest =>
    lineAt level ++ writtenString key.toList ++ [':', ' '] ++ value.pretty level ++ [','] ++
      prettyMembers level rest

end

end JsonValue

end LuauTidy
