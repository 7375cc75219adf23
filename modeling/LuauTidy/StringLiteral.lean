import LuauTidy.Fault
import LuauTidy.Text.Basic

/-!
# Quotes of string literals

A short string may be written between single or double quotes.  Inside of it
only the quote that delimits it needs an escape, so the quote that occurs
less often in the value gives the shorter literal.  A body is read as pieces,
each of which stands for one element of the value or for an escape; pieces
are written again for the chosen delimiter.

* `StringPiece`, `StringPiece.ofBody` — the pieces of a body;
* `StringPiece.written` — a piece between given delimiters;
* `preferredQuote` — the delimiter that needs the fewest escapes;
* `normalizeQuotes` — a literal with its preferred delimiter.
-/

namespace LuauTidy

/-- A piece of the body of a short string. -/
inductive StringPiece
  /-- A quote character, bare or after a backslash. -/
  | quote (c : Char)
  /-- A backslash with the character after it, if that is no quote. -/
  | escape (c : Char)
  /-- A backslash at the end of the body. -/
  | loneBackslash
  /-- A character that stands for itself. -/
  | plain (c : Char)
  deriving DecidableEq, Repr

/-- A single or double quote. -/
def isQuote (c : Char) : Bool := c == '\'' || c == '"'

namespace StringPiece

/-- The pieces of a body. -/
def ofBody : Text → List StringPiece
  | [] => []
  | ['\\'] => [.loneBackslash]
  | '\\' :: c :: rest => (if isQuote c then .quote c else .escape c) :: ofBody rest
  | c :: rest => (if isQuote c then .quote c else .plain c) :: ofBody rest

/-- A piece in a body between the given delimiters: only a quote that
delimits needs its backslash. -/
def written (delimiter : Char) : StringPiece → Text
  | .quote c => if c = delimiter then ['\\', c] else [c]
  | .escape c => ['\\', c]
  | .loneBackslash => ['\\']
  | .plain c => [c]

end StringPiece

/-- The quote that occurs less often among the pieces.  Of two that occur
equally often the single quote is preferred, and if neither occurs, the
current one. -/
def preferredQuote (current : Char) (pieces : List StringPiece) : Char :=
  let single := pieces.count (.quote '\'')
  let double := pieces.count (.quote '"')
  if single < double then '\''
  else if double < single then '"'
  else if single = 0 then current
  else '\''

/-- A body with its delimiters. -/
def delimited (quote : Char) (body : Text) : Text := quote :: body ++ [quote]

/-- A string literal with the delimiter that needs the fewest escapes.  What
lies between the first and the last byte is its body.  A text that does not
start with a quote is left alone. -/
def normalizeQuotes (literal : Text) : Except Fault Text :=
  match literal with
  | [] => .ok []
  | current :: _ =>
    if isQuote current then
      match literal.slice? 1 (literal.byteLength - 1) with
      | none => .error .outOfRange
      | some body =>
        let pieces := StringPiece.ofBody body
        let quote := preferredQuote current pieces
        let rendered := pieces.flatMap (StringPiece.written quote)
        if quote = current ∧ rendered = body then .ok literal
        else .ok (delimited quote rendered)
    else .ok literal

end LuauTidy
