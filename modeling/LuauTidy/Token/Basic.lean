import LuauTidy.Kind
import LuauTidy.Text.Basic

/-!
# Tokens

A token is a part of the source that stands for itself: a keyword or symbol,
a literal, a comment, or a stretch that can be no token and says why.  It
knows the offset at which it starts and its text, and so where it stops.

* `LexicalError` — the ways in which a stretch of text is no token;
* `TokenClass` — what a token is;
* `Token` — a token with its place.
-/

namespace LuauTidy

/-- Why a stretch of text is no token. -/
inductive LexicalError
  | unterminatedString | unterminatedLongString | unterminatedLongComment
  | unterminatedInterpolation | malformedNumber | unexpectedCharacter
  deriving DecidableEq, Repr

/-- The wording of a lexical error. -/
def LexicalError.message : LexicalError → String
  | .unterminatedString => "unterminated string"
  | .unterminatedLongString => "unterminated long string"
  | .unterminatedLongComment => "unterminated long comment"
  | .unterminatedInterpolation => "unterminated interpolated string"
  | .malformedNumber => "malformed number"
  | .unexpectedCharacter => "unexpected character"

/-- What a token is. -/
inductive TokenClass
  /-- A keyword, symbol, name or piece of an interpolated string. -/
  | token (kind : TokenKind)
  /-- A literal, which is an expression by itself. -/
  | literal (kind : ExprKind)
  | comment
  | error (cause : LexicalError)
  deriving DecidableEq, Repr

/-- A token of a source. -/
structure Token where
  cls : TokenClass
  /-- The offset of the first byte. -/
  start : Nat
  text : Text
  deriving DecidableEq, Repr

/-- The offset after the last byte. -/
def Token.stop (t : Token) : Nat := t.start + t.text.byteLength

/-- The offsets between which a token lies. -/
def Token.range (t : Token) : Nat × Nat := (t.start, t.stop)

/-- A comment. -/
def Token.isComment (t : Token) : Bool := t.cls == .comment

end LuauTidy
