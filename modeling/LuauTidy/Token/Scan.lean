import LuauTidy.Token.Lexeme

/-!
# Scanning

The scanner takes lexeme after lexeme until the text is used up, and keeps
those that are tokens.  Every text has a list of tokens: what can be no token
is a token of class `error`.

* `Token.scanFrom` — the tokens of the rest of a source;
* `tokenize` — the tokens of a source.
-/

namespace LuauTidy

/-- The token that stands for the end of a source inside of an interpolated
string. -/
def Token.endInside (offset : Nat) : Token :=
  ⟨.error .unterminatedInterpolation, offset, []⟩

/-- The tokens of the rest of a source that starts at `offset`.  Each lexeme
takes a character at least, so the length of the rest bounds the steps. -/
def Token.scanFrom : (steps : Nat) → Nesting → (offset : Nat) → Text → List Token
  | _, nesting, offset, [] => if nesting.isEmpty then [] else [Token.endInside offset]
  | 0, _, _, _ :: _ => []
  | steps + 1, nesting, offset, c :: rest =>
    let lexeme := Lexeme.next nesting c rest
    let text := (c :: rest).take lexeme.length
    let later :=
      scanFrom steps lexeme.nesting (offset + Text.byteLength text)
        ((c :: rest).drop lexeme.length)
    match lexeme.cls with
    | some cls => ⟨cls, offset, text⟩ :: later
    | none => later

/-- The tokens of a source, in order. -/
def tokenize (source : Text) : List Token := Token.scanFrom source.length [] 0 source

end LuauTidy
