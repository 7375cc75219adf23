import LuauTidy.Grammar.Stmt
import LuauTidy.Token.Scan
import LuauTidy.Tree.Builder

/-!
# Parsing

The productions are tied together level by level: those of one level read
what lies deeper by those of the level below.  Every level takes a token, so
a source needs no more levels than it has tokens.

* `Descent.ofDepth` — the productions of a number of levels;
* `parse` — the tree of a source.  A source that does not parse has a tree of
  a single node over the whole text, with the complaint.
-/

namespace LuauTidy

/-- How to read what lies at most so many levels deep. -/
def Descent.ofDepth : Nat → Descent
  | 0 => ⟨fun _ => Parser.broken .noProgress, Parser.broken .noProgress⟩
  | depth + 1 =>
    let deeper := ofDepth depth
    ⟨Grammar.operand deeper, Grammar.block deeper⟩

/-- The cursor before the first token. -/
def Cursor.start (source : Text) (tokens : List Token) : Cursor :=
  { rest := tokens, lastEnd := 0, strayComments := [], made := 0, sourceEnd := source.byteLength }

/-- The tree of a source. -/
def parse (source : Text) : Except Fault SyntaxTree :=
  let tokens := tokenize source
  match (Grammar.chunk (Descent.ofDepth tokens.length)).run (Cursor.start source tokens) with
  | .ok root c =>
    .ok {
      source
      nodeCount := c.made
      root := { root with start := 0, stop := source.byteLength }
      enclosing := none
      errors := []
      strayComments := c.strayComments }
  | .error (.wrong complaint offset) c =>
    let error : SyntaxError := ⟨complaint.message, offset⟩
    .ok (SyntaxTree.abandoned source (.aux .chunk) [error] c.strayComments)
  | .error (.fault cause) _ => .error cause

end LuauTidy
