import LuauTidy.Token.Basic

/-!
# Complaints

A complaint says why a source does not parse.  Reading stops at the first
one, so it is about a single place: what the grammar asks for there, and what
stands there instead.

* `Expectation`, `Found` — the two sides of the common complaint;
* `Complaint` — the causes, with `Complaint.message`.
-/

namespace LuauTidy

/-- What the grammar asks for. -/
inductive Expectation
  | token (kind : TokenKind)
  | name
  | expression
  | callArguments
  | restOfInterpolation
  | endOfFile
  | endOfBlock
  deriving DecidableEq, Repr

/-- The wording of what the grammar asks for. -/
def Expectation.message : Expectation → String
  | .token kind => "`" ++ kind.grammarName ++ "`"
  | .name => "a name"
  | .expression => "an expression"
  | .callArguments => "call arguments"
  | .restOfInterpolation => "the rest of the interpolated string"
  | .endOfFile => "end of file"
  | .endOfBlock => "end of block after `return`"

/-- What stands in the source. -/
inductive Found
  | endOfFile
  | text (t : Text)
  deriving DecidableEq, Repr

/-- The wording of what stands in the source. -/
def Found.message : Found → String
  | .endOfFile => "end of file"
  | .text t => "`" ++ String.ofList t ++ "`"

/-- Why a source does not parse. -/
inductive Complaint
  /-- The next token is none. -/
  | lexical (cause : LexicalError)
  /-- The next token is not what the grammar asks for. -/
  | expected (what : Expectation) (found : Found)
  /-- What is assigned to is no variable. -/
  | notAssignable
  /-- An expression that is no call stands alone. -/
  | notAStatement
  deriving DecidableEq, Repr

/-- The wording of a complaint. -/
def Complaint.message : Complaint → String
  | .lexical cause => cause.message
  | .expected what found => "expected " ++ what.message ++ ", found " ++ found.message
  | .notAssignable => "cannot assign to this expression"
  | .notAStatement => "expected a statement, found an expression"

end LuauTidy
