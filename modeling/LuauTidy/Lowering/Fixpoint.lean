import LuauTidy.Grammar.Parse
import LuauTidy.Lowering.Pass

/-!
# Lowering to the end

Passes are made one after the other, each on the text of the one before, until
a pass gives back what it was given.  The number of passes is limited.

* `LoweringError` — the ways to fail, with `LoweringError.message`;
* `lowerFrom` — the passes that are left;
* `lower` — a source lowered to the end.
-/

namespace LuauTidy

/-- Why lowering has no text. -/
inductive LoweringError
  /-- The text still changed after the allowed number of passes. -/
  | noFixpoint (passes : Nat)
  /-- The text that a pass gave does not parse. -/
  | unparsable (pass : Nat) (error : SyntaxError) (text : Text)
  deriving DecidableEq, Repr

/-- The wording of a failure. -/
def LoweringError.message : LoweringError → String
  | .noFixpoint passes => "no fixpoint reached after " ++ toString passes ++ " rewrite passes"
  | .unparsable pass error _ =>
    "rewrite pass " ++ toString pass ++ " produced source that does not parse: " ++ error.display

/-- Makes the passes that are left after so many were made. -/
def lowerFrom (options : LoweringOptions) :
    (left made : Nat) → Text → Except Fault (Except LoweringError Outcome)
  | 0, _, _ => .ok (.error (.noFixpoint options.maxPasses))
  | left + 1, made, code => do
    let tree ← parse code
    match tree.errors with
    | error :: _ =>
      if made = 0 then return .ok (.untouched .parseError code)
      else return .error (.unparsable made error code)
    | [] =>
      let next := (← tree.lowerOnce options).text
      if next = code then return .ok (.produced next)
      else lowerFrom options left (made + 1) next

/-- A source lowered to the end. -/
def lower (source : Text) (options : LoweringOptions) :
    Except Fault (Except LoweringError Outcome) :=
  lowerFrom options options.maxPasses 0 source

end LuauTidy
