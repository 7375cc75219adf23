import LuauTidy.Text.Basic

/-!
# Outcomes of a pass

A pass over a source either produces a text, which ends in exactly one
newline, or leaves the source as it is and says why.

* `Obstacle` — why a source is left as it is;
* `Outcome` — what a pass gives, with `Outcome.text`.
-/

namespace LuauTidy

/-- Why a pass leaves a source as it is. -/
inductive Obstacle
  /-- The source does not parse. -/
  | parseError
  /-- The source has a comment for which the layout has no place. -/
  | strayComment
  deriving DecidableEq, Repr

/-- What a pass gives. -/
inductive Outcome
  | produced (text : Text)
  | untouched (reason : Obstacle) (text : Text)
  deriving DecidableEq, Repr

/-- The text after a pass. -/
def Outcome.text : Outcome → Text
  | .produced text => text
  | .untouched _ text => text

end LuauTidy
