import LuauTidy.Lowering.Pass

/-!
# Fillers

A pass can do without marks and overwrite each construct by a piece of text
that is found again: a filler.  It is as long as the construct in bytes, so
offsets stay valid, and it stands nowhere else.  A filler is a dollar sign,
which is in no token of the language, followed by letters and digits.

* `Filler.isShaped` — the form of a filler of a length;
* `Filler.isFree`, `Filler.areFree` — fillers that can be told from the text
  and from each other;
* `SyntaxTree.lowerOnceWith` — a pass with given fillers, one for each site.
-/

namespace LuauTidy

namespace Filler

/-- The form of a filler of a length. -/
def isShaped (length : Nat) : Text → Bool
  | [] => length == 0
  | c :: rest => c == '$' && rest.all Char.isAlphanum && rest.length + 1 == length

/-- The filler can be told from the text and from the fillers in use. -/
def isFree (source : Text) (used : List Text) (filler : Text) : Bool :=
  !Text.occursIn filler source &&
    used.all fun other => !Text.occursIn filler other && !Text.occursIn other filler

/-- Fillers that can be taken for the sites of a text one after the other. -/
def areFree (source : Text) (used : List Text) : List (Site × Text) → Bool
  | [] => true
  | (site, filler) :: rest =>
    isShaped site.length filler && isFree source used filler &&
      areFree source (filler :: used) rest

end Filler

/-- The text with every site overwritten by its filler. -/
def Text.fillSites (t : Text) : List (Site × Text) → Option Text
  | [] => some t
  | (site, filler) :: rest => do
    (← t.replaceRange? site.node.start site.node.stop filler).fillSites rest

namespace SyntaxTree

/-- The text with every filler exchanged for the lowered text of its site. -/
def substitute (t : SyntaxTree) (filled : Text) : List (Site × Text) → Except Fault Text
  | [] => .ok filled
  | (site, filler) :: rest => do
    let text ← t.loweredSite site
    t.substitute (replaceFirst filler text filled) rest

/-- A tree lowered once, with a filler for every site. -/
def lowerOnceWith (t : SyntaxTree) (options : LoweringOptions) (fillers : List Text) :
    Except Fault Outcome :=
  if t.hasError then .ok (.untouched .parseError t.source)
  else do
    let found := (t.sites options).zip fillers
    match t.source.fillSites found with
    | none => .error .outOfRange
    | some filled =>
      let text ← t.substitute filled found
      return .produced text.withSingleTrailingNewline

end SyntaxTree

end LuauTidy
