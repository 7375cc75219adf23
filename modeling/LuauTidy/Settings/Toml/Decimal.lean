import LuauTidy.Text.Basic

/-!
# Decimal numbers

A decimal number is a coefficient times a power of ten.  It is kept exactly,
so that no rounding takes part in what is decided about it.

* `Decimal`, `Decimal.ofText` — the numbers and how they are read;
* `Decimal.fitsDouble` — the double nearest to a number is finite.
-/

namespace LuauTidy

/-- A coefficient times a power of ten. -/
structure Decimal where
  coefficient : Nat
  exponent : Int
  deriving DecidableEq, Repr

namespace Decimal

/-- The number that the digits of a text write, whatever stands between them. -/
def digitsValue (t : Text) : Nat :=
  (t.filter Char.isDigit).foldl (fun n c => n * 10 + (c.toNat - '0'.toNat)) 0

/-- A character that announces an exponent. -/
def isExponentMark (c : Char) : Bool := c == 'e' || c == 'E'

/-- The number that an exponent writes after its mark. -/
def exponentValue : Text → Int
  | '-' :: digits => -Int.ofNat (digitsValue digits)
  | digits => Int.ofNat (digitsValue digits)

/-- The number that a whole part with a fraction or an exponent writes. -/
def ofText (t : Text) : Decimal :=
  let number := t.takeWhile (!isExponentMark ·)
  let exponent := exponentValue (t.dropWhile (!isExponentMark ·)).tail
  let places := (number.dropWhile (· != '.')).countP Char.isDigit
  ⟨digitsValue number, exponent - Int.ofNat places⟩

/-- The least number that is nearer to the power after the greatest finite
double than to that double, or as near. -/
def doubleBound : Nat := (Nat.pow 2 54 - 1) * Nat.pow 2 970

/-- The double nearest to the number is finite.  Numbers of more than 310
places are above the bound, and those of no more than 308 below it, so only
few powers of ten are ever needed. -/
def fitsDouble (d : Decimal) : Bool :=
  d.coefficient == 0 ||
    match d.exponent with
    | .ofNat n => n < 310 && d.coefficient * Nat.pow 10 n < doubleBound
    | .negSucc n =>
      (Nat.toDigits 10 d.coefficient).length ≤ n + 309 ||
        d.coefficient < doubleBound * Nat.pow 10 (n + 1)

end Decimal

end LuauTidy
