import LuauTidy.Settings.Toml.Decimal
import LuauTidy.Settings.Toml.Moment
import LuauTidy.Settings.Toml.Value

/-!
# TOML strings, numbers and other words

Strings come in four forms: basic or literal, on one line or on many.  Basic
strings have escapes.  Numbers may have underscores between digits.

* `Toml.basicTail`, `Toml.literalTail`, `Toml.longBasicTail`,
  `Toml.longLiteralTail` — a string after its opening quotes, and what follows
  it;
* `Toml.integer?`, `Toml.isFloat`, `Toml.isNumeral` — numbers;
* `Toml.scalar?` — a word that is a value.
-/

namespace LuauTidy.Toml

/-- A space or tab. -/
def isBlank (c : Char) : Bool := c == ' ' || c == '\t'

/-- A control character, which stands neither in comments nor in strings. -/
def isForbidden (c : Char) : Bool := (c.toNat < 0x20 && c != '\t') || c.toNat == 0x7f

/-- The rest of a text after the line end that it starts with. -/
def afterLineEnd? : Text → Option Text
  | '\n' :: rest => some rest
  | '\r' :: '\n' :: rest => some rest
  | _ => none

/-! ### Strings -/

/-- The value of a digit in some base up to sixteen. -/
def digitValue (c : Char) : Nat :=
  if c.isDigit then c.toNat - '0'.toNat
  else if 'a' ≤ c && c ≤ 'f' then c.toNat - 'a'.toNat + 10
  else if 'A' ≤ c && c ≤ 'F' then c.toNat - 'A'.toNat + 10
  else 16

/-- The number that digits write. -/
def numberOf (base : Nat) (digits : Text) : Nat :=
  digits.foldl (fun n c => n * base + digitValue c) 0

/-- The character with a code point in hexadecimal digits. -/
def scalarValue? (digits : Text) : Option Char :=
  let n := numberOf 16 digits
  if digits.all (digitValue · < 16) && (n < 0xd800 || (0xe000 ≤ n && n < 0x110000)) then
    some (Char.ofNat n)
  else none

/-- The character of a short escape. -/
def shortEscape? : Char → Option Char
  | 'b' => some '\x08'
  | 't' => some '\t'
  | 'n' => some '\n'
  | 'f' => some '\x0c'
  | 'r' => some '\r'
  | 'e' => some '\x1b'
  | '"' => some '"'
  | '\\' => some '\\'
  | _ => none

/-- A character before the rest of a string. -/
def prepend (c : Char) (tail : Option (Text × Text)) : Option (Text × Text) :=
  tail.map fun (inside, after) => (c :: inside, after)

/-- A basic string after its opening quote. -/
def basicTail : Text → Option (Text × Text)
  | [] => none
  | '"' :: rest => some ([], rest)
  | '\\' :: 'u' :: a :: b :: c :: d :: rest => do
    prepend (← scalarValue? [a, b, c, d]) (basicTail rest)
  | '\\' :: 'U' :: a :: b :: c :: d :: e :: f :: g :: h :: rest => do
    prepend (← scalarValue? [a, b, c, d, e, f, g, h]) (basicTail rest)
  | '\\' :: 'x' :: a :: b :: rest => do prepend (← scalarValue? [a, b]) (basicTail rest)
  | '\\' :: c :: rest => do prepend (← shortEscape? c) (basicTail rest)
  | c :: rest => if isForbidden c || c == '\\' then none else prepend c (basicTail rest)

/-- A literal string after its opening quote. -/
def literalTail : Text → Option (Text × Text)
  | [] => none
  | '\'' :: rest => some ([], rest)
  | c :: rest => if isForbidden c then none else prepend c (literalTail rest)

/-- Only blanks stand before the end of the line. -/
def endsLine (t : Text) : Bool := (afterLineEnd? (t.dropWhile isBlank)).isSome

/-- A basic string of many lines after its opening quotes.  A backslash at the
end of a line skips the blanks and line ends after it; `skipping` says that
this goes on. -/
def longBasicTail (skipping : Bool) : Text → Option (Text × Text)
  | [] => none
  | '"' :: '"' :: '"' :: '"' :: '"' :: rest => some (['"', '"'], rest)
  | '"' :: '"' :: '"' :: '"' :: rest => some (['"'], rest)
  | '"' :: '"' :: '"' :: rest => some ([], rest)
  | '\\' :: 'u' :: a :: b :: c :: d :: rest => do
    prepend (← scalarValue? [a, b, c, d]) (longBasicTail false rest)
  | '\\' :: 'U' :: a :: b :: c :: d :: e :: f :: g :: h :: rest => do
    prepend (← scalarValue? [a, b, c, d, e, f, g, h]) (longBasicTail false rest)
  | '\\' :: 'x' :: a :: b :: rest => do
    prepend (← scalarValue? [a, b]) (longBasicTail false rest)
  | '\\' :: c :: rest =>
    if endsLine (c :: rest) then longBasicTail true rest
    else do prepend (← shortEscape? c) (longBasicTail false rest)
  | '\r' :: '\n' :: rest =>
    if skipping then longBasicTail true rest else prepend '\n' (longBasicTail false rest)
  | c :: rest =>
    if skipping && (isBlank c || c == '\n') then longBasicTail true rest
    else if c == '\n' then prepend c (longBasicTail false rest)
    else if isForbidden c || c == '\\' then none
    else prepend c (longBasicTail false rest)

/-- A literal string of many lines after its opening quotes. -/
def longLiteralTail : Text → Option (Text × Text)
  | [] => none
  | '\'' :: '\'' :: '\'' :: '\'' :: '\'' :: rest => some (['\'', '\''], rest)
  | '\'' :: '\'' :: '\'' :: '\'' :: rest => some (['\''], rest)
  | '\'' :: '\'' :: '\'' :: rest => some ([], rest)
  | '\r' :: '\n' :: rest => prepend '\n' (longLiteralTail rest)
  | c :: rest =>
    if isForbidden c && c != '\n' then none else prepend c (longLiteralTail rest)

/-! ### Numbers -/

/-- Digits, with single underscores between them. -/
def isGrouped (isDigit : Char → Bool) : Text → Bool
  | [] => false
  | [c] => isDigit c
  | c :: '_' :: rest => isDigit c && isGrouped isDigit rest
  | c :: rest => isDigit c && isGrouped isDigit rest

/-- The number that grouped digits write in a base. -/
def grouped? (base : Nat) (t : Text) : Option Nat :=
  if isGrouped (digitValue · < base) t then some (numberOf base (t.filter (· != '_'))) else none

/-- Grouped decimal digits without a zero before others. -/
def isWhole : Text → Bool
  | ['0'] => true
  | '0' :: _ => false
  | t => isGrouped Char.isDigit t

/-- A text without its sign, and whether the sign is a minus. -/
def unsigned : Text → Bool × Text
  | '-' :: rest => (true, rest)
  | '+' :: rest => (false, rest)
  | t => (false, t)

/-- An integer: decimal with a sign, or without one in another base. -/
def anyInteger? (t : Text) : Option Int :=
  match t with
  | '0' :: 'x' :: digits => (grouped? 16 digits).map Int.ofNat
  | '0' :: 'o' :: digits => (grouped? 8 digits).map Int.ofNat
  | '0' :: 'b' :: digits => (grouped? 2 digits).map Int.ofNat
  | _ =>
    let (negative, digits) := unsigned t
    if isWhole digits then
      (grouped? 10 digits).map fun n => if negative then -Int.ofNat n else Int.ofNat n
    else none

/-- An integer that fits into a signed or unsigned word of 128 bits. -/
def integer? (t : Text) : Option Int := do
  let n ← anyInteger? t
  if -Int.pow 2 127 ≤ n ∧ n < Int.pow 2 128 then some n else none

/-- An exponent after its mark. -/
def isExponent (t : Text) : Bool := isGrouped Char.isDigit (unsigned t).2

/-- What may follow the whole part of a float: a fraction, an exponent, or both. -/
def isFraction : Text → Bool
  | '.' :: rest =>
    let digits := rest.takeWhile fun c => c.isDigit || c == '_'
    isGrouped Char.isDigit digits &&
      match rest.dropWhile fun c => c.isDigit || c == '_' with
      | [] => true
      | e :: exponent => (e == 'e' || e == 'E') && isExponent exponent
  | e :: exponent => (e == 'e' || e == 'E') && isExponent exponent
  | [] => false

/-- A whole part with a fraction, an exponent, or both. -/
def isDecimal (t : Text) : Bool :=
  isWhole (t.takeWhile fun c => c.isDigit || c == '_') &&
    isFraction (t.dropWhile fun c => c.isDigit || c == '_')

/-- A float.  An infinity has to be written as such: a number that is too
great for a double is none. -/
def isFloat (t : Text) : Bool :=
  let digits := (unsigned t).2
  digits == "inf".toList || digits == "nan".toList ||
    (isDecimal digits && (Decimal.ofText digits).fitsDouble)

/-- A well written number of any size.  The mark of a base may stand without
digits, which makes a number without a value. -/
def isNumeral (t : Text) : Bool :=
  (anyInteger? t).isSome || isDecimal (unsigned t).2 ||
    t == "0x".toList || t == "0o".toList || t == "0b".toList

/-- The value that a word is. -/
def scalar? (word : Text) : Option TomlValue :=
  if word == "true".toList then some (.boolean true)
  else if word == "false".toList then some (.boolean false)
  else match integer? word with
    | some n => some (.integer n)
    | none =>
      if isFloat word then some .float
      else if isNumeral word then some .unheldNumber
      else if isMoment word then some .moment
      else none

end LuauTidy.Toml
