import LuauTidy.Token.Basic
import LuauTidy.Token.Nesting

/-!
# Lexemes

A lexeme is the stretch of text that the scanner takes in one step.  It is
described by its length in characters, by what it is (a token of some class,
or a blank that is no token) and by the nesting after it.  Lengths, not
texts: the stretch and what follows it are then cut from one list, and
nothing can get lost between them.

* `Lexeme.inCode` — the lexeme at a character of code;
* `Lexeme.inLiteral` — the lexeme at a character of the literal part of an
  interpolated string;
* `numeralLength`, `shortStringTail`, `longBracketLevel?`, `lineCommentTail`,
  `literalTail` — the shapes of the longer lexemes.
-/

namespace LuauTidy

/-- A stretch of text that is taken in one step. -/
structure Lexeme where
  /-- What it is; a blank is nothing. -/
  cls : Option TokenClass
  /-- Its length in characters. -/
  length : Nat
  /-- The nesting after it. -/
  nesting : Nesting
  deriving DecidableEq, Repr

namespace Lexeme

/-! ### Characters -/

/-- A character that separates tokens in code. -/
def isBlank (c : Char) : Bool :=
  c == ' ' || c == '\t' || c == '\r' || c == '\n' || c == '\x0b' || c == '\x0c'

/-- A character that the escape for a line continuation skips; a vertical tab
is none. -/
def isSkippedBlank (c : Char) : Bool :=
  c == ' ' || c == '\t' || c == '\r' || c == '\n' || c == '\x0c'

/-- A character that a word starts with. -/
def isWordStart (c : Char) : Bool := c.isAlpha || c == '_'

/-- A character of a word. -/
def isWordChar (c : Char) : Bool := c.isAlphanum || c == '_'

/-- A decimal digit or a separator of digits. -/
def isDecimal (c : Char) : Bool := c.isDigit || c == '_'

/-- A hexadecimal digit or a separator of digits. -/
def isHexadecimal (c : Char) : Bool :=
  isDecimal c || ('a' ≤ c && c ≤ 'f') || ('A' ≤ c && c ≤ 'F')

/-! ### Numbers -/

/-- The length of a fraction with its point.  Two points are no fraction. -/
def fractionLength : Text → Nat
  | '.' :: '.' :: _ => 0
  | '.' :: rest => 1 + Text.runLength isDecimal rest
  | _ => 0

/-- The length of an exponent with its mark and sign. -/
def exponentLength : Text → Nat
  | [] => 0
  | e :: rest =>
    if e == 'e' || e == 'E' then
      match rest with
      | '+' :: digits => 2 + Text.runLength isDecimal digits
      | '-' :: digits => 2 + Text.runLength isDecimal digits
      | digits => 1 + Text.runLength isDecimal digits
    else
      0

/-- The length of a decimal number. -/
def decimalLength (t : Text) : Nat :=
  let whole := Text.runLength isDecimal t
  let fraction := fractionLength (t.drop whole)
  whole + fraction + exponentLength (t.drop (whole + fraction))

/-- A character that announces another radix after a zero. -/
def isRadixMark (c : Char) : Bool := c == 'x' || c == 'X' || c == 'b' || c == 'B'

/-- The length of a number, whatever its radix. -/
def numeralLength : Text → Nat
  | '0' :: mark :: rest =>
    if isRadixMark mark then 2 + Text.runLength isHexadecimal rest
    else decimalLength ('0' :: mark :: rest)
  | t => decimalLength t

/-- The lexeme of a number: a word that runs on from it spoils it. -/
def number (n : Nesting) (t : Text) : Lexeme :=
  let length := numeralLength t
  match t.drop length with
  | c :: rest =>
    if isWordStart c then
      ⟨some (.error .malformedNumber), length + Text.runLength isWordChar (c :: rest), n⟩
    else
      ⟨some (.literal .number), length, n⟩
  | [] => ⟨some (.literal .number), length, n⟩

/-! ### Words -/

/-- What a word is: a literal, a keyword or a name. -/
def wordClass (word : Text) : TokenClass :=
  if word == "nil".toList then .literal .nil
  else if word == "true".toList then .literal .true
  else if word == "false".toList then .literal .false
  else .token ((TokenKind.keyword? word).getD .name)

/-- The lexeme of a word. -/
def word (n : Nesting) (t : Text) : Lexeme :=
  ⟨some (wordClass (t.takeWhile isWordChar)), Text.runLength isWordChar t, n⟩

/-! ### Strings and comments -/

/-- The length of what follows the opening quote of a short string, and
whether it ends in the closing quote.  It ends before a line break that is
neither escaped nor skipped; `skipping` says that blanks are being skipped. -/
def shortStringTail (quote : Char) (skipping : Bool) : Text → Nat × Bool
  | [] => (0, false)
  | '\\' :: [] => (1, false)
  | '\\' :: 'z' :: rest =>
    let (length, closed) := shortStringTail quote true rest
    (length + 2, closed)
  | '\\' :: '\r' :: '\n' :: rest =>
    let (length, closed) := shortStringTail quote false rest
    (length + 3, closed)
  | '\\' :: _ :: rest =>
    let (length, closed) := shortStringTail quote false rest
    (length + 2, closed)
  | c :: rest =>
    if skipping && isSkippedBlank c then
      let (length, closed) := shortStringTail quote true rest
      (length + 1, closed)
    else if c == '\n' then (0, false)
    else if c == quote then (1, true)
    else
      let (length, closed) := shortStringTail quote false rest
      (length + 1, closed)

/-- The lexeme of a short string, after its opening quote. -/
def shortString (n : Nesting) (quote : Char) (rest : Text) : Lexeme :=
  let (length, closed) := shortStringTail quote false rest
  ⟨some (if closed then .literal .string else .error .unterminatedString), length + 1, n⟩

/-- The number of equals signs of the long bracket that a text opens with. -/
def longBracketLevel? : Text → Option Nat
  | '[' :: rest =>
    let level := Text.runLength (· == '=') rest
    match rest.drop level with
    | '[' :: _ => some level
    | _ => none
  | _ => none

/-- The closing form of a long bracket. -/
def longBracketCloser (level : Nat) : Text := ']' :: List.replicate level '=' ++ [']']

/-- The length of a text in long brackets, if it is closed. -/
def longBracketLength? (level : Nat) (t : Text) : Option Nat :=
  (Text.indexOf? (longBracketCloser level) (t.drop (level + 2))).map fun inside =>
    (level + 2) + inside + (level + 2)

/-- The length of a line comment after its dashes.  The carriage return of the
line's end is no part of it. -/
def lineCommentTail (rest : Text) : Nat :=
  let line := rest.takeWhile (· != '\n')
  if line.getLast? = some '\r' then line.length - 1 else line.length

/-- The lexeme of a comment, after its dashes. -/
def comment (n : Nesting) (rest : Text) : Lexeme :=
  match longBracketLevel? rest with
  | some level =>
    match longBracketLength? level rest with
    | some length => ⟨some .comment, length + 2, n⟩
    | none => ⟨some (.error .unterminatedLongComment), rest.length + 2, n⟩
  | none => ⟨some .comment, lineCommentTail rest + 2, n⟩

/-- The lexeme of a string in long brackets of a level. -/
def longString (n : Nesting) (level : Nat) (t : Text) : Lexeme :=
  match longBracketLength? level t with
  | some length => ⟨some (.literal .string), length, n⟩
  | none => ⟨some (.error .unterminatedLongString), t.length, n⟩

/-! ### Code -/

/-- The lexeme of a symbol, or of a character that is none. -/
def symbol (n : Nesting) (t : Text) : Lexeme :=
  if "...".toList.isPrefixOf t then ⟨some (.literal .vararg), 3, n⟩
  else match TokenKind.symbols.find? fun k => k.grammarName.toList.isPrefixOf t with
    | some k => ⟨some (.token k), k.grammarName.toList.length, n⟩
    | none => ⟨some (.error .unexpectedCharacter), 1, n⟩

/-- A number starts here: with a digit, or with a point before a digit. -/
def startsNumber : Text → Bool
  | '.' :: c :: _ => c.isDigit
  | c :: _ => c.isDigit
  | [] => false

/-- The lexeme at a character of code. -/
def inCode (n : Nesting) (c : Char) (rest : Text) : Lexeme :=
  if isBlank c then ⟨none, 1, n⟩
  else if isWordStart c then word n (c :: rest)
  else if startsNumber (c :: rest) then number n (c :: rest)
  else if c == '"' || c == '\'' then shortString n c rest
  else if c == '`' then ⟨some (.token .interpStart), 1, n.openString⟩
  else if c == '{' then ⟨some (.token .lbrace), 1, n.openBrace⟩
  else if c == '}' then
    ⟨some (.token (if n.closesInterpolation then .interpBraceClose else .rbrace)), 1,
      n.closeBrace⟩
  else if "--".toList.isPrefixOf (c :: rest) then comment n rest.tail
  else match longBracketLevel? (c :: rest) with
    | some level => longString n level (c :: rest)
    | none => symbol n (c :: rest)

/-! ### The literal part of an interpolated string -/

/-- The length of the literal text up to the next brace or backquote, and
whether a line break ends it, which is then counted. -/
def literalTail : Text → Nat × Bool
  | [] => (0, false)
  | '\\' :: [] => (1, false)
  | '\\' :: _ :: rest =>
    let (length, broken) := literalTail rest
    (length + 2, broken)
  | c :: rest =>
    if c == '\n' then (1, true)
    else if c == '`' || c == '{' then (0, false)
    else
      let (length, broken) := literalTail rest
      (length + 1, broken)

/-- The lexeme at a character of the literal part of an interpolated string. -/
def inLiteral (n : Nesting) (c : Char) (rest : Text) : Lexeme :=
  if c == '`' then ⟨some (.token .interpEnd), 1, n.leaveString⟩
  else if c == '{' then ⟨some (.token .interpBraceOpen), 1, n.enterCode⟩
  else
    match literalTail (c :: rest) with
    | (length, true) => ⟨some (.error .unterminatedInterpolation), length, n.leaveString⟩
    | (length, false) => ⟨some (.token .interpContent), length, n⟩

/-- The lexeme that a text starts with. -/
def next (n : Nesting) (c : Char) (rest : Text) : Lexeme :=
  if n.inLiteral then inLiteral n c rest else inCode n c rest

end Lexeme

end LuauTidy
