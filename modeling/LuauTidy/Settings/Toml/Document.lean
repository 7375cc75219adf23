import LuauTidy.Settings.Toml.Scalar

/-!
# TOML documents

A document is read line by line: a header opens a table, and a line with a
key and a value adds to the table opened last.  A text that breaks a rule has
no reading at all.

* `Toml.keys` — a dotted key;
* `Toml.value` — a value, which may hold further ones;
* `Toml.document` — the table of a document.
-/

namespace LuauTidy.Toml

/-- The rest of a text after blanks, line ends and comments.  `inComment` says
that a comment goes on. -/
def skipGap (inComment : Bool) : Text → Option Text
  | [] => some []
  | '\r' :: '\n' :: rest => skipGap false rest
  | c :: rest =>
    if c == '\n' then skipGap false rest
    else if inComment then if isForbidden c then none else skipGap true rest
    else if c == '#' then skipGap true rest
    else if isBlank c then skipGap false rest
    else some (c :: rest)

/-- The rest of a text after the comment that it starts with. -/
def skipComment : Text → Option Text
  | [] => some []
  | '\r' :: '\n' :: rest => some ('\n' :: rest)
  | c :: rest =>
    if c == '\n' then some (c :: rest) else if isForbidden c then none else skipComment rest

/-- The rest of a text after the end of its line, which may have a comment. -/
def endOfLine (t : Text) : Option Text := do
  let t := t.dropWhile isBlank
  let t ← if t.head? == some '#' then skipComment t else some t
  if t.isEmpty then some [] else afterLineEnd? t

/-- A character of a bare key. -/
def isKeyChar (c : Char) : Bool := c.isAlphanum || c == '_' || c == '-'

/-- One key, bare or quoted. -/
def key (t : Text) : Option (Text × Text) :=
  match t with
  | '"' :: rest => basicTail rest
  | '\'' :: rest => literalTail rest
  | _ =>
    let bare := t.takeWhile isKeyChar
    if bare.isEmpty then none else some (bare, t.dropWhile isKeyChar)

/-- A dotted key with the blanks after it.  Each part takes a character, which
bounds the steps. -/
def keysFrom : (steps : Nat) → Text → Option (List Text × Text)
  | 0, _ => none
  | steps + 1, t => do
    let (first, t) ← key (t.dropWhile isBlank)
    match t.dropWhile isBlank with
    | '.' :: rest =>
      let (others, t) ← keysFrom steps rest
      return (first :: others, t)
    | rest => return ([first], rest)

/-- The number of parts that a dotted key may have, and of arrays and tables
that may lie in one another. -/
def maxNesting : Nat := 80

/-- A dotted key with the blanks after it. -/
def keys (t : Text) : Option (List Text × Text) :=
  (keysFrom t.length t).filter fun (names, _) => names.length ≤ maxNesting

/-- A character of a word that is a value. -/
def isWordChar (c : Char) : Bool :=
  c.isAlphanum || c == '_' || c == '-' || c == '+' || c == '.' || c == ':'

/-- The word that a text starts with, and what follows it.  One space may
stand between a date and a time of day. -/
def word (t : Text) : Text × Text :=
  let first := t.takeWhile isWordChar
  match t.dropWhile isWordChar with
  | ' ' :: c :: rest =>
    if isDate first && c.isDigit then
      (first ++ ' ' :: (c :: rest).takeWhile isWordChar, rest.dropWhile isWordChar)
    else (first, ' ' :: c :: rest)
  | rest => (first, rest)

/-- A text without the line end that it may start with. -/
def withoutLineEnd (t : Text) : Text := (afterLineEnd? t).getD t

mutual

/-- A value and what follows it.  `depth` is the number of arrays and tables
that may still lie in one another. -/
def valueFrom : (depth steps : Nat) → Text → Option (TomlValue × Text)
  | _, 0, _ => none
  | _, _ + 1, '"' :: '"' :: '"' :: rest => do
    let (t, rest) ← longBasicTail false (withoutLineEnd rest)
    return (.string t, rest)
  | _, _ + 1, '"' :: rest => do
    let (t, rest) ← basicTail rest
    return (.string t, rest)
  | _, _ + 1, '\'' :: '\'' :: '\'' :: rest => do
    let (t, rest) ← longLiteralTail (withoutLineEnd rest)
    return (.string t, rest)
  | _, _ + 1, '\'' :: rest => do
    let (t, rest) ← literalTail rest
    return (.string t, rest)
  | 0, _ + 1, '[' :: _ => none
  | depth + 1, steps + 1, '[' :: rest => do
    let (elements, rest) ← elementsFrom depth steps rest
    return (.array false elements, rest)
  | 0, _ + 1, '{' :: _ => none
  | depth + 1, steps + 1, '{' :: rest => do
    let (entries, rest) ← entriesFrom depth steps [] rest
    return (.table .inline entries, rest)
  | _, _ + 1, t => do
    let (w, rest) := word t
    return (← scalar? w, rest)

/-- The elements of an array up to its bracket. -/
def elementsFrom : (depth steps : Nat) → Text → Option (List TomlValue × Text)
  | _, 0, _ => none
  | depth, steps + 1, t => do
    match ← skipGap false t with
    | ']' :: rest => return ([], rest)
    | t =>
      let (first, t) ← valueFrom depth steps t
      match ← skipGap false t with
      | ',' :: rest =>
        let (others, t) ← elementsFrom depth steps rest
        return (first :: others, t)
      | ']' :: rest => return ([first], rest)
      | _ => none

/-- The entries of a table up to its brace. -/
def entriesFrom : (depth steps : Nat) → TomlTable → Text → Option (TomlTable × Text)
  | _, 0, _, _ => none
  | depth, steps + 1, made, t => do
    match ← skipGap false t with
    | '}' :: rest => return (made, rest)
    | t =>
      let (names, t) ← keys t
      match ← skipGap false t with
      | '=' :: t =>
        let (v, t) ← valueFrom depth steps (← skipGap false t)
        let made ← TomlTable.addDotted v names made
        match ← skipGap false t with
        | ',' :: rest => entriesFrom depth steps made rest
        | '}' :: rest => return (made, rest)
        | _ => none
      | _ => none

end

/-- A value and what follows it.  Every second step at least takes a character. -/
def value (t : Text) : Option (TomlValue × Text) := valueFrom maxNesting (2 * t.length + 2) t

/-- The lines of a document after some entries were made and a header opened
the table with the given keys.  Each line takes a character, which bounds the
steps. -/
def linesFrom : (steps : Nat) → TomlTable → (header : List Text) → Text → Option TomlTable
  | 0, _, _, _ => none
  | steps + 1, made, header, t =>
    match t.dropWhile isBlank with
    | [] => some made
    | '[' :: '[' :: rest => do
      match ← keys rest with
      | (names, ']' :: ']' :: rest) =>
        linesFrom steps (← TomlTable.pushHeader names made) names (← endOfLine rest)
      | _ => none
    | '[' :: rest => do
      match ← keys rest with
      | (names, ']' :: rest) =>
        linesFrom steps (← TomlTable.openHeader names made) names (← endOfLine rest)
      | _ => none
    | t =>
      if t.head? == some '#' || (afterLineEnd? t).isSome then do
        linesFrom steps made header (← endOfLine t)
      else do
        match ← keys t with
        | (names, '=' :: t) =>
          let (v, t) ← value (t.dropWhile isBlank)
          let made ← TomlTable.within (TomlTable.addDotted v names) header made
          linesFrom steps made header (← endOfLine t)
        | _ => none

/-- The table of a document. -/
def document (t : Text) : Option TomlTable :=
  let t := if t.head? == some '\uFEFF' then t.tail else t
  linesFrom (t.length + 1) [] [] t

end LuauTidy.Toml
