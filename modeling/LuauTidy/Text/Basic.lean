/-!
# Texts and byte offsets

A text is a list of characters.  Every offset in this library counts the
bytes of the UTF-8 form, so a cut is possible only at the start of a
character, and each operation below that takes offsets says so in its type:
it has no result for an offset past the end or inside a character.

* `cutAt?`, `replaceFirst` — cutting and exchanging in lists of any items;
* `Text.byteLength` — the length in bytes;
* `Text.splitAt?`, `Text.after?`, `Text.slice?`, `Text.replaceRange?` — cutting at offsets;
* `Text.occursIn`, `Text.indexOf?` — searching;
* `Text.withSingleTrailingNewline` — the form in which passes end a file;
* `Text.position` — line and column of an offset.
-/

namespace LuauTidy

/-- A text, as its characters in order. -/
abbrev Text := List Char

/-- The two parts of a list at an offset that adds up the sizes of the items,
if the offset is the start of an item or the end. -/
def cutAt? {α : Type} (size : α → Nat) : Nat → List α → Option (List α × List α)
  | 0, items => some ([], items)
  | _ + 1, [] => none
  | n + 1, item :: rest =>
    if size item ≤ n + 1 then
      (cutAt? size (n + 1 - size item) rest).map fun (before, after) => (item :: before, after)
    else
      none

/-- The list with the first place where `pattern` stands exchanged for `part`. -/
def replaceFirst {α : Type} [BEq α] (pattern part : List α) : List α → List α
  | [] => if pattern.isEmpty then part else []
  | item :: rest =>
    if pattern.isPrefixOf (item :: rest) then
      part ++ (item :: rest).drop pattern.length
    else
      item :: replaceFirst pattern part rest

namespace Text

/-- The number of bytes of the UTF-8 form. -/
def byteLength : Text → Nat
  | [] => 0
  | c :: rest => c.utf8Size + byteLength rest

@[simp] theorem byteLength_nil : byteLength [] = 0 := rfl

@[simp] theorem byteLength_cons (c : Char) (t : Text) :
    byteLength (c :: t) = c.utf8Size + byteLength t := rfl

/-- Offsets add up along a concatenation. -/
@[simp] theorem byteLength_append (s t : Text) :
    byteLength (s ++ t) = byteLength s + byteLength t := by
  induction s with
  | nil => simp
  | cons c s ih => simp [ih, Nat.add_assoc]

/-- The two parts of a text at a byte offset, if the offset is the start of a
character or the end. -/
def splitAt? (offset : Nat) (t : Text) : Option (Text × Text) := cutAt? Char.utf8Size offset t

/-- The part of a text from a byte offset on, under the same condition. -/
def after? : Nat → Text → Option Text
  | 0, t => some t
  | _ + 1, [] => none
  | n + 1, c :: rest => if c.utf8Size ≤ n + 1 then after? (n + 1 - c.utf8Size) rest else none

/-- What stands after an offset is the second part of the split there. -/
theorem after?_eq_map_splitAt? (n : Nat) (t : Text) :
    after? n t = (splitAt? n t).map Prod.snd := by
  induction n, t using after?.induct with
  | case1 => simp [after?, splitAt?, cutAt?]
  | case2 => simp [after?, splitAt?, cutAt?]
  | case3 n c rest h ih => simp [after?, splitAt?, cutAt?, h, ih, Function.comp_def]
  | case4 n c rest h => simp [after?, splitAt?, cutAt?, h]

/-- The part of a text between two byte offsets. -/
def slice? (t : Text) (start stop : Nat) : Option Text :=
  if start ≤ stop then do
    let rest ← after? start t
    let (part, _) ← splitAt? (stop - start) rest
    return part
  else
    none

/-- The text with the part between two byte offsets exchanged for `part`. -/
def replaceRange? (t : Text) (start stop : Nat) (part : Text) : Option Text :=
  if start ≤ stop then do
    let (before, rest) ← splitAt? start t
    let (_, after) ← splitAt? (stop - start) rest
    return before ++ part ++ after
  else
    none

/-- The number of characters before the first place where `pattern` stands. -/
def indexOf? (pattern : Text) : Text → Option Nat
  | [] => if pattern.isEmpty then some 0 else none
  | c :: rest =>
    if pattern.isPrefixOf (c :: rest) then some 0 else (indexOf? pattern rest).map (· + 1)

/-- `pattern` stands somewhere in the text. -/
def occursIn (pattern t : Text) : Bool := (indexOf? pattern t).isSome

/-- A character that ends a line. -/
def isLineEnd (c : Char) : Bool := c == '\n' || c == '\r'

/-- The text without the line ends that close it, and then one newline. -/
def withSingleTrailingNewline (t : Text) : Text :=
  (t.reverse.dropWhile isLineEnd).reverse ++ ['\n']

/-- Line and column, from one, of the character at a byte offset.  Columns
count characters; an offset past the end stands for the end. -/
def position (t : Text) (offset : Nat) : Option (Nat × Nat) := do
  let (before, _) ← splitAt? (min offset t.byteLength) t
  return (before.count '\n' + 1, (before.reverse.takeWhile (· != '\n')).length + 1)

/-- The length of the run of characters of a class that a text starts with. -/
def runLength (p : Char → Bool) (t : Text) : Nat := (t.takeWhile p).length

end Text

end LuauTidy
