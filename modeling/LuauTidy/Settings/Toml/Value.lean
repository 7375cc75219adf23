import LuauTidy.Text.Basic

/-!
# TOML values

A document is a table.  How a table came to be decides what may still be
added to it: a table between braces is complete; a table that dotted keys
made takes further dotted keys, but no header; a table that is only implied
by the header of a table inside of it may get a header of its own, once.

* `TomlValue`, `TomlTable`, `TomlOrigin` — values;
* `TomlValue.isReadable` — a value without numbers that no word holds;
* `TomlTable.put`, `TomlTable.addDotted` — adding a value;
* `TomlTable.openHeader`, `TomlTable.pushHeader` — what headers do;
* `TomlTable.within` — a change inside of the table that a header opened.
-/

namespace LuauTidy

/-- How a table came to be. -/
inductive TomlOrigin
  /-- Between braces. -/
  | inline
  /-- By dotted keys. -/
  | dotted
  /-- By a header of a table inside of it. -/
  | implied
  /-- By a header of its own. -/
  | header
  deriving DecidableEq, Repr

/-- A value.  Of a float, a date or a time only its presence is kept. -/
inductive TomlValue
  | string (t : Text)
  | boolean (b : Bool)
  | integer (n : Int)
  | float
  /-- A number that is well written, but that no word holds.  It may stand
  where nobody reads it. -/
  | unheldNumber
  /-- A date, a time of day, or both. -/
  | moment
  /-- An array; one that headers made takes further tables. -/
  | array (grows : Bool) (elements : List TomlValue)
  | table (origin : TomlOrigin) (entries : List (Text × TomlValue))

/-- The entries of a table, in order. -/
abbrev TomlTable := List (Text × TomlValue)

mutual

/-- Every number in a value is held by a word. -/
def TomlValue.isReadable : TomlValue → Bool
  | .unheldNumber => false
  | .array _ elements => elementsReadable elements
  | .table _ entries => entriesReadable entries
  | _ => true

/-- Every number in the elements of an array is held by a word. -/
def elementsReadable : List TomlValue → Bool
  | [] => true
  | v :: rest => v.isReadable && elementsReadable rest

/-- Every number in the entries of a table is held by a word. -/
def entriesReadable : List (Text × TomlValue) → Bool
  | [] => true
  | (_, v) :: rest => v.isReadable && entriesReadable rest

end

namespace TomlTable

/-- The table with the value of a key exchanged, or with a new entry. -/
def put (key : Text) (value : TomlValue) : TomlTable → TomlTable
  | [] => [(key, value)]
  | (k, v) :: rest => if k == key then (key, value) :: rest else (k, v) :: put key value rest

/-- The table with a value under a dotted key.  The table that takes the value
is the one that the key starts from or one that dotted keys made.  On the way
to the latter also lie tables that are only implied, and the last tables of
arrays that headers made. -/
def addDotted (value : TomlValue) : (keys : List Text) → TomlTable → Option TomlTable
  | [], _ => none
  | [key], t => if (t.lookup key).isSome then none else some (put key value t)
  | key :: keys, t =>
    match t.lookup key with
    | none => do return put key (.table .dotted (← addDotted value keys [])) t
    | some (.table .dotted inner) => do
      return put key (.table .dotted (← addDotted value keys inner)) t
    | some (.table .implied inner) =>
      if keys.length = 1 then none
      else do return put key (.table .implied (← addDotted value keys inner)) t
    | some (.array true elements) =>
      match keys, elements.getLast? with
      | _ :: _ :: _, some (.table origin inner) => do
        let last := .table origin (← addDotted value keys inner)
        return put key (.array true (elements.dropLast ++ [last])) t
      | _, _ => none
    | some _ => none

/-- The table with the value under the keys of a header exchanged. -/
def descend (change : Option TomlValue → Option TomlValue) :
    (keys : List Text) → TomlTable → Option TomlTable
  | [], _ => none
  | [key], t => do return put key (← change (t.lookup key)) t
  | key :: keys, t =>
    match t.lookup key with
    | none => do return put key (.table .implied (← descend change keys [])) t
    | some (.table .inline _) => none
    | some (.table origin inner) => do
      return put key (.table origin (← descend change keys inner)) t
    | some (.array true elements) =>
      match elements.getLast? with
      | some (.table origin inner) => do
        let last := .table origin (← descend change keys inner)
        return put key (.array true (elements.dropLast ++ [last])) t
      | _ => none
    | some _ => none

/-- The table with the table of a header opened. -/
def openHeader : (keys : List Text) → TomlTable → Option TomlTable :=
  descend fun
    | none => some (.table .header [])
    | some (.table .implied inner) => some (.table .header inner)
    | some _ => none

/-- The table with a further table in the array of a header. -/
def pushHeader : (keys : List Text) → TomlTable → Option TomlTable :=
  descend fun
    | none => some (.array true [.table .header []])
    | some (.array true elements) => some (.array true (elements ++ [.table .header []]))
    | some _ => none

/-- The table with a change made inside of the table that a header opened. -/
def within (change : TomlTable → Option TomlTable) :
    (keys : List Text) → TomlTable → Option TomlTable
  | [], t => change t
  | keys, t =>
    descend (fun
      | some (.table origin inner) => (change inner).map (.table origin)
      | some (.array true elements) =>
        match elements.getLast? with
        | some (.table origin inner) =>
          (change inner).map fun inner =>
            .array true (elements.dropLast ++ [.table origin inner])
        | _ => none
      | _ => none) keys t

end TomlTable

end LuauTidy
