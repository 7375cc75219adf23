import LuauTidy.Layout.Rules
import LuauTidy.Lowering.Construct
import LuauTidy.Settings.Toml.Document

/-!
# Settings

The settings of a project stand in a TOML file with two sections, one for
the layout and one for lowering.  What a file does not set keeps its standard
value.  A section that is unknown is refused, an unknown name inside of a
section is not.

A section may be a table, whose names are looked up, or an array, whose
elements are the settings in their order.  All entries of a table are read,
even those that are ignored, but no elements of an array after the last
setting.  A date or a time is a section too, one that sets nothing: it counts
as a table with a single unknown name.

* `Config`, `Config.standard` — the settings;
* `Config.ofToml?` — the settings of a file.
-/

namespace LuauTidy

/-- The settings of a project. -/
structure Config where
  layout : LayoutOptions
  lowering : LoweringOptions
  deriving DecidableEq, Repr

/-- The settings without any file. -/
def Config.standard : Config := ⟨.standard, .standard⟩

namespace Config

/-- The setting with a name and a place in a section, if the section has it. -/
def setting? (group : TomlValue) (name : String) (place : Nat) : Option TomlValue :=
  match group with
  | .table _ entries => entries.lookup name.toList
  | .array _ elements => elements[place]?
  | _ => none

/-- A section is a table that can be read, an array, or a date or time. -/
def isSection : TomlValue → Bool
  | .table _ entries => entriesReadable entries
  | .array _ _ | .moment => true
  | _ => false

/-- A setting read, or its standard value if the section does not have it. -/
def readSetting (group : TomlValue) (name : String) (place : Nat)
    (read : TomlValue → Option α) (standard : α) : Option α :=
  match setting? group name place with
  | some v => read v
  | none => some standard

/-- The word for a way to write calls. -/
def callParensOfWord? (word : Text) : Option CallParens :=
  if word == "omit".toList then some .omit
  else if word == "always".toList then some .always
  else none

/-- A way to write calls: its word, or a table with the word as its only key
and nothing under it. -/
def callParens? : TomlValue → Option CallParens
  | .string word => callParensOfWord? word
  | .table _ [(word, .table _ [])] => callParensOfWord? word
  | .table _ [(word, .array _ [])] => callParensOfWord? word
  | _ => none

/-- A truth value. -/
def flag? : TomlValue → Option Bool
  | .boolean b => some b
  | _ => none

/-- A count that fits into a word of 64 bits. -/
def count? : TomlValue → Option Nat
  | .integer n => if 0 ≤ n ∧ n < Int.pow 2 64 then some n.toNat else none
  | _ => none

/-- The settings of the layout. -/
def layoutOfSection? (s : TomlValue) : Option LayoutOptions :=
  if isSection s then do
    let parens ← readSetting s "call_parens" 0 callParens? LayoutOptions.standard.callParens
    return ⟨parens⟩
  else none

/-- The settings of lowering. -/
def loweringOfSection? (s : TomlValue) : Option LoweringOptions :=
  if isSection s then do
    let standard := LoweringOptions.standard
    let conditionals ← readSetting s "if_expressions" 0 flag? standard.conditionals
    let floorDivision ← readSetting s "floor_division" 1 flag? standard.floorDivision
    let compound ← readSetting s "compound_floor_division" 2 flag? standard.compoundFloorDivision
    let passes ← readSetting s "max_iterations" 3 count? standard.maxPasses
    return ⟨conditionals, floorDivision, compound, passes⟩
  else none

/-- The settings of a table. -/
def ofTable? (t : TomlTable) : Option Config := do
  if t.all fun (name, _) => name == "format".toList || name == "compat".toList then
    let layout ← match t.lookup "format".toList with
      | some s => layoutOfSection? s
      | none => some .standard
    let lowering ← match t.lookup "compat".toList with
      | some s => loweringOfSection? s
      | none => some .standard
    return ⟨layout, lowering⟩
  else none

/-- The settings of a file. -/
def ofToml? (content : Text) : Option Config := do ofTable? (← Toml.document content)

end Config

end LuauTidy
