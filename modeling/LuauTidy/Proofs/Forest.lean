import LuauTidy.Grammar.Cursor
import LuauTidy.Proofs.Spelling

/-!
# Forests

A forest is what a parser reads before any node gets a number: phrases in a
row, each a token taken as a leaf, a token that leaves no trace, or a node
around a further row.  A token knows the comments that were passed over on the
way to it.  The nodes that a parser makes are a function of the forest, since
they are numbered in the order in which they end.

* `Forest` — phrases in a row;
* `Forest.words`, `Forest.strays` — what a forest spells and what it passes over;
* `Forest.nodes` — the nodes of a forest;
* `Cursor.pass` — the cursor behind a forest.
-/

namespace LuauTidy

/-- Phrases in a row. -/
inductive Forest
  | nil
  /-- A token taken as a leaf. -/
  | leaf (kind : Kind) (passed : List Word) (word : Word) (later : Forest)
  /-- A token without a leaf. -/
  | skipped (passed : List Word) (word : Word) (later : Forest)
  /-- A node around a row. -/
  | node (kind : Kind) (inner later : Forest)
  deriving DecidableEq, Repr

/-- What stands ahead. -/
structure Ahead where
  /-- The class of the next token that is no comment. -/
  cls : Option TokenClass
  /-- A comment stands right ahead. -/
  comment : Bool
  deriving DecidableEq, Repr

/-- The node around some children; without children it stands at a place. -/
def Node.around (id : Nat) (kind : Kind) (position : Nat) (children : List Node) : Node :=
  ⟨id, kind, (children.head?.map Node.start).getD position,
    (children.getLast?.map Node.stop).getD position, children⟩

namespace Forest

/-- One row after the other. -/
def append : Forest → Forest → Forest
  | nil, g => g
  | leaf kind passed word later, g => leaf kind passed word (later.append g)
  | skipped passed word later, g => skipped passed word (later.append g)
  | node kind inner later, g => node kind inner (later.append g)

instance : Append Forest := ⟨append⟩

@[simp] theorem nil_append (g : Forest) : nil ++ g = g := rfl

@[simp] theorem leaf_append (kind : Kind) (passed : List Word) (w : Word) (later g : Forest) :
    leaf kind passed w later ++ g = leaf kind passed w (later ++ g) := rfl

@[simp] theorem skipped_append (passed : List Word) (w : Word) (later g : Forest) :
    skipped passed w later ++ g = skipped passed w (later ++ g) := rfl

@[simp] theorem node_append (kind : Kind) (inner later g : Forest) :
    node kind inner later ++ g = node kind inner (later ++ g) := rfl

@[simp] theorem append_nil (f : Forest) : f ++ nil = f := by
  induction f <;> simp_all

@[simp] theorem append_assoc (f g h : Forest) : f ++ g ++ h = f ++ (g ++ h) := by
  induction f <;> simp_all

@[simp] theorem append_eq_nil {f g : Forest} : f ++ g = nil ↔ f = nil ∧ g = nil := by
  cases f <;> simp

/-- The words of a row, those passed over among them. -/
def words : Forest → List Word
  | nil => []
  | leaf _ passed word later => passed ++ word :: later.words
  | skipped passed word later => passed ++ word :: later.words
  | node _ inner later => inner.words ++ later.words

/-- The words that a row passes over. -/
def strays : Forest → List Word
  | nil => []
  | leaf _ passed _ later => passed ++ later.strays
  | skipped passed _ later => passed ++ later.strays
  | node _ inner later => inner.strays ++ later.strays

/-- The number of leaves and nodes. -/
def count : Forest → Nat
  | nil => 0
  | leaf _ _ _ later => 1 + later.count
  | skipped _ _ later => later.count
  | node _ inner later => inner.count + (1 + later.count)

/-- Where the last token that is no comment ended, after a row. -/
def endFrom (lastEnd : Nat) : Forest → Nat
  | nil => lastEnd
  | leaf _ _ word later => later.endFrom (if word.isComment then lastEnd else word.stop)
  | skipped _ word later => later.endFrom word.stop
  | node _ inner later => later.endFrom (inner.endFrom lastEnd)

/-- Where a node of a kind stands if it has no children. -/
def emptyPlace (kind : Kind) (lastEnd : Nat) : Nat := if kind = .aux .block then lastEnd else 0

/-- The nodes of a row, of which the first gets the number `made`. -/
def nodes (made lastEnd : Nat) : Forest → List Node
  | nil => []
  | leaf kind _ word later =>
    ⟨made, kind, word.start, word.stop, []⟩ ::
      later.nodes (made + 1) (if word.isComment then lastEnd else word.stop)
  | skipped _ word later => later.nodes made word.stop
  | node kind inner later =>
    Node.around (made + inner.count) kind (emptyPlace kind lastEnd) (inner.nodes made lastEnd) ::
      later.nodes (made + (inner.count + 1)) (inner.endFrom lastEnd)

/-- What stands ahead of a row, where `z` stands ahead of what comes behind it. -/
def ahead (z : Ahead) : Forest → Ahead
  | nil => z
  | leaf _ passed word later =>
    if word.isComment then ⟨(later.ahead z).cls, true⟩ else ⟨some word.cls, !passed.isEmpty⟩
  | skipped passed word _ => ⟨some word.cls, !passed.isEmpty⟩
  | node _ inner later => inner.ahead (later.ahead z)

@[simp] theorem words_append (f g : Forest) : (f ++ g).words = f.words ++ g.words := by
  induction f <;> simp_all [words]

@[simp] theorem strays_append (f g : Forest) : (f ++ g).strays = f.strays ++ g.strays := by
  induction f <;> simp_all [strays]

@[simp] theorem count_append (f g : Forest) : (f ++ g).count = f.count + g.count := by
  induction f <;> simp_all [count, Nat.add_assoc]

@[simp] theorem endFrom_append (lastEnd : Nat) (f g : Forest) :
    (f ++ g).endFrom lastEnd = g.endFrom (f.endFrom lastEnd) := by
  induction f generalizing lastEnd <;> simp_all [endFrom]

@[simp] theorem ahead_append (z : Ahead) (f g : Forest) :
    (f ++ g).ahead z = f.ahead (g.ahead z) := by
  induction f generalizing z <;> simp_all [ahead]

/-- The nodes of two rows are numbered on. -/
@[simp] theorem nodes_append (made lastEnd : Nat) (f g : Forest) :
    (f ++ g).nodes made lastEnd =
      f.nodes made lastEnd ++ g.nodes (made + f.count) (f.endFrom lastEnd) := by
  induction f generalizing made lastEnd with
  | nil => simp [nodes, count, endFrom]
  | leaf kind passed w later ih => simp [nodes, count, endFrom, ih, Nat.add_assoc]
  | skipped passed w later ih => simp [nodes, count, endFrom, ih]
  | node kind inner later _ ih => simp [nodes, count, endFrom, ih, Nat.add_assoc]

end Forest

namespace Cursor

/-- The cursor before some words. -/
def facing (c : Cursor) (ws : List Word) : Cursor := { c with rest := ws.map Word.toToken }

/-- The cursor behind a forest, whatever comes then. -/
def pass (c : Cursor) (f : Forest) : Cursor :=
  { c with
    lastEnd := f.endFrom c.lastEnd
    strayComments := c.strayComments ++ f.strays.map fun w => w.toToken.range
    made := c.made + f.count }

@[simp] theorem facing_rest (c : Cursor) (ws : List Word) :
    (c.facing ws).rest = ws.map Word.toToken := rfl

@[simp] theorem facing_facing (c : Cursor) (ws ws' : List Word) :
    (c.facing ws).facing ws' = c.facing ws' := rfl

/-- Every cursor stands before some words. -/
theorem exists_facing (c : Cursor) : ∃ ws, c = c.facing ws := by
  refine ⟨c.rest.map fun t => { t with gap := [] }, ?_⟩
  simp [facing, Function.comp_def]

@[simp] theorem pass_nil (c : Cursor) : c.pass .nil = c := by
  simp [pass, Forest.endFrom, Forest.strays, Forest.count]

@[simp] theorem pass_pass (c : Cursor) (f g : Forest) : (c.pass f).pass g = c.pass (f ++ g) := by
  simp [pass, Nat.add_assoc]

@[simp] theorem pass_made (c : Cursor) (f : Forest) : (c.pass f).made = c.made + f.count := rfl

@[simp] theorem pass_lastEnd (c : Cursor) (f : Forest) :
    (c.pass f).lastEnd = f.endFrom c.lastEnd := rfl

end Cursor

/-- What stands ahead of some words. -/
def Word.ahead : List Word → Ahead
  | [] => ⟨none, false⟩
  | w :: ws => if w.isComment then ⟨(ahead ws).cls, true⟩ else ⟨some w.cls, false⟩

/-- No comment stands right ahead if the first word is none. -/
theorem Word.ahead_comment_eq_false {ws : List Word} :
    (Word.ahead ws).comment = false ↔ ∀ w ∈ ws.head?, w.isComment = false := by
  cases ws with
  | nil => simp [Word.ahead]
  | cons w ws => cases hw : w.isComment <;> simp [Word.ahead, hw]

/-- The next token stands behind the comments. -/
theorem Word.ahead_comments {passed : List Word} (h : ∀ p ∈ passed, p.isComment)
    (ws : List Word) :
    Word.ahead (passed ++ ws) =
      ⟨(Word.ahead ws).cls, !passed.isEmpty || (Word.ahead ws).comment⟩ := by
  induction passed with
  | nil => rfl
  | cons p passed ih =>
      simp only [List.mem_cons, forall_eq_or_imp] at h
      simp [Word.ahead, h.1, ih h.2]

end LuauTidy
