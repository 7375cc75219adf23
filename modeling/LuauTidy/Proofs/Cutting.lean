import Mathlib
import LuauTidy.Lowering.Draft

/-!
# Cutting concatenations

Offsets into a text that is known as a concatenation: a cut at the end of the
first part gives back the parts.  Everything that is said about slices of a
source rests on these few equations.
-/

namespace LuauTidy

/-- A cut at the size of the first part gives the two parts. -/
theorem cutAt?_append {α : Type} {size : α → Nat} (hpos : ∀ x, 0 < size x) (a b : List α) :
    cutAt? size (a.map size).sum (a ++ b) = some (a, b) := by
  induction a with
  | nil => cases b <;> rfl
  | cons x a ih =>
      obtain ⟨n, hn⟩ : ∃ n, size x + (a.map size).sum = n + 1 :=
        ⟨size x + (a.map size).sum - 1, by have := hpos x; omega⟩
      have hle : size x ≤ n + 1 := by omega
      have hrest : n + 1 - size x = (a.map size).sum := by omega
      simp [hn, cutAt?, hle, hrest, ih]

namespace Text

/-- The length in bytes adds up the sizes of the characters. -/
theorem byteLength_eq_sum (t : Text) : t.byteLength = (t.map Char.utf8Size).sum := by
  induction t with
  | nil => rfl
  | cons c t ih => simp [ih]

/-- Only the empty text has no bytes. -/
theorem byteLength_eq_zero {t : Text} : t.byteLength = 0 ↔ t = [] := by
  cases t with
  | nil => simp
  | cons c t =>
      have := c.utf8Size_pos
      simp only [byteLength_cons, reduceCtorEq, iff_false]
      omega

/-- A cut where the first part ends gives the two parts. -/
@[simp] theorem splitAt?_append (a b : Text) : splitAt? a.byteLength (a ++ b) = some (a, b) := by
  rw [splitAt?, byteLength_eq_sum]
  exact cutAt?_append Char.utf8Size_pos a b

/-- What follows the end of the first part is the second part. -/
@[simp] theorem after?_append (a b : Text) : after? a.byteLength (a ++ b) = some b := by
  simp [after?_eq_map_splitAt?]

/-- The slice between the ends of the first and the second part. -/
theorem slice?_append (a b c : Text) :
    slice? (a ++ (b ++ c)) a.byteLength (a.byteLength + b.byteLength) = some b := by
  simp [slice?]

/-- The second part exchanged for another text. -/
theorem replaceRange?_append (a b c part : Text) :
    replaceRange? (a ++ (b ++ c)) a.byteLength (a.byteLength + b.byteLength) part =
      some (a ++ part ++ c) := by
  simp [replaceRange?]

end Text

namespace Draft

/-- A draft of a text has the size of the text. -/
theorem size_ofText (t : Text) : ((ofText t).map Slot.size).sum = t.byteLength := by
  simp [ofText, Text.byteLength_eq_sum, Function.comp_def, Slot.size]

@[simp] theorem ofText_append (s t : Text) : ofText (s ++ t) = ofText s ++ ofText t := by
  simp [ofText]

/-- A text holds no marks. -/
theorem mark_notMem_ofText (t : Text) (part : Nat) : Slot.mark part ∉ ofText t := by
  simp [ofText]

/-- A part overwritten behind a draft of a size. -/
theorem hold?_append {before after : Draft} {part : Text} {number start stop : Nat}
    (hstart : (before.map Slot.size).sum = start) (hstop : stop = start + part.byteLength) :
    hold? (before ++ (ofText part ++ after)) number start stop =
      some (before ++ (marks number part.byteLength ++ after)) := by
  have hpos : ∀ slot : Slot, 0 < slot.size := by
    intro slot
    cases slot with
    | char c => exact c.utf8Size_pos
    | mark => exact Nat.one_pos
  have hbefore := cutAt?_append hpos before (ofText part ++ after)
  have hpart := cutAt?_append hpos (ofText part) after
  rw [hstart] at hbefore
  rw [size_ofText] at hpart
  have hlength : stop - start = part.byteLength := by omega
  simp [hold?, hstop, hbefore, hpart]

end Draft

end LuauTidy
