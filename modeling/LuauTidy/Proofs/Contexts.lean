import LuauTidy.Proofs.Phrases
import LuauTidy.Proofs.Sealing

/-!
# Words in their source

The words of a phrase, with the words of the source before and behind them.
What is known of every token of a source is said here for the words of a
phrase: how marks and comments are written, where a word ends, and that no
filler is begun where a token of code starts.

* `Word.Among` — words between other words of a source;
* `Word.Among.takes` — what the scanner does at one of them.
-/

namespace LuauTidy

open Lexeme

/-- Words in the source of a tree, between the other words of it. -/
structure Word.Among (t : SyntaxTree) (a ws b : List Word) : Prop where
  spells : ∃ gap, Spells [] (a ++ (ws ++ b)) [] gap ∧ t.source = flat (a ++ (ws ++ b)) ++ gap
  placed : place 0 (a ++ (ws ++ b)) = a ++ (ws ++ b)
  noError : ∀ w ∈ a ++ (ws ++ b), ∀ cause, w.cls ≠ .error cause

/-- Before every word there are only blanks. -/
theorem Spells.gap_blank {n last : Nesting} {ws : List Word} {rest : Text}
    (h : Spells n ws last rest) : ∀ w ∈ ws, w.gap.all isBlank := by
  induction h with
  | nil => simp
  | cons blank _ _ _ ih => simpa using ⟨by simpa using blank, by simpa using ih⟩

/-- A part that starts with no character of a class, as the whole does. -/
theorem Text.startsWith_of_append {p : Char → Bool} {a b : Text}
    (h : Text.startsWith p (a ++ b) = false) : Text.startsWith p a = false := by
  cases a with
  | nil => rfl
  | cons c a => exact h

/-- More text behind does not change how a text starts. -/
theorem Text.startsWith_append {p : Char → Bool} {a b : Text}
    (h : Text.startsWith p a = false) (hne : a ≠ []) : Text.startsWith p (a ++ b) = false := by
  cases a with
  | nil => exact absurd rfl hne
  | cons c a => exact h

/-- A token of code that starts like a word is one. -/
theorem Takes.word {n m : Nesting} {text rest : Text} {cls : TokenClass}
    (h : Takes n text rest cls m) (hn : n.inLiteral = false)
    (hstart : text.startsWith isWordStart) :
    text.all isWordChar ∧ rest.startsWith isWordChar = false ∧ cls = wordClass text := by
  obtain ⟨c, tail, rfl, h⟩ := h.next_eq
  have hc : isWordStart c := hstart
  simp only [next, hn, Bool.false_eq_true, if_false, inCode, hc, if_true] at h
  split at h
  · simp at h
  · simp only [Lexeme.word, Lexeme.mk.injEq, Option.some.injEq, ← List.cons_append] at h
    obtain ⟨hcls, hlength, -⟩ := h
    obtain ⟨hall, hstop⟩ := Text.runLength_eq_length.mp hlength
    rw [Text.takeWhile_append hall hstop] at hcls
    exact ⟨hall, hstop, hcls.symm⟩

namespace Word

/-- Behind comments, the text of a row starts with the word. -/
theorem body_of_comments {passed : List Word} (h : ∀ p ∈ passed, p.isComment) {w : Word}
    (hw : w.isComment = false) (ws : List Word) : body (passed ++ w :: ws) = w.text ++ flat ws := by
  induction passed with
  | nil => simp [body, hw]
  | cons p passed ih =>
      simp only [List.mem_cons, forall_eq_or_imp] at h
      simp [body, h.1, ih h.2]

/-- Behind a word that is no comment, the words of a row belong to its text. -/
theorem body_append {a b : List Word} (h : ∃ w ∈ a, w.isComment = false) :
    body (a ++ b) = body a ++ flat b := by
  induction a with
  | nil => simp at h
  | cons w a ih =>
      cases hw : w.isComment with
      | true =>
          obtain ⟨v, hv, hcomment⟩ := h
          obtain rfl | hv := List.mem_cons.mp hv
          · simp [hw] at hcomment
          · simp [body, hw, ih ⟨v, hv, hcomment⟩]
      | false => simp [body, hw]

namespace Among

variable {t : SyntaxTree} {a b x y ws : List Word} {w : Word}

theorem left (h : Among t a (x ++ y) b) : Among t a x (y ++ b) :=
  ⟨by simpa using h.spells, by simpa using h.placed, by simpa using h.noError⟩

theorem right (h : Among t a (x ++ y) b) : Among t (a ++ x) y b :=
  ⟨by simpa using h.spells, by simpa using h.placed, by simpa using h.noError⟩

/-- What stands behind a word with the comments before it. -/
theorem tail {passed : List Word} (h : Among t a (passed ++ w :: ws) b) :
    Among t (a ++ (passed ++ [w])) ws b := by
  rw [List.append_cons] at h
  exact h.right

theorem stand (h : Among t a ws b) : Stand t.source (flat a) ws := by
  obtain ⟨gap, -, hsource⟩ := h.spells
  obtain ⟨-, hplaced⟩ := placed_append.mp h.placed
  obtain ⟨hplaced, -⟩ := placed_append.mp hplaced
  exact ⟨⟨flat b ++ gap, by simp [hsource]⟩, by simpa using hplaced⟩

/-- The text before words that stand in a source, and all that comes then. -/
theorem source_eq (h : Among t a ws b) :
    ∃ rest, t.source = flat a ++ (flat ws ++ (flat b ++ rest)) := by
  obtain ⟨gap, -, hsource⟩ := h.spells
  exact ⟨gap, by simp [hsource]⟩

/-- At each of the words the scanner takes it. -/
theorem takes (h : Among t a (x ++ w :: y) b) :
    ∃ n m rest, Takes n w.text (flat y ++ rest) w.cls m ∧
      (n.inLiteral = false → Text.Sealed (flat (a ++ x) ++ w.gap)) := by
  obtain ⟨gap, hspells, -⟩ := h.spells
  have hassoc : a ++ ((x ++ w :: y) ++ b) = (a ++ x) ++ w :: (y ++ b) := by simp
  have herror := h.noError
  rw [hassoc] at hspells herror
  have hstart : SealedBefore [] [] (flat ((a ++ x) ++ w :: (y ++ b)) ++ gap) :=
    fun _ => .inl Text.sealed_nil
  obtain ⟨n, m, htakes, hsealed⟩ := hspells.sealed hstart
    fun v hv => herror v (List.mem_append_left _ hv)
  exact ⟨n, m, flat b ++ gap, by simpa using htakes, by simpa using hsealed⟩

theorem gap_blank (h : Among t a ws b) : ∀ w ∈ ws, w.gap.all isBlank := by
  obtain ⟨gap, hspells, -⟩ := h.spells
  intro w hw
  exact hspells.gap_blank w (by simp [hw])

theorem isLiteral (h : Among t a ws b) : ∀ w ∈ ws, ∀ k, w.cls = .literal k → k.isLiteral := by
  obtain ⟨gap, hspells, -⟩ := h.spells
  intro w hw
  exact hspells.isLiteral w (by simp [hw])

/-- Where a token of code starts, no filler is begun. -/
theorem sealed (h : Among t a (x ++ w :: y) b) (hcls : w.cls.isPiece = false) :
    Text.Sealed (flat (a ++ x) ++ w.gap) := by
  obtain ⟨n, m, rest, htakes, hsealed⟩ := h.takes
  exact hsealed (htakes.notInLiteral hcls)

theorem text_ne_nil (h : Among t a (x ++ w :: y) b) : w.text ≠ [] := by
  obtain ⟨n, m, rest, htakes, -⟩ := h.takes
  exact htakes.ne_nil

/-- A mark is spelled by its name. -/
theorem mark_text (h : Among t a ws b) (hw : w ∈ ws) {k : TokenKind} (hcls : w.cls = .token k)
    (hk : k.isMark) : w.text = k.grammarName.toList := by
  obtain ⟨x, y, rfl⟩ := List.append_of_mem hw
  obtain ⟨n, m, rest, htakes, -⟩ := h.takes
  rw [hcls] at htakes
  exact htakes.mark_text hk

/-- A comment starts with dashes. -/
theorem comment_text (h : Among t a ws b) (hw : w ∈ ws) (hcomment : w.isComment) :
    ∃ tail, w.text = '-' :: '-' :: tail := by
  obtain ⟨x, y, rfl⟩ := List.append_of_mem hw
  obtain ⟨n, m, rest, htakes, -⟩ := h.takes
  have hcls : w.cls = .comment := by simpa [Token.isComment] using hcomment
  rw [hcls] at htakes
  exact htakes.comment_text

/-- A token of code that starts like a word ends where the word does. -/
theorem word (h : Among t a (x ++ w :: y) b) (hcls : w.cls.isPiece = false)
    (hstart : w.text.startsWith isWordStart) :
    w.text.all isWordChar ∧ Text.startsWith isWordChar (flat y) = false ∧
      w.cls = wordClass w.text := by
  obtain ⟨n, m, rest, htakes, -⟩ := h.takes
  obtain ⟨hall, hstop, hword⟩ := htakes.word (htakes.notInLiteral hcls) hstart
  exact ⟨hall, Text.startsWith_of_append hstop, hword⟩

/-- Blanks and comments before a word: the first character that is no blank is
a dash, or the first of the word. -/
theorem opens {passed : List Word} (h : Among t a (passed ++ w :: ws) b)
    (hpassed : ∀ p ∈ passed, p.isComment) :
    ∃ blanks c rest, flat (passed ++ w :: ws) = blanks ++ c :: rest ∧ blanks.all isBlank ∧
      (c = '-' ∨ w.text.head? = some c) := by
  cases passed with
  | nil =>
      obtain ⟨c, tail, htext⟩ := List.exists_cons_of_ne_nil (h.text_ne_nil (x := []))
      exact ⟨w.gap, c, tail ++ flat ws, by simp [htext], h.gap_blank w (by simp), .inr (by simp [htext])⟩
  | cons p passed =>
      obtain ⟨tail, htext⟩ := h.comment_text (w := p) (by simp) (hpassed p (by simp))
      exact ⟨p.gap, '-', '-' :: tail ++ flat (passed ++ w :: ws), by simp [htext],
        h.gap_blank p (by simp), .inl rfl⟩

end Among

end Word

end LuauTidy
