import LuauTidy.Proofs.Lexemes
import LuauTidy.Proofs.Cutting

namespace LuauTidy

/-- A token with the blanks before it. -/
structure Word extends Token where
  /-- The blanks between the token before it and this one. -/
  gap : Text
  deriving DecidableEq, Repr

/-- The blanks and the token. -/
def Word.whole (w : Word) : Text := w.gap ++ w.text

/-- The text that words spell. -/
def Word.flat (ws : List Word) : Text := ws.flatMap Word.whole

/-- The words with their starts, where the first gap starts at an offset. -/
def Word.place : (offset : Nat) → List Word → List Word
  | _, [] => []
  | offset, w :: later =>
    { w with start := offset + w.gap.byteLength } ::
      place (offset + w.whole.byteLength) later

namespace Word

@[simp] theorem flat_nil : flat [] = [] := rfl

@[simp] theorem flat_cons (w : Word) (ws : List Word) :
    flat (w :: ws) = w.gap ++ (w.text ++ flat ws) := by
  simp [flat, whole]

@[simp] theorem flat_append (a b : List Word) : flat (a ++ b) = flat a ++ flat b := by
  simp [flat]

@[simp] theorem flat_place (offset : Nat) (ws : List Word) : flat (place offset ws) = flat ws := by
  induction ws generalizing offset with
  | nil => rfl
  | cons w ws ih => simp [place, ih]

theorem place_append (offset : Nat) (a b : List Word) :
    place offset (a ++ b) = place offset a ++ place (offset + (flat a).byteLength) b := by
  induction a generalizing offset with
  | nil => simp [place]
  | cons w a ih => simp [place, ih, whole, Nat.add_assoc]

@[simp] theorem place_place (offset other : Nat) (ws : List Word) :
    place offset (place other ws) = place offset ws := by
  induction ws generalizing offset other with
  | nil => rfl
  | cons w ws ih => simp [place, ih, whole]

end Word

namespace Lexeme

/-- The lexeme at the start of a text, unless the text is empty. -/
def read (n : Nesting) : Text → Option Lexeme
  | [] => none
  | c :: rest => some (next n c rest)

/-- What is no blank of code is a token. -/
theorem inCode_cls {n : Nesting} {c : Char} {rest : Text} (hc : isBlank c = false) :
    (inCode n c rest).cls ≠ none := by
  unfold inCode
  simp only [hc, Bool.false_eq_true, if_false]
  split
  · simp [word]
  split
  · unfold number
    dsimp only
    split
    · split <;> simp
    · simp
  split
  · simp [shortString]
  split
  · simp
  split
  · simp
  split
  · simp
  split
  · unfold comment
    split
    · split <;> simp
    · simp
  split
  · unfold longString
    split <;> simp
  · unfold symbol
    split
    · simp
    · split <;> simp

/-- A lexeme that is no token is one blank of code. -/
theorem next_eq_blank {n : Nesting} {c : Char} {rest : Text} (h : (next n c rest).cls = none) :
    n.inLiteral = false ∧ isBlank c ∧ next n c rest = ⟨none, 1, n⟩ := by
  unfold next at h ⊢
  split at h
  · unfold inLiteral at h
    split at h
    · simp at h
    · split at h
      · simp at h
      · split at h <;> simp at h
  · rename_i hcode
    have hblank : isBlank c := by
      cases hc : isBlank c with
      | true => rfl
      | false => exact absurd h (inCode_cls hc)
    have hcode : n.inLiteral = false := by simpa using hcode
    simp [hcode, inCode, hblank]

/-- A blank of code is a lexeme that is no token. -/
theorem next_blank {n : Nesting} (hn : n.inLiteral = false) {c : Char} (hc : isBlank c)
    (rest : Text) : next n c rest = ⟨none, 1, n⟩ := by
  simp [next, hn, inCode, hc]

end Lexeme

/-- Words are what a scan takes from a text that goes on with `rest`: from one
nesting to another, every word is the lexeme at its place and has only blanks
before it, and none in the literal part of a string. -/
inductive Spells : Nesting → List Word → Nesting → (rest : Text) → Prop
  | nil (n : Nesting) (rest : Text) : Spells n [] n rest
  | cons {n middle last : Nesting} {w : Word} {later : List Word} {rest : Text}
      (blank : w.gap.all Lexeme.isBlank) (inside : n.inLiteral → w.gap = [])
      (read : Lexeme.read n (w.text ++ (Word.flat later ++ rest)) =
        some ⟨some w.cls, w.text.length, middle⟩)
      (tail : Spells middle later last rest) : Spells n (w :: later) last rest

/-- Where words start does not matter. -/
theorem Spells.place {n last : Nesting} {ws : List Word} {rest : Text} (h : Spells n ws last rest)
    (offset : Nat) : Spells n (Word.place offset ws) last rest := by
  induction h generalizing offset with
  | nil n rest => exact .nil n rest
  | cons blank inside read _ ih => exact .cons blank inside (by simpa using read) (ih _)

/-- What may follow the last word: blanks, and none in the literal part of a
string. -/
def Nesting.MayEnd (n : Nesting) (gap : Text) : Prop :=
  gap.all Lexeme.isBlank ∧ (n.inLiteral → gap = [])

namespace Token

/-- Scanning passes over a gap. -/
theorem scanFrom_gap {n : Nesting} {gap : Text} (hblank : gap.all Lexeme.isBlank)
    (hin : n.inLiteral → gap = []) (steps offset : Nat) (t : Text) :
    scanFrom (gap.length + steps) n offset (gap ++ t) =
      scanFrom steps n (offset + gap.byteLength) t := by
  induction gap generalizing offset with
  | nil => simp
  | cons c gap ih =>
      have hcode : n.inLiteral = false := by
        cases hn : n.inLiteral with
        | false => rfl
        | true => exact absurd (hin hn) (by simp)
      simp only [List.all_cons, Bool.and_eq_true] at hblank
      have hsteps : (c :: gap).length + steps = (gap.length + steps) + 1 := by
        simp only [List.length_cons]
        omega
      rw [hsteps, List.cons_append, scanFrom, Lexeme.next_blank hcode hblank.1]
      simp [ih hblank.2 (by simp [hcode]), Nat.add_assoc]

/-- Scanning takes a word where it is the lexeme. -/
theorem scanFrom_word {n middle : Nesting} {text t : Text} {cls : TokenClass}
    (hread : Lexeme.read n (text ++ t) = some ⟨some cls, text.length, middle⟩)
    (steps offset : Nat) :
    scanFrom (steps + 1) n offset (text ++ t) =
      ⟨cls, offset, text⟩ :: scanFrom steps middle (offset + text.byteLength) t := by
  cases htext : text ++ t with
  | nil => simp [htext, Lexeme.read] at hread
  | cons c rest =>
      simp only [htext, Lexeme.read, Option.some.injEq] at hread
      simp [scanFrom, hread, ← htext]

/-- The steps that are left over do not matter. -/
theorem scanFrom_steps {steps more : Nat} {n : Nesting} {offset : Nat} {t : Text}
    (h : t.length ≤ steps) (h' : t.length ≤ more) :
    scanFrom steps n offset t = scanFrom more n offset t := by
  induction steps generalizing more n offset t with
  | zero =>
      cases t with
      | nil => cases more <;> simp [scanFrom]
      | cons => simp at h
  | succ steps ih =>
      cases t with
      | nil => cases more <;> simp [scanFrom]
      | cons c rest =>
          cases more with
          | zero => simp at h'
          | succ more =>
              have hpos := (Lexeme.next_length n c rest).1
              have hdrop : ((c :: rest).drop (Lexeme.next n c rest).length).length ≤ steps ∧
                  ((c :: rest).drop (Lexeme.next n c rest).length).length ≤ more := by
                simp only [List.length_drop, List.length_cons] at h h' ⊢
                omega
              simp only [scanFrom]
              rw [ih hdrop.1 hdrop.2]

/-- The tokens of a text are the words that spell it. -/
theorem scanFrom_spells {n last : Nesting} {ws : List Word} {gap : Text}
    (h : Spells n ws last gap) (hend : last.MayEnd gap) (offset : Nat) :
    scanFrom (Word.flat ws ++ gap).length n offset (Word.flat ws ++ gap) =
      (Word.place offset ws).map Word.toToken ++
        if last.isEmpty then [] else [endInside (offset + (Word.flat ws ++ gap).byteLength)] := by
  induction h generalizing offset with
  | nil n gap =>
      have := scanFrom_gap hend.1 hend.2 0 offset []
      simp only [List.append_nil, Nat.add_zero] at this
      simp [this, scanFrom, Word.place]
  | @cons n middle last w later gap blank inside read tail ih =>
      have hpos : 0 < w.text.length := by
        cases htext : w.text ++ (Word.flat later ++ gap) with
        | nil => simp [htext, Lexeme.read] at read
        | cons c rest =>
            simp only [htext, Lexeme.read, Option.some.injEq] at read
            have := (Lexeme.next_length n c rest).1
            simpa [read] using this
      obtain ⟨k, hk⟩ : ∃ k, w.text.length = k + 1 := ⟨w.text.length - 1, by omega⟩
      have hlen : (Word.flat (w :: later) ++ gap).length =
          w.gap.length + ((k + (Word.flat later ++ gap).length) + 1) := by
        simp only [Word.flat_cons, List.length_append, hk]
        omega
      rw [hlen, Word.flat_cons, List.append_assoc, List.append_assoc,
        scanFrom_gap blank inside, scanFrom_word read,
        scanFrom_steps (show _ ≤ k + (Word.flat later ++ gap).length by omega) (Nat.le_refl _),
        ih hend]
      simp [Word.place, Word.whole, Nat.add_assoc]

end Token

/-- Every text is spelled by words, from any nesting. -/
theorem exists_spells (n : Nesting) (t : Text) :
    ∃ ws last gap, t = Word.flat ws ++ gap ∧ Spells n ws last gap ∧ last.MayEnd gap := by
  induction hlen : t.length using Nat.strongRecOn generalizing n t with
  | ind k ih =>
      cases t with
      | nil => exact ⟨[], n, [], rfl, .nil n [], rfl, fun _ => rfl⟩
      | cons c rest =>
          have hl := Lexeme.next_length n c rest
          cases hcls : (Lexeme.next n c rest).cls with
          | none =>
              obtain ⟨hcode, hblank, -⟩ := Lexeme.next_eq_blank hcls
              obtain ⟨ws, last, gap, rfl, hs, hend⟩ :=
                ih rest.length (by simp [← hlen]) n rest rfl
              cases hs with
              | nil =>
                  refine ⟨[], n, c :: gap, rfl, .nil n _, ?_, by simp [hcode]⟩
                  simp [hblank, hend.1]
              | @cons _ middle _ w later _ blank inside read tail =>
                  exact ⟨{ w with gap := c :: w.gap } :: later, last, gap, by simp,
                    .cons (by simp [hblank, blank]) (by simp [hcode]) read tail, hend⟩
          | some cls =>
              generalize hnext : Lexeme.next n c rest = lexeme at hl hcls
              obtain ⟨ws, last, gap, hrest, hs, hend⟩ :=
                ih ((c :: rest).drop lexeme.length).length
                  (by simp only [List.length_drop, List.length_cons, ← hlen]; omega)
                  lexeme.nesting _ rfl
              have hword : (c :: rest).take lexeme.length ++ (Word.flat ws ++ gap) = c :: rest := by
                rw [← hrest, List.take_append_drop]
              have hlength : ((c :: rest).take lexeme.length).length = lexeme.length := by
                simp only [List.length_take, List.length_cons]
                omega
              refine ⟨⟨⟨cls, 0, (c :: rest).take lexeme.length⟩, []⟩ :: ws, last, gap, ?_, ?_, hend⟩
              · simpa only [Word.flat_cons, List.nil_append, List.append_assoc] using hword.symm
              · refine .cons rfl (fun _ => rfl) ?_ hs
                obtain ⟨cls', length, nesting⟩ := lexeme
                obtain rfl : cls' = some cls := hcls
                dsimp only at hword hlength ⊢
                rw [hword, hlength]
                exact congrArg some hnext

/-- The words of a text are its tokens, before the error at the end of a text that
leaves a string open. -/
theorem exists_words (text : Text) : ∃ ws last gap, text = Word.flat ws ++ gap ∧
    Spells [] ws last gap ∧ last.MayEnd gap ∧
      tokenize text = (Word.place 0 ws ++ if last.isEmpty then [] else
        [Word.mk (Token.endInside text.byteLength) []]).map Word.toToken := by
  obtain ⟨ws, last, gap, htext, hspells, hend⟩ := exists_spells [] text
  refine ⟨ws, last, gap, htext, hspells, hend, ?_⟩
  have hscan := Token.scanFrom_spells hspells hend 0
  rw [← htext, Nat.zero_add] at hscan
  rw [tokenize, hscan]
  split <;> simp

/-- The tokens of a text that words spell. -/
theorem tokenize_spells {ws : List Word} {gap : Text} (h : Spells [] ws [] gap)
    (hend : gap.all Lexeme.isBlank) :
    tokenize (Word.flat ws ++ gap) = (Word.place 0 ws).map Word.toToken := by
  simpa [tokenize] using Token.scanFrom_spells h ⟨hend, by simp [Nesting.inLiteral]⟩ 0

end LuauTidy
