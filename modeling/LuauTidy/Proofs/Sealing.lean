import LuauTidy.Proofs.Tokens
import LuauTidy.Lowering.Filler

/-!
# Sealed texts

A filler is a dollar sign with letters and digits.  A text is sealed if it
does not end in the beginning of one, so that nothing which is written behind
it can complete a filler.  A source is sealed wherever a token of code starts:
a dollar sign stands only in strings and comments, and these end in a quote, a
bracket or the end of a line.
-/

namespace LuauTidy

open Lexeme

/-- No beginning of a filler ends the text. -/
def Text.Sealed (t : Text) : Prop :=
  ∀ before run, t = before ++ '$' :: run → run.all Char.isAlphanum = false

/-- A character that is in no filler. -/
def separates (c : Char) : Bool := c != '$' && !c.isAlphanum

namespace Text

theorem sealed_nil : Sealed [] := by
  intro before run h
  cases before <;> simp at h

theorem sealed_concat (t : Text) {c : Char} (hc : separates c) : Sealed (t ++ [c]) := by
  intro before run h
  rcases List.eq_nil_or_concat run with rfl | ⟨run, d, rfl⟩
  · obtain ⟨-, rfl⟩ := List.append_inj' h rfl |>.imp id List.singleton_inj.mp
    simp [separates] at hc
  · rw [List.concat_eq_append, ← List.cons_append, ← List.append_assoc] at h
    obtain ⟨-, rfl⟩ := (List.append_inj' h rfl).imp id List.singleton_inj.mp
    simp only [separates, Bool.and_eq_true, Bool.not_eq_true'] at hc
    simp [hc.2]

theorem Sealed.of_append {a b : Text} (h : Sealed (a ++ b)) : Sealed b := by
  rintro before run rfl
  exact h (a ++ before) run (by simp)

/-- What stands before a character that is in no filler does not matter. -/
theorem sealed_separated (a : Text) {c : Char} (hc : separates c) {b : Text} (hb : Sealed b) :
    Sealed (a ++ c :: b) := by
  simp only [separates, Bool.and_eq_true, bne_iff_ne, ne_eq, Bool.not_eq_true'] at hc
  intro before run heq
  rcases List.append_eq_append_iff.mp heq with ⟨m, rfl, hm⟩ | ⟨m, rfl, hm⟩
  · cases m with
    | nil => exact absurd (List.cons.inj hm).1 hc.1
    | cons d m => exact hb m run (List.cons.inj hm).2
  · cases m with
    | nil => exact absurd (List.cons.inj hm).1.symm hc.1
    | cons d m =>
        obtain ⟨-, rfl⟩ := List.cons.inj hm
        rw [List.append_eq, List.all_append, List.all_cons, hc.2]
        simp

/-- A text without a dollar sign seals no less than what stands before it. -/
theorem Sealed.append {t plain : Text} (h : Sealed t) (hplain : '$' ∉ plain) :
    Sealed (t ++ plain) := by
  intro before run heq
  rcases List.append_eq_append_iff.mp heq with ⟨middle, rfl, hmiddle⟩ | ⟨middle, hmiddle, hrun⟩
  · exact absurd (by rw [hmiddle]; simp) hplain
  · cases middle with
    | nil =>
        rw [List.nil_append] at hrun
        exact absurd (by rw [← hrun]; simp) hplain
    | cons d middle =>
        obtain ⟨rfl, rfl⟩ := List.cons.inj hrun
        change (middle ++ plain).all Char.isAlphanum = false
        rw [List.all_append, h before middle hmiddle, Bool.false_and]

theorem separates_of_blank {c : Char} (h : isBlank c) : separates c := by
  simp only [isBlank, Bool.or_eq_true, beq_iff_eq] at h
  rcases h with (((((rfl | rfl) | rfl) | rfl) | rfl) | rfl) <;> decide

/-- Blanks hold no dollar sign. -/
theorem dollar_notMem_blanks {gap : Text} (h : gap.all isBlank) : '$' ∉ gap := by
  intro hmem
  have := List.all_eq_true.mp h _ hmem
  simp [isBlank] at this

/-- Blanks seal what stands before them. -/
theorem sealed_blanks (t : Text) {gap : Text} (h : gap.all isBlank) (hne : gap ≠ []) :
    Sealed (t ++ gap) := by
  rcases List.eq_nil_or_concat gap with rfl | ⟨gap, c, rfl⟩
  · exact absurd rfl hne
  · rw [List.concat_eq_append, List.all_append, Bool.and_eq_true] at h
    rw [List.concat_eq_append, ← List.append_assoc]
    exact sealed_concat _ (separates_of_blank (by simpa using h.2))

end Text

/-! ### Where tokens end -/

namespace Lexeme

theorem take_runLength (p : Char → Bool) (t : Text) :
    t.take (Text.runLength p t) = t.takeWhile p := by
  induction t with
  | nil => rfl
  | cons c t ih => cases hc : p c <;> simp_all [Text.runLength]

/-- A character of a number. -/
def isNumberChar (c : Char) : Bool := isWordChar c || c == '.' || c == '+' || c == '-'

theorem isNumberChar_of_isDecimal {c : Char} (h : isDecimal c) : isNumberChar c := by
  simp only [isDecimal, Bool.or_eq_true] at h
  rcases h with h | h <;> simp [isNumberChar, isWordChar, Char.isAlphanum, h]

theorem isNumberChar_of_isHexadecimal {c : Char} (h : isHexadecimal c) : isNumberChar c := by
  simp only [isHexadecimal, Bool.or_eq_true, Bool.and_eq_true, decide_eq_true_eq] at h
  rcases h with (h | ⟨hlow, hhigh⟩) | ⟨hlow, hhigh⟩
  · exact isNumberChar_of_isDecimal h
  · have hlower : c.isLower := by
      rw [Char.isLower, Bool.and_eq_true, decide_eq_true_eq, decide_eq_true_eq]
      exact ⟨hlow, UInt32.le_trans hhigh (by decide)⟩
    simp [isNumberChar, isWordChar, Char.isAlphanum, Char.isAlpha, hlower]
  · have hupper : c.isUpper := by
      rw [Char.isUpper, decide_eq_true_eq]
      exact ⟨hlow, UInt32.le_trans hhigh (by decide)⟩
    simp [isNumberChar, isWordChar, Char.isAlphanum, Char.isAlpha, hupper]

theorem number_run {p : Char → Bool} (hp : ∀ c, p c → isNumberChar c) (t : Text) :
    (t.take (Text.runLength p t)).all isNumberChar := by
  rw [take_runLength, List.all_eq_true]
  exact fun c hc => hp c (List.all_eq_true.mp List.all_takeWhile c hc)

theorem number_decimals (t : Text) : (t.take (Text.runLength isDecimal t)).all isNumberChar :=
  number_run (fun _ => isNumberChar_of_isDecimal) t

theorem number_fraction (t : Text) : (t.take (fractionLength t)).all isNumberChar := by
  unfold fractionLength
  split
  · rfl
  · rename_i rest _
    simpa [Nat.add_comm 1, isNumberChar] using number_decimals rest
  · rfl

theorem number_exponent (t : Text) : (t.take (exponentLength t)).all isNumberChar := by
  unfold exponentLength
  split
  · rfl
  · rename_i e rest
    split
    · rename_i he
      have he : isNumberChar e := by
        simp only [Bool.or_eq_true, beq_iff_eq] at he
        rcases he with rfl | rfl <;> rfl
      have hsign : isNumberChar '+' ∧ isNumberChar '-' := by decide
      split
      · rename_i digits
        simpa [Nat.add_comm 2, he, hsign] using number_decimals digits
      · rename_i digits
        simpa [Nat.add_comm 2, he, hsign] using number_decimals digits
      · simpa [Nat.add_comm 1, he] using number_decimals rest
    · rfl

theorem number_decimal (t : Text) : (t.take (decimalLength t)).all isNumberChar := by
  simp only [decimalLength, List.take_add, List.all_append, Bool.and_eq_true]
  exact ⟨⟨number_decimals t, number_fraction _⟩, number_exponent _⟩

/-- A numeral has characters of numbers only. -/
theorem number_numeral (t : Text) : (t.take (numeralLength t)).all isNumberChar := by
  unfold numeralLength
  split
  · rename_i mark rest
    split
    · rename_i hmark
      have hmark : isNumberChar mark := by
        simp only [isRadixMark, Bool.or_eq_true, beq_iff_eq] at hmark
        rcases hmark with ((rfl | rfl) | rfl) | rfl <;> rfl
      have hzero : isNumberChar '0' := by decide
      have hdigits := number_run (fun _ => isNumberChar_of_isHexadecimal) rest
      simpa [Nat.add_comm 2, hmark, hzero] using hdigits
    · exact number_decimal _
  · exact number_decimal _

/-- A short string that is closed ends in its quote. -/
theorem shortStringTail_last {quote : Char} {skipping : Bool} {t : Text} {length : Nat}
    (h : shortStringTail quote skipping t = (length, true)) :
    (t.take length).getLast? = some quote := by
  fun_induction shortStringTail quote skipping t generalizing length with
  | case1 | case2 | case7 => simp at h
  | case3 _ _ _ _ hrest ih | case4 _ _ _ _ hrest ih | case5 _ _ _ _ _ _ _ hrest ih
  | case6 _ _ _ _ _ _ _ _ _ _ hrest ih | case9 _ _ _ _ _ _ _ _ _ _ _ _ hrest ih =>
      obtain ⟨rfl, rfl⟩ := Prod.mk.inj h
      simp [List.getLast?_cons, ih hrest]
  | case8 _ _ _ _ _ _ _ _ _ hquote =>
      obtain ⟨rfl, -⟩ := Prod.mk.inj h
      simpa using hquote

theorem indexOf?_spec {pattern t : Text} {k : Nat} (h : Text.indexOf? pattern t = some k) :
    pattern <+: t.drop k := by
  induction t generalizing k with
  | nil =>
      simp only [Text.indexOf?] at h
      split at h
      · rename_i hempty
        simp [List.isEmpty_iff.mp hempty]
      · cases h
  | cons c t ih =>
      simp only [Text.indexOf?] at h
      split at h
      · rename_i hp
        obtain rfl := Option.some.inj h
        exact List.isPrefixOf_iff_prefix.mp hp
      · obtain ⟨j, hj, rfl⟩ := Option.map_eq_some_iff.mp h
        exact ih hj

/-- A long bracket that is closed ends in a bracket. -/
theorem longBracket_last {level length : Nat} {t : Text}
    (h : longBracketLength? level t = some length) : (t.take length).getLast? = some ']' := by
  obtain ⟨inside, hinside, rfl⟩ := Option.map_eq_some_iff.mp h
  obtain ⟨rest, hrest⟩ := indexOf?_spec hinside
  rw [List.drop_drop] at hrest
  have hcloser : (longBracketCloser level).length = level + 2 := by simp [longBracketCloser]
  have hlast : (longBracketCloser level).getLast? = some ']' :=
    List.getLast?_concat (l := ']' :: List.replicate level '=')
  rw [List.take_add, ← hrest, ← hcloser, List.take_left, List.getLast?_append, hlast]
  rfl

/-- Behind a line comment the line ends. -/
theorem lineComment_rest {tail rest : Text} (h : lineCommentTail (tail ++ rest) = tail.length) :
    rest = [] ∨ Text.startsWith Text.isLineEnd rest := by
  generalize hline : (tail ++ rest).takeWhile (· != '\n') = line at h
  have hsplit : line ++ (tail ++ rest).dropWhile (· != '\n') = tail ++ rest := by
    rw [← hline, List.takeWhile_append_dropWhile]
  have hafter : (tail ++ rest).dropWhile (· != '\n') = [] ∨
      Text.startsWith Text.isLineEnd ((tail ++ rest).dropWhile (· != '\n')) := by
    have hhead := List.head?_dropWhile_not (· != '\n') (tail ++ rest)
    cases hdrop : (tail ++ rest).dropWhile (· != '\n') with
    | nil => exact .inl rfl
    | cons c after =>
        right
        simp only [hdrop, List.head?_cons] at hhead
        simp_all [Text.startsWith, Text.isLineEnd]
  simp only [lineCommentTail, hline] at h
  split at h
  · rename_i hreturn
    obtain ⟨init, rfl⟩ := List.getLast?_eq_some_iff.mp hreturn
    rw [List.length_append, List.length_singleton, Nat.add_sub_cancel] at h
    rw [List.append_assoc] at hsplit
    obtain ⟨-, hrest⟩ := List.append_inj hsplit h
    rw [← hrest]
    exact .inr rfl
  · obtain ⟨-, hrest⟩ := List.append_inj hsplit h
    rw [← hrest]
    exact hafter

end Lexeme

/-- A token of code that is no line comment either holds no dollar sign or ends
in a character that is in no filler. -/
theorem Code.ends {n m : Nesting} {text rest : Text} {cls : TokenClass}
    (h : Code n text rest cls m) :
    '$' ∉ text ∨ (∃ init c, text = init ++ [c] ∧ separates c) ∨
      rest = [] ∨ Text.startsWith Text.isLineEnd rest := by
  cases h with
  | word start all stop =>
      left
      intro hmem
      have := List.all_eq_true.mp all _ hmem
      simp [isWordChar, Char.isAlphanum, Char.isAlpha, Char.isUpper, Char.isLower, Char.isDigit] at this
  | number start length stop =>
      left
      intro hmem
      have hall := Lexeme.number_numeral (text ++ rest)
      rw [length, List.take_left] at hall
      exact absurd (List.all_eq_true.mp hall _ hmem) (by decide)
  | @string quote tail rest isQuote closed =>
      have hlast := Lexeme.shortStringTail_last closed
      rw [List.take_left] at hlast
      obtain ⟨init, rfl⟩ := List.getLast?_eq_some_iff.mp hlast
      refine .inr (.inl ⟨quote :: init, quote, by simp, ?_⟩)
      simp only [Bool.or_eq_true, beq_iff_eq] at isQuote
      rcases isQuote with rfl | rfl <;> decide
  | interpStart => exact .inl (by decide)
  | lbrace => exact .inl (by decide)
  | rbrace => exact .inl (by decide)
  | @longComment level tail rest bracket closed =>
      have hlast := Lexeme.longBracket_last closed
      rw [List.take_left] at hlast
      obtain ⟨init, rfl⟩ := List.getLast?_eq_some_iff.mp hlast
      exact .inr (.inl ⟨'-' :: '-' :: init, ']', by simp, by decide⟩)
  | lineComment bracket length => exact .inr (.inr (Lexeme.lineComment_rest length))
  | longString bracket closed =>
      have hlast := Lexeme.longBracket_last closed
      rw [List.take_left] at hlast
      obtain ⟨init, rfl⟩ := List.getLast?_eq_some_iff.mp hlast
      exact .inr (.inl ⟨init, ']', rfl, by decide⟩)
  | vararg => exact .inl (by decide)
  | @symbol k rest number comment bracket vararg found =>
      have hmem : k ∈ TokenKind.symbols := List.mem_of_find?_eq_some found
      have hplain : ∀ k ∈ TokenKind.symbols, '$' ∉ k.grammarName.toList := by decide
      exact .inl (hplain k hmem)

/-! ### Where tokens start -/

/-- What is known before the gap of a token: in code the text before it is
sealed, unless the line ends there. -/
def SealedBefore (n : Nesting) (before rest : Text) : Prop :=
  n.inLiteral = false →
    Text.Sealed before ∨ rest = [] ∨ Text.startsWith Text.isLineEnd rest

/-- A token of code leaves a sealed text behind it, unless the line ends. -/
theorem Code.sealedBefore {n m : Nesting} {before text rest : Text} {cls : TokenClass}
    (h : Code n text rest cls m) (hsealed : Text.Sealed before) :
    SealedBefore m (before ++ text) rest := by
  intro _
  rcases h.ends with hplain | ⟨init, c, rfl, hc⟩ | hrest
  · exact .inl (hsealed.append hplain)
  · rw [← List.append_assoc]
    exact .inl (Text.sealed_concat _ hc)
  · exact .inr hrest

/-- A piece of an interpolated string leaves a sealed text behind it when code
follows. -/
theorem Takes.sealedBefore_inLiteral {n m : Nesting} {text rest : Text} {cls : TokenClass}
    (h : Takes n text rest cls m) (hn : n.inLiteral) (hcls : ∀ cause, cls ≠ .error cause)
    (before : Text) : SealedBefore m (before ++ text) rest := by
  intro hm
  obtain ⟨c, tail, rfl, h⟩ := h.next_eq
  have hone : ∀ {d : Char}, (c == d) = true → 1 = (c :: tail).length → separates d →
      Text.Sealed (before ++ c :: tail) := by
    intro d hc hlength hd
    obtain rfl : tail = [] := by simpa using hlength.symm
    obtain rfl : c = d := by simpa using hc
    exact Text.sealed_concat before hd
  simp only [next, hn, if_true, Lexeme.inLiteral] at h
  split at h
  · rename_i hc
    exact .inl (hone hc (congrArg Lexeme.length h) (by decide))
  split at h
  · rename_i hc
    exact .inl (hone hc (congrArg Lexeme.length h) (by decide))
  split at h
  · simp only [Lexeme.mk.injEq, Option.some.injEq] at h
    exact absurd h.1.symm (hcls _)
  · simp only [Lexeme.mk.injEq] at h
    rw [← h.2.2, hn] at hm
    cases hm

/-- Where a token of code starts, the text before it is sealed. -/
theorem SealedBefore.at_token {n m : Nesting} {before gap text rest : Text} {cls : TokenClass}
    (h : SealedBefore n before (gap ++ (text ++ rest))) (hn : n.inLiteral = false)
    (hblank : gap.all isBlank) (htakes : Takes n text rest cls m) :
    Text.Sealed (before ++ gap) := by
  rcases h hn with h | h | h
  · exact h.append (Text.dollar_notMem_blanks hblank)
  · simp [htakes.ne_nil] at h
  · cases gap with
    | cons c gap => exact Text.sealed_blanks before hblank (by simp)
    | nil =>
        obtain ⟨c, tail, rfl, htakes⟩ := htakes.next_eq
        have hc : isBlank c := by
          simp only [List.nil_append, List.cons_append, Text.startsWith, Text.isLineEnd,
            Bool.or_eq_true, beq_iff_eq] at h
          rcases h with rfl | rfl <;> decide
        rw [next_blank hn hc] at htakes
        simp at htakes

/-- Where a token of code starts in a source, the text before it is sealed. -/
theorem Spells.sealed {n last : Nesting} {before : Text} {a b : List Word} {w : Word}
    {rest : Text} (h : Spells n (a ++ w :: b) last rest)
    (hbefore : SealedBefore n before (Word.flat (a ++ w :: b) ++ rest))
    (hcls : ∀ v ∈ a, ∀ cause, v.cls ≠ .error cause) :
    ∃ m m', Takes m w.text (Word.flat b ++ rest) w.cls m' ∧
      (m.inLiteral = false → Text.Sealed (before ++ (Word.flat a ++ w.gap))) := by
  induction a generalizing n before with
  | nil =>
      cases h with
      | @cons _ m' _ _ _ _ blank inside read tail =>
          refine ⟨n, m', read, fun hn => ?_⟩
          exact SealedBefore.at_token (by simpa using hbefore) hn blank read
  | cons v a ih =>
      cases h with
      | @cons _ m' _ _ _ _ blank inside read tail =>
          simp only [List.mem_cons, forall_eq_or_imp] at hcls
          have hnext : SealedBefore m' (before ++ v.gap ++ v.text)
              (Word.flat (a ++ w :: b) ++ rest) := by
            cases hn : n.inLiteral with
            | true => exact Takes.sealedBefore_inLiteral read hn hcls.1 _
            | false =>
                refine (Takes.code read hn hcls.1).sealedBefore ?_
                exact SealedBefore.at_token (by simpa using hbefore) hn blank read
          obtain ⟨m, m'', htakes, hsealed⟩ := ih tail hnext hcls.2
          exact ⟨m, m'', htakes, by simpa using hsealed⟩

end LuauTidy
