import LuauTidy.Token.Scan

namespace LuauTidy.Lexeme

open Text

theorem runLength_le (p : Char → Bool) (t : Text) : runLength p t ≤ t.length :=
  (List.takeWhile_sublist p).length_le

theorem runLength_pos {p : Char → Bool} {c : Char} {t : Text} (h : p c) :
    0 < runLength p (c :: t) := by
  simp [runLength, h]

theorem fractionLength_le (t : Text) : fractionLength t ≤ t.length := by
  unfold fractionLength
  split
  · simp
  · rename_i rest _
    have := runLength_le isDecimal rest
    simp only [List.length_cons]
    omega
  · simp

theorem exponentLength_le (t : Text) : exponentLength t ≤ t.length := by
  unfold exponentLength
  split
  · simp
  · split
    · split <;> grind [runLength_le]
    · simp

theorem decimalLength_le (t : Text) : decimalLength t ≤ t.length := by
  have hw := runLength_le isDecimal t
  have hf := fractionLength_le (t.drop (runLength isDecimal t))
  have he := exponentLength_le
    (t.drop (runLength isDecimal t + fractionLength (t.drop (runLength isDecimal t))))
  simp only [List.length_drop] at hf he
  simp only [decimalLength]
  omega

theorem numeralLength_le (t : Text) : numeralLength t ≤ t.length := by
  unfold numeralLength
  split
  · rename_i mark rest
    split
    · have := runLength_le isHexadecimal rest
      simp only [List.length_cons]
      omega
    · exact decimalLength_le _
  · exact decimalLength_le _

theorem decimalLength_pos {c : Char} {t : Text} (h : startsNumber (c :: t)) :
    0 < decimalLength (c :: t) := by
  unfold startsNumber at h
  split at h
  · rename_i d rest heq
    obtain ⟨rfl, rfl⟩ := List.cons.inj heq
    have hd : d ≠ '.' := by rintro rfl; simp [Char.isDigit] at h
    have hrun : runLength isDecimal ('.' :: d :: rest) = 0 := by simp [runLength, isDecimal]
    have hfrac : 0 < fractionLength ('.' :: d :: rest) := by
      unfold fractionLength
      split
      · simp_all
      · omega
      · simp_all
    simp only [decimalLength, hrun, List.drop_zero]
    omega
  · rename_i heq
    obtain ⟨rfl, rfl⟩ := List.cons.inj heq
    have := runLength_pos (p := isDecimal) (c := c) (t := t) (by simp [isDecimal, h])
    simp only [decimalLength]
    omega
  · simp at h

theorem numeralLength_pos {c : Char} {t : Text} (h : startsNumber (c :: t)) :
    0 < numeralLength (c :: t) := by
  unfold numeralLength
  split
  · split
    · omega
    · simp_all [decimalLength_pos]
  · exact decimalLength_pos h

theorem number_length (n : Nesting) {c : Char} {t : Text} (h : startsNumber (c :: t)) :
    0 < (number n (c :: t)).length ∧ (number n (c :: t)).length ≤ (c :: t).length := by
  have hpos := numeralLength_pos h
  have hle := numeralLength_le (c :: t)
  simp only [number]
  split
  · rename_i d rest heq
    have hrest : (d :: rest).length = (c :: t).length - numeralLength (c :: t) := by
      rw [← heq, List.length_drop]
    split
    · have := runLength_le isWordChar (d :: rest)
      constructor <;> dsimp only <;> omega
    · exact ⟨hpos, hle⟩
  · exact ⟨hpos, hle⟩

theorem shortStringTail_le (quote : Char) (skipping : Bool) (t : Text) :
    (shortStringTail quote skipping t).1 ≤ t.length := by
  fun_induction shortStringTail quote skipping t <;> simp_all

theorem literalTail_le (t : Text) : (literalTail t).1 ≤ t.length := by
  fun_induction literalTail t <;> simp_all

theorem longBracketLevel?_length {t : Text} {level : Nat} (h : longBracketLevel? t = some level) :
    level + 2 ≤ t.length := by
  unfold longBracketLevel? at h
  split at h
  · rename_i rest
    dsimp only at h
    split at h
    · rename_i heq
      have hlen := congrArg List.length heq
      simp only [List.length_drop, List.length_cons, Option.some.injEq] at hlen h ⊢
      omega
    · simp at h
  · simp at h

theorem indexOf?_le {pattern t : Text} {k : Nat} (h : indexOf? pattern t = some k) :
    k + pattern.length ≤ t.length := by
  induction t generalizing k with
  | nil =>
      simp only [indexOf?, List.isEmpty_iff] at h
      split at h
      · simp_all only [Option.some.injEq, List.length_nil]
        omega
      · simp at h
  | cons c t ih =>
      simp only [indexOf?] at h
      split at h
      · rename_i hp
        have := (List.isPrefixOf_iff_prefix.mp hp).length_le
        simp_all
        omega
      · obtain ⟨j, hj, rfl⟩ := Option.map_eq_some_iff.mp h
        have := ih hj
        simp only [List.length_cons]
        omega

theorem longBracketLength?_le {level k : Nat} {t : Text} (hl : level + 2 ≤ t.length)
    (h : longBracketLength? level t = some k) : 0 < k ∧ k ≤ t.length := by
  obtain ⟨inside, hi, rfl⟩ := Option.map_eq_some_iff.mp h
  have := indexOf?_le hi
  simp [longBracketCloser] at this
  omega

theorem lineCommentTail_le (t : Text) : lineCommentTail t ≤ t.length := by
  have := (List.takeWhile_sublist (· != '\n') (l := t)).length_le
  unfold lineCommentTail
  dsimp only
  split <;> omega

theorem comment_length (n : Nesting) (t : Text) :
    0 < (comment n t).length ∧ (comment n t).length ≤ t.length + 2 := by
  unfold comment
  split
  · rename_i level hl
    split
    · rename_i length hlen
      have := longBracketLength?_le (longBracketLevel?_length hl) hlen
      dsimp only
      omega
    · simp
  · have := lineCommentTail_le t
    dsimp only
    omega

theorem longString_length (n : Nesting) {level : Nat} {t : Text}
    (hl : longBracketLevel? t = some level) :
    0 < (longString n level t).length ∧ (longString n level t).length ≤ t.length := by
  have hlen := longBracketLevel?_length hl
  unfold longString
  split
  · rename_i length hlength
    have := longBracketLength?_le hlen hlength
    dsimp only
    omega
  · dsimp only
    omega

theorem symbol_length (n : Nesting) (c : Char) (t : Text) :
    0 < (symbol n (c :: t)).length ∧ (symbol n (c :: t)).length ≤ (c :: t).length := by
  unfold symbol
  split
  · rename_i h
    have := (List.isPrefixOf_iff_prefix.mp h).length_le
    simp at this ⊢
    omega
  · split
    · rename_i k hk
      have hprefix : k.grammarName.toList.isPrefixOf (c :: t) = true := by
        simpa using List.find?_some hk
      have hp := (List.isPrefixOf_iff_prefix.mp hprefix).length_le
      have hmem : k ∈ TokenKind.symbols := List.mem_of_find?_eq_some hk
      have hpos : ∀ k ∈ TokenKind.symbols, 0 < k.grammarName.toList.length := by decide
      exact ⟨hpos k hmem, hp⟩
    · simp

theorem inCode_length (n : Nesting) (c : Char) (rest : Text) :
    0 < (inCode n c rest).length ∧ (inCode n c rest).length ≤ rest.length + 1 := by
  unfold inCode
  split
  · simp
  split
  · rename_i h
    have := runLength_pos (p := isWordChar) (c := c) (t := rest)
      (by grind [isWordStart, isWordChar, Char.isAlphanum])
    have := runLength_le isWordChar (c :: rest)
    simp only [word, List.length_cons] at *
    omega
  split
  · rename_i h
    simpa using number_length n h
  split
  · have := shortStringTail_le c false rest
    simp only [shortString]
    omega
  split
  · simp
  split
  · simp
  split
  · simp
  split
  · rename_i h
    have hp := (List.isPrefixOf_iff_prefix.mp h).length_le
    have := comment_length n rest.tail
    simp at hp this
    omega
  split
  · rename_i hl
    simpa using longString_length n hl
  · simpa using symbol_length n c rest

theorem inLiteral_length (n : Nesting) (c : Char) (rest : Text) :
    0 < (inLiteral n c rest).length ∧ (inLiteral n c rest).length ≤ rest.length + 1 := by
  unfold inLiteral
  split
  · simp
  split
  · simp
  have hle := literalTail_le (c :: rest)
  have hpos : 0 < (literalTail (c :: rest)).1 := by
    unfold literalTail
    split <;> simp_all
    grind
  split <;> rename_i heq <;> simp [heq] at hle hpos <;> exact ⟨hpos, hle⟩

/-- Every lexeme takes a character, and no more than there are. -/
theorem next_length (n : Nesting) (c : Char) (rest : Text) :
    0 < (next n c rest).length ∧ (next n c rest).length ≤ rest.length + 1 := by
  unfold next
  split
  · exact inLiteral_length n c rest
  · exact inCode_length n c rest

end LuauTidy.Lexeme
