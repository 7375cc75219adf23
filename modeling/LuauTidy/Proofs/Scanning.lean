import LuauTidy.Proofs.Spelling
import LuauTidy.Proofs.Cutting

/-!
# Where a scan cuts

A scan goes from place to place: at each of them a lexeme starts.  It cuts the
source there, where a token stops, and behind the brackets that open a long
string or comment.  All of these offsets lie between two characters, also where
the text is no Luau at all.  And the braces that a scan counts are fewer than
the bytes that it has passed.

* `Token.Passes` — the places of a scan;
* `Token.Passes.after?`, `Token.Passes.braces_le` — what holds at each place;
* `Token.Passes.slice?` — the text of a token;
* `Lexeme.after?_longBracket` — what stands in a long bracket.
-/

namespace LuauTidy

/-! ### Nesting -/

namespace Lexeme

@[simp] theorem number_nesting (n : Nesting) (t : Text) : (number n t).nesting = n := by
  unfold number
  dsimp only
  split
  · split <;> rfl
  · rfl

@[simp] theorem comment_nesting (n : Nesting) (rest : Text) : (comment n rest).nesting = n := by
  unfold comment
  split
  · split <;> rfl
  · rfl

@[simp] theorem longString_nesting (n : Nesting) (level : Nat) (t : Text) :
    (longString n level t).nesting = n := by
  unfold longString
  split <;> rfl

@[simp] theorem symbol_nesting (n : Nesting) (t : Text) : (symbol n t).nesting = n := by
  unfold symbol
  split
  · rfl
  · split <;> rfl

/-- Only backquotes and braces change the nesting. -/
theorem next_nesting (n : Nesting) (c : Char) (rest : Text) :
    (next n c rest).nesting ∈
      [n, n.openString, n.leaveString, n.enterCode, n.openBrace, n.closeBrace] := by
  unfold next
  split
  · unfold inLiteral
    split
    · simp
    · split
      · simp
      · split <;> simp
  · unfold inCode
    repeat' split
    all_goals simp [word, shortString]

/-- Of the braces that are counted, at most one more is open afterwards. -/
theorem next_braces {n : Nesting} {bound : Nat}
    (h : ∀ braces, Level.code braces ∈ n → braces ≤ bound) (c : Char) (rest : Text) :
    ∀ braces, Level.code braces ∈ (next n c rest).nesting → braces ≤ bound + 1 := by
  intro braces hbraces
  have hnesting := next_nesting n c rest
  generalize (next n c rest).nesting = m at hnesting hbraces
  -- Where the nesting changes, the innermost level is another one.
  have hexchanged : ∀ {level top outer}, n = level :: outer →
      (∀ count, top = Level.code count → count ≤ bound + 1) → Level.code braces ∈ top :: outer →
      braces ≤ bound + 1 := by
    rintro level top outer rfl htop hmem
    rcases List.mem_cons.mp hmem with heq | hmem
    · exact htop braces heq.symm
    · exact Nat.le_succ_of_le (h braces (List.mem_cons_of_mem level hmem))
  simp only [List.mem_cons, List.not_mem_nil, or_false] at hnesting
  rcases hnesting with rfl | rfl | rfl | rfl | rfl | rfl
  · exact Nat.le_succ_of_le (h braces hbraces)
  · exact Nat.le_succ_of_le (h braces (by simpa [Nesting.openString] using hbraces))
  · exact Nat.le_succ_of_le (h braces (List.mem_of_mem_tail hbraces))
  · unfold Nesting.enterCode at hbraces
    split at hbraces
    · exact hexchanged rfl (by simp) hbraces
    · cases hbraces
  · unfold Nesting.openBrace at hbraces
    split at hbraces
    · rename_i count outer
      have hcount := h count List.mem_cons_self
      exact hexchanged rfl (by simpa using hcount) hbraces
    · exact Nat.le_succ_of_le (h braces hbraces)
  · unfold Nesting.closeBrace at hbraces
    split at hbraces
    · exact hexchanged rfl (by simp) hbraces
    · rename_i count outer
      have hcount := h (count + 1) List.mem_cons_self
      exact hexchanged rfl (by simp; omega) hbraces
    · exact Nat.le_succ_of_le (h braces hbraces)

end Lexeme

namespace Token

/-- At the end of a source, the only token is the empty one that stands for the
end inside of a string. -/
theorem eq_endInside {steps offset : Nat} {n : Nesting} {t : Token}
    (ht : t ∈ scanFrom steps n offset []) : t = endInside offset := by
  have hscan : scanFrom steps n offset [] = if n.isEmpty then [] else [endInside offset] := by
    cases steps <;> rfl
  rw [hscan] at ht
  split at ht
  · cases ht
  · exact List.mem_singleton.mp ht

/-- The places of a scan: nesting, offset and what is left of the source. -/
inductive Passes (source : Text) : Nesting → (offset : Nat) → (rest : Text) → Prop
  | start : Passes source [] 0 source
  | step {n : Nesting} {offset : Nat} {c : Char} {rest : Text}
      (h : Passes source n offset (c :: rest)) :
      Passes source (Lexeme.next n c rest).nesting
        (offset + Text.byteLength ((c :: rest).take (Lexeme.next n c rest).length))
        ((c :: rest).drop (Lexeme.next n c rest).length)

namespace Passes

variable {source rest : Text} {n : Nesting} {offset steps : Nat} {t : Token}

/-- A scan is between what it has taken and what is left. -/
theorem exists_before (h : Passes source n offset rest) :
    ∃ before, source = before ++ rest ∧ before.byteLength = offset := by
  induction h with
  | start => exact ⟨[], rfl, rfl⟩
  | @step n offset c rest _ ih =>
      obtain ⟨before, hsource, hoffset⟩ := ih
      refine ⟨before ++ (c :: rest).take (Lexeme.next n c rest).length, ?_, ?_⟩
      · rw [hsource, List.append_assoc, List.take_append_drop]
      · rw [Text.byteLength_append, hoffset]

/-- A scan stands between characters. -/
theorem after? (h : Passes source n offset rest) : source.after? offset = some rest := by
  obtain ⟨before, rfl, rfl⟩ := h.exists_before
  exact Text.after?_append before rest

/-- A scan has passed at least as many bytes as it has counted braces. -/
theorem braces_le (h : Passes source n offset rest) :
    ∀ braces, Level.code braces ∈ n → braces ≤ offset := by
  induction h with
  | start => simp
  | @step n offset c rest _ ih =>
      intro braces hbraces
      have hle := Lexeme.next_braces ih c rest braces hbraces
      have hpos := (Lexeme.next_length n c rest).1
      have hsome : (c :: rest).take (Lexeme.next n c rest).length ≠ [] := by simp; omega
      have hbytes := mt Text.byteLength_eq_zero.mp hsome
      omega

/-- Every token starts at a place of the scan. -/
theorem exists_later (h : Passes source n offset rest) (ht : t ∈ scanFrom steps n offset rest) :
    ∃ m later, Passes source m t.start (t.text ++ later) := by
  induction steps generalizing n offset rest with
  | zero =>
      cases rest with
      | nil =>
          rw [eq_endInside ht]
          exact ⟨n, [], h⟩
      | cons c rest => simp [scanFrom] at ht
  | succ steps ih =>
      cases rest with
      | nil =>
          rw [eq_endInside ht]
          exact ⟨n, [], h⟩
      | cons c rest =>
          rw [scanFrom] at ht
          split at ht
          · rcases List.mem_cons.mp ht with rfl | ht
            · refine ⟨n, (c :: rest).drop (Lexeme.next n c rest).length, ?_⟩
              rw [List.take_append_drop]
              exact h
            · exact ih h.step ht
          · exact ih h.step ht

/-- A token of a scan is the part of the source between its offsets. -/
theorem slice? (h : Passes source n offset rest) (ht : t ∈ scanFrom steps n offset rest) :
    source.slice? t.start t.stop = some t.text := by
  obtain ⟨m, later, hpasses⟩ := h.exists_later ht
  obtain ⟨before, rfl, hstart⟩ := hpasses.exists_before
  rw [Token.stop, ← hstart]
  exact Text.slice?_append before t.text later

end Passes

end Token

/-! ### Long brackets -/

/-- A long bracket opens with as many bytes as characters. -/
theorem Lexeme.exists_opener {t : Text} {level : Nat} (h : longBracketLevel? t = some level) :
    ∃ opener body, t = opener ++ body ∧ opener.length = level + 2 ∧
      Text.byteLength opener = level + 2 := by
  unfold longBracketLevel? at h
  split at h
  · rename_i rest
    dsimp only at h
    split at h
    · rename_i body hbody
      let signs := rest.takeWhile (· == '=')
      obtain rfl : signs.length = level := Option.some.inj h
      have hrest : signs ++ '[' :: body = rest := by
        rw [← hbody]
        exact List.prefix_iff_eq_append.mp (List.takeWhile_prefix _)
      have hsigns : Text.byteLength signs = signs.length := by
        have hsizes : ∀ size ∈ signs.map Char.utf8Size, size = 1 := by
          intro size hsize
          obtain ⟨c, hc, rfl⟩ := List.mem_map.mp hsize
          obtain rfl : c = '=' := by simpa using List.mem_takeWhile_imp hc
          decide
        rw [Text.byteLength_eq_sum, List.sum_eq_card_nsmul _ _ hsizes]
        simp
      refine ⟨'[' :: (signs ++ ['[']), body, by simp [hrest], by simp, ?_⟩
      have hbracket : '['.utf8Size = 1 := by decide
      simp only [Text.byteLength_cons, Text.byteLength_append, Text.byteLength_nil, hsigns,
        hbracket]
      omega
    · cases h
  · cases h

/-- What stands in a long bracket starts between characters. -/
theorem Lexeme.after?_longBracket {source before t : Text} {level : Nat}
    (hsource : source = before ++ t) (h : longBracketLevel? t = some level) :
    source.after? (before.byteLength + (level + 2)) = some (t.drop (level + 2)) := by
  obtain ⟨opener, body, rfl, hlength, hbytes⟩ := exists_opener h
  have hparts : source = (before ++ opener) ++ body := by rw [hsource, List.append_assoc]
  have hbody : (opener ++ body).drop (level + 2) = body := by rw [← hlength, List.drop_left]
  rw [hbody, hparts, ← hbytes, ← Text.byteLength_append, Text.after?_append]

end LuauTidy
