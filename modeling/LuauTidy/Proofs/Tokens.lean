import LuauTidy.Proofs.Spelling

/-!
# What tokens look like

How a token of each class is written, and what may stand behind it.  The
scanner reads a lexeme from the whole rest of a source; here the rest is split
into the text of the token and what follows, and for every class it is said
when the scanner takes just this text.

* `Takes` — the scanner takes a text off what follows it;
* `Code` — the ways to be a token of code;
* `Takes.code` — a token of code is written in one of these ways.
-/

namespace LuauTidy

open Lexeme

/-- A text starts with a character of a class. -/
def Text.startsWith (p : Char → Bool) : Text → Bool
  | [] => false
  | c :: _ => p c

theorem Text.runLength_eq_length {p : Char → Bool} {text rest : Text} :
    Text.runLength p (text ++ rest) = text.length ↔
      text.all p ∧ Text.startsWith p rest = false := by
  induction text with
  | nil =>
      cases rest with
      | nil => simp [Text.runLength, Text.startsWith]
      | cons c rest => cases hc : p c <;> simp [Text.runLength, Text.startsWith, hc]
  | cons c text ih =>
      cases hc : p c with
      | false => simp [Text.runLength, hc]
      | true => simpa [Text.runLength, hc] using ih

/-- A run of characters of a class, before one that is not of the class. -/
theorem Text.takeWhile_append {p : Char → Bool} {text rest : Text} (hall : text.all p)
    (hstop : Text.startsWith p rest = false) : (text ++ rest).takeWhile p = text := by
  induction text with
  | nil =>
      cases rest with
      | nil => rfl
      | cons c rest =>
          have hc : p c = false := hstop
          simp [hc]
  | cons c text ih =>
      simp only [List.all_cons, Bool.and_eq_true] at hall
      simp [hall.1, ih hall.2]

/-- A prefix that is as long as the first part is the first part. -/
theorem Text.eq_of_isPrefixOf {p text rest : Text} (h : p.isPrefixOf (text ++ rest))
    (hlength : p.length = text.length) : p = text := by
  have hp := List.isPrefixOf_iff_prefix.mp h
  have ht : text <+: text ++ rest := List.prefix_append text rest
  exact (List.prefix_of_prefix_length_le hp ht (Nat.le_of_eq hlength)).eq_of_length hlength

/-- The scanner takes `text` off `rest` as a token of a class. -/
def Takes (n : Nesting) (text rest : Text) (cls : TokenClass) (m : Nesting) : Prop :=
  read n (text ++ rest) = some ⟨some cls, text.length, m⟩

/-- The ways in which a text before some rest is a token of code, which is no
error. -/
inductive Code (n : Nesting) : (text rest : Text) → TokenClass → Nesting → Prop
  | word {text rest : Text} (start : text.startsWith isWordStart) (all : text.all isWordChar)
      (stop : rest.startsWith isWordChar = false) : Code n text rest (wordClass text) n
  | number {text rest : Text} (start : startsNumber (text ++ rest))
      (length : numeralLength (text ++ rest) = text.length)
      (stop : rest.startsWith isWordStart = false) : Code n text rest (.literal .number) n
  | string {quote : Char} {tail rest : Text} (isQuote : quote == '"' || quote == '\'')
      (closed : shortStringTail quote false (tail ++ rest) = (tail.length, true)) :
      Code n (quote :: tail) rest (.literal .string) n
  | interpStart {rest : Text} : Code n ['`'] rest (.token .interpStart) n.openString
  | lbrace {rest : Text} : Code n ['{'] rest (.token .lbrace) n.openBrace
  | rbrace {rest : Text} :
      Code n ['}'] rest (.token (if n.closesInterpolation then .interpBraceClose else .rbrace))
        n.closeBrace
  | longComment {level : Nat} {tail rest : Text}
      (bracket : longBracketLevel? (tail ++ rest) = some level)
      (closed : longBracketLength? level (tail ++ rest) = some tail.length) :
      Code n ('-' :: '-' :: tail) rest .comment n
  | lineComment {tail rest : Text} (bracket : longBracketLevel? (tail ++ rest) = none)
      (length : lineCommentTail (tail ++ rest) = tail.length) :
      Code n ('-' :: '-' :: tail) rest .comment n
  | longString {level : Nat} {text rest : Text}
      (bracket : longBracketLevel? (text ++ rest) = some level)
      (closed : longBracketLength? level (text ++ rest) = some text.length) :
      Code n text rest (.literal .string) n
  | vararg {rest : Text} : Code n "...".toList rest (.literal .vararg) n
  | symbol {k : TokenKind} {rest : Text}
      (number : startsNumber (k.grammarName.toList ++ rest) = false)
      (comment : "--".toList.isPrefixOf (k.grammarName.toList ++ rest) = false)
      (bracket : longBracketLevel? (k.grammarName.toList ++ rest) = none)
      (vararg : "...".toList.isPrefixOf (k.grammarName.toList ++ rest) = false)
      (found : (TokenKind.symbols.find? fun k' =>
        k'.grammarName.toList.isPrefixOf (k.grammarName.toList ++ rest)) = some k) :
      Code n k.grammarName.toList rest (.token k) n

namespace Takes

variable {n m : Nesting} {text rest : Text} {cls : TokenClass}

theorem ne_nil (h : Takes n text rest cls m) : text ≠ [] := by
  rintro rfl
  cases rest with
  | nil => simp [Takes, Lexeme.read] at h
  | cons c rest =>
      simp only [Takes, Lexeme.read, List.nil_append, Option.some.injEq] at h
      have := (next_length n c rest).1
      simp [h] at this

/-- The first character and the lexeme there. -/
theorem next_eq (h : Takes n text rest cls m) :
    ∃ c tail, text = c :: tail ∧ next n c (tail ++ rest) = ⟨some cls, text.length, m⟩ := by
  cases text with
  | nil => exact absurd rfl h.ne_nil
  | cons c tail => exact ⟨c, tail, rfl, by simpa [Takes, Lexeme.read] using h⟩

/-- A token of code that is no error is written in one of the ways. -/
theorem code (h : Takes n text rest cls m) (hn : n.inLiteral = false)
    (hcls : ∀ cause, cls ≠ .error cause) : Code n text rest cls m := by
  obtain ⟨c, tail, rfl, h⟩ := h.next_eq
  simp only [next, hn, Bool.false_eq_true, if_false, inCode] at h
  split at h
  · simp at h
  split at h
  · rename_i hstart
    simp only [word, Lexeme.mk.injEq, Option.some.injEq] at h
    obtain ⟨rfl, hlength, rfl⟩ := h
    rw [← List.cons_append] at hlength
    obtain ⟨hall, hstop⟩ := Text.runLength_eq_length.mp hlength
    have htake := Text.takeWhile_append hall hstop
    rw [List.cons_append] at htake
    rw [htake]
    exact .word hstart hall hstop
  split at h
  · rename_i hstart
    simp only [number] at h
    split at h
    · rename_i d more hdrop
      split at h
      · simp only [Lexeme.mk.injEq, Option.some.injEq] at h
        exact absurd h.1.symm (hcls _)
      · rename_i hstop
        simp only [Lexeme.mk.injEq, Option.some.injEq] at h
        obtain ⟨rfl, hlength, rfl⟩ := h
        rw [hlength, ← List.cons_append, List.drop_left] at hdrop
        exact .number hstart hlength (by simpa [hdrop, Text.startsWith] using hstop)
    · rename_i hdrop
      simp only [Lexeme.mk.injEq, Option.some.injEq] at h
      obtain ⟨rfl, hlength, rfl⟩ := h
      rw [hlength, ← List.cons_append, List.drop_left] at hdrop
      exact .number hstart hlength (by simp [hdrop, Text.startsWith])
  split at h
  · rename_i hquote
    simp only [shortString, Lexeme.mk.injEq, Option.some.injEq] at h
    obtain ⟨hclass, hlength, rfl⟩ := h
    split at hclass
    · rename_i hclosed
      subst hclass
      exact .string hquote (Prod.ext (by simpa using hlength) hclosed)
    · exact absurd hclass.symm (hcls _)
  split at h
  · rename_i hc
    simp only [Lexeme.mk.injEq, Option.some.injEq] at h
    obtain ⟨rfl, hlength, rfl⟩ := h
    obtain rfl : tail = [] := by simpa using hlength.symm
    obtain rfl : c = '`' := by simpa using hc
    exact .interpStart
  split at h
  · rename_i hc
    simp only [Lexeme.mk.injEq, Option.some.injEq] at h
    obtain ⟨rfl, hlength, rfl⟩ := h
    obtain rfl : tail = [] := by simpa using hlength.symm
    obtain rfl : c = '{' := by simpa using hc
    exact .lbrace
  split at h
  · rename_i hc
    simp only [Lexeme.mk.injEq, Option.some.injEq] at h
    obtain ⟨rfl, hlength, rfl⟩ := h
    obtain rfl : tail = [] := by simpa using hlength.symm
    obtain rfl : c = '}' := by simpa using hc
    exact .rbrace
  split at h
  · rename_i hdashes
    obtain ⟨rfl, hsecond⟩ : '-' = c ∧ ['-'].isPrefixOf (tail ++ rest) := by
      simpa [List.isPrefixOf] using hdashes
    cases tail with
    | nil =>
        have hlength : (comment n (rest.tail)).length = 1 := by simpa using congrArg Lexeme.length h
        have htwo : 2 ≤ (comment n rest.tail).length := by
          unfold comment
          split
          · split <;> simp
          · simp
        omega
    | cons d tail =>
        obtain rfl : '-' = d := by simpa [List.isPrefixOf] using hsecond
        simp only [comment, List.cons_append, List.tail_cons, List.length_cons] at h
        split at h
        · rename_i level hlevel
          split at h
          · rename_i length hlength
            simp only [Lexeme.mk.injEq, Option.some.injEq, Nat.add_right_cancel_iff] at h
            obtain ⟨rfl, rfl, rfl⟩ := h
            exact .longComment hlevel hlength
          · simp only [Lexeme.mk.injEq, Option.some.injEq] at h
            exact absurd h.1.symm (hcls _)
        · rename_i hlevel
          simp only [Lexeme.mk.injEq, Option.some.injEq, Nat.add_right_cancel_iff] at h
          obtain ⟨rfl, hlength, rfl⟩ := h
          exact .lineComment hlevel hlength
  rename_i hnumber _ _ _ _ hdashes
  split at h
  · rename_i level hlevel
    simp only [longString] at h
    split at h
    · rename_i length hlength
      simp only [Lexeme.mk.injEq, Option.some.injEq] at h
      obtain ⟨rfl, rfl, rfl⟩ := h
      exact .longString hlevel hlength
    · simp only [Lexeme.mk.injEq, Option.some.injEq] at h
      exact absurd h.1.symm (hcls _)
  · rename_i hlevel
    simp only [symbol] at h
    split at h
    · rename_i hdots
      simp only [Lexeme.mk.injEq, Option.some.injEq] at h
      obtain ⟨rfl, hlength, rfl⟩ := h
      have htext : _ = c :: tail := Text.eq_of_isPrefixOf hdots hlength
      rw [← htext]
      exact .vararg
    · rename_i hdots
      split at h
      · rename_i k hfound
        simp only [Lexeme.mk.injEq, Option.some.injEq] at h
        obtain ⟨rfl, hlength, rfl⟩ := h
        have htext : k.grammarName.toList = c :: tail :=
          Text.eq_of_isPrefixOf (by simpa using List.find?_some hfound) hlength
        rw [← List.cons_append, ← htext] at hnumber hdashes hlevel hdots hfound
        rw [← htext]
        exact .symbol (eq_false_of_ne_true hnumber) (eq_false_of_ne_true hdashes) hlevel
          (eq_false_of_ne_true hdots) hfound
      · simp only [Lexeme.mk.injEq, Option.some.injEq] at h
        exact absurd h.1.symm (hcls _)

end Takes

/-! ### Marks -/

/-- A piece of an interpolated string, or no token at all. -/
def TokenClass.isPiece : TokenClass → Bool
  | .token .interpContent | .token .interpBraceOpen | .token .interpEnd | .error _ => true
  | _ => false

/-- What is no piece of an interpolated string is read as code. -/
theorem Takes.notInLiteral {n m : Nesting} {text rest : Text} {cls : TokenClass}
    (h : Takes n text rest cls m) (hcls : cls.isPiece = false) : n.inLiteral = false := by
  cases hn : n.inLiteral with
  | false => rfl
  | true =>
      obtain ⟨c, tail, rfl, h⟩ := h.next_eq
      simp only [next, hn, if_true, Lexeme.inLiteral] at h
      repeat' split at h
      all_goals
        simp only [Lexeme.mk.injEq, Option.some.injEq] at h
        simp [← h.1, TokenClass.isPiece] at hcls

/-- A token of code, unless it is a piece of an interpolated string. -/
theorem Takes.code_of_cls {n m : Nesting} {text rest : Text} {cls : TokenClass}
    (h : Takes n text rest cls m) (hcls : cls.isPiece = false) : Code n text rest cls m :=
  h.code (h.notInLiteral hcls) (by rintro cause rfl; simp [TokenClass.isPiece] at hcls)

/-- A keyword or symbol, which is written in one way only. -/
def TokenKind.isMark (k : TokenKind) : Bool :=
  (keywords ++ symbols ++ [TokenKind.lbrace, TokenKind.rbrace]).contains k

theorem TokenKind.isPiece_of_isMark {k : TokenKind} (hk : k.isMark) :
    (TokenClass.token k).isPiece = false := by
  cases k <;> first | rfl | exact absurd hk (by decide)

/-- A mark is spelled by its name. -/
theorem Takes.mark_text {n m : Nesting} {text rest : Text} {k : TokenKind}
    (h : Takes n text rest (.token k) m) (hk : k.isMark) : text = k.grammarName.toList := by
  generalize hcls : TokenClass.token k = cls at h
  cases h.code_of_cls (hcls ▸ TokenKind.isPiece_of_isMark hk) with
  | @word text rest start all stop =>
      simp only [wordClass] at hcls
      repeat' split at hcls
      all_goals simp only [TokenClass.token.injEq, reduceCtorEq] at hcls
      cases hword : TokenKind.keyword? text with
      | none =>
          simp only [hword, Option.getD_none] at hcls
          exact absurd (hcls ▸ hk) (by decide)
      | some k' =>
          obtain rfl : k = k' := by simpa [hword] using hcls
          have hspelled := List.find?_some hword
          exact (beq_iff_eq.mp hspelled).symm
  | interpStart =>
      obtain rfl := TokenClass.token.inj hcls
      exact absurd hk (by decide)
  | lbrace =>
      obtain rfl := TokenClass.token.inj hcls
      decide
  | rbrace =>
      obtain rfl := TokenClass.token.inj hcls
      split at hk
      · exact absurd hk (by decide)
      · rename_i hcloses
        simp only [if_neg hcloses]
        decide
  | symbol => rw [TokenClass.token.inj hcls]
  | number | string | longComment | lineComment | longString | vararg => cases hcls

/-- A comment starts with dashes. -/
theorem Takes.comment_text {n m : Nesting} {text rest : Text} (h : Takes n text rest .comment m) :
    ∃ tail, text = '-' :: '-' :: tail := by
  generalize hcls : TokenClass.comment = cls at h
  cases h.code_of_cls (hcls ▸ rfl) with
  | longComment => exact ⟨_, rfl⟩
  | lineComment => exact ⟨_, rfl⟩
  | @word text rest start all stop =>
      simp only [wordClass] at hcls
      repeat' split at hcls
      all_goals cases hcls
  | number | string | interpStart | lbrace | rbrace | longString | vararg | symbol => cases hcls

/-! ### Literals -/

/-- A kind of expression that can be a token. -/
def ExprKind.isLiteral (k : ExprKind) : Bool :=
  [ExprKind.nil, .true, .false, .number, .string, .vararg].contains k

theorem Takes.isLiteral {n m : Nesting} {text rest : Text} {k : ExprKind}
    (h : Takes n text rest (.literal k) m) : k.isLiteral := by
  cases hn : n.inLiteral with
  | true =>
      obtain ⟨c, tail, rfl, h⟩ := h.next_eq
      simp only [next, hn, if_true, Lexeme.inLiteral] at h
      repeat' split at h
      all_goals simp at h
  | false =>
      generalize hcls : TokenClass.literal k = cls at h
      cases h.code hn (by rintro cause rfl; cases hcls) with
      | @word text rest start all stop =>
          simp only [wordClass] at hcls
          repeat' split at hcls
          all_goals cases hcls
          all_goals rfl
      | number | string | longString | vararg => cases hcls; rfl
      | interpStart | lbrace | rbrace | longComment | lineComment | symbol => cases hcls

/-- The literals among words that spell a text are of the kinds that a token
can have. -/
theorem Spells.isLiteral {n last : Nesting} {ws : List Word} {rest : Text}
    (h : Spells n ws last rest) : ∀ w ∈ ws, ∀ k, w.cls = .literal k → k.isLiteral := by
  induction h with
  | nil => simp
  | cons blank inside read tail ih =>
      simp only [List.mem_cons, forall_eq_or_imp]
      refine ⟨fun k hk => ?_, ih⟩
      rw [hk] at read
      exact Takes.isLiteral read

end LuauTidy
