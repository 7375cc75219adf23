import LuauTidy.Proofs.Sealing

/-!
# What is seen past the end of a token

The scanner looks past the end of a token: at one character behind a word, at
two behind a number.  Here it is said of each shape of a token what may be
exchanged behind it so that it still ends at the same place.  A blank, a
closing parenthesis or a slash parts all of them from what follows, and what a
string or a long bracket closes does not see what follows at all.

* `parts`, `Text.Parts` — what parts tokens;
* `Text.LooksLike` — a text that looks to a token before it like another;
* `Lexeme.numeralLength_append`, `shortStringTail_append`,
  `longBracketLength?_append`, `lineCommentTail_append`, `literalTail_append` —
  the shapes end where they did.
-/

namespace LuauTidy

open Lexeme

/-- The characters that no token goes on with, except a slash with another
slash. -/
def partingCharacters : Text := [' ', '\t', '\r', '\n', '\x0b', '\x0c', ')', '/']

/-- A character that no token but a slash goes on with. -/
def parts (c : Char) : Bool := partingCharacters.contains c

theorem parts_of_blank {c : Char} (h : isBlank c) : parts c := by
  simp only [isBlank, Bool.or_eq_true, beq_iff_eq] at h
  rcases h with (((((rfl | rfl) | rfl) | rfl) | rfl) | rfl) <;> decide

/-- No character of a class parts tokens. -/
theorem not_of_parts {p : Char → Bool} {c : Char} (hp : partingCharacters.all fun c => !p c)
    (h : parts c) : p c = false := by
  have hc := List.all_eq_true.mp hp c (List.contains_iff_mem.mp h)
  simpa using hc

namespace Text

/-- A point parts no tokens. -/
theorem not_parts_point (c : Char) (h : LuauTidy.parts c) : (c == '.') = false :=
  not_of_parts (p := (· == '.')) (by rfl) h

/-- A text that parts every token from itself: it is empty, or starts with a
character that does. -/
def Parts (t : Text) : Prop := ∀ c later, t = c :: later → parts c

theorem Parts.nil : Parts [] := by
  intro c later h
  cases h

theorem Parts.cons {c : Char} (h : parts c) (later : Text) : Parts (c :: later) := by
  intro d later' heq
  obtain ⟨rfl, rfl⟩ := List.cons.inj heq
  exact h

/-- A text that parts tokens starts with none of their characters. -/
theorem Parts.startsWith {t : Text} (h : t.Parts) {p : Char → Bool}
    (hp : ∀ c, parts c → p c = false) : Text.startsWith p t = false := by
  cases t with
  | nil => rfl
  | cons c later => exact hp c (h c later rfl)

/-- `other` looks to a token before it like `rest`: it parts the token from
itself, or starts with the same character, and with a second point only if
`rest` does. -/
inductive LooksLike (rest : Text) : Text → Prop
  | parts {other : Text} (h : other.Parts) : LooksLike rest other
  | same {c : Char} {later later' : Text} (starts : rest = c :: later)
      (point : c = '.' → Text.startsWith (· == '.') later = Text.startsWith (· == '.') later') :
      LooksLike rest (c :: later')

/-- A remainder is exchanged for one that parts tokens. -/
theorem looksLike_append {a r r' : Text} (hr' : r'.Parts)
    (hpoint : a = ['.'] → Text.startsWith (· == '.') r = false) :
    LooksLike (a ++ r) (a ++ r') := by
  cases a with
  | nil => exact .parts hr'
  | cons c a =>
      refine .same rfl ?_
      intro hc
      cases a with
      | nil =>
          have hr : Text.startsWith (· == '.') r = false := hpoint (by rw [hc])
          have hr' : Text.startsWith (· == '.') r' = false :=
            hr'.startsWith not_parts_point
          exact hr.trans hr'.symm
      | cons d a => rfl

namespace LooksLike

variable {x rest other : Text} {p : Char → Bool}

/-- What the text does not start with, the other does not start with either. -/
theorem startsWith (h : LooksLike rest other) (hp : ∀ c, LuauTidy.parts c → p c = false)
    (hrest : Text.startsWith p rest = false) : Text.startsWith p other = false := by
  cases h with
  | parts h => exact h.startsWith hp
  | same starts _ =>
      subst starts
      exact hrest

/-- A run that ends before the text ends before the other. -/
theorem runLength (h : LooksLike rest other) (hp : ∀ c, LuauTidy.parts c → p c = false)
    (hle : Text.runLength p (x ++ rest) ≤ x.length) :
    Text.runLength p (x ++ other) = Text.runLength p (x ++ rest) := by
  induction x with
  | nil =>
      have hlength : ∀ t, Text.runLength p t = 0 ↔ Text.startsWith p t = false := by
        intro t
        cases t with
        | nil => simp [Text.runLength, Text.startsWith]
        | cons c t => cases hc : p c <;> simp [Text.runLength, Text.startsWith, hc]
      have hzero : Text.runLength p rest = 0 := by simpa using hle
      have hother := h.startsWith hp ((hlength rest).mp hzero)
      rw [List.nil_append, List.nil_append, hzero]
      exact (hlength other).mpr hother
  | cons c x ih =>
      cases hc : p c with
      | false => simp [Text.runLength, hc]
      | true =>
          have hle : Text.runLength p (x ++ rest) ≤ x.length := by
            simpa [Text.runLength, hc] using hle
          have hrun := ih hle
          simp only [Text.runLength] at hrun
          simp [Text.runLength, hc, hrun]

end LooksLike

end Text

/-! ### Numbers -/

namespace Lexeme

open Text (LooksLike)

variable {x rest other : Text}

/-- No digit, and no character of a word, parts tokens. -/
theorem not_parts_isDecimal (c : Char) (h : parts c) : isDecimal c = false :=
  not_of_parts (by rfl) h

theorem not_parts_isHexadecimal (c : Char) (h : parts c) : isHexadecimal c = false :=
  not_of_parts (by rfl) h

theorem not_parts_isWordStart (c : Char) (h : parts c) : isWordStart c = false :=
  not_of_parts (by rfl) h

theorem not_parts_isWordChar (c : Char) (h : parts c) : isWordChar c = false :=
  not_of_parts (by rfl) h

/-- The mark of an exponent. -/
def isExponentMark (c : Char) : Bool := c == 'e' || c == 'E'

theorem not_parts_isExponentMark (c : Char) (h : parts c) : isExponentMark c = false :=
  not_of_parts (by rfl) h

/-- The sign of an exponent. -/
def isSign (c : Char) : Bool := c == '+' || c == '-'

theorem not_parts_isSign (c : Char) (h : parts c) : isSign c = false :=
  not_of_parts (by rfl) h

/-- The length of the digits of an exponent with their sign. -/
def signedLength : Text → Nat
  | [] => 0
  | c :: digits =>
    if isSign c then 1 + Text.runLength isDecimal digits
    else Text.runLength isDecimal (c :: digits)

theorem exponentLength_cons (c : Char) (t : Text) :
    exponentLength (c :: t) = if isExponentMark c then 1 + signedLength t else 0 := by
  cases hc : isExponentMark c with
  | false =>
      simp only [isExponentMark] at hc
      simp [exponentLength, hc]
  | true =>
      simp only [isExponentMark] at hc
      cases t with
      | nil => simp [exponentLength, hc, signedLength, Text.runLength]
      | cons d t =>
          by_cases hplus : d = '+'
          · subst hplus
            simp [exponentLength, hc, signedLength, isSign]
            omega
          · by_cases hminus : d = '-'
            · subst hminus
              simp [exponentLength, hc, signedLength, isSign]
              omega
            · simp [exponentLength, hc, signedLength, isSign, hplus, hminus]

/-- A point alone is a fraction if neither a point nor a digit follows. -/
theorem fractionLength_eq_one (t : Text) : fractionLength ('.' :: t) = 1 ↔
    Text.startsWith (· == '.') t = false ∧ Text.startsWith isDecimal t = false := by
  cases t with
  | nil => simp [fractionLength, Text.startsWith, Text.runLength]
  | cons c t =>
      by_cases hc : c = '.'
      · subst hc
        simp [fractionLength, Text.startsWith]
      · cases hdigit : isDecimal c <;>
          simp [fractionLength, Text.startsWith, Text.runLength, hc, hdigit]

/-- A fraction that ends before the text ends before the other. -/
theorem fractionLength_append (h : LooksLike rest other)
    (hx : x = ['.'] → fractionLength (x ++ rest) ≠ 0)
    (hle : fractionLength (x ++ rest) ≤ x.length) :
    fractionLength (x ++ other) = fractionLength (x ++ rest) := by
  cases x with
  | nil =>
      have hzero : fractionLength rest = 0 := by simpa using hle
      rw [List.nil_append, List.nil_append, hzero]
      cases h with
      | @parts other hparts =>
          cases other with
          | nil => rfl
          | cons c later =>
              have hc : c ≠ '.' := by
                rintro rfl
                exact absurd (hparts _ _ rfl) (by decide)
              simp [fractionLength, hc]
      | @same c later later' starts point =>
          subst starts
          by_cases hc : c = '.'
          · subst hc
            have hpoint := point rfl
            cases later with
            | nil => simp [fractionLength] at hzero
            | cons d later =>
                have hd : d = '.' := by
                  by_contra hd
                  simp [fractionLength, hd] at hzero
                subst hd
                cases later' with
                | nil => cases hpoint
                | cons e later' =>
                    have he : e = '.' := by simpa [Text.startsWith] using hpoint.symm
                    subst he
                    rfl
          · simp [fractionLength, hc]
  | cons c x =>
      by_cases hc : c = '.'
      · subst hc
        cases x with
        | nil =>
            have hpos : fractionLength ('.' :: rest) ≠ 0 := hx rfl
            have hrest : fractionLength ('.' :: rest) = 1 :=
              Nat.le_antisymm hle (Nat.pos_of_ne_zero hpos)
            obtain ⟨hpoint, hdigit⟩ := (fractionLength_eq_one rest).mp hrest
            have hother : fractionLength ('.' :: other) = 1 := (fractionLength_eq_one other).mpr
              ⟨h.startsWith Text.not_parts_point hpoint, h.startsWith not_parts_isDecimal hdigit⟩
            exact hother.trans hrest.symm
        | cons d x =>
            by_cases hd : d = '.'
            · subst hd
              rfl
            · have hle : Text.runLength isDecimal (d :: x ++ rest) ≤ (d :: x).length := by
                rw [List.cons_append, List.cons_append, fractionLength] at hle
                · simp only [List.length_cons, List.cons_append] at hle ⊢
                  omega
                · intro tail heq
                  exact hd (List.cons.inj heq).1
              have hrun := h.runLength not_parts_isDecimal hle
              simp only [List.cons_append] at hrun
              simp [fractionLength, hd, hrun]
      · simp [fractionLength, hc]

/-- The digits of an exponent that end before the text end before the other. -/
theorem signedLength_append (h : LooksLike rest other)
    (hle : signedLength (x ++ rest) ≤ x.length) :
    signedLength (x ++ other) = signedLength (x ++ rest) := by
  have hzero : ∀ t, signedLength t = 0 ↔
      Text.startsWith isSign t = false ∧ Text.startsWith isDecimal t = false := by
    intro t
    cases t with
    | nil => simp [signedLength, Text.startsWith]
    | cons c t =>
        cases hsign : isSign c <;> cases hc : isDecimal c <;>
          simp [signedLength, Text.startsWith, Text.runLength, hsign, hc]
  cases x with
  | nil =>
      have hrest : signedLength rest = 0 := by simpa using hle
      obtain ⟨hsign, hdigit⟩ := (hzero rest).mp hrest
      have hother : signedLength other = 0 := (hzero other).mpr
        ⟨h.startsWith not_parts_isSign hsign, h.startsWith not_parts_isDecimal hdigit⟩
      exact hother.trans hrest.symm
  | cons c x =>
      rw [List.cons_append, signedLength] at hle
      rw [List.cons_append, List.cons_append, signedLength, signedLength]
      by_cases hsign : isSign c
      · rw [if_pos hsign] at hle
        rw [List.length_cons] at hle
        have hrun := h.runLength (x := x) not_parts_isDecimal (by omega)
        rw [if_pos hsign, if_pos hsign, hrun]
      · rw [if_neg hsign] at hle
        have hrun := h.runLength (x := c :: x) not_parts_isDecimal hle
        rw [if_neg hsign, if_neg hsign]
        exact hrun

/-- An exponent that ends before the text ends before the other. -/
theorem exponentLength_append (h : LooksLike rest other)
    (hle : exponentLength (x ++ rest) ≤ x.length) :
    exponentLength (x ++ other) = exponentLength (x ++ rest) := by
  have hzero : ∀ t, exponentLength t = 0 ↔ Text.startsWith isExponentMark t = false := by
    intro t
    cases t with
    | nil => simp [exponentLength, Text.startsWith]
    | cons c t =>
        rw [exponentLength_cons]
        cases hc : isExponentMark c <;> simp [Text.startsWith, hc]
  cases x with
  | nil =>
      have hrest : exponentLength rest = 0 := by simpa using hle
      have hother : exponentLength other = 0 := (hzero other).mpr
        (h.startsWith not_parts_isExponentMark ((hzero rest).mp hrest))
      exact hother.trans hrest.symm
  | cons c x =>
      rw [List.cons_append, exponentLength_cons] at hle
      rw [List.cons_append, List.cons_append, exponentLength_cons, exponentLength_cons]
      by_cases hc : isExponentMark c
      · rw [if_pos hc, List.length_cons] at hle
        rw [if_pos hc, if_pos hc, signedLength_append h (by omega)]
      · rw [if_neg hc, if_neg hc]

/-- A point that is no fraction is no exponent either. -/
theorem exponentLength_point (t : Text) : exponentLength ('.' :: t) = 0 := by
  rw [exponentLength_cons]
  rfl

/-- A decimal number that ends before the text ends before the other. -/
theorem decimalLength_append (h : LooksLike rest other)
    (hlength : decimalLength (x ++ rest) = x.length) :
    decimalLength (x ++ other) = x.length := by
  unfold decimalLength at hlength ⊢
  dsimp only at hlength ⊢
  have hwhole : Text.runLength isDecimal (x ++ rest) ≤ x.length := by omega
  rw [h.runLength not_parts_isDecimal hwhole]
  generalize Text.runLength isDecimal (x ++ rest) = whole at hlength hwhole ⊢
  rw [List.drop_append_of_le_length hwhole] at hlength ⊢
  have hbehind : (x.drop whole).length = x.length - whole := List.length_drop
  have hpoint : x.drop whole = ['.'] → fractionLength (x.drop whole ++ rest) ≠ 0 := by
    intro hpoint hzero
    have hdrop : (x ++ rest).drop whole = '.' :: rest := by
      rw [List.drop_append_of_le_length hwhole, hpoint]
      rfl
    rw [hzero, Nat.add_zero, hdrop, exponentLength_point] at hlength
    rw [hpoint, List.length_singleton] at hbehind
    omega
  rw [fractionLength_append h hpoint (by omega)]
  have hle : whole + fractionLength (x.drop whole ++ rest) ≤ x.length := by omega
  rw [List.drop_append_of_le_length hle] at hlength ⊢
  generalize whole + fractionLength (x.drop whole ++ rest) = taken at hlength hle ⊢
  have hlast : (x.drop taken).length = x.length - taken := List.length_drop
  rw [exponentLength_append h (by omega)]
  exact hlength

/-- A number whose first character is no zero is decimal. -/
theorem numeralLength_of_ne_zero {c : Char} (hc : c ≠ '0') (t : Text) :
    numeralLength (c :: t) = decimalLength (c :: t) := by
  rw [numeralLength]
  intro mark later heq
  exact hc (List.cons.inj heq).1

/-- A zero that no other radix is announced behind is decimal. -/
theorem numeralLength_zero {t : Text} (ht : Text.startsWith isRadixMark t = false) :
    numeralLength ('0' :: t) = decimalLength ('0' :: t) := by
  cases t with
  | nil => rfl
  | cons c t =>
      have hc : isRadixMark c = false := ht
      simp [numeralLength, hc]

theorem not_parts_isRadixMark (c : Char) (h : parts c) : isRadixMark c = false :=
  not_of_parts (by rfl) h

/-- A number that ends before the text ends before the other. -/
theorem numeralLength_append (h : LooksLike rest other) (hx : x ≠ [])
    (hlength : numeralLength (x ++ rest) = x.length) :
    numeralLength (x ++ other) = x.length := by
  cases x with
  | nil => exact absurd rfl hx
  | cons c x =>
      by_cases hc : c = '0'
      · subst hc
        cases x with
        | nil =>
            have hrest : Text.startsWith isRadixMark rest = false := by
              cases rest with
              | nil => rfl
              | cons d later =>
                  cases hd : isRadixMark d with
                  | false => exact hd
                  | true =>
                      have hlong : numeralLength ('0' :: d :: later) =
                          2 + Text.runLength isHexadecimal later := by simp [numeralLength, hd]
                      simp only [List.cons_append, List.nil_append, List.length_singleton,
                        hlong] at hlength
                      omega
            have hother := h.startsWith not_parts_isRadixMark hrest
            rw [List.cons_append, List.nil_append, numeralLength_zero hrest] at hlength
            rw [List.cons_append, List.nil_append, numeralLength_zero hother]
            exact decimalLength_append (x := ['0']) h hlength
        | cons d x =>
            cases hd : isRadixMark d with
            | true =>
                simp only [List.cons_append, numeralLength, hd, if_true,
                  List.length_cons] at hlength ⊢
                rw [h.runLength not_parts_isHexadecimal (by omega)]
                exact hlength
            | false =>
                have hplain : ∀ t, numeralLength ('0' :: d :: t) = decimalLength ('0' :: d :: t) :=
                  fun t => numeralLength_zero hd
                simp only [List.cons_append, hplain] at hlength ⊢
                exact decimalLength_append (x := '0' :: d :: x) h hlength
      · simp only [List.cons_append, numeralLength_of_ne_zero hc] at hlength ⊢
        exact decimalLength_append (x := c :: x) h hlength

/-- A point and a digit make two characters of a number. -/
theorem two_le_numeralLength {c : Char} (hc : c.isDigit) (t : Text) :
    2 ≤ numeralLength ('.' :: c :: t) := by
  have hpoint : c ≠ '.' := by
    rintro rfl
    exact absurd hc (by decide)
  have hdigit : isDecimal c := by simp [isDecimal, hc]
  have hwhole : Text.runLength isDecimal ('.' :: c :: t) = 0 := by
    simp [Text.runLength, isDecimal]
  have hrun := runLength_pos (t := t) hdigit
  have hfraction : fractionLength ('.' :: c :: t) = 1 + Text.runLength isDecimal (c :: t) := by
    rw [fractionLength]
    intro later heq
    exact hpoint (List.cons.inj heq).1
  rw [numeralLength_of_ne_zero (by decide), decimalLength, hwhole, List.drop_zero, hfraction]
  omega

/-- A number starts before the other as it does before the text. -/
theorem startsNumber_append (hx : x ≠ []) (hlength : numeralLength (x ++ rest) = x.length)
    (hstart : startsNumber (x ++ rest)) : startsNumber (x ++ other) := by
  have hplain : ∀ {c : Char}, c ≠ '.' → ∀ t, startsNumber (c :: t) = c.isDigit := by
    intro c hc t
    rw [startsNumber]
    intro d later heq
    exact absurd heq hc
  cases x with
  | nil => exact absurd rfl hx
  | cons c x =>
      by_cases hc : c = '.'
      · subst hc
        cases x with
        | nil =>
            cases rest with
            | nil => cases hstart
            | cons d later =>
                have htwo := two_le_numeralLength hstart later
                simp only [List.cons_append, List.nil_append, List.length_singleton] at hlength
                omega
        | cons d x => exact hstart
      · simp only [List.cons_append, hplain hc] at hstart ⊢
        exact hstart

/-! ### Strings and comments -/

/-- A short string that is closed has its quote. -/
theorem shortStringTail_pos {quote : Char} {skipping : Bool} {t : Text} {length : Nat}
    (h : shortStringTail quote skipping t = (length, true)) : 0 < length := by
  fun_induction shortStringTail quote skipping t with
  | case1 | case2 | case7 => simp at h
  | case3 | case4 | case5 | case6 | case8 | case9 => 
      obtain ⟨rfl, -⟩ := Prod.mk.inj h
      omega

/-- A text that is not empty starts as what it is part of. -/
theorem exists_cons_of_append {t : Text} {c : Char} (h : x ++ rest = c :: t)
    (hx : 0 < x.length) : ∃ later, x = c :: later ∧ later ++ rest = t := by
  cases x with
  | nil => cases hx
  | cons d later =>
      obtain ⟨rfl, rfl⟩ := List.cons.inj h
      exact ⟨later, rfl, rfl⟩

/-- A character of a short string that is no backslash. -/
theorem shortStringTail_cons {quote c : Char} (hc : c ≠ '\\') (skipping : Bool) (t : Text) :
    shortStringTail quote skipping (c :: t) =
      if skipping && isSkippedBlank c then
        ((shortStringTail quote true t).1 + 1, (shortStringTail quote true t).2)
      else if c == '\n' then (0, false)
      else if c == quote then (1, true)
      else ((shortStringTail quote false t).1 + 1, (shortStringTail quote false t).2) := by
  rw [shortStringTail]
  all_goals
    intros
    exact absurd ‹_› hc

/-- A backslash is at the end of a text, or it escapes something. -/
theorem ne_backslash {c : Char} {t : Text} (hend : c = '\\' → t = [] → False)
    (hescape : ∀ d later, c = '\\' → t = d :: later → False) : c ≠ '\\' := by
  intro hc
  cases t with
  | nil => exact hend hc rfl
  | cons d later => exact hescape d later hc rfl

/-- A short string that is closed does not see what follows. -/
theorem shortStringTail_append {quote : Char} {skipping : Bool}
    (hclosed : shortStringTail quote skipping (x ++ rest) = (x.length, true)) (other : Text) :
    shortStringTail quote skipping (x ++ other) = (x.length, true) := by
  generalize ht : x ++ rest = t at hclosed
  fun_induction shortStringTail quote skipping t generalizing x with
  | case1 | case2 | case7 => simp at hclosed
  | case3 skipping t length closed hrest ih =>
      obtain ⟨hlength, rfl⟩ := Prod.mk.inj hclosed
      obtain ⟨y, rfl, hy⟩ := exists_cons_of_append ht (by omega)
      obtain ⟨z, rfl, hz⟩ := exists_cons_of_append hy (by simp at hlength; omega)
      have hlater := ih hz (by simp [hrest]; simpa using hlength)
      simp [shortStringTail, hlater]
  | case4 skipping t length closed hrest ih =>
      obtain ⟨hlength, rfl⟩ := Prod.mk.inj hclosed
      obtain ⟨y, rfl, hy⟩ := exists_cons_of_append ht (by omega)
      obtain ⟨z, rfl, hz⟩ := exists_cons_of_append hy (by simp at hlength; omega)
      obtain ⟨w, rfl, hw⟩ := exists_cons_of_append hz (by simp at hlength; omega)
      have hlater := ih hw (by simp [hrest]; simpa using hlength)
      simp [shortStringTail, hlater]
  | case5 skipping c t hc hbreak length closed hrest ih =>
      obtain ⟨hlength, rfl⟩ := Prod.mk.inj hclosed
      obtain ⟨y, rfl, hy⟩ := exists_cons_of_append ht (by omega)
      obtain ⟨z, rfl, hz⟩ := exists_cons_of_append hy (by simp at hlength; omega)
      have hlater := ih hz (by simp [hrest]; simpa using hlength)
      -- The quote is still to come, so the break that is looked for is within the text.
      have hpos : 0 < z.length := shortStringTail_pos hlater
      obtain ⟨d, w, rfl⟩ := List.exists_cons_of_ne_nil (List.ne_nil_of_length_pos hpos)
      have hd : c = '\r' → d ≠ '\n' := by
        rintro rfl rfl
        exact hbreak (w ++ rest) rfl hz.symm
      simp only [List.cons_append] at hlater ⊢
      rw [shortStringTail, hlater]
      · simp
      · exact hc
      · intro later hreturn heq
        exact hd hreturn (List.cons.inj heq).1
  | case6 skipping c t hend hskip hbreak hescape hblank length closed hrest ih =>
      obtain ⟨hlength, rfl⟩ := Prod.mk.inj hclosed
      obtain ⟨y, rfl, hy⟩ := exists_cons_of_append ht (by omega)
      have hlater := ih hy (by simp [hrest]; simpa using hlength)
      have hc := ne_backslash hend hescape
      rw [List.cons_append, shortStringTail_cons hc, if_pos hblank, hlater]
      rfl
  | case8 skipping c t hend hskip hbreak hescape hblank hline hquote =>
      obtain ⟨hlength, -⟩ := Prod.mk.inj hclosed
      obtain ⟨y, rfl, hy⟩ := exists_cons_of_append ht (by omega)
      have hc := ne_backslash hend hescape
      rw [List.cons_append, shortStringTail_cons hc, if_neg hblank, if_neg hline, if_pos hquote,
        hlength]
  | case9 skipping c t hend hskip hbreak hescape hblank hline hquote length closed hrest ih =>
      obtain ⟨hlength, rfl⟩ := Prod.mk.inj hclosed
      obtain ⟨y, rfl, hy⟩ := exists_cons_of_append ht (by omega)
      have hlater := ih hy (by simp [hrest]; simpa using hlength)
      have hc := ne_backslash hend hescape
      rw [List.cons_append, shortStringTail_cons hc, if_neg hblank, if_neg hline, if_neg hquote,
        hlater]
      rfl

/-- A text that fits in the first part of another starts it, or it does not
start the whole. -/
theorem isPrefixOf_append {p : Text} (hle : p.length ≤ x.length) (t : Text) :
    p.isPrefixOf (x ++ t) = p.isPrefixOf x := by
  rw [Bool.eq_iff_iff, List.isPrefixOf_iff_prefix, List.isPrefixOf_iff_prefix]
  constructor
  · intro h
    exact List.prefix_of_prefix_length_le h (List.prefix_append x t) hle
  · intro h
    exact h.trans (List.prefix_append x t)

/-- A pattern that is found in the text is found there before the other. -/
theorem indexOf?_append {pattern : Text} {k : Nat}
    (h : Text.indexOf? pattern (x ++ rest) = some k) (hle : k + pattern.length ≤ x.length)
    (other : Text) : Text.indexOf? pattern (x ++ other) = some k := by
  induction x generalizing k with
  | nil =>
      have hle : k + pattern.length ≤ 0 := hle
      have hempty : pattern = [] := List.eq_nil_of_length_eq_zero (by omega)
      have hzero : k = 0 := by omega
      subst hempty hzero
      cases other <;> simp [Text.indexOf?]
  | cons c x ih =>
      have hprefix := fun t => isPrefixOf_append (x := c :: x) (p := pattern) (by omega) t
      simp only [List.cons_append] at hprefix
      simp only [List.cons_append, Text.indexOf?, hprefix] at h ⊢
      by_cases hstarts : pattern.isPrefixOf (c :: x)
      · rw [if_pos hstarts] at h ⊢
        exact h
      · rw [if_neg hstarts] at h ⊢
        obtain ⟨j, hj, rfl⟩ := Option.map_eq_some_iff.mp h
        have hle : j + pattern.length ≤ x.length := by
          simp only [List.length_cons] at hle
          omega
        rw [ih hj hle]
        rfl

/-- A run that ends in the text does not see what follows. -/
theorem runLength_of_lt {p : Char → Bool} (hlt : Text.runLength p (x ++ rest) < x.length)
    (other : Text) : Text.runLength p (x ++ other) = Text.runLength p (x ++ rest) := by
  induction x with
  | nil => cases hlt
  | cons c x ih =>
      cases hc : p c with
      | false => simp [Text.runLength, hc]
      | true =>
          have hrun := ih (by simpa [Text.runLength, hc] using hlt)
          simp only [Text.runLength] at hrun
          simp [Text.runLength, hc, hrun]

/-- Brackets that are open in the text are open before the other. -/
theorem longBracketLevel?_append {level : Nat}
    (h : longBracketLevel? (x ++ rest) = some level) (hle : level + 2 ≤ x.length)
    (other : Text) : longBracketLevel? (x ++ other) = some level := by
  cases x with
  | nil => simp at hle
  | cons c x =>
      rw [List.cons_append] at h
      unfold longBracketLevel? at h
      split at h
      · rename_i t heq
        obtain ⟨rfl, rfl⟩ := List.cons.inj heq
        dsimp only at h
        split at h
        · rename_i later hdrop
          obtain rfl := Option.some.inj h
          have hlt : Text.runLength (· == '=') (x ++ rest) < x.length := by
            simp only [List.length_cons] at hle
            omega
          have hrun := runLength_of_lt hlt other
          generalize Text.runLength (· == '=') (x ++ rest) = signs at hdrop hlt hrun
          rw [List.drop_append_of_le_length (by omega)] at hdrop
          obtain ⟨d, y, hy⟩ := List.exists_cons_of_ne_nil
            (List.ne_nil_of_length_pos (l := x.drop signs) (by rw [List.length_drop]; omega))
          rw [hy, List.cons_append] at hdrop
          obtain ⟨rfl, -⟩ := List.cons.inj hdrop
          simp only [List.cons_append, longBracketLevel?, hrun]
          rw [List.drop_append_of_le_length (by omega), hy]
          rfl
        · cases h
      · cases h

/-- Brackets that are closed in the text are closed before the other. -/
theorem longBracketLength?_append {level : Nat}
    (h : longBracketLength? level (x ++ rest) = some x.length) (other : Text) :
    longBracketLength? level (x ++ other) = some x.length := by
  unfold longBracketLength? at h ⊢
  obtain ⟨inside, hinside, hlength⟩ := Option.map_eq_some_iff.mp h
  have hle : level + 2 ≤ x.length := by omega
  have hcloser : (longBracketCloser level).length = level + 2 := by simp [longBracketCloser]
  have hbehind : (x.drop (level + 2)).length = x.length - (level + 2) := List.length_drop
  rw [List.drop_append_of_le_length hle] at hinside ⊢
  rw [indexOf?_append hinside (by omega) other]
  exact congrArg some hlength

/-- A text in long brackets is as long as its brackets at least. -/
theorem level_le_of_longBracketLength? {level length : Nat} {t : Text}
    (h : longBracketLength? level t = some length) : level + 2 ≤ length := by
  obtain ⟨inside, -, hlength⟩ := Option.map_eq_some_iff.mp h
  omega

/-- No long bracket is open if behind the bracket and its signs there is no
other. -/
theorem longBracketLevel?_eq_none (t : Text) : longBracketLevel? ('[' :: t) = none ↔
    Text.startsWith (· == '[') (t.dropWhile (· == '=')) = false := by
  have hdrop : t.drop (Text.runLength (· == '=') t) = t.dropWhile (· == '=') := by
    have hsplit : t.takeWhile (· == '=') ++ t.dropWhile (· == '=') = t :=
      List.takeWhile_append_dropWhile
    exact (congrArg (List.drop _) hsplit).symm.trans List.drop_left
  simp only [longBracketLevel?, hdrop]
  cases t.dropWhile (· == '=') with
  | nil => simp [Text.startsWith]
  | cons c later =>
      by_cases hc : c = '['
      · subst hc
        simp [Text.startsWith]
      · simp [Text.startsWith, hc]

/-- Behind brackets that are none, a text that parts tokens opens none. -/
theorem longBracketLevel?_none_append (h : longBracketLevel? (x ++ rest) = none) (hx : x ≠ [])
    (hother : Text.Parts other) : longBracketLevel? (x ++ other) = none := by
  have hsigns : Text.startsWith (· == '=') other = false :=
    hother.startsWith fun c hc => not_of_parts (p := (· == '=')) (by rfl) hc
  have hbracket : Text.startsWith (· == '[') other = false :=
    hother.startsWith fun c hc => not_of_parts (p := (· == '[')) (by rfl) hc
  cases x with
  | nil => exact absurd rfl hx
  | cons c x =>
      by_cases hc : c = '['
      · subst hc
        rw [List.cons_append, longBracketLevel?_eq_none] at h ⊢
        clear hx
        induction x with
        | nil =>
            cases other with
            | nil => rfl
            | cons d later =>
                have hd : (d == '=') = false := hsigns
                simpa [hd] using hbracket
        | cons d x ih =>
            cases hd : d == '=' with
            | true =>
                simp only [List.cons_append, List.dropWhile_cons, hd, if_true] at h ⊢
                exact ih h
            | false =>
                simp only [List.cons_append, List.dropWhile_cons, hd] at h ⊢
                exact h
      · simp [longBracketLevel?, hc]

/-- A line comment that ends before a text with something visible ends before a
line break of that text. -/
theorem newline_mem_of_lineComment {a : Text} (h : lineCommentTail (x ++ (a ++ rest)) = x.length)
    (ha : a.all isBlank = false) : '\n' ∈ a := by
  by_contra hmem
  have hle : x.length ≤ ((x ++ (a ++ rest)).takeWhile (· != '\n')).length := by
    simp only [lineCommentTail] at h
    split at h <;> omega
  have hx : ∀ c ∈ x, (c != '\n') = true := by
    intro c hc
    have hprefix := List.takeWhile_prefix (l := x ++ (a ++ rest)) (· != '\n')
    have hx : x <+: (x ++ (a ++ rest)).takeWhile (· != '\n') :=
      List.prefix_of_prefix_length_le (List.prefix_append _ _) hprefix hle
    exact List.mem_takeWhile_imp (p := (· != '\n')) (hx.subset hc)
  have ha' : ∀ c ∈ a, (c != '\n') = true := by
    intro c hc
    simp only [bne_iff_ne, ne_eq]
    rintro rfl
    exact hmem hc
  have hne : a ≠ [] := by
    rintro rfl
    cases ha
  have hpos := List.length_pos_of_ne_nil hne
  rw [lineCommentTail, List.takeWhile_append_of_pos hx, List.takeWhile_append_of_pos ha'] at h
  simp only [List.length_append] at h
  split at h
  · rename_i hlast
    have hrest : rest.takeWhile (· != '\n') = [] := List.eq_nil_of_length_eq_zero (by omega)
    obtain ⟨c, rfl⟩ := List.length_eq_one_iff.mp (show a.length = 1 by omega)
    rw [hrest, List.append_nil, List.getLast?_concat, Option.some.injEq] at hlast
    subst hlast
    cases ha
  · omega

/-- A line comment does not see what is behind the line break. -/
theorem lineCommentTail_append (h : '\n' ∈ x) (t : Text) :
    lineCommentTail (x ++ t) = lineCommentTail x := by
  have hshort : (x.takeWhile (· != '\n')).length ≠ x.length := by
    intro heq
    have hall : x.takeWhile (· != '\n') = x := (List.takeWhile_prefix _).eq_of_length heq
    have hbreak := List.mem_takeWhile_imp (p := (· != '\n')) (hall.symm ▸ h)
    cases hbreak
  have hline : (x ++ t).takeWhile (· != '\n') = x.takeWhile (· != '\n') := by
    rw [List.takeWhile_append, if_neg hshort]
  simp only [lineCommentTail, hline]

/-! ### Literal parts -/

/-- The literal part of a string ends at a character that stays. -/
theorem literalTail_append {c : Char} (h : literalTail (x ++ c :: rest) = (x.length, false))
    (other : Text) : literalTail (x ++ c :: other) = (x.length, false) := by
  generalize ht : x ++ c :: rest = t at h
  fun_induction literalTail t generalizing x with
  | case1 => simp at ht
  | case2 =>
      cases x with
      | nil => simp at h
      | cons d x => simp at ht
  | case3 d t length broken hrest ih =>
      obtain ⟨hlength, rfl⟩ := Prod.mk.inj h
      obtain ⟨y, rfl, hy⟩ := exists_cons_of_append ht (by omega)
      obtain ⟨z, rfl, hz⟩ := exists_cons_of_append hy (by simp at hlength; omega)
      have hlater := ih hz (by simp [hrest]; simpa using hlength)
      simp [literalTail, hlater]
  | case4 => simp at h
  | case5 d t hend hescape hline hstop =>
      obtain ⟨hlength, -⟩ := Prod.mk.inj h
      obtain rfl := List.length_eq_zero_iff.mp hlength.symm
      obtain ⟨rfl, -⟩ := List.cons.inj ht
      have hc := ne_backslash hend (fun d later hd ht => hescape d later hd ht)
      rw [List.nil_append, literalTail]
      · simp [hline, hstop]
      · exact fun h => absurd h hc
      · exact fun _ _ h => absurd h hc
  | case6 d t hend hescape hline hstop length broken hrest ih =>
      obtain ⟨hlength, rfl⟩ := Prod.mk.inj h
      obtain ⟨y, rfl, hy⟩ := exists_cons_of_append ht (by omega)
      have hlater := ih hy (by simp [hrest]; simpa using hlength)
      have hc := ne_backslash hend (fun d later hd ht => hescape d later hd ht)
      rw [List.cons_append, literalTail]
      · simp [hline, hstop, hlater]
      · exact fun h => absurd h hc
      · exact fun _ _ h => absurd h hc

end Lexeme

end LuauTidy
