import LuauTidy.Proofs.Lookahead
import Mathlib.Tactic.FinCases

/-!
# What may stand behind a token

A token of code is taken again when what follows it is exchanged for a text
that looks the same to it.  For symbols this says that one more character is
enough: a symbol is taken unless the next character makes a longer symbol of
it.

* `TokenKind.find_symbols_append` — the symbol that is found;
* `Code.takes` — what is written like a token of code is taken;
* `Code.resumed` — the text behind a token is exchanged.
-/

namespace LuauTidy

open Lexeme

/-! ### Symbols -/

namespace TokenKind

/-- Symbols that go on from another one go on with none of the characters that
part tokens, but for a slash behind a slash. -/
theorem symbols_part {k j : TokenKind} (hk : k ∈ symbols) (hj : j ∈ symbols) {c : Char}
    (hc : parts c) (h : k.grammarName.toList ++ [c] <+: j.grammarName.toList) :
    k = .slash ∧ c = '/' := by
  have hall : symbols.all fun k => symbols.all fun j => partingCharacters.all fun c =>
      !(k.grammarName.toList ++ [c]).isPrefixOf j.grammarName.toList ||
        k == .slash && c == '/' := by decide +kernel
  have hj := List.all_eq_true.mp (List.all_eq_true.mp hall k hk) j hj
  have hc := List.all_eq_true.mp hj c (List.contains_iff_mem.mp hc)
  simpa [List.isPrefixOf_iff_prefix.mpr h] using hc

/-- A symbol that goes on from another one by two characters goes on from a
symbol that stands before the other one. -/
theorem symbols_between : ∀ k ∈ symbols, ∀ j ∈ symbols,
    k.grammarName.toList.isPrefixOf j.grammarName.toList →
      k.grammarName.toList.length < j.grammarName.toList.length →
      ∃ i ∈ symbols.takeWhile (· != k),
        i.grammarName.toList = j.grammarName.toList.take (k.grammarName.toList.length + 1) := by
  decide +kernel

/-- What is found is the first that is looked for. -/
theorem find?_eq_some_iff {l : List TokenKind} {p : TokenKind → Bool} {k : TokenKind}
    (hk : k ∈ l) : l.find? p = some k ↔ p k ∧ ∀ j ∈ l.takeWhile (· != k), p j = false := by
  induction l with
  | nil => cases hk
  | cons i l ih =>
      by_cases hi : i = k
      · subst hi
        cases hp : p i with
        | true => simp [hp]
        | false =>
            simp only [List.find?_cons, hp, Bool.false_eq_true, false_and, iff_false]
            intro hfind
            have := List.find?_some hfind
            simp [hp] at this
      · have hmem : k ∈ l := by
          rcases List.mem_cons.mp hk with rfl | hmem
          · exact absurd rfl hi
          · exact hmem
        cases hp : p i <;> simp [hp, hi, ih hmem]

/-- A symbol is the first that a text starts with. -/
theorem find_symbols_eq_some {k : TokenKind} (hk : k ∈ symbols) {t : Text} :
    (symbols.find? fun j => j.grammarName.toList.isPrefixOf t) = some k ↔
      k.grammarName.toList <+: t ∧
        ∀ j ∈ symbols.takeWhile (· != k), ¬ j.grammarName.toList <+: t := by
  rw [find?_eq_some_iff hk]
  simp only [List.isPrefixOf_iff_prefix, ← Bool.not_eq_true]

variable {k : TokenKind} {rest other : Text}

/-- A symbol is taken before the other as before the text, unless the two make
a longer symbol of slashes. -/
theorem find_symbols_append (h : Text.LooksLike rest other) (hk : k ∈ symbols)
    (hslash : k = .slash → Text.startsWith (· == '/') other = false)
    (hfound : (symbols.find? fun j =>
      j.grammarName.toList.isPrefixOf (k.grammarName.toList ++ rest)) = some k) :
    (symbols.find? fun j =>
      j.grammarName.toList.isPrefixOf (k.grammarName.toList ++ other)) = some k := by
  rw [find_symbols_eq_some hk] at hfound ⊢
  refine ⟨List.prefix_append _ _, ?_⟩
  intro j hj hprefix
  have hmem : j ∈ symbols := (List.takeWhile_prefix _).subset hj
  by_cases hle : j.grammarName.toList.length ≤ k.grammarName.toList.length
  · have hshort : j.grammarName.toList <+: k.grammarName.toList :=
      List.prefix_of_prefix_length_le hprefix (List.prefix_append _ _) hle
    exact hfound.2 j hj (hshort.trans (List.prefix_append _ _))
  · -- The next character already makes a longer symbol of it.
    obtain ⟨more, hmore⟩ : k.grammarName.toList <+: j.grammarName.toList :=
      List.prefix_of_prefix_length_le (List.prefix_append _ _) hprefix (by omega)
    cases more with
    | nil => simp [← hmore] at hle
    | cons c more =>
        have hlonger : k.grammarName.toList ++ [c] <+: j.grammarName.toList :=
          ⟨more, by simp [← hmore]⟩
        have hstarts : [c] <+: other := by
          rw [← hmore, List.prefix_append_right_inj] at hprefix
          exact List.IsPrefix.trans (List.prefix_append [c] more) hprefix
        obtain ⟨later, rfl⟩ := hstarts
        cases h with
        | parts hparts =>
            obtain ⟨hk', hc⟩ := symbols_part hk hmem (hparts c later rfl) hlonger
            have hno := hslash hk'
            subst hc
            cases hno
        | same starts point =>
            subst starts
            have hgoes := List.isPrefixOf_iff_prefix.mpr
              (List.IsPrefix.trans (List.prefix_append _ [c]) hlonger)
            obtain ⟨i, hi, hname⟩ := symbols_between k hk j hmem hgoes (by omega)
            apply hfound.2 i hi
            rw [hname, ← hmore, List.take_length_add_append]
            exact ⟨_, List.append_assoc _ [c] _⟩

/-- A symbol that is taken is not followed by what makes a longer one of it. -/
theorem symbol_stops {j : TokenKind} {c : Char} (hk : k ∈ symbols)
    (hj : j ∈ symbols.takeWhile (· != k))
    (hname : j.grammarName.toList = k.grammarName.toList ++ [c])
    (hfound : (symbols.find? fun j =>
      j.grammarName.toList.isPrefixOf (k.grammarName.toList ++ rest)) = some k) :
    Text.startsWith (· == c) rest = false := by
  cases rest with
  | nil => rfl
  | cons d rest =>
      cases hd : d == c with
      | false => exact hd
      | true =>
          obtain rfl := beq_iff_eq.mp hd
          have hno := ((find_symbols_eq_some hk).mp hfound).2 j hj
          rw [hname] at hno
          exact absurd ⟨rest, List.append_assoc _ [d] rest⟩ hno

/-- Whatever follows, most symbols start no number, no comment, no long bracket
and no vararg. -/
theorem symbol_plain : ∀ k ∈ symbols, k ∈ [dot, concat, minus, lbracket] ∨
    ∀ t, Lexeme.startsNumber (k.grammarName.toList ++ t) = false ∧
      "--".toList.isPrefixOf (k.grammarName.toList ++ t) = false ∧
      Lexeme.longBracketLevel? (k.grammarName.toList ++ t) = none ∧
      "...".toList.isPrefixOf (k.grammarName.toList ++ t) = false := by
  intro k hk
  fin_cases hk
  all_goals first
    | exact .inl (by decide)
    | exact .inr fun t => ⟨rfl, rfl, rfl, rfl⟩

end TokenKind

/-! ### Tokens -/

namespace Lexeme

theorem isBlank_of_isWordStart {c : Char} (h : isWordStart c) : isBlank c = false := by
  cases hc : isBlank c with
  | false => rfl
  | true => simp [not_parts_isWordStart c (parts_of_blank hc)] at h

/-- A digit is no blank and starts no word. -/
theorem plain_of_isDigit {c : Char} (hc : c.isDigit) : isBlank c = false ∧ isWordStart c = false := by
  constructor
  · cases hblank : isBlank c with
    | false => rfl
    | true =>
        have hdecimal : isDecimal c = false := not_parts_isDecimal c (parts_of_blank hblank)
        simp [isDecimal, hc] at hdecimal
  · simp only [Char.isDigit, ge_iff_le, Bool.and_eq_true, decide_eq_true_eq,
      UInt32.le_iff_toNat_le] at hc
    simp only [isWordStart, Char.isAlpha, Char.isUpper, Char.isLower, ge_iff_le,
      Bool.or_eq_false_iff, Bool.and_eq_false_iff, decide_eq_false_iff_not, beq_eq_false_iff_ne,
      UInt32.le_iff_toNat_le]
    refine ⟨⟨by simp at *; omega, by simp at *; omega⟩, ?_⟩
    rintro rfl
    simp at hc

/-- The first character of a number is no blank and starts no word. -/
theorem plain_of_startsNumber {c : Char} {t : Text} (h : startsNumber (c :: t)) :
    isBlank c = false ∧ isWordStart c = false := by
  by_cases hc : c = '.'
  · subst hc
    decide
  · apply plain_of_isDigit
    rw [startsNumber] at h
    · exact h
    · intro d later heq
      exact absurd heq hc

/-- A symbol starts with nothing that is looked for before symbols. -/
theorem plain_of_symbol : ∀ k ∈ TokenKind.symbols, ∃ c tail, k.grammarName.toList = c :: tail ∧
    isBlank c = false ∧ isWordStart c = false ∧ (c == '"' || c == '\'') = false ∧
      (c == '`') = false ∧ (c == '{') = false ∧ (c == '}') = false := by
  intro k hk
  fin_cases hk
  all_goals exact ⟨_, _, rfl, by decide⟩

theorem not_parts_isDigit (c : Char) (h : parts c) : c.isDigit = false :=
  not_of_parts (by rfl) h

theorem not_parts_dash (c : Char) (h : parts c) : (c == '-') = false :=
  not_of_parts (p := (· == '-')) (by rfl) h

/-- A point starts a number before a digit. -/
theorem startsNumber_point (t : Text) :
    startsNumber ('.' :: t) = Text.startsWith Char.isDigit t := by
  cases t with
  | nil => rfl
  | cons c t => rfl

/-- A dash starts a comment before another. -/
theorem isComment_dash (t : Text) :
    "--".toList.isPrefixOf ('-' :: t) = Text.startsWith (· == '-') t := by
  cases t with
  | nil => rfl
  | cons c t =>
      change ('-' == c && true) = (c == '-')
      rw [Bool.and_true, Bool.beq_comm]

/-- Two points start a vararg before a third. -/
theorem isVararg_points (t : Text) :
    "...".toList.isPrefixOf ('.' :: '.' :: t) = Text.startsWith (· == '.') t := by
  cases t with
  | nil => rfl
  | cons c t =>
      change ('.' == c && true) = (c == '.')
      rw [Bool.and_true, Bool.beq_comm]

/-- A point starts no vararg if no other follows. -/
theorem not_vararg_of_point {t : Text} (ht : Text.startsWith (· == '.') t = false) :
    "...".toList.isPrefixOf ('.' :: t) = false := by
  cases t with
  | nil => rfl
  | cons c t =>
      change ('.' == c && ['.'].isPrefixOf t) = false
      have hc : (c == '.') = false := ht
      rw [Bool.beq_comm, hc, Bool.false_and]

/-- A text that is long enough for brackets starts with one. -/
theorem starts_of_longBracketLevel? {t : Text} {level : Nat}
    (h : longBracketLevel? t = some level) : ∃ later, t = '[' :: later := by
  unfold longBracketLevel? at h
  split at h
  · exact ⟨_, rfl⟩
  · cases h

end Lexeme

namespace Code

variable {n m : Nesting} {text rest : Text} {cls : TokenClass}

/-- A number is not empty. -/
theorem number_ne_nil (start : startsNumber (text ++ rest))
    (length : numeralLength (text ++ rest) = text.length) : text ≠ [] := by
  rintro rfl
  cases rest with
  | nil => cases start
  | cons c later =>
      have hpos := numeralLength_pos start
      have hzero : numeralLength (c :: later) = 0 := length
      omega

/-- What is written like a token of code is taken as one. -/
theorem takes (h : Code n text rest cls m) (hn : n.inLiteral = false) :
    Takes n text rest cls m := by
  cases h with
  | word start all stop =>
      cases text with
      | nil => cases start
      | cons c tail =>
          have hc : isWordStart c := start
          have hrun := Text.runLength_eq_length.mpr ⟨all, stop⟩
          have htake := Text.takeWhile_append all stop
          rw [List.cons_append] at hrun htake
          simp [Takes, Lexeme.read, next, hn, inCode, isBlank_of_isWordStart hc, hc, Lexeme.word,
            hrun, htake]
  | number start length stop =>
      obtain ⟨c, tail, rfl⟩ := List.exists_cons_of_ne_nil (number_ne_nil start length)
      obtain ⟨hblank, hword⟩ := plain_of_startsNumber start
      have hdrop : (c :: (tail ++ rest)).drop (c :: tail).length = rest := List.drop_left
      rw [List.cons_append] at start length
      have hnumber : Lexeme.number n (c :: (tail ++ rest)) =
          ⟨some (.literal .number), (c :: tail).length, n⟩ := by
        simp only [Lexeme.number, length, hdrop]
        cases rest with
        | nil => rfl
        | cons d later =>
            have hd : isWordStart d = false := stop
            simp [hd]
      simp [Takes, Lexeme.read, next, hn, inCode, hblank, hword, start, hnumber]
  | @string quote tail rest isQuote closed =>
      have hplain : isBlank quote = false ∧ isWordStart quote = false ∧
          startsNumber (quote :: (tail ++ rest)) = false := by
        rcases Bool.or_eq_true_iff.mp isQuote with hquote | hquote
        · rw [beq_iff_eq.mp hquote]
          exact ⟨by decide, by decide, rfl⟩
        · rw [beq_iff_eq.mp hquote]
          exact ⟨by decide, by decide, rfl⟩
      obtain ⟨hblank, hword, hnumber⟩ := hplain
      simp [Takes, Lexeme.read, next, hn, inCode, hblank, hword, hnumber, isQuote, shortString,
        closed]
  | interpStart => simp [Takes, Lexeme.read, next, hn, inCode, isBlank, isWordStart, startsNumber]
  | lbrace => simp [Takes, Lexeme.read, next, hn, inCode, isBlank, isWordStart, startsNumber]
  | rbrace => simp [Takes, Lexeme.read, next, hn, inCode, isBlank, isWordStart, startsNumber]
  | longComment bracket closed =>
      simp [Takes, Lexeme.read, next, hn, inCode, isBlank, isWordStart, startsNumber, comment,
        bracket, closed]
  | lineComment bracket length =>
      simp [Takes, Lexeme.read, next, hn, inCode, isBlank, isWordStart, startsNumber, comment,
        bracket, length]
  | @longString level text rest bracket closed =>
      have hle := level_le_of_longBracketLength? closed
      obtain ⟨c, tail, rfl⟩ := List.exists_cons_of_ne_nil
        (List.ne_nil_of_length_pos (l := text) (by omega))
      obtain ⟨later, hlater⟩ := starts_of_longBracketLevel? bracket
      obtain ⟨rfl, -⟩ := List.cons.inj hlater
      rw [List.cons_append] at bracket closed
      simp [Takes, Lexeme.read, next, hn, inCode, isBlank, isWordStart, startsNumber, bracket,
        Lexeme.longString, closed]
  | vararg => simp [Takes, Lexeme.read, next, hn, inCode, isBlank, isWordStart, startsNumber,
      longBracketLevel?, Lexeme.symbol]
  | @symbol k rest number comment bracket vararg found =>
      have hk : k ∈ TokenKind.symbols := List.mem_of_find?_eq_some found
      obtain ⟨c, tail, hname, hblank, hword, hquote, hstring, hopen, hclose⟩ :=
        plain_of_symbol k hk
      rw [hname, List.cons_append] at number comment bracket vararg found
      rw [hname]
      have hsymbol : Lexeme.symbol n (c :: (tail ++ rest)) =
          ⟨some (.token k), (c :: tail).length, n⟩ := by
        simp only [Lexeme.symbol, vararg, found, hname, Bool.false_eq_true, if_false]
      simp only [Takes, Lexeme.read, next, hn, inCode, hblank, hword, number, hquote, hstring, hopen,
        hclose, comment, bracket, hsymbol, List.cons_append, Bool.false_eq_true, if_false]

/-- What follows a token is exchanged for a text that looks the same to it.  A
comment, an opening bracket and a slash may look further. -/
theorem exchanged {other : Text} (h : Code n text rest cls m) (hlooks : Text.LooksLike rest other)
    (hcomment : cls = .comment → ∀ tail, text = '-' :: '-' :: tail →
      longBracketLevel? (tail ++ rest) = none → lineCommentTail (tail ++ rest) = tail.length →
        longBracketLevel? (tail ++ other) = none ∧ lineCommentTail (tail ++ other) = tail.length)
    (hbracket : cls = .token .lbracket → longBracketLevel? ('[' :: rest) = none →
      longBracketLevel? ('[' :: other) = none)
    (hslash : cls = .token .slash → Text.startsWith (· == '/') rest = false →
      Text.startsWith (· == '/') other = false) : Code n text other cls m := by
  cases h with
  | word start all stop => exact .word start all (hlooks.startsWith not_parts_isWordChar stop)
  | number start length stop =>
      have hne := number_ne_nil start length
      exact .number (startsNumber_append hne length start) (numeralLength_append hlooks hne length)
        (hlooks.startsWith not_parts_isWordStart stop)
  | string isQuote closed => exact .string isQuote (shortStringTail_append closed _)
  | interpStart => exact .interpStart
  | lbrace => exact .lbrace
  | rbrace => exact .rbrace
  | longComment bracket closed =>
      have hle := level_le_of_longBracketLength? closed
      exact .longComment (longBracketLevel?_append bracket hle _)
        (longBracketLength?_append closed _)
  | @lineComment tail rest bracket length =>
      obtain ⟨hlevel, hlength⟩ := hcomment rfl tail rfl bracket length
      exact .lineComment hlevel hlength
  | longString bracket closed =>
      have hle := level_le_of_longBracketLength? closed
      exact .longString (longBracketLevel?_append bracket hle _) (longBracketLength?_append closed _)
  | vararg => exact .vararg
  | @symbol k rest number comment bracket vararg found =>
      have hk : k ∈ TokenKind.symbols := List.mem_of_find?_eq_some found
      have hother : k = .slash → Text.startsWith (· == '/') other = false := by
        rintro rfl
        exact hslash rfl
          (TokenKind.symbol_stops (c := '/') hk (j := .doubleSlash) (by decide) rfl found)
      have hagain := TokenKind.find_symbols_append hlooks hk hother found
      rcases TokenKind.symbol_plain k hk with hseeing | hplain
      · simp only [List.mem_cons, List.not_mem_nil, or_false] at hseeing
        rcases hseeing with rfl | rfl | rfl | rfl
        · have hstops := TokenKind.symbol_stops (c := '.') hk (j := .concat) (by decide) rfl found
          have hdigit := (startsNumber_point rest).symm.trans number
          have hnumber : startsNumber ('.' :: other) = false :=
            (startsNumber_point _).trans (hlooks.startsWith not_parts_isDigit hdigit)
          have hvararg : "...".toList.isPrefixOf ('.' :: other) = false :=
            not_vararg_of_point (hlooks.startsWith Text.not_parts_point hstops)
          exact .symbol hnumber rfl rfl hvararg hagain
        · have hthird := (isVararg_points rest).symm.trans vararg
          have hvararg : "...".toList.isPrefixOf ('.' :: '.' :: other) = false :=
            (isVararg_points _).trans (hlooks.startsWith Text.not_parts_point hthird)
          exact .symbol rfl rfl rfl hvararg hagain
        · have hsecond := (isComment_dash rest).symm.trans comment
          have hcomment : "--".toList.isPrefixOf ('-' :: other) = false :=
            (isComment_dash _).trans (hlooks.startsWith not_parts_dash hsecond)
          exact .symbol rfl hcomment rfl rfl hagain
        · exact .symbol rfl rfl (hbracket rfl bracket) rfl hagain
      · obtain ⟨hnumber, hcomment, hbracket, hvararg⟩ := hplain other
        exact .symbol hnumber hcomment hbracket hvararg hagain

/-- What follows a token is exchanged for a text with the same start, which
then parts the token from itself. -/
theorem resumed {a r r' : Text} (h : Code n text (a ++ r) cls m) (hr' : r'.Parts)
    (hpoint : a = ['.'] → Text.startsWith (· == '.') r = false)
    (hcomment : cls = .comment → a.all isBlank = false)
    (hslash : a = [] → cls = .token .slash → Text.startsWith (· == '/') r' = false) :
    Code n text (a ++ r') cls m := by
  have hlooks : Text.LooksLike (a ++ r) (a ++ r') := Text.looksLike_append hr' hpoint
  refine h.exchanged hlooks ?_ ?_ ?_
  · rintro hcls tail - bracket length
    have hmem := newline_mem_of_lineComment length (hcomment hcls)
    have hne : tail ++ a ≠ [] := List.append_ne_nil_of_right_ne_nil tail (List.ne_nil_of_mem hmem)
    rw [← List.append_assoc] at bracket length
    have hbracket := longBracketLevel?_none_append bracket hne hr'
    have hmem' : '\n' ∈ tail ++ a := List.mem_append_right tail hmem
    have hlength : lineCommentTail (tail ++ a ++ r') = tail.length := by
      rw [lineCommentTail_append hmem', ← lineCommentTail_append hmem' r]
      exact length
    rw [List.append_assoc] at hbracket hlength
    exact ⟨hbracket, hlength⟩
  · intro _ bracket
    exact longBracketLevel?_none_append (x := '[' :: a) bracket (by simp) hr'
  · intro hcls hstart
    cases a with
    | nil => exact hslash rfl hcls
    | cons c a => exact hstart

end Code

end LuauTidy
