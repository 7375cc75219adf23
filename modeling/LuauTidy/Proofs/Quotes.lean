import LuauTidy.Proofs.Cuts
import LuauTidy.Proofs.Neighbours

/-!
# Quotes

A short string literal stands for a row of items: characters, quotes, and escapes,
which are not looked into.  Whether a quote is escaped makes no difference to the
row.  The scanner and the layout read a literal in different ways, the one by its
end and the other by its pieces, and here both are tied to the row.  So a literal
that is delimited anew is again a token of the same value, and its delimiter is
the quote that needs fewer escapes.

Delimiting anew works on any text that begins with a quote, also where it is no
literal.  A second time it changes nothing.

* `StringItem`, `Denotes`, `HasValue` — the value of a short string;
* `exists_denotes`, `Denotes.shortStringTail` — the scanner reads what has a value;
* `Denotes.exists_body`, `Denotes.written` — the pieces of a literal, and the
  literal between other delimiters;
* `escapedQuotes`, `IsBestLiteral` — the literal with the fewest escapes;
* `normalizeQuotes_isBest`, `normalizeQuotes_idem` — strings delimited anew.
-/

namespace LuauTidy

open Lexeme

/-! ### Values -/

/-- What a short string is made of. -/
inductive StringItem
  /-- A quote character, bare or after a backslash. -/
  | quote (c : Char)
  /-- A backslash with the character after it, if that is no quote. -/
  | escape (c : Char)
  /-- A backslash with a line break of two characters. -/
  | lineBreak
  /-- A blank that the escape before it skips. -/
  | skipped (c : Char)
  /-- A character that stands for itself. -/
  | plain (c : Char)
  deriving DecidableEq, Repr

/-- What follows the opening quote of a literal, up to its closing quote, stands
for some items; `skipping` says that blanks are being skipped. -/
inductive Denotes (quote : Char) : (skipping : Bool) → Text → List StringItem → Prop
  | close (skipping : Bool) : Denotes quote skipping [quote] []
  | escaped {skipping : Bool} {c : Char} {rest : Text} {items : List StringItem}
      (hquote : isQuote c) (later : Denotes quote false rest items) :
      Denotes quote skipping ('\\' :: c :: rest) (.quote c :: items)
  | bare {skipping : Bool} {c : Char} {rest : Text} {items : List StringItem}
      (hquote : isQuote c) (hopen : c ≠ quote) (later : Denotes quote false rest items) :
      Denotes quote skipping (c :: rest) (.quote c :: items)
  | skip {skipping : Bool} {rest : Text} {items : List StringItem}
      (later : Denotes quote true rest items) :
      Denotes quote skipping ('\\' :: 'z' :: rest) (.escape 'z' :: items)
  | lineBreak {skipping : Bool} {rest : Text} {items : List StringItem}
      (later : Denotes quote false rest items) :
      Denotes quote skipping ('\\' :: '\r' :: '\n' :: rest) (.lineBreak :: items)
  | escape {skipping : Bool} {c : Char} {rest : Text} {items : List StringItem}
      (hquote : ¬isQuote c) (hskip : c ≠ 'z') (hbreak : c = '\r' → rest.head? ≠ some '\n')
      (later : Denotes quote false rest items) :
      Denotes quote skipping ('\\' :: c :: rest) (.escape c :: items)
  | skipped {c : Char} {rest : Text} {items : List StringItem} (hblank : isSkippedBlank c)
      (later : Denotes quote true rest items) :
      Denotes quote true (c :: rest) (.skipped c :: items)
  | plain {skipping : Bool} {c : Char} {rest : Text} {items : List StringItem}
      (hquote : ¬isQuote c) (hescape : c ≠ '\\') (hline : c ≠ '\n')
      (hblank : skipping → ¬isSkippedBlank c) (later : Denotes quote false rest items) :
      Denotes quote skipping (c :: rest) (.plain c :: items)

/-- A text is a short string literal for some items. -/
def HasValue (literal : Text) (items : List StringItem) : Prop :=
  ∃ quote tail, literal = quote :: tail ∧ isQuote quote ∧ Denotes quote false tail items

/-- The number of quotes after a backslash. -/
def escapedQuotes : Text → Nat
  | '\\' :: c :: rest => (if isQuote c then 1 else 0) + escapedQuotes rest
  | _ :: rest => escapedQuotes rest
  | [] => 0

/-- The pieces that an item is written from. -/
def StringItem.pieces : StringItem → List StringPiece
  | .quote c => [.quote c]
  | .escape c => [.escape c]
  | .lineBreak => [.escape '\r', .plain '\n']
  | .skipped c => [.plain c]
  | .plain c => [.plain c]

theorem isQuote_iff {c : Char} : isQuote c ↔ c = '\'' ∨ c = '"' := by simp [isQuote]

/-- A quote is neither a backslash nor a blank. -/
theorem ne_of_isQuote {q : Char} (hq : isQuote q) :
    q ≠ '\\' ∧ q ≠ '\n' ∧ isSkippedBlank q = false := by
  rcases isQuote_iff.mp hq with rfl | rfl <;> decide

namespace Denotes

variable {quote : Char} {skipping : Bool} {t : Text} {items : List StringItem}

/-- No line ends before a string does. -/
theorem head?_ne (hq : isQuote quote) (h : Denotes quote false t items) :
    t.head? ≠ some '\n' := by
  have hline : ∀ {c}, isQuote c → c ≠ '\n' := fun hc => (ne_of_isQuote hc).2.1
  cases h with
  | close => simpa using hline hq
  | bare hquote _ _ => simpa using hline hquote
  | plain _ _ hline _ _ => simpa using hline
  | escaped | skip | lineBreak | escape => simp

/-- The scanner finds the closing quote. -/
theorem shortStringTail (hq : isQuote quote) (h : Denotes quote skipping t items) :
    shortStringTail quote skipping t = (t.length, true) := by
  have hbare := fun c hc => ne_of_isQuote (q := c) hc
  induction h with
  | close skipping =>
      have hparts := hbare quote hq
      rw [shortStringTail_cons hparts.1]
      simp [hparts.2]
  | @escaped skipping c rest items hquote later ih =>
      have hz : c ≠ 'z' := by
        rintro rfl
        cases hquote
      have hr : c ≠ '\r' := by
        rintro rfl
        cases hquote
      rw [Lexeme.shortStringTail, ih]
      · rfl
      · exact hz
      · intro later hreturn
        exact absurd hreturn hr
  | @bare skipping c rest items hquote hopen later ih =>
      have hparts := hbare c hquote
      rw [shortStringTail_cons hparts.1, ih]
      simp [hparts.2, hopen]
  | skip later ih => simp [Lexeme.shortStringTail, ih]
  | lineBreak later ih => simp [Lexeme.shortStringTail, ih]
  | @escape skipping c rest items hquote hskip hbreak later ih =>
      rw [Lexeme.shortStringTail, ih]
      · rfl
      · exact hskip
      · intro later hreturn hrest
        exact hbreak hreturn (by simp [hrest])
  | @skipped c rest items hblank later ih =>
      have hescape : c ≠ '\\' := by
        rintro rfl
        cases hblank
      rw [shortStringTail_cons hescape, ih]
      simp [hblank]
  | @plain skipping c rest items hquote hescape hline hblank later ih =>
      have hopen : c ≠ quote := by
        rintro rfl
        exact hquote hq
      have hnone : ¬(skipping && isSkippedBlank c) := by simpa using hblank
      rw [shortStringTail_cons hescape, if_neg hnone, ih]
      simp [hline, hopen]

end Denotes

/-- What the scanner reads as a short string has a value. -/
theorem exists_denotes {quote : Char} (hq : isQuote quote) {skipping : Bool} {t : Text} :
    shortStringTail quote skipping t = (t.length, true) →
      ∃ items, Denotes quote skipping t items := by
  intro h
  fun_induction shortStringTail quote skipping t with
  | case1 | case2 | case7 => simp at h
  | case3 skipping rest length closed hrest ih =>
      obtain ⟨items, hitems⟩ := ih (by simp at h; simp [hrest, h])
      exact ⟨_, .skip hitems⟩
  | case4 skipping rest length closed hrest ih =>
      obtain ⟨items, hitems⟩ := ih (by simp at h; simp [hrest, h])
      exact ⟨_, .lineBreak hitems⟩
  | case5 skipping c rest hz hbreak length closed hrest ih =>
      obtain ⟨items, hitems⟩ := ih (by simp at h; simp [hrest, h])
      by_cases hc : isQuote c
      · exact ⟨_, .escaped hc hitems⟩
      · refine ⟨_, .escape hc hz ?_ hitems⟩
        intro hreturn hhead
        obtain ⟨later, hlater⟩ := List.head?_eq_some_iff.mp hhead
        exact hbreak later hreturn hlater
  | case6 skipping c rest hend hskip hbreak hescape hblank length closed hrest ih =>
      obtain ⟨items, hitems⟩ := ih (by simp at h; simp [hrest, h])
      rw [Bool.and_eq_true] at hblank
      obtain ⟨rfl, hblank⟩ := hblank
      exact ⟨_, .skipped hblank hitems⟩
  | case8 skipping c rest hend hskip hbreak hescape hblank hline hquote =>
      obtain rfl : c = quote := by simpa using hquote
      obtain rfl : rest = [] := by simpa using h
      exact ⟨[], .close skipping⟩
  | case9 skipping c rest hend hskip hbreak hescape hblank hline hquote length closed hrest ih =>
      obtain ⟨items, hitems⟩ := ih (by simp at h; simp [hrest, h])
      have hopen : c ≠ quote := by simpa using hquote
      by_cases hc : isQuote c
      · exact ⟨_, .bare hc hopen hitems⟩
      · exact ⟨_, .plain hc (ne_backslash hend hescape) (by simpa using hline)
          (by simpa using hblank) hitems⟩

/-- A literal has at most one value. -/
theorem Denotes.unique {quote : Char} (hq : isQuote quote) {skipping : Bool} {t : Text}
    {items others : List StringItem} (h : Denotes quote skipping t items)
    (h' : Denotes quote skipping t others) : items = others := by
  have hquote := ne_of_isQuote hq
  have hblank : isSkippedBlank '\\' = false := by decide
  induction h generalizing others with
  | close => cases h' <;> grind
  | escaped _ _ ih => cases h' <;> grind [isQuote]
  | bare hc _ _ ih =>
      have hparts := ne_of_isQuote hc
      cases h' <;> grind
  | skip _ ih => cases h' <;> grind [isQuote]
  | lineBreak _ ih => cases h' <;> grind [isQuote]
  | escape _ _ _ _ ih => cases h' <;> grind [isQuote]
  | skipped _ _ ih => cases h' <;> grind [isQuote, ne_of_isQuote]
  | plain _ _ _ _ _ ih => cases h' <;> grind [isQuote]

/-! ### Pieces -/

theorem StringPiece.ofBody_cons {c : Char} (hc : c ≠ '\\') (rest : Text) :
    ofBody (c :: rest) = (if isQuote c then .quote c else .plain c) :: ofBody rest := by
  rw [ofBody]
  · exact fun h => absurd h hc
  · exact fun _ _ h => absurd h hc

theorem StringPiece.ofBody_escape (c : Char) (rest : Text) :
    ofBody ('\\' :: c :: rest) = (if isQuote c then .quote c else .escape c) :: ofBody rest := by
  rw [ofBody]

/-- A literal ends in its quote, and its body has the pieces of its items. -/
theorem Denotes.exists_body {quote : Char} {skipping : Bool} {t : Text}
    {items : List StringItem} (h : Denotes quote skipping t items) :
    ∃ body, t = body ++ [quote] ∧ StringPiece.ofBody body = items.flatMap StringItem.pieces := by
  induction h with
  | close => exact ⟨[], rfl, rfl⟩
  | @escaped _ c _ _ hquote _ ih =>
      obtain ⟨body, rfl, hbody⟩ := ih
      refine ⟨'\\' :: c :: body, rfl, ?_⟩
      rw [StringPiece.ofBody_escape, if_pos hquote, hbody]
      rfl
  | @bare _ c _ _ hquote _ _ ih =>
      obtain ⟨body, rfl, hbody⟩ := ih
      refine ⟨c :: body, rfl, ?_⟩
      rw [StringPiece.ofBody_cons (ne_of_isQuote hquote).1, if_pos hquote, hbody]
      rfl
  | skip _ ih =>
      obtain ⟨body, rfl, hbody⟩ := ih
      refine ⟨'\\' :: 'z' :: body, rfl, ?_⟩
      rw [StringPiece.ofBody_escape, hbody]
      rfl
  | lineBreak _ ih =>
      obtain ⟨body, rfl, hbody⟩ := ih
      refine ⟨'\\' :: '\r' :: '\n' :: body, rfl, ?_⟩
      rw [StringPiece.ofBody_escape, StringPiece.ofBody_cons (by decide), hbody]
      rfl
  | @escape _ c _ _ hquote _ _ _ ih =>
      obtain ⟨body, rfl, hbody⟩ := ih
      refine ⟨'\\' :: c :: body, rfl, ?_⟩
      rw [StringPiece.ofBody_escape, if_neg hquote, hbody]
      rfl
  | @skipped c _ _ hblank _ ih =>
      obtain ⟨body, rfl, hbody⟩ := ih
      have hescape : c ≠ '\\' := by
        rintro rfl
        cases hblank
      have hquote : ¬isQuote c := by
        intro hquote
        rw [(ne_of_isQuote hquote).2.2] at hblank
        cases hblank
      refine ⟨c :: body, rfl, ?_⟩
      rw [StringPiece.ofBody_cons hescape, if_neg hquote, hbody]
      rfl
  | @plain _ c _ _ hquote hescape _ _ _ ih =>
      obtain ⟨body, rfl, hbody⟩ := ih
      refine ⟨c :: body, rfl, ?_⟩
      rw [StringPiece.ofBody_cons hescape, if_neg hquote, hbody]
      rfl

/-- A quote is written from one piece. -/
theorem StringItem.count_pieces (c : Char) (items : List StringItem) :
    (items.flatMap pieces).count (.quote c) = items.count (.quote c) := by
  induction items with
  | nil => rfl
  | cons item items ih =>
      rw [List.flatMap_cons, List.count_append, ih, List.count_cons]
      cases item <;> simp [pieces, List.count_cons, Nat.add_comm]

/-- The items between delimiters, with the closing one. -/
def StringItem.writtenAll (quote : Char) (items : List StringItem) : Text :=
  (items.flatMap pieces).flatMap (StringPiece.written quote) ++ [quote]

theorem StringItem.writtenAll_cons (quote : Char) (item : StringItem) (items : List StringItem) :
    writtenAll quote (item :: items) =
      item.pieces.flatMap (StringPiece.written quote) ++ writtenAll quote items := by
  simp [writtenAll]

/-- Items written between other delimiters are read as the same items. -/
theorem Denotes.written {quote : Char} {skipping : Bool} {t : Text} {items : List StringItem}
    (h : Denotes quote skipping t items) {other : Char} (hother : isQuote other) :
    Denotes other skipping (StringItem.writtenAll other items) items := by
  have hquote : ∀ {skipping c items}, isQuote c →
      Denotes other false (StringItem.writtenAll other items) items →
        Denotes other skipping (StringItem.writtenAll other (.quote c :: items)) (.quote c :: items) := by
    intro skipping c items hc hlater
    rw [StringItem.writtenAll_cons]
    by_cases heq : c = other
    · subst heq
      simpa [StringItem.pieces, StringPiece.written] using hlater.escaped hc
    · simpa [StringItem.pieces, StringPiece.written, heq] using hlater.bare hc heq
  induction h with
  | close skipping => exact .close skipping
  | escaped hc _ ih => exact hquote hc ih
  | bare hc _ _ ih => exact hquote hc ih
  | skip _ ih => exact .skip ih
  | lineBreak _ ih => exact .lineBreak ih
  | escape hc hskip _ _ ih => exact .escape hc hskip (fun _ => ih.head?_ne hother) ih
  | skipped hblank _ ih => exact .skipped hblank ih
  | plain hc hescape hline hblank _ ih => exact .plain hc hescape hline hblank ih

/-! ### Escapes -/

theorem escapedQuotes_cons {c : Char} (hc : c ≠ '\\') (rest : Text) :
    escapedQuotes (c :: rest) = escapedQuotes rest := by
  rw [escapedQuotes]
  exact fun _ _ h => absurd h hc

theorem escapedQuotes_escape (c : Char) (rest : Text) :
    escapedQuotes ('\\' :: c :: rest) = (if isQuote c then 1 else 0) + escapedQuotes rest := by
  rw [escapedQuotes]

/-- A skipped blank is no backslash. -/
theorem ne_backslash_of_isSkippedBlank {c : Char} (hblank : isSkippedBlank c) : c ≠ '\\' := by
  rintro rfl
  cases hblank

/-- A literal escapes the quotes of its value that delimit it. -/
theorem Denotes.count_le {quote : Char} {skipping : Bool} {t : Text} {items : List StringItem}
    (h : Denotes quote skipping t items) : items.count (.quote quote) ≤ escapedQuotes t := by
  induction h with
  | close => exact Nat.zero_le _
  | @escaped _ c _ items hc _ ih =>
      have hone : (StringItem.quote c :: items).count (.quote quote) ≤
          items.count (.quote quote) + 1 := by
        rw [List.count_cons]
        split <;> omega
      rw [escapedQuotes_escape, if_pos hc]
      omega
  | bare hc hopen _ ih =>
      rw [escapedQuotes_cons (ne_of_isQuote hc).1, List.count_cons_of_ne (by simpa using hopen)]
      exact ih
  | skip _ ih =>
      rw [escapedQuotes_escape, List.count_cons_of_ne (by simp)]
      omega
  | lineBreak _ ih =>
      rw [escapedQuotes_escape, escapedQuotes_cons (by decide), List.count_cons_of_ne (by simp)]
      omega
  | escape _ _ _ _ ih =>
      rw [escapedQuotes_escape, List.count_cons_of_ne (by simp)]
      omega
  | skipped hblank _ ih =>
      rw [escapedQuotes_cons (ne_backslash_of_isSkippedBlank hblank),
        List.count_cons_of_ne (by simp)]
      exact ih
  | plain _ hescape _ _ _ ih =>
      rw [escapedQuotes_cons hescape, List.count_cons_of_ne (by simp)]
      exact ih

/-- A literal that is written anew escapes no other quotes. -/
theorem Denotes.escapedQuotes_written {quote : Char} {skipping : Bool} {t : Text}
    {items : List StringItem} (h : Denotes quote skipping t items) {other : Char}
    (hother : isQuote other) :
    escapedQuotes (StringItem.writtenAll other items) = items.count (.quote other) := by
  have hquote : ∀ {c items}, isQuote c →
      escapedQuotes (StringItem.writtenAll other items) = items.count (.quote other) →
        escapedQuotes (StringItem.writtenAll other (.quote c :: items)) =
          (StringItem.quote c :: items).count (.quote other) := by
    intro c items hc hlater
    rw [StringItem.writtenAll_cons]
    by_cases heq : c = other
    · subst heq
      simp [StringItem.pieces, StringPiece.written, escapedQuotes_escape, hc, hlater, Nat.add_comm]
    · simp [StringItem.pieces, StringPiece.written, heq, escapedQuotes_cons (ne_of_isQuote hc).1,
        hlater]
  induction h with
  | close =>
      rw [StringItem.writtenAll]
      simp [escapedQuotes_cons (ne_of_isQuote hother).1, escapedQuotes]
  | escaped hc _ ih => exact hquote hc ih
  | bare hc _ _ ih => exact hquote hc ih
  | skip _ ih =>
      rw [StringItem.writtenAll_cons, List.count_cons_of_ne (by simp), ← ih]
      simp [StringItem.pieces, StringPiece.written, escapedQuotes_escape, isQuote]
  | lineBreak _ ih =>
      rw [StringItem.writtenAll_cons, List.count_cons_of_ne (by simp), ← ih]
      simp [StringItem.pieces, StringPiece.written, escapedQuotes_escape, isQuote,
        escapedQuotes_cons (show '\n' ≠ '\\' by decide)]
  | escape hc _ _ _ ih =>
      rw [StringItem.writtenAll_cons, List.count_cons_of_ne (by simp), ← ih]
      simp [StringItem.pieces, StringPiece.written, escapedQuotes_escape, hc]
  | skipped hblank _ ih =>
      rw [StringItem.writtenAll_cons, List.count_cons_of_ne (by simp), ← ih]
      simp [StringItem.pieces, StringPiece.written,
        escapedQuotes_cons (ne_backslash_of_isSkippedBlank hblank)]
  | plain _ hescape _ _ _ ih =>
      rw [StringItem.writtenAll_cons, List.count_cons_of_ne (by simp), ← ih]
      simp [StringItem.pieces, StringPiece.written, escapedQuotes_cons hescape]

/-! ### Literals -/

/-- The text of a token that is no error is taken by the scanner. -/
theorem exists_takes_of_mem {source : Text} {t : Token} (ht : t ∈ tokenize source)
    (hcls : ∀ cause, t.cls ≠ .error cause) : ∃ n m rest, Takes n t.text rest t.cls m := by
  have hwords : ∀ {n last ws rest}, Spells n ws last rest → ∀ offset,
      ∀ w ∈ Word.place offset ws, ∃ n m rest, Takes n w.text rest w.cls m := by
    intro n last ws rest hspells
    induction hspells with
    | nil => exact fun _ _ hw => absurd hw (by simp [Word.place])
    | cons blank inside read tail ih =>
        intro offset w hw
        rcases List.mem_cons.mp hw with rfl | hw
        · exact ⟨_, _, _, read⟩
        · exact ih _ w hw
  obtain ⟨ws, last, gap, -, hspells, -, htokens⟩ := exists_words source
  rw [htokens] at ht
  obtain ⟨w, hw, rfl⟩ := List.mem_map.mp ht
  rcases List.mem_append.mp hw with hw | hw
  · exact hwords hspells 0 w hw
  · split at hw
    · cases hw
    · obtain rfl := List.mem_singleton.mp hw
      exact absurd rfl (hcls _)

/-- A string token in quotes has a value. -/
theorem Takes.exists_value {n m : Nesting} {text rest : Text}
    (h : Takes n text rest (.literal .string) m) (hshort : text.startsWith isQuote) :
    ∃ items, HasValue text items := by
  generalize hcls : TokenClass.literal .string = cls at h
  cases h.code_of_cls (hcls ▸ rfl) with
  | @string quote tail rest hquote closed =>
      have hquote : isQuote quote := hshort
      have hclosed := shortStringTail_append closed []
      rw [List.append_nil] at hclosed
      obtain ⟨items, hitems⟩ := exists_denotes hquote hclosed
      exact ⟨items, quote, tail, rfl, hquote, hitems⟩
  | @word text rest start all stop =>
      simp only [wordClass] at hcls
      repeat' split at hcls
      all_goals cases hcls
  | @longString level text rest bracket closed =>
      cases text with
      | nil => cases hshort
      | cons c tail =>
          have hbracket : c ≠ '[' := by
            rintro rfl
            cases hshort
          simp [longBracketLevel?, hbracket] at bracket
  | number | interpStart | lbrace | rbrace | longComment | lineComment | vararg | symbol => cases hcls

namespace HasValue

variable {literal : Text} {items others : List StringItem}

theorem unique (h : HasValue literal items) (h' : HasValue literal others) : others = items := by
  obtain ⟨quote, tail, rfl, hquote, hdenotes⟩ := h
  obtain ⟨quote', tail', heq, -, hdenotes'⟩ := h'
  obtain ⟨rfl, rfl⟩ := List.cons.inj heq
  exact hdenotes'.unique hquote hdenotes

/-- The value of a literal is its only one. -/
theorem iff_eq (h : HasValue literal items) (others : List StringItem) :
    HasValue literal others ↔ others = items :=
  ⟨h.unique, fun heq => heq ▸ h⟩

/-- A text with a value is a single token. -/
theorem tokenize (h : HasValue literal items) :
    tokenize literal = [⟨.literal .string, 0, literal⟩] := by
  obtain ⟨quote, tail, rfl, hquote, hdenotes⟩ := h
  have hcode : Code [] (quote :: tail) [] (.literal .string) [] := by
    refine .string ?_ (by simpa using hdenotes.shortStringTail hquote)
    simpa [isQuote, Bool.or_comm] using hquote
  have hspells : Spells [] [⟨⟨.literal .string, 0, quote :: tail⟩, []⟩] [] [] :=
    .cons rfl (fun _ => rfl) (hcode.takes rfl) (.nil [] [])
  simpa [Word.place] using tokenize_spells hspells rfl

/-- A literal escapes its rarer quote at least. -/
theorem min_le (h : HasValue literal items) :
    min (items.count (.quote '\'')) (items.count (.quote '"')) ≤ escapedQuotes literal := by
  obtain ⟨quote, tail, rfl, hquote, hdenotes⟩ := h
  rw [escapedQuotes_cons (ne_of_isQuote hquote).1]
  have hle := hdenotes.count_le
  rcases isQuote_iff.mp hquote with rfl | rfl
  · omega
  · omega

end HasValue

/-! ### Delimiting anew -/

/-- A literal with the preferred delimiter, whether or not it had it before. -/
theorem normalizeQuotes_delimited {quote : Char} (hquote : isQuote quote) (body : Text) :
    normalizeQuotes (delimited quote body) =
      .ok (delimited (preferredQuote quote (StringPiece.ofBody body))
        ((StringPiece.ofBody body).flatMap
          (StringPiece.written (preferredQuote quote (StringPiece.ofBody body))))) := by
  have hslice := slice?_delimited hquote body
  simp only [normalizeQuotes, delimited, List.cons_append, hquote, if_true] at hslice ⊢
  rw [hslice]
  dsimp only
  split
  · rename_i hsame
    rw [hsame.2, hsame.1]
  · rfl

theorem isQuote_preferredQuote {current : Char} (h : isQuote current) (pieces : List StringPiece) :
    isQuote (preferredQuote current pieces) := by
  simp only [preferredQuote]
  split
  · rfl
  split
  · rfl
  split
  · exact h
  · rfl

/-- The preferred quote of the pieces is that of the items. -/
theorem StringItem.preferredQuote_pieces (current : Char) (items : List StringItem) :
    preferredQuote current (items.flatMap pieces) =
      if items.count (.quote '\'') < items.count (.quote '"') then '\''
      else if items.count (.quote '"') < items.count (.quote '\'') then '"'
      else if items.count (.quote '\'') = 0 then current
      else '\'' := by
  simp only [preferredQuote, count_pieces]

/-- The preferred quote occurs as rarely as any. -/
theorem StringItem.count_preferredQuote {current : Char} (h : isQuote current)
    (items : List StringItem) :
    items.count (.quote (preferredQuote current (items.flatMap pieces))) =
      min (items.count (.quote '\'')) (items.count (.quote '"')) := by
  rw [preferredQuote_pieces]
  split
  · omega
  split
  · omega
  split
  · rcases isQuote_iff.mp h with rfl | rfl
    · omega
    · omega
  · omega

/-- A literal of a value that needs the fewest escapes. -/
structure IsBestLiteral (current : Char) (items : List StringItem) (literal : Text) : Prop where
  /-- It is a single token. -/
  token : tokenize literal = [⟨.literal .string, 0, literal⟩]
  /-- It has this value and no other one. -/
  value : ∀ others, HasValue literal others ↔ others = items
  /-- Its delimiter is the quote that occurs less often. -/
  single : items.count (.quote '\'') < items.count (.quote '"') → literal.head? = some '\''
  double : items.count (.quote '"') < items.count (.quote '\'') → literal.head? = some '"'
  /-- Of two that occur equally often it is the single one. -/
  both : items.count (.quote '"') = items.count (.quote '\'') → items.count (.quote '\'') ≠ 0 →
    literal.head? = some '\''
  /-- If neither occurs, it is the one of before. -/
  neither : items.count (.quote '"') = 0 → items.count (.quote '\'') = 0 →
    literal.head? = some current
  /-- It escapes as many quotes as the rarer one occurs. -/
  escapes : escapedQuotes literal = min (items.count (.quote '\'')) (items.count (.quote '"'))
  /-- No literal of the value has fewer escapes. -/
  least : ∀ other, HasValue other items → escapedQuotes literal ≤ escapedQuotes other

/-- The items of a literal, written between preferred quotes. -/
theorem Denotes.isBest {current : Char} (hcurrent : isQuote current) {tail : Text}
    {items : List StringItem} (h : Denotes current false tail items) {target : Char}
    (htarget : target = preferredQuote current (items.flatMap StringItem.pieces)) :
    IsBestLiteral current items (target :: StringItem.writtenAll target items) := by
  have hquote : isQuote target := htarget ▸ isQuote_preferredQuote hcurrent _
  have hvalue : HasValue (target :: StringItem.writtenAll target items) items :=
    ⟨target, _, rfl, hquote, h.written hquote⟩
  have hescapes : escapedQuotes (target :: StringItem.writtenAll target items) =
      min (items.count (.quote '\'')) (items.count (.quote '"')) := by
    rw [escapedQuotes_cons (ne_of_isQuote hquote).1, h.escapedQuotes_written hquote, htarget,
      StringItem.count_preferredQuote hcurrent]
  rw [StringItem.preferredQuote_pieces] at htarget
  refine ⟨hvalue.tokenize, hvalue.iff_eq, ?_, ?_, ?_, ?_, hescapes, ?_⟩
  · intro hlt
    simp [htarget, hlt]
  · intro hlt
    simp [htarget, hlt, Nat.lt_asymm hlt]
  · intro heq hne
    simp [htarget, heq, hne]
  · intro hdouble hsingle
    simp [htarget, hdouble, hsingle]
  · intro other hother
    rw [hescapes]
    exact hother.min_le

/-- A string that is delimited anew is one token of the same value, and no literal
of the value has fewer escapes. -/
theorem normalizeQuotes_isBest {source : Text} {t : Token} (ht : t ∈ tokenize source)
    (hcls : t.cls = .literal .string) (hshort : t.text.startsWith isQuote) :
    ∃ current tail literal items, t.text = current :: tail ∧
      (∀ others, HasValue t.text others ↔ others = items) ∧
      normalizeQuotes t.text = .ok literal ∧ IsBestLiteral current items literal := by
  obtain ⟨n, m, rest, htakes⟩ := exists_takes_of_mem ht (by simp [hcls])
  rw [hcls] at htakes
  obtain ⟨items, hvalue⟩ := htakes.exists_value hshort
  obtain ⟨current, tail, htext, hcurrent, hdenotes⟩ := id hvalue
  refine ⟨current, tail, _, items, htext, hvalue.iff_eq, ?_, hdenotes.isBest hcurrent rfl⟩
  obtain ⟨body, rfl, hpieces⟩ := hdenotes.exists_body
  have hdelimited : t.text = delimited current body := htext
  rw [hdelimited, normalizeQuotes_delimited hcurrent, hpieces]
  rfl

/-- A literal with a quote of each sort, one of them escaped, a skipped line break
and an escaped one. -/
def crowdedLiteral : Text := "'it\\'s \\z \n\\'so\\' \"x\\\\\"\\\r\n'".toList

theorem normalizeQuotes_isBest_crowded :
    ∃ t ∈ tokenize ("f ".toList ++ crowdedLiteral), t.cls = .literal .string ∧
      t.text.startsWith isQuote ∧
      ∃ current tail literal items, t.text = current :: tail ∧
        (∀ others, HasValue t.text others ↔ others = items) ∧
        normalizeQuotes t.text = .ok literal ∧ IsBestLiteral current items literal := by
  have hmem : (⟨.literal .string, 2, crowdedLiteral⟩ : Token) ∈
      tokenize ("f ".toList ++ crowdedLiteral) := by
    decide +kernel
  exact ⟨_, hmem, rfl, rfl, normalizeQuotes_isBest hmem rfl rfl⟩

/-! ### Delimiting twice -/

/-- Pieces are read again from what is written for them, whatever the delimiter. -/
theorem StringPiece.ofBody_written (delimiter : Char) (body : Text) :
    ofBody ((ofBody body).flatMap (written delimiter)) = ofBody body := by
  have hquote : ∀ {c} (later : Text), isQuote c →
      ofBody (written delimiter (.quote c) ++ later) = .quote c :: ofBody later := by
    intro c later hc
    by_cases heq : c = delimiter
    · simp [written, heq, ofBody_escape, heq ▸ hc]
    · simp [written, heq, ofBody_cons (ne_of_isQuote hc).1, hc]
  fun_induction ofBody body with
  | case1 => rfl
  | case2 => rfl
  | case3 c rest ih =>
      rw [List.flatMap_cons]
      by_cases hc : isQuote c
      · rw [if_pos hc, hquote _ hc, ih]
      · rw [if_neg hc]
        simp [written, ofBody_escape, hc, ih]
  | case4 c rest hend hescape ih =>
      rw [List.flatMap_cons]
      by_cases hc : isQuote c
      · rw [if_pos hc, hquote _ hc, ih]
      · rw [if_neg hc]
        simp [written, ofBody_cons (ne_backslash hend hescape), hc, ih]

/-- The preferred quote is preferred again. -/
theorem preferredQuote_idem (current : Char) (pieces : List StringPiece) :
    preferredQuote (preferredQuote current pieces) pieces = preferredQuote current pieces := by
  simp only [preferredQuote]
  split
  · rfl
  split
  · rfl
  split
  · rfl
  · rfl

/-- A text that is delimited anew, or left alone since it needs not be, is left alone
from then on.  It need not be a literal. -/
theorem normalizeQuotes_idem {literal text : Text} (h : normalizeQuotes literal = .ok text) :
    normalizeQuotes text = .ok text := by
  cases literal with
  | nil =>
      obtain rfl : [] = text := Except.ok.inj h
      rfl
  | cons current rest =>
      by_cases hquote : isQuote current
      · simp only [normalizeQuotes, hquote, if_true] at h
        split at h
        · cases h
        rename_i body hslice
        split at h
        · -- nothing had to be changed, the end of the text included
          rename_i hsame
          obtain rfl : current :: rest = text := Except.ok.inj h
          simp only [normalizeQuotes, hquote, if_true, hslice]
          rw [if_pos hsame]
        · obtain rfl := Except.ok.inj h
          rw [normalizeQuotes_delimited (isQuote_preferredQuote hquote _),
            StringPiece.ofBody_written, preferredQuote_idem]
      · have hsame : normalizeQuotes (current :: rest) = .ok (current :: rest) := by
          simp [normalizeQuotes, hquote]
        obtain rfl : current :: rest = text := Except.ok.inj (hsame.symm.trans h)
        exact hsame

/-- A text whose last character is no quote, with a backslash at the end of the rest. -/
theorem normalizeQuotes_idem_unclosed :
    normalizeQuotes "\"\\'\\x".toList = .ok "\"'\\\"".toList ∧
      normalizeQuotes "\"'\\\"".toList = .ok "\"'\\\"".toList := by
  have h : normalizeQuotes "\"\\'\\x".toList = .ok "\"'\\\"".toList := by decide +kernel
  exact ⟨h, normalizeQuotes_idem h⟩

end LuauTidy
