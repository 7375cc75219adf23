import LuauTidy.Proofs.Excerpts

/-!
# Another text behind a token

When a part of a text gives way to another one, the tokens before it are still
taken where they were, as long as the last of them does not go on with the new
part.  An opening bracket looks further than other tokens: behind it, signs of
equality and a second bracket open a long string.  So what is said of the place
between two tokens is said of the last token before it, and of the brackets there.

* `TokenClass.goesOn` — a token that goes on with a character;
* `Takes.kept`, `Takes.before` — a token before a text that begins in the same way,
  and before one that begins in another way;
* `Exchange` — two texts that can stand behind some words;
* `Exchange.word`, `Exchange.graft` — how the place between tokens moves to the left;
* `Spells.exchanged` — words before another text.
-/

namespace LuauTidy

open Lexeme

/-- A token of a class goes on with a character, or may do so: what goes on with a
number is not looked at. -/
def TokenClass.goesOn : TokenClass → Char → Bool
  | .token k, c =>
    if k ∈ TokenKind.symbols then
      (TokenKind.symbols.any fun j => (k.grammarName.toList ++ [c]).isPrefixOf j.grammarName.toList) ||
        k == .dot && c.isDigit || k == .concat && c == '.' || k == .minus && c == '-'
    else (k == .name || TokenKind.keywords.contains k) && isWordChar c
  | .literal .nil, c | .literal .true, c | .literal .false, c => isWordChar c
  | .literal .number, _ | .error _, _ => true
  | .literal _, _ | .comment, _ => false

/-- Names, keywords and the literals that are words go on with what words go on with. -/
theorem goesOn_wordClass (text : Text) (c : Char) : (wordClass text).goesOn c = isWordChar c := by
  have hkeyword : ∀ k, k = .name ∨ k ∈ TokenKind.keywords →
      (TokenClass.token k).goesOn c = isWordChar c := by
    intro k hk
    have hsymbol : k ∉ TokenKind.symbols := by
      obtain rfl | hk := hk
      · decide
      · revert k
        decide
    have hword : (k == .name || TokenKind.keywords.contains k) = true := by
      simpa using hk
    rw [TokenClass.goesOn, if_neg hsymbol, hword, Bool.true_and]
  unfold wordClass
  split
  · rfl
  split
  · rfl
  split
  · rfl
  · rw [hkeyword]
    cases hfind : TokenKind.keyword? text with
    | none => exact .inl rfl
    | some k => exact .inr (List.mem_of_find?_eq_some hfind)

/-! ### Single tokens -/

section Tokens

variable {n m : Nesting} {text a r r' rest later : Text} {c : Char} {cls : TokenClass}

/-- A symbol before a character with which it does not go on. -/
theorem TokenKind.find_symbols_before {k : TokenKind} (hk : k ∈ symbols)
    (hgoes : (TokenClass.token k).goesOn c = false)
    (hfound : (symbols.find? fun j =>
      j.grammarName.toList.isPrefixOf (k.grammarName.toList ++ rest)) = some k) :
    (symbols.find? fun j =>
      j.grammarName.toList.isPrefixOf (k.grammarName.toList ++ c :: later)) = some k := by
  rw [find_symbols_eq_some hk] at hfound ⊢
  refine ⟨List.prefix_append _ _, ?_⟩
  intro j hj hprefix
  have hmem : j ∈ symbols := (List.takeWhile_prefix _).subset hj
  by_cases hle : j.grammarName.toList.length ≤ k.grammarName.toList.length
  · have hshort : j.grammarName.toList <+: k.grammarName.toList :=
      List.prefix_of_prefix_length_le hprefix (List.prefix_append _ _) hle
    exact hfound.2 j hj (hshort.trans (List.prefix_append _ _))
  · -- a longer symbol goes on with the character
    have hlonger : k.grammarName.toList ++ [c] <+: j.grammarName.toList := by
      refine List.prefix_of_prefix_length_le ⟨later, by simp⟩ hprefix ?_
      rw [List.length_append, List.length_singleton]
      omega
    rw [TokenClass.goesOn, if_pos hk] at hgoes
    simp only [Bool.or_eq_false_iff, List.any_eq_false] at hgoes
    exact absurd (List.isPrefixOf_iff_prefix.mpr hlonger) (hgoes.1.1.1 j hmem)

/-- Behind a line comment stands nothing, or a blank. -/
theorem Lexeme.blank_of_lineComment {tail : Text}
    (h : lineCommentTail (tail ++ c :: later) = tail.length) : isBlank c := by
  obtain hnil | hline := lineComment_rest h
  · cases hnil
  · simp only [Text.startsWith, Text.isLineEnd, Bool.or_eq_true, beq_iff_eq] at hline
    rcases hline with rfl | rfl <;> rfl

/-- In the literal part of a string, a token other than a piece of its text stands before
anything. -/
theorem Takes.literal_cases (h : Takes n text rest cls m) (hcls : ∀ cause, cls ≠ .error cause)
    (hn : n.inLiteral) : (∀ other, Takes n text other cls m) ∨
      literalTail (text ++ rest) = (text.length, false) ∧ cls = .token .interpContent ∧ m = n := by
  have hturn : m = n.turn cls := (h.admits hcls).2
  rcases h.literal hn hcls with ⟨rfl, rfl⟩ | ⟨rfl, rfl⟩ | ⟨htail, rfl⟩
  · refine .inl fun other => ?_
    rw [hturn]
    simp [Takes, Lexeme.read, next, hn, inLiteral, Nesting.turn]
  · refine .inl fun other => ?_
    rw [hturn]
    simp [Takes, Lexeme.read, next, hn, inLiteral, Nesting.turn]
  · exact .inr ⟨htail, rfl, hturn⟩

/-- A token before a text that begins in the same way.  A comment needs the line
break behind it, and a point that is all of the common part no other one. -/
theorem Takes.kept (h : Takes n text (a ++ r) cls m) (hcls : ∀ cause, cls ≠ .error cause)
    (hne : a ≠ [])
    (hpoint : a = ['.'] → Text.startsWith (· == '.') r = Text.startsWith (· == '.') r')
    (hcomment : cls = .comment → ∀ tail, lineCommentTail (tail ++ (a ++ r)) = tail.length →
      '\n' ∈ a)
    (hbracket : cls = .token .lbracket → longBracketLevel? ('[' :: (a ++ r)) = none →
      longBracketLevel? ('[' :: (a ++ r')) = none) : Takes n text (a ++ r') cls m := by
  obtain ⟨c, a, rfl⟩ := List.exists_cons_of_ne_nil hne
  cases hn : n.inLiteral with
  | true =>
      obtain hany | ⟨htail, rfl, rfl⟩ := h.literal_cases hcls hn
      · exact hany _
      · obtain ⟨d, tail, rfl, hnext⟩ := h.next_eq
        have hagain := literalTail_append htail (a ++ r')
        have hplain : (d == '`') = false ∧ (d == '{') = false := by
          simp only [next, hn, if_true, inLiteral] at hnext
          constructor
          · cases hd : d == '`' with
            | false => rfl
            | true => simp [hd] at hnext
          · cases hd : d == '{' with
            | false => rfl
            | true =>
                rw [beq_iff_eq.mp hd] at hnext
                simp at hnext
        simp only [List.cons_append] at hagain
        simp [Takes, Lexeme.read, next, hn, inLiteral, hplain, hagain]
  | false =>
      have hlooks : Text.LooksLike (c :: a ++ r) (c :: a ++ r') := by
        refine .same rfl ?_
        rintro rfl
        cases a with
        | nil => exact hpoint rfl
        | cons d a => rfl
      refine ((h.code hn hcls).exchanged hlooks ?_ hbracket fun _ hstart => hstart).takes hn
      rintro hclass tail - bracket length
      have hmem := hcomment hclass tail length
      have hlength : lineCommentTail (tail ++ (c :: a ++ r')) = tail.length := by
        have hmem' : '\n' ∈ tail ++ c :: a := List.mem_append_right tail hmem
        rw [← List.append_assoc, lineCommentTail_append hmem', ← lineCommentTail_append hmem' r,
          List.append_assoc]
        exact length
      refine ⟨?_, hlength⟩
      -- the line break stands before anything that could close the brackets
      have hblank : Text.Parts (c :: a ++ r') :=
        .cons (parts_of_blank (blank_of_lineComment hlength)) _
      cases tail with
      | nil =>
          have hc : c ≠ '[' := by
            rintro rfl
            exact absurd (blank_of_lineComment length) (by decide)
          simp [longBracketLevel?, hc]
      | cons d tail => exact longBracketLevel?_none_append bracket (List.cons_ne_nil _ _) hblank

/-- A token of a literal part behind which code stands does not look further. -/
theorem Takes.into_code (h : Takes n text rest cls m) (hcls : ∀ cause, cls ≠ .error cause)
    (hn : n.inLiteral) (hm : m.inLiteral = false) (other : Text) : Takes n text other cls m := by
  obtain hany | ⟨-, -, rfl⟩ := h.literal_cases hcls hn
  · exact hany other
  · rw [hn] at hm
    cases hm

/-- A token before a text that begins in another way. -/
theorem Takes.before (h : Takes n text rest cls m) (hcls : ∀ cause, cls ≠ .error cause)
    (hm : m.inLiteral = false) (hvisible : Text.startsWith isBlank rest = false) (hrest : rest ≠ [])
    (hgoes : cls.goesOn c = false)
    (hbracket : cls = .token .lbracket → longBracketLevel? ('[' :: rest) = none →
      longBracketLevel? ('[' :: c :: later) = none) : Takes n text (c :: later) cls m := by
  cases hn : n.inLiteral with
  | true => exact h.into_code hcls hn hm _
  | false =>
      refine Code.takes ?_ hn
      cases h.code hn hcls with
      | word start all stop => exact .word start all ((goesOn_wordClass _ c).symm.trans hgoes)
      | number => cases hgoes
      | string isQuote closed => exact .string isQuote (shortStringTail_append closed _)
      | longString bracket closed =>
          have hle := level_le_of_longBracketLength? closed
          exact .longString (longBracketLevel?_append bracket hle _)
            (longBracketLength?_append closed _)
      | vararg => exact .vararg
      | interpStart => exact .interpStart
      | lbrace => exact .lbrace
      | rbrace => exact .rbrace
      | longComment bracket closed =>
          have hle := level_le_of_longBracketLength? closed
          exact .longComment (longBracketLevel?_append bracket hle _)
            (longBracketLength?_append closed _)
      | @lineComment tail rest bracket length =>
          obtain ⟨d, rest, rfl⟩ := List.exists_cons_of_ne_nil hrest
          have hblank := blank_of_lineComment length
          rw [Text.startsWith, hblank] at hvisible
          cases hvisible
      | @symbol k rest number comment bracket vararg found =>
          have hk : k ∈ TokenKind.symbols := List.mem_of_find?_eq_some found
          have hagain : (TokenKind.symbols.find? fun j =>
              j.grammarName.toList.isPrefixOf (k.grammarName.toList ++ c :: later)) = some k :=
            TokenKind.find_symbols_before hk hgoes found
          rw [TokenClass.goesOn, if_pos hk] at hgoes
          simp only [Bool.or_eq_false_iff] at hgoes
          obtain ⟨⟨⟨-, hdigit⟩, hpoint⟩, hdash⟩ := hgoes
          rcases TokenKind.symbol_plain k hk with hseeing | hplain
          · simp only [List.mem_cons, List.not_mem_nil, or_false] at hseeing
            rcases hseeing with rfl | rfl | rfl | rfl
            · have hstops : Text.startsWith (· == '.') (c :: later) = false :=
                TokenKind.symbol_stops (c := '.') hk (j := .concat) (by decide) rfl hagain
              exact .symbol hdigit rfl rfl (not_vararg_of_point hstops) hagain
            · exact .symbol rfl rfl rfl ((isVararg_points _).trans hpoint) hagain
            · exact .symbol rfl ((isComment_dash _).trans hdash) rfl rfl hagain
            · exact .symbol rfl rfl (hbracket rfl bracket) rfl hagain
          · obtain ⟨hnumber, hcomment, hbracket, hvararg⟩ := hplain (c :: later)
            exact .symbol hnumber hcomment hbracket hvararg hagain

end Tokens

/-! ### Between two tokens -/

/-- A text ends in a bracket with signs of equality behind it, and another one goes on
with such signs and a second bracket. -/
def Text.opensBracket (before rest : Text) : Bool :=
  Text.startsWith (· == '[') (before.reverse.dropWhile (· == '=')) &&
    Text.startsWith (· == '[') (rest.dropWhile (· == '='))

/-- What is no sign of equality parts the brackets. -/
theorem Text.opensBracket_parted {a : Text} (h : a.all (· == '=') = false) (before r r' : Text) :
    opensBracket before (a ++ r) = opensBracket before (a ++ r') := by
  have hdrop : ∀ r, (a ++ r).dropWhile (· == '=') = a.dropWhile (· == '=') ++ r := by
    intro r
    rw [List.dropWhile_append, if_neg]
    simpa using h
  obtain ⟨c, later, hc⟩ := List.exists_cons_of_ne_nil (l := a.dropWhile (· == '=')) (by
    simpa [List.dropWhile_eq_nil_iff] using h)
  rw [opensBracket, opensBracket, hdrop, hdrop, hc]
  rfl

/-- Signs of equality can stand on both sides. -/
theorem Text.opensBracket_signs {a : Text} (h : a.all (· == '=')) (before r : Text) :
    opensBracket before (a ++ r) = opensBracket (before ++ a) r := by
  have hall : ∀ c ∈ a, (c == '=') = true := by simpa using h
  have hback : ∀ c ∈ a.reverse, (c == '=') = true := by simpa using h
  rw [opensBracket, opensBracket, List.reverse_append, List.dropWhile_append_of_pos hall,
    List.dropWhile_append_of_pos hback]

/-- Two texts that can stand behind some words, behind which the scanner is in a
stack: the last word is taken before the one as before the other, and the second text
opens no brackets that the first one does not open. -/
structure Exchange (ws : List Word) (n : Nesting) (rest rest' : Text) : Prop where
  last : ∀ u, ws.getLast? = some u → ∀ m, Takes m u.text rest u.cls n → Takes m u.text rest' u.cls n
  bracket : Text.opensBracket (Word.flat ws) rest' → Text.opensBracket (Word.flat ws) rest

section Words

variable {ws xs : List Word} {w u : Word} {n m p : Nesting} {gap part rest rest' : Text} {c : Char}

/-- What follows an opening bracket. -/
theorem Exchange.lbracket (hu : ws.getLast? = some u) (hcls : u.cls = .token .lbracket)
    (htakes : Takes m u.text rest u.cls n)
    (h : Text.opensBracket (Word.flat ws) rest' → Text.opensBracket (Word.flat ws) rest)
    (hlevel : longBracketLevel? ('[' :: rest) = none) :
    longBracketLevel? ('[' :: rest') = none := by
  have htext : u.text = ['['] := by
    rw [hcls] at htakes
    exact htakes.mark_text rfl
  obtain ⟨init, rfl⟩ : ∃ init, ws = init ++ [u] := List.getLast?_eq_some_iff.mp hu
  have hopens : ∀ t, Text.opensBracket (Word.flat (init ++ [u])) t =
      Text.startsWith (· == '[') (t.dropWhile (· == '=')) := by
    intro t
    rw [Text.opensBracket, Word.flat_append, Word.flat_cons, htext]
    simp [Text.startsWith]
  rw [longBracketLevel?_eq_none] at hlevel ⊢
  rw [hopens, hopens, hlevel] at h
  exact eq_false_of_ne_true fun hopens => Bool.false_ne_true (h hopens)

/-- The place before a word that is taken before both texts. -/
theorem Exchange.word (h : Exchange (ws ++ [w]) p rest rest')
    (hcls : ∀ v ∈ ws ++ [w], ∀ cause, v.cls ≠ .error cause)
    (htakes : Takes n w.text rest w.cls p) :
    Exchange ws n (w.gap ++ (w.text ++ rest)) (w.gap ++ (w.text ++ rest')) := by
  have hw : ∀ cause, w.cls ≠ .error cause := hcls w (by simp)
  have hne : w.gap ++ w.text ≠ [] := List.append_ne_nil_of_right_ne_nil _ htakes.ne_nil
  have hbracket : Text.opensBracket (Word.flat ws) (w.gap ++ w.text ++ rest') →
      Text.opensBracket (Word.flat ws) (w.gap ++ w.text ++ rest) := by
    cases hsigns : (w.gap ++ w.text).all (· == '=') with
    | false => exact (Text.opensBracket_parted hsigns _ _ _ ▸ id)
    | true =>
        rw [Text.opensBracket_signs hsigns, Text.opensBracket_signs hsigns]
        simpa using h.bracket
  rw [← List.append_assoc, ← List.append_assoc]
  refine ⟨fun u hu m hu' => ?_, hbracket⟩
  have hucls : ∀ cause, u.cls ≠ .error cause :=
    hcls u (List.mem_append_left _ (List.mem_of_getLast? hu))
  refine hu'.kept hucls hne ?_ ?_ ?_
  · intro hpoint
    have hgap : w.gap = [] ∧ w.text = ['.'] := by
      obtain ⟨d, text, htext⟩ := List.exists_cons_of_ne_nil htakes.ne_nil
      have hlength := congrArg List.length hpoint
      simp only [List.length_append, htext, List.length_cons, List.length_nil] at hlength
      have hnil : w.gap = [] := List.length_eq_zero_iff.mp (by omega)
      exact ⟨hnil, by simpa [hnil] using hpoint⟩
    have htakes' := h.last w (by simp) n htakes
    rw [hgap.2] at htakes htakes'
    rw [htakes.point_stops hw, htakes'.point_stops hw]
  · intro hcomment tail hlength
    refine newline_mem_of_lineComment hlength ?_
    -- the word stands in code, so it shows
    obtain ⟨hadmits, hturn⟩ := hu'.admits hucls
    rw [hcomment] at hadmits hturn
    obtain rfl : n = m := hturn
    have hcode : n.inLiteral = false := by simpa [Nesting.admits] using hadmits
    obtain ⟨d, text, htext, hnext⟩ := htakes.next_eq
    cases hd : isBlank d with
    | true =>
        rw [next_blank hcode hd] at hnext
        simp at hnext
    | false => simp [htext, hd]
  · intro hlbracket hlevel
    exact Exchange.lbracket hu hlbracket hu' hbracket hlevel

/-- The place before a part that gives way to another text. -/
theorem Exchange.graft {graft : Text} (hn : n.inLiteral = false) (hblank : gap.all isBlank)
    (hcls : ∀ v ∈ ws, ∀ cause, v.cls ≠ .error cause)
    (hvisible : Text.startsWith isBlank part = false) (hpart : part ≠ []) (hc : c ≠ '=')
    (hparted : gap = [] → ∀ u, ws.getLast? = some u → u.cls.goesOn c = false)
    (hopens : gap = [] → Text.opensBracket (Word.flat ws) (c :: graft) = false) :
    Exchange ws n (gap ++ (part ++ rest)) (gap ++ (c :: graft ++ rest')) := by
  cases gap with
  | nil =>
      have hbracket : Text.opensBracket (Word.flat ws) (c :: graft ++ rest') →
          Text.opensBracket (Word.flat ws) (part ++ rest) := by
        intro h
        have hsign : [c].all (· == '=') = false := by simpa using hc
        rw [List.cons_append, ← List.singleton_append,
          Text.opensBracket_parted hsign _ _ graft, List.singleton_append, hopens rfl] at h
        cases h
      rw [List.nil_append, List.nil_append]
      refine ⟨fun u hu m hu' => ?_, hbracket⟩
      refine hu'.before (hcls u (List.mem_of_getLast? hu)) hn
        (Text.startsWith_append hvisible hpart) (by simp [hpart]) (hparted rfl u hu) ?_
      intro hlbracket hlevel
      exact Exchange.lbracket hu hlbracket hu' hbracket hlevel
  | cons d gap =>
      have hd : isBlank d := by
        rw [List.all_cons, Bool.and_eq_true] at hblank
        exact hblank.1
      have hsign : (d :: gap).all (· == '=') = false := by
        have hne : (d == '=') = false :=
          not_of_parts (p := (· == '=')) (by rfl) (parts_of_blank hd)
        rw [List.all_cons, hne, Bool.false_and]
      have hbracket : Text.opensBracket (Word.flat ws) (d :: gap ++ (c :: graft ++ rest')) →
          Text.opensBracket (Word.flat ws) (d :: gap ++ (part ++ rest)) :=
        Text.opensBracket_parted hsign _ _ _ ▸ id
      refine ⟨fun u hu m hu' => ?_, hbracket⟩
      refine hu'.kept (hcls u (List.mem_of_getLast? hu)) (List.cons_ne_nil _ _) ?_ ?_ ?_
      · intro hpoint
        obtain ⟨rfl, -⟩ := List.cons.inj hpoint
        cases hd
      · intro hcomment tail hlength
        obtain ⟨e, part, rfl⟩ := List.exists_cons_of_ne_nil hpart
        have he : isBlank e = false := hvisible
        have hline : lineCommentTail (tail ++ ((d :: gap ++ [e]) ++ (part ++ rest))) =
            tail.length := by
          simpa using hlength
        have hmem : '\n' ∈ d :: gap ++ [e] := newline_mem_of_lineComment hline (by simp [he])
        rw [List.mem_append, List.mem_singleton] at hmem
        obtain hmem | rfl := hmem
        · exact hmem
        · cases he
      · intro hlbracket hlevel
        exact Exchange.lbracket hu hlbracket hu' hbracket hlevel

/-- Words before another text. -/
theorem Spells.exchanged (h : Spells n xs m rest)
    (hcls : ∀ v ∈ ws ++ xs, ∀ cause, v.cls ≠ .error cause)
    (hexchange : Exchange (ws ++ xs) m rest rest') :
    Spells n xs m rest' ∧ Exchange ws n (Word.flat xs ++ rest) (Word.flat xs ++ rest') := by
  induction h generalizing ws with
  | nil => exact ⟨.nil _ _, by simpa using hexchange⟩
  | @cons n middle last w xs rest blank inside read tail ih =>
      rw [List.append_cons] at hcls hexchange
      obtain ⟨htail, hbehind⟩ := ih hcls hexchange
      have htakes : Takes n w.text (Word.flat xs ++ rest) w.cls middle := read
      have htakes' : Takes n w.text (Word.flat xs ++ rest') w.cls middle :=
        hbehind.last w (by simp) n htakes
      have hws : ∀ v ∈ ws ++ [w], ∀ cause, v.cls ≠ .error cause :=
        fun v hv => hcls v (List.mem_append_left _ hv)
      refine ⟨.cons blank inside htakes' htail, ?_⟩
      simpa using hbehind.word hws htakes

end Words

/-! ### The end of a text -/

/-- Blanks at the end of a text without their line ends, and then one newline. -/
def Text.closing (gap : Text) : Text := (gap.reverse.dropWhile isLineEnd).reverse ++ ['\n']

/-- Behind what does not end in a line end, only the blanks at the end of a text are
rewritten. -/
theorem Text.withSingleTrailingNewline_append {t : Text}
    (h : ∀ c, t.getLast? = some c → isLineEnd c = false) (gap : Text) :
    withSingleTrailingNewline (t ++ gap) = t ++ closing gap := by
  rw [withSingleTrailingNewline, closing, List.reverse_append, List.dropWhile_append]
  split
  · rename_i hnil
    rw [List.isEmpty_iff.mp hnil]
    cases hlast : t.reverse with
    | nil => simp [List.reverse_eq_nil_iff.mp hlast]
    | cons c later =>
        have hc : isLineEnd c = false := by
          apply h
          rw [← List.head?_reverse, hlast]
          rfl
        rw [List.dropWhile_cons, hc, if_neg (by simp), ← hlast]
        simp
  · simp

/-- The blanks at the end are blanks still. -/
theorem Text.closing_blank {gap : Text} (h : gap.all isBlank) : (closing gap).all isBlank := by
  have hkept : ∀ c ∈ gap.reverse.dropWhile isLineEnd, isBlank c := by
    intro c hc
    rw [List.all_eq_true] at h
    exact h c (List.mem_reverse.mp ((List.dropWhile_sublist _).subset hc))
  rw [closing, List.all_append, List.all_reverse, Bool.and_eq_true, List.all_eq_true]
  exact ⟨hkept, rfl⟩

/-- A line comment at the end of a text stays as it is if it does not end in a line end. -/
theorem Lexeme.lineCommentTail_closing {tail gap : Text}
    (h : lineCommentTail (tail ++ gap) = tail.length)
    (hends : ∀ c, tail.getLast? = some c → Text.isLineEnd c = false) :
    lineCommentTail (tail ++ Text.closing gap) = tail.length := by
  generalize hkept : (gap.reverse.dropWhile Text.isLineEnd).reverse = kept
  obtain ⟨ends, hgap⟩ : ∃ ends, gap = kept ++ ends := by
    refine ⟨(gap.reverse.takeWhile Text.isLineEnd).reverse, ?_⟩
    rw [← hkept, ← List.reverse_append, List.takeWhile_append_dropWhile, List.reverse_reverse]
  have hlast : ∀ c, kept.getLast? = some c → Text.isLineEnd c = false := by
    intro c hc
    rw [← hkept, List.getLast?_reverse] at hc
    have hhead := List.head?_dropWhile_not Text.isLineEnd gap.reverse
    rw [hc] at hhead
    exact hhead
  rw [Text.closing, hkept]
  by_cases hmem : '\n' ∈ tail ++ kept
  · rw [← List.append_assoc, lineCommentTail_append hmem, ← lineCommentTail_append hmem ends,
      List.append_assoc, ← hgap]
    exact h
  · -- no line break is kept, so nothing is kept at all
    have hplain : ∀ c ∈ tail ++ kept, (c != '\n') = true := by
      intro c hc
      rw [bne_iff_ne]
      rintro rfl
      exact hmem hc
    have hline : ∀ rest, (tail ++ (kept ++ rest)).takeWhile (· != '\n') =
        tail ++ (kept ++ rest.takeWhile (· != '\n')) := by
      intro rest
      rw [← List.append_assoc, List.takeWhile_append_of_pos hplain, List.append_assoc]
    have hnil : kept = [] := by
      by_contra hne
      have hpos := List.length_pos_of_ne_nil hne
      rw [hgap, lineCommentTail, hline] at h
      simp only [List.length_append] at h
      split at h
      · rename_i hreturn
        have hrest : ends.takeWhile (· != '\n') = [] := List.eq_nil_of_length_eq_zero (by omega)
        rw [hrest, List.append_nil, List.getLast?_append_of_ne_nil _ hne] at hreturn
        exact absurd (hlast _ hreturn) (by decide)
      · omega
    subst hnil
    rw [lineCommentTail, hline]
    cases hlast : tail.getLast? with
    | none => simp [List.getLast?_eq_none_iff.mp hlast]
    | some c =>
        have hc : c ≠ '\r' := by
          rintro rfl
          exact absurd (hends _ hlast) (by decide)
        simp [hlast, hc]

/-- The blanks at the end of a text give way to those that end it with one newline. -/
theorem Exchange.closing {ws : List Word} {n : Nesting} {gap : Text} (hn : n.inLiteral = false)
    (hblank : gap.all isBlank) (hcls : ∀ v ∈ ws, ∀ cause, v.cls ≠ .error cause)
    (hends : ∀ u, ws.getLast? = some u → ∀ c, u.text.getLast? = some c →
      Text.isLineEnd c = false) : Exchange ws n gap gap.closing := by
  have hclosing := Text.closing_blank hblank
  obtain ⟨d, later, hd⟩ := List.exists_cons_of_ne_nil (l := gap.closing) (by simp [Text.closing])
  have hparts : Text.Parts gap.closing := by
    rw [hd] at hclosing ⊢
    rw [List.all_cons, Bool.and_eq_true] at hclosing
    exact .cons (parts_of_blank hclosing.1) later
  have hopen : Text.startsWith (· == '[') gap.closing = false :=
    hparts.startsWith fun c hc => not_of_parts (p := (· == '[')) (by rfl) hc
  have hbracket : Text.opensBracket (Word.flat ws) gap.closing = false := by
    have hsign : Text.startsWith (· == '=') gap.closing = false :=
      hparts.startsWith fun c hc => not_of_parts (p := (· == '=')) (by rfl) hc
    rw [hd] at hsign hopen ⊢
    rw [Text.opensBracket, List.dropWhile_cons, if_neg (by simpa [Text.startsWith] using hsign),
      hopen, Bool.and_false]
  refine ⟨fun u hu m hu' => ?_, by simp [hbracket]⟩
  have hucls : ∀ cause, u.cls ≠ .error cause := hcls u (List.mem_of_getLast? hu)
  cases hm : m.inLiteral with
  | true => exact hu'.into_code hucls hm hn _
  | false =>
      have hcode := hu'.code hm hucls
      refine (hcode.exchanged (.parts hparts) ?_ ?_ ?_).takes hm
      · intro _ tail htail bracket length
        have hlast : ∀ c, tail.getLast? = some c → Text.isLineEnd c = false := by
          intro c hc
          refine hends u hu c ?_
          rw [htail, List.getLast?_cons_cons, List.getLast?_cons, hc]
          rfl
        refine ⟨?_, lineCommentTail_closing length hlast⟩
        cases tail with
        | nil =>
            rw [hd] at hopen ⊢
            have hne : d ≠ '[' := by simpa [Text.startsWith] using hopen
            simp [longBracketLevel?, hne]
        | cons c tail => exact longBracketLevel?_none_append bracket (List.cons_ne_nil _ _) hparts
      · intro hlbracket hlevel
        exact Exchange.lbracket hu hlbracket hu' (by simp [hbracket]) hlevel
      · rintro - -
        rw [hd, List.all_cons, Bool.and_eq_true] at hclosing
        rw [hd, Text.startsWith]
        cases hslash : d == '/' with
        | false => rfl
        | true =>
            rw [beq_iff_eq.mp hslash] at hclosing
            exact absurd hclosing.1 (by decide)

end LuauTidy
