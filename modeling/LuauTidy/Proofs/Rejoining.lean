import LuauTidy.Proofs.Interpolation
import LuauTidy.Proofs.Neighbours
import LuauTidy.Proofs.Sketches

/-!
# Tokens that blanks separate

Tokens outside of strings with interpolations delimit themselves: written one
after another with any blanks between them, their texts are read as the same
tokens again.  Comments are left out, since a line comment goes on over blanks,
and so is what can be no token.

* `TokenClass.isApart` — the classes of tokens that delimit themselves;
* `Token.joined` — the texts of tokens with separators between them;
* `Spells.spaced` — the words of a source, behind other gaps;
* `tokenize_joined` — the tokens of a text that is joined from tokens.
-/

namespace LuauTidy

open Lexeme

/-- A class of tokens that delimit themselves: no comment, no part of a string
with interpolations, and no error. -/
def TokenClass.isApart : TokenClass → Bool
  | .comment | .error _ => false
  | .token .interpStart | .token .interpContent | .token .interpEnd => false
  | .token .interpBraceOpen | .token .interpBraceClose => false
  | _ => true

/-- The texts of tokens, each behind a gap of its own. -/
def Token.spaced (gaps : Nat → Text) : (count : Nat) → List Token → Text
  | _, [] => []
  | count, t :: later => gaps count ++ (t.text ++ spaced gaps (count + 1) later)

/-- Before the first token stands nothing, and before each other one the
separator of its number. -/
def Token.gaps (separators : Nat → Text) : Nat → Text
  | 0 => []
  | count + 1 => separators count

/-- The texts of tokens, with separators between them. -/
def Token.joined (separators : Nat → Text) (tokens : List Token) : Text :=
  spaced (gaps separators) 0 tokens

/-- Where words start is not part of their content. -/
theorem Word.content_place (offset : Nat) (ws : List Word) :
    ((place offset ws).map Word.toToken).map Token.content = ws.map (·.content) := by
  induction ws generalizing offset with
  | nil => rfl
  | cons w ws ih =>
      rw [place, List.map_cons, List.map_cons, List.map_cons, ih]
      rfl

/-- What is written does not change with the places of the tokens. -/
theorem Token.spaced_congr (gaps : Nat → Text) {ts us : List Token}
    (h : ts.map Token.content = us.map Token.content) (count : Nat) :
    spaced gaps count ts = spaced gaps count us := by
  induction ts generalizing us count with
  | nil =>
      cases us with
      | nil => rfl
      | cons u us => cases h
  | cons t ts ih =>
      cases us with
      | nil => cases h
      | cons u us =>
          rw [List.map_cons, List.map_cons] at h
          obtain ⟨hcontent, hlater⟩ := List.cons.inj h
          have htext : t.text = u.text := (Prod.mk.inj hcontent).2
          rw [spaced, spaced, htext, ih hlater]

/-- A token that delimits itself is read outside of all strings, and leaves the
scanner there. -/
theorem Takes.apart {m : Nesting} {text rest : Text} {cls : TokenClass}
    (h : Takes [] text rest cls m) (hcls : cls.isApart) :
    m = [] ∧ Code [] text rest cls [] := by
  obtain ⟨c, tail, htext, hnext⟩ := h.next_eq
  have hturns := next_turns [] c (tail ++ rest)
  rw [hnext] at hturns
  have hm : m = [] := by
    cases hturns with
    | plain | openBrace | closeBrace => rfl
    | openString => cases hcls
  subst hm
  have herror : ∀ cause, cls ≠ .error cause := by
    rintro cause rfl
    cases hcls
  exact ⟨rfl, h.code rfl herror⟩

/-- Words that delimit themselves spell a text behind other gaps too, if only
the first gap may be empty. -/
theorem Spells.spaced {ws : List Word} {last : Nesting} {rest : Text}
    (h : Spells [] ws last rest) (happart : ∀ w ∈ ws, w.cls.isApart) {gaps : Nat → Text}
    (hblank : ∀ count, (gaps count).all isBlank) (hgap : ∀ count, gaps (count + 1) ≠ [])
    (count : Nat) :
    ∃ vs, Spells [] vs [] [] ∧ vs.map (·.content) = ws.map (·.content) ∧
      Word.flat vs = Token.spaced gaps count (ws.map Word.toToken) := by
  induction ws generalizing count with
  | nil => exact ⟨[], .nil [] [], rfl, rfl⟩
  | cons w later ih =>
      cases h with
      | cons blank inside read tail =>
          obtain ⟨rfl, hcode⟩ := Takes.apart read (happart w List.mem_cons_self)
          obtain ⟨vs, hspells, hcontent, hflat⟩ :=
            ih tail (fun v hv => happart v (List.mem_cons_of_mem w hv)) (count + 1)
          -- Behind the word stands a blank, or nothing at all.
          have hblanks : ∀ c t, Word.flat vs = c :: t → isBlank c := by
            intro c t hc
            cases later with
            | nil =>
                rw [hflat] at hc
                cases hc
            | cons v later =>
                obtain ⟨d, gap, hd⟩ := List.exists_cons_of_ne_nil (hgap count)
                have hall := hblank (count + 1)
                rw [hd, List.all_cons, Bool.and_eq_true] at hall
                rw [hflat, List.map_cons, Token.spaced, hd, List.cons_append] at hc
                obtain ⟨rfl, -⟩ := List.cons.inj hc
                exact hall.1
          have hparts : Text.Parts (Word.flat vs) := fun c t hc => parts_of_blank (hblanks c t hc)
          have hslash : Text.startsWith (· == '/') (Word.flat vs) = false := by
            cases hc : Word.flat vs with
            | nil => rfl
            | cons c t =>
                cases hslash : c == '/' with
                | false => exact hslash
                | true =>
                    have hblank := hblanks c t hc
                    rw [beq_iff_eq.mp hslash] at hblank
                    cases hblank
          have hcomment : w.cls ≠ .comment := by
            intro hcomment
            have hw := happart w List.mem_cons_self
            rw [hcomment] at hw
            cases hw
          have hagain : Code [] w.text (Word.flat vs) w.cls [] :=
            Code.resumed (a := []) hcode hparts (by simp) (fun h => absurd h hcomment)
              fun _ _ => hslash
          have htakes := hagain.takes rfl
          refine ⟨{ w with gap := gaps count } :: vs, ?_, ?_, ?_⟩
          · exact .cons (hblank count) (by simp [Nesting.inLiteral]) (by simpa [Takes] using htakes)
              hspells
          · simpa using hcontent
          · simp [Token.spaced, hflat]

/-- **Tokens delimit themselves.**  Where a source has neither errors nor
comments nor parts of strings with interpolations, the texts of its tokens,
joined by separators of blanks, have the same tokens again. -/
theorem tokenize_joined {source : Text} (happart : ∀ t ∈ tokenize source, t.cls.isApart)
    {separators : Nat → Text} (hblank : ∀ count, (separators count).all isBlank)
    (hne : ∀ count, separators count ≠ []) :
    (tokenize (Token.joined separators (tokenize source))).map Token.content =
      (tokenize source).map Token.content := by
  obtain ⟨ws, last, gap, hsource, hspells, hend⟩ := exists_spells [] source
  have htokens : tokenize source = (Word.place 0 ws).map Word.toToken ++
      if last.isEmpty then [] else [Token.endInside (0 + source.byteLength)] := by
    subst hsource
    exact Token.scanFrom_spells hspells hend 0
  have hlast : last.isEmpty := by
    cases hempty : last.isEmpty with
    | true => rfl
    | false =>
        have hmem : Token.endInside (0 + source.byteLength) ∈ tokenize source := by
          simp [htokens, hempty]
        cases happart _ hmem
  rw [if_pos hlast, List.append_nil] at htokens
  have hcontent : (tokenize source).map Token.content = ws.map (·.content) := by
    rw [htokens, Word.content_place]
  have hwords : ∀ w ∈ ws, w.cls.isApart := by
    intro w hw
    have hmem : w.content ∈ (tokenize source).map Token.content := by
      rw [hcontent]
      exact List.mem_map_of_mem hw
    obtain ⟨t, ht, hsame⟩ := List.mem_map.mp hmem
    have hcls : t.cls = w.cls := (Prod.mk.inj hsame).1
    rw [← hcls]
    exact happart t ht
  have hgaps : ∀ count, (Token.gaps separators count).all isBlank := by
    intro count
    cases count with
    | zero => rfl
    | succ count => exact hblank count
  obtain ⟨vs, hvs, hsame, hflat⟩ := hspells.spaced hwords hgaps hne 0
  have hjoined : Token.joined separators (tokenize source) = Word.flat vs ++ [] := by
    rw [List.append_nil, hflat]
    apply Token.spaced_congr
    rw [hcontent, List.map_map]
    rfl
  rw [hjoined, tokenize_spells hvs rfl, Word.content_place, hsame, hcontent]

/-- Tokens that stand as close as they may. -/
def crowded : Text := "x=t[ [[y]]]..1 ..'\\z  q'- -0x1".toList

/-- Written one on a line, they are the same tokens. -/
theorem tokenize_joined_crowded :
    (∀ t ∈ tokenize crowded, t.cls.isApart) ∧
    Token.joined (fun _ => ['\n']) (tokenize crowded) =
      "x\n=\nt\n[\n[[y]]\n]\n..\n1\n..\n'\\z  q'\n-\n-\n0x1".toList ∧
    (tokenize (Token.joined (fun _ => ['\n']) (tokenize crowded))).map Token.content =
      (tokenize crowded).map Token.content := by
  have happart : ∀ t ∈ tokenize crowded, t.cls.isApart := by decide +kernel
  refine ⟨happart, by decide +kernel, ?_⟩
  exact tokenize_joined happart (fun _ => rfl) (fun _ => List.cons_ne_nil _ _)

end LuauTidy
