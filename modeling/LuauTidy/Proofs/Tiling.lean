import LuauTidy.Proofs.Scanning

/-!
# Tokens tile their source

A scan takes lexeme after lexeme, and a lexeme that is no token is a blank.  So
nothing of a source is skipped but blanks: the tokens lie one behind the other
between its ends, each of them has text, and every character outside of them is
a blank.  Only a source that ends inside of an interpolated string has a token
without text, which stands at the very end.

* `Token.Tile` — tokens that take up a text but for its blanks;
* `Token.tile_scanFrom` — what a scan takes from the rest of a source;
* `Tiling`, `tokenize_tiles` — all tokens of a source.
-/

namespace LuauTidy

namespace Token

/-- Tokens that take up a text, which starts at an offset, but for blanks. -/
inductive Tile : (offset : Nat) → Text → List Token → Prop
  | done (offset : Nat) : Tile offset [] []
  | doneInside (offset : Nat) : Tile offset [] [endInside offset]
  | blank {offset : Nat} {c : Char} {rest : Text} {tokens : List Token}
      (blank : Lexeme.isBlank c) (later : Tile (offset + c.utf8Size) rest tokens) :
      Tile offset (c :: rest) tokens
  | token {t : Token} {rest : Text} {tokens : List Token} (nonempty : t.text ≠ [])
      (later : Tile t.stop rest tokens) : Tile t.start (t.text ++ rest) (t :: tokens)

/-- The tokens of a scan take up its text, if the steps are enough. -/
theorem tile_scanFrom {steps offset : Nat} {n : Nesting} {text : Text}
    (hsteps : text.length ≤ steps) : Tile offset text (scanFrom steps n offset text) := by
  induction steps generalizing n offset text with
  | zero =>
      have hnil : text = [] := List.length_eq_zero_iff.mp (Nat.le_zero.mp hsteps)
      subst hnil
      rw [scanFrom]
      split
      · exact .done offset
      · exact .doneInside offset
  | succ steps ih =>
      cases text with
      | nil =>
          rw [scanFrom]
          split
          · exact .done offset
          · exact .doneInside offset
      | cons c rest =>
          obtain ⟨hpos, hle⟩ := Lexeme.next_length n c rest
          rw [List.length_cons] at hsteps
          cases hcls : (Lexeme.next n c rest).cls with
          | none =>
              obtain ⟨-, hblank, hnext⟩ := Lexeme.next_eq_blank hcls
              have hrest : Tile (offset + c.utf8Size) rest
                  (scanFrom steps n (offset + c.utf8Size) rest) := ih (by omega)
              simpa [scanFrom, hnext] using Tile.blank hblank hrest
          | some cls =>
              let t : Token := ⟨cls, offset, (c :: rest).take (Lexeme.next n c rest).length⟩
              let later := (c :: rest).drop (Lexeme.next n c rest).length
              have hnonempty : t.text ≠ [] := by
                simp only [t, ne_eq, List.take_eq_nil_iff, not_or]
                exact ⟨by omega, List.cons_ne_nil c rest⟩
              have hlater : later.length ≤ steps := by
                simp only [later, List.length_drop, List.length_cons]
                omega
              have htext : t.text ++ later = c :: rest := List.take_append_drop _ _
              have hscan : scanFrom (steps + 1) n offset (c :: rest) =
                  t :: scanFrom steps (Lexeme.next n c rest).nesting t.stop later := by
                rw [scanFrom, hcls]
                rfl
              rw [hscan, ← htext]
              exact .token hnonempty (ih hlater)

namespace Tile

variable {offset : Nat} {text : Text} {tokens : List Token}

/-- The tokens lie within the text. -/
theorem within (h : Tile offset text tokens) :
    ∀ t ∈ tokens, offset ≤ t.start ∧ t.stop ≤ offset + text.byteLength := by
  induction h with
  | done => simp
  | doneInside => simp [endInside, stop]
  | @blank offset c rest tokens _ _ ih =>
      intro t ht
      have hwithin := ih t ht
      rw [Text.byteLength_cons]
      omega
  | @token t rest tokens _ _ ih =>
      intro u hu
      rw [Text.byteLength_append]
      rcases List.mem_cons.mp hu with rfl | hu
      · rw [stop]
        omega
      · have hwithin := ih u hu
        rw [stop] at hwithin
        omega

/-- The tokens lie one behind the other. -/
theorem pairwise (h : Tile offset text tokens) :
    tokens.Pairwise fun first second => first.stop ≤ second.start := by
  induction h with
  | done => exact .nil
  | doneInside => exact List.pairwise_singleton _ _
  | blank _ _ ih => exact ih
  | token _ later ih => exact .cons (fun u hu => (later.within u hu).1) ih

/-- Every token has text, but for one that may stand at the end. -/
theorem nonempty (h : Tile offset text tokens) {before after : List Token} {t : Token}
    (htokens : tokens = before ++ t :: after) :
    t.start < t.stop ∨ after = [] ∧ t = endInside (offset + text.byteLength) := by
  induction h generalizing before with
  | done => simp at htokens
  | doneInside offset =>
      obtain ⟨-, rfl, rfl⟩ : before = [] ∧ t = endInside offset ∧ after = [] := by
        simpa [List.append_eq_singleton_iff] using htokens.symm
      exact .inr ⟨rfl, rfl⟩
  | blank _ _ ih =>
      rw [Text.byteLength_cons, ← Nat.add_assoc]
      exact ih htokens
  | @token u rest tokens hsome _ ih =>
      cases before with
      | nil =>
          obtain ⟨rfl, -⟩ := List.cons.inj htokens
          have hbytes := mt Text.byteLength_eq_zero.mp hsome
          left
          rw [stop]
          omega
      | cons v before =>
          obtain ⟨-, htail⟩ := List.cons.inj htokens
          rw [Text.byteLength_append, ← Nat.add_assoc]
          exact ih htail

/-- A character is a blank or lies in a token. -/
theorem covered (h : Tile offset text tokens) {before after : Text} {c : Char}
    (htext : text = before ++ c :: after) :
    Lexeme.isBlank c ∨ ∃ t ∈ tokens, t.start ≤ offset + before.byteLength ∧
      offset + before.byteLength + c.utf8Size ≤ t.stop := by
  induction h generalizing before with
  | done => simp at htext
  | doneInside => simp at htext
  | @blank offset d rest tokens hblank _ ih =>
      cases before with
      | nil =>
          obtain ⟨rfl, -⟩ := List.cons.inj htext
          exact .inl hblank
      | cons e before =>
          obtain ⟨rfl, hrest⟩ := List.cons.inj htext
          rw [Text.byteLength_cons, ← Nat.add_assoc]
          exact ih hrest
  | @token t rest tokens _ _ ih =>
      -- the character lies in the first token or behind it
      have hbehind : ∀ between, before = t.text ++ between → rest = between ++ c :: after →
          Lexeme.isBlank c ∨ ∃ u ∈ t :: tokens, u.start ≤ t.start + before.byteLength ∧
            t.start + before.byteLength + c.utf8Size ≤ u.stop := by
        intro between hbefore hrest
        have hlater := ih hrest
        rw [hbefore, Text.byteLength_append, ← Nat.add_assoc]
        rcases hlater with hblank | ⟨u, hu, hcovers⟩
        · exact .inl hblank
        · exact .inr ⟨u, List.mem_cons_of_mem t hu, hcovers⟩
      rcases List.append_eq_append_iff.mp htext with ⟨between, hbefore, hrest⟩ | ⟨part, hpart, hrest⟩
      · exact hbehind between hbefore hrest
      · cases part with
        | nil => exact hbehind [] (by simpa using hpart.symm) (by simpa using hrest.symm)
        | cons d part =>
            obtain ⟨rfl, -⟩ := List.cons.inj hrest
            refine .inr ⟨t, List.mem_cons_self, Nat.le_add_right _ _, ?_⟩
            rw [stop, hpart, Text.byteLength_append, Text.byteLength_cons]
            omega

end Tile

end Token

/-- Tokens tile a source: between them there are blanks only. -/
structure Tiling (source : Text) (tokens : List Token) : Prop where
  /-- Each token starts and stops between characters of the source and holds
  what stands there. -/
  cut : ∀ t ∈ tokens, source.slice? t.start t.stop = some t.text
  /-- The tokens lie one behind the other. -/
  ordered : tokens.Pairwise fun first second => first.stop ≤ second.start
  /-- No token is empty, but for the last one where the source ends inside of an
  interpolated string. -/
  nonempty : ∀ before t after, tokens = before ++ t :: after →
    t.start < t.stop ∨ after = [] ∧ t = Token.endInside source.byteLength
  /-- Every character outside of the tokens is a blank. -/
  covered : ∀ (before : Text) (c : Char) (after : Text), source = before ++ c :: after →
    Lexeme.isBlank c ∨ ∃ t ∈ tokens, t.start ≤ before.byteLength ∧
      before.byteLength + c.utf8Size ≤ t.stop

/-- The scan of a source ends by itself, since it takes the same tokens however
many steps it may make beyond the number of characters, and these tile it. -/
theorem tokenize_tiles (source : Text) :
    Tiling source (tokenize source) ∧
      ∀ steps, source.length ≤ steps → Token.scanFrom steps [] 0 source = tokenize source := by
  have htile : Token.Tile 0 source (tokenize source) := Token.tile_scanFrom (Nat.le_refl _)
  refine ⟨⟨?_, htile.pairwise, ?_, ?_⟩, ?_⟩
  · intro t ht
    exact Token.Passes.start.slice? ht
  · intro before t after htokens
    simpa using htile.nonempty htokens
  · intro before c after htext
    simpa using htile.covered htext
  · intro steps hsteps
    exact Token.scanFrom_steps hsteps (Nat.le_refl _)

end LuauTidy
