import LuauTidy.Command.Run
import LuauTidy.Proofs.Cuts
import LuauTidy.Proofs.Tiling
import LuauTidy.Proofs.Wariness

/-!
# What a diagnosis says

A parse stops at the first thing it cannot make sense of, so a source has one
diagnosis or none.  The diagnosis stands at a token or at the end of the source,
and no stretch that is no token lies before it.  What is shown of it is a line
and a column, and these lead back to the same offset.

* `Text.offsetAt?` — the offset at a line and column;
* `Diagnosis`, `parse_diagnoses` — what the tree of a source says about it.
-/

namespace LuauTidy

/-! ### Lines and columns -/

/-- The offset of the character at a line and column, both from zero.  The
newline belongs to the line that it ends. -/
def Text.offsetAt? : (line column : Nat) → Text → Option Nat
  | 0, 0, _ => some 0
  | 0, column + 1, c :: rest =>
    if c = '\n' then none else (offsetAt? 0 column rest).map (c.utf8Size + ·)
  | line + 1, column, c :: rest =>
    (offsetAt? (if c = '\n' then line else line + 1) column rest).map (c.utf8Size + ·)
  | _, _, [] => none

/-- The column behind a text, from zero. -/
def Text.column (before : Text) : Nat := (before.reverse.takeWhile (· != '\n')).length

theorem Text.column_newline (before : Text) : column ('\n' :: before) = column before := by
  rw [column, column, List.reverse_cons, List.takeWhile_append]
  split
  · rename_i hall
    simp [hall]
  · rfl

theorem Text.column_of_mem (c : Char) {before : Text} (h : '\n' ∈ before) :
    column (c :: before) = column before := by
  have hstop : (before.reverse.takeWhile (· != '\n')).length ≠ before.reverse.length := by
    intro hlength
    have hall := List.takeWhile_eq_self_iff.mp
      ((List.takeWhile_prefix _).eq_of_length hlength)
    simpa using hall '\n' (List.mem_reverse.mpr h)
  rw [column, column, List.reverse_cons, List.takeWhile_append, if_neg hstop]

theorem Text.column_of_notMem {c : Char} {before : Text} (hc : c ≠ '\n') (h : '\n' ∉ before) :
    column (c :: before) = column before + 1 := by
  have hbefore : ∀ d ∈ before.reverse, (d != '\n') = true := by
    intro d hd
    rw [bne_iff_ne]
    intro heq
    exact h (heq ▸ List.mem_reverse.mp hd)
  have hall : ∀ d ∈ (c :: before).reverse, (d != '\n') = true := by
    rw [List.reverse_cons, List.forall_mem_append]
    exact ⟨hbefore, by simpa using hc⟩
  rw [column, column, List.takeWhile_eq_self_iff.mpr hall, List.takeWhile_eq_self_iff.mpr hbefore,
    List.length_reverse, List.length_reverse, List.length_cons]

/-- The line and column behind a text lead to its end. -/
theorem Text.offsetAt?_append (before after : Text) :
    offsetAt? (before.count '\n') before.column (before ++ after) = some before.byteLength := by
  induction before with
  | nil => simp [offsetAt?, column]
  | cons c before ih =>
      by_cases hc : c = '\n'
      · subst hc
        rw [column_newline, List.count_cons_self, List.cons_append, offsetAt?, if_pos rfl, ih]
        rfl
      · rw [List.count_cons_of_ne hc]
        by_cases hline : '\n' ∈ before
        · obtain ⟨line, hcount⟩ := Nat.exists_eq_succ_of_ne_zero
            (Nat.ne_of_gt (List.count_pos_iff.mpr hline))
          rw [hcount] at ih ⊢
          rw [column_of_mem c hline, List.cons_append, offsetAt?, if_neg hc, ih]
          rfl
        · rw [List.count_eq_zero.mpr hline] at ih ⊢
          rw [column_of_notMem hc hline, List.cons_append, offsetAt?, if_neg hc, ih]
          rfl

/-- The line and column of an offset between two characters lead back to it. -/
theorem Text.position_append (before after : Text) :
    position (before ++ after) before.byteLength =
      some (before.count '\n' + 1, before.column + 1) := by
  simp [position, column]

example : Text.offsetAt? 1 2 ['a', '\n', 'é', 'c', 'd'] = some 5 := rfl

/-! ### Places of a diagnosis -/

namespace Cursor

/-- The next token is among the tokens ahead. -/
theorem mem_of_upcoming {n : Nat} {tokens : List Token} {t : Token}
    (ht : upcoming n tokens = some t) : t ∈ tokens := by
  rw [upcoming_eq] at ht
  exact (List.mem_filter.mp (List.mem_of_getElem? ht)).1

/-- The next token is the first of the tokens ahead that are no comments. -/
theorem place_le {c : Cursor} (hordered : c.rest.Pairwise fun t u => t.start ≤ u.start)
    {u : Token} (hu : u ∈ c.rest) (hcomment : u.isComment = false) : c.place ≤ u.start := by
  have hsolid : u ∈ Token.solid c.rest := List.mem_filter.mpr ⟨hu, by simp [hcomment]⟩
  have hpairs : (Token.solid c.rest).Pairwise fun t u => t.start ≤ u.start := hordered.filter _
  rw [place, upcoming_eq]
  cases hrow : Token.solid c.rest with
  | nil =>
      rw [hrow] at hsolid
      cases hsolid
  | cons t later =>
      rw [hrow] at hsolid hpairs
      rcases List.mem_cons.mp hsolid with rfl | hlater
      · exact Nat.le_refl _
      · exact (List.pairwise_cons.mp hpairs).1 u hlater

/-- A complaint that comes without a step over an error stands at a token or at
the end, and at the first error at the latest. -/
theorem Clears.place_spec {source : Text} {c : Cursor}
    (h : (start source (tokenize source)).Clears c) :
    (c.place = source.byteLength ∨ ∃ t ∈ tokenize source, t.start = c.place) ∧
      ∀ t ∈ tokenize source, ¬t.IsLegal → c.place ≤ t.start := by
  obtain ⟨passed, hrest, hpassed⟩ := h.passed
  have hrow : tokenize source = passed ++ c.rest := hrest
  constructor
  · cases hnext : upcoming 0 c.rest with
    | none =>
        left
        rw [place, hnext]
        exact h.sourceEnd
    | some t =>
        right
        refine ⟨t, ?_, ?_⟩
        · rw [hrow]
          exact List.mem_append_right _ (mem_of_upcoming hnext)
        · rw [place, hnext]
          rfl
  · intro t ht herror
    rw [hrow] at ht
    rcases List.mem_append.mp ht with ht | ht
    · exact absurd (hpassed t ht) herror
    · have htile : Token.Tile 0 source (tokenize source) := Token.tile_scanFrom (Nat.le_refl _)
      have hordered : (tokenize source).Pairwise fun t u => t.start ≤ u.start := by
        apply htile.pairwise.imp
        intro t u hle
        exact Nat.le_trans (Nat.le_add_right _ _) hle
      rw [hrow, List.pairwise_append] at hordered
      apply place_le hordered.2.1 ht
      exact Bool.eq_false_of_not_eq_true (mt Token.isLegal_of_comment herror)

end Cursor

/-- A token starts between characters of its source. -/
theorem isCut_of_token {source : Text} {t : Token} (ht : t ∈ tokenize source) :
    source.IsCut t.start := by
  obtain ⟨n, later, hpasses⟩ := Token.Passes.start.exists_later ht
  obtain ⟨before, hsource, hstart⟩ := hpasses.exists_before
  exact ⟨before, t.text ++ later, hsource, hstart⟩

/-! ### Diagnoses -/

/-- A tree that was given up, and the diagnosis that says why. -/
structure Diagnosis (source : Text) (t : SyntaxTree) (e : SyntaxError) : Prop where
  /-- There is no other diagnosis, and the tree is one node over the source as it
  is. -/
  single : t = .abandoned source (.aux .chunk) [e] t.strayComments
  /-- The diagnosis stands at a token or at the end of the source. -/
  place : e.offset = source.byteLength ∨ ∃ token ∈ tokenize source, token.start = e.offset
  /-- No error lies before it. -/
  early : ∀ token ∈ tokenize source, ¬token.IsLegal → e.offset ≤ token.start
  /-- It stands between two characters, or at an end. -/
  cut : source.IsCut e.offset
  /-- What is shown of it, a line and column from one, leads back to it. -/
  shown : ∃ line column, Text.offsetAt? line column source = some e.offset ∧
    ∀ path, described path source e = .ok (Report.line
      (path ++ ":" ++ toString (line + 1) ++ ":" ++ toString (column + 1) ++ ": " ++ e.message))

/-- What is shown of a diagnosis leads back to it. -/
theorem described_of_isCut {source : Text} {e : SyntaxError} (h : source.IsCut e.offset) :
    ∃ line column, Text.offsetAt? line column source = some e.offset ∧
      ∀ path, described path source e = .ok (Report.line
        (path ++ ":" ++ toString (line + 1) ++ ":" ++ toString (column + 1) ++ ": " ++
          e.message)) := by
  obtain ⟨before, after, rfl, hoffset⟩ := h
  refine ⟨before.count '\n', before.column, ?_, fun path => ?_⟩
  · rw [← hoffset, Text.offsetAt?_append]
  · simp only [described, ← hoffset, Text.position_append]

/-- **A parse has one diagnosis at most.**  Either there is none, and no token of
the source is an error; or there is one, which stands at a token or at the end
and not behind the first error, and what is shown of it leads to its offset. -/
theorem parse_diagnoses (source : Text) :
    ∃ t, parse source = .ok t ∧
      ((t.errors = [] ∧ ∀ token ∈ tokenize source, token.IsLegal) ∨
        ∃ e, Diagnosis source t e) := by
  obtain ⟨t, hparse, -⟩ := exists_assembled source
  refine ⟨t, hparse, ?_⟩
  have hhalts := Wary.chunk (Wary.ofDepth (tokenize source).length) _
    (Cursor.Clears.refl (Cursor.start source (tokenize source)))
  have hrun := hparse
  simp only [parse] at hrun
  generalize (Grammar.chunk (.ofDepth (tokenize source).length)).run
    (Cursor.start source (tokenize source)) = r at hhalts hrun
  cases hhalts with
  | ok clears =>
      left
      have herrors : t.errors = [] := by
        cases hrun
        rfl
      obtain ⟨inner, gap, h⟩ := parse_parsed hparse herrors
      refine ⟨herrors, ?_⟩
      rw [h.tokenize_eq, List.forall_mem_map]
      exact (h.derives.fit (by simp)).noError
  | @wrong complaint d c clears =>
      right
      obtain ⟨hplace, hearly⟩ := clears.place_spec
      have hcut : source.IsCut d.place := by
        rcases hplace with hend | ⟨token, htoken, hstart⟩
        · exact ⟨source, [], (List.append_nil _).symm, hend.symm⟩
        · exact hstart ▸ isCut_of_token htoken
      refine ⟨⟨complaint.message, d.place⟩, ?_, hplace, hearly, hcut, described_of_isCut hcut⟩
      cases hrun
      rfl
  | fault => cases hrun

end LuauTidy
