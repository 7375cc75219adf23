import LuauTidy.Proofs.Cutting
import LuauTidy.Proofs.Sealing

/-!
# Where fillers occur

A text that is put together from parts of a source and from texts without
dollar signs may hold a filler only where the source holds it, if no filler
can begin in one part and end in the next.  So a filler that is not in the
source is found first where it was put.

* `Filler.Shape` — the form of a filler;
* `Text.Drawn` — every filler in a text is one in the source;
* `replaceFirst_append` — the first place of a pattern;
* `Faithful` — what is kept while parts of the source are exchanged.
-/

namespace LuauTidy

/-- A dollar sign with letters and digits. -/
def Filler.Shape (filler : Text) : Prop := ∃ run, filler = '$' :: run ∧ run.all Char.isAlphanum

theorem Filler.shape_of_isShaped {length : Nat} {filler : Text}
    (h : Filler.isShaped length filler) (hlength : 0 < length) :
    Filler.Shape filler ∧ filler.length = length := by
  cases filler with
  | nil =>
      simp only [Filler.isShaped, beq_iff_eq] at h
      omega
  | cons c run =>
      simp only [Filler.isShaped, Bool.and_eq_true, beq_iff_eq] at h
      obtain ⟨⟨rfl, hrun⟩, hlen⟩ := h
      exact ⟨⟨run, rfl, hrun⟩, by simpa using hlen⟩

/-- Every character of a filler is a single byte. -/
theorem Filler.Shape.byteLength_eq {filler : Text} (h : Filler.Shape filler) :
    filler.byteLength = filler.length := by
  obtain ⟨run, rfl, hrun⟩ := h
  have hone : ∀ t : Text, t.all Char.isAlphanum → t.byteLength = t.length := by
    intro t ht
    induction t with
    | nil => rfl
    | cons c t ih =>
        simp only [List.all_cons, Bool.and_eq_true] at ht
        have hc : c.utf8Size = 1 := by
          have hc := ht.1
          simp only [Char.isAlphanum, Char.isAlpha, Char.isUpper, Char.isLower, Char.isDigit,
            Bool.or_eq_true, Bool.and_eq_true, decide_eq_true_eq] at hc
          rw [Char.utf8Size_eq_one_iff]
          rcases hc with (hc | hc) | hc <;> exact UInt32.le_trans hc.2 (by decide)
        simp [hc, ih ht.2, Nat.add_comm]
  have hdollar : '$'.utf8Size = 1 := by decide
  simp [hone run hrun, hdollar, Nat.add_comm]

/-- A part of a concatenation lies in one of the two, or across the place where
they meet. -/
theorem infix_append_cases {α : Type} {p a b : List α} (h : p <:+: a ++ b) :
    p <:+: a ∨ p <:+: b ∨ ∃ u v, u ≠ [] ∧ v ≠ [] ∧ p = u ++ v ∧ u <:+ a ∧ v <+: b := by
  obtain ⟨s, t, h⟩ := h
  rcases List.append_eq_append_iff.mp h with ⟨m, rfl, -⟩ | ⟨m, hsp, rfl⟩
  · exact .inl ⟨s, m, rfl⟩
  · rcases List.append_eq_append_iff.mp hsp with ⟨u, rfl, rfl⟩ | ⟨x, rfl, rfl⟩
    · by_cases hu : u = []
      · subst hu
        exact .inr (.inl ⟨[], t, by simp⟩)
      · by_cases hm : m = []
        · subst hm
          exact .inl ⟨s, [], by simp⟩
        · exact .inr (.inr ⟨u, m, hu, hm, rfl, ⟨s, rfl⟩, ⟨t, rfl⟩⟩)
    · exact .inr (.inl ⟨x, t, by simp⟩)

namespace Text

/-- Every filler that a text holds is held by the source. -/
def Drawn (source t : Text) : Prop :=
  ∀ filler, Filler.Shape filler → filler <:+: t → filler <:+: source

variable {source a b : Text}

theorem drawn_of_part {t : Text} (h : t <:+: source) : Drawn source t :=
  fun _ _ hfiller => hfiller.trans h

theorem drawn_of_plain {t : Text} (h : '$' ∉ t) : Drawn source t := by
  rintro filler ⟨run, rfl, -⟩ hfiller
  exact absurd (hfiller.subset (by simp)) h

/-- Behind a sealed text no filler is completed. -/
theorem Drawn.append (ha : Drawn source a) (hsealed : Sealed a) (hb : Drawn source b) :
    Drawn source (a ++ b) := by
  intro filler hshape hfiller
  rcases infix_append_cases hfiller with h | h | ⟨u, v, hu, -, heq, ⟨s, rfl⟩, -⟩
  · exact ha filler hshape h
  · exact hb filler hshape h
  · obtain ⟨run, rfl, hrun⟩ := hshape
    obtain ⟨c, u, rfl⟩ := List.exists_cons_of_ne_nil hu
    obtain ⟨rfl, rfl⟩ := List.cons.inj heq
    rw [List.append_eq, List.all_append, Bool.and_eq_true] at hrun
    simp [hsealed s u rfl] at hrun

/-- No filler goes on over a character that is in none. -/
theorem Drawn.append_separated (ha : Drawn source a) {c : Char} (hc : separates c)
    (hb : Drawn source (c :: b)) : Drawn source (a ++ c :: b) := by
  intro filler hshape hfiller
  rcases infix_append_cases hfiller with h | h | ⟨u, v, hu, hv, heq, -, ⟨t, ht⟩⟩
  · exact ha filler hshape h
  · exact hb filler hshape h
  · obtain ⟨run, rfl, hrun⟩ := hshape
    obtain ⟨d, v, rfl⟩ := List.exists_cons_of_ne_nil hv
    obtain ⟨e, u, rfl⟩ := List.exists_cons_of_ne_nil hu
    obtain ⟨rfl, -⟩ := List.cons.inj ht
    obtain ⟨rfl, rfl⟩ := List.cons.inj heq
    simp only [separates, Bool.and_eq_true, Bool.not_eq_true'] at hc
    rw [List.append_eq, List.all_append, List.all_cons, hc.2] at hrun
    simp at hrun

end Text

/-! ### The first place of a pattern -/

theorem Text.occursIn_iff {pattern t : Text} : Text.occursIn pattern t ↔ pattern <:+: t := by
  unfold Text.occursIn
  induction t with
  | nil =>
      simp only [Text.indexOf?, List.isEmpty_iff]
      split <;> simp_all
  | cons c t ih =>
      rw [List.infix_cons_iff, ← ih, Text.indexOf?]
      split
      · rename_i h
        simp [List.isPrefixOf_iff_prefix.mp h]
      · rename_i h
        rw [List.isPrefixOf_iff_prefix] at h
        simp [h]

/-- A pattern that starts nowhere in the text before it is found where it
stands. -/
theorem replaceFirst_append {α : Type} [BEq α] [LawfulBEq α] {pattern part before after : List α}
    (hpattern : pattern ≠ [])
    (h : ∀ u v, before = u ++ v → v ≠ [] → ¬pattern <+: v ++ (pattern ++ after)) :
    replaceFirst pattern part (before ++ (pattern ++ after)) = before ++ (part ++ after) := by
  induction before with
  | nil =>
      obtain ⟨c, rest, rfl⟩ := List.exists_cons_of_ne_nil hpattern
      have hprefix : (c :: rest).isPrefixOf (c :: rest ++ after) :=
        List.isPrefixOf_iff_prefix.mpr (List.prefix_append _ _)
      simp only [List.nil_append, List.cons_append] at hprefix ⊢
      rw [replaceFirst, if_pos hprefix, ← List.cons_append, List.drop_left]
  | cons c before ih =>
      have hnot : ¬pattern.isPrefixOf (c :: (before ++ (pattern ++ after))) := by
        rw [List.isPrefixOf_iff_prefix]
        exact h [] (c :: before) rfl (by simp)
      rw [List.cons_append, replaceFirst, if_neg hnot, ih]
      · rfl
      · intro u v heq hv
        exact h (c :: u) v (by rw [heq]; rfl) hv

namespace Filler

/-- A filler that is not in the source is found where it was put. -/
theorem replaceFirst_drawn {source before after part filler : Text} (hshape : Shape filler)
    (hdrawn : Text.Drawn source before) (hsealed : Text.Sealed before)
    (hfree : Text.occursIn filler source = false) :
    replaceFirst filler part (before ++ (filler ++ after)) = before ++ (part ++ after) := by
  have hnot : ¬filler <:+: source := by
    rw [← Text.occursIn_iff, hfree]
    simp
  refine replaceFirst_append ?_ ?_
  · obtain ⟨run, rfl, -⟩ := hshape
    simp
  · rintro u v rfl hv hprefix
    rcases List.prefix_or_prefix_of_prefix hprefix (List.prefix_append v _) with h | ⟨w, hw⟩
    · exact hnot (hdrawn filler hshape (h.isInfix.trans (List.suffix_append u v).isInfix))
    · obtain ⟨run, rfl, hrun⟩ := hshape
      obtain ⟨c, v, rfl⟩ := List.exists_cons_of_ne_nil hv
      obtain ⟨rfl, rfl⟩ := List.cons.inj hw
      rw [List.append_eq, List.all_append, hsealed u v rfl] at hrun
      simp at hrun

end Filler

/-! ### Exchanging parts of a source -/

/-- What is kept while parts of a source are exchanged from left to right:
`written` stands for the text `before` in the source. -/
structure Faithful (source before written : Text) : Prop where
  drawn : ∀ kept, before ++ kept <+: source → Text.Drawn source (written ++ kept)
  sealed : ∀ kept, Text.Sealed (before ++ kept) → Text.Sealed (written ++ kept)

/-- A text that may be put in place of a part of the source: it ends like the
part, and what stands before that is drawn from the source. -/
structure Grafts (source part graft : Text) : Prop where
  split : ∃ head c shared before, graft = head ++ (c :: shared) ∧ part = before ++ shared ∧
    separates c ∧ Text.Drawn source (head ++ [c])

namespace Faithful

variable {source before written : Text}

theorem start (source : Text) : Faithful source [] [] :=
  ⟨fun _ h => Text.drawn_of_part h.isInfix, fun _ h => h⟩

/-- A part of the source is exchanged. -/
theorem graft (h : Faithful source before written) {kept part graft rest : Text}
    (hsource : source = before ++ (kept ++ (part ++ rest)))
    (hsealed : Text.Sealed (before ++ kept)) (hgraft : Grafts source part graft) :
    Faithful source (before ++ kept ++ part) (written ++ kept ++ graft) := by
  obtain ⟨head, c, shared, part, rfl, rfl, hc, hhead⟩ := hgraft
  have hprefix : before ++ kept <+: source := ⟨part ++ shared ++ rest, by simp [hsource]⟩
  have hwritten := h.drawn kept hprefix
  have hsealed' := h.sealed kept hsealed
  constructor
  · intro more hmore
    have hshared : shared ++ more <:+: source := by
      obtain ⟨t, ht⟩ := hmore
      exact ⟨before ++ kept ++ part, t, by rw [← ht]; simp⟩
    have hlast : Text.Sealed (written ++ kept ++ (head ++ [c])) := by
      rw [← List.append_assoc]
      exact Text.sealed_concat _ hc
    have hall := (hwritten.append hsealed' hhead).append hlast (Text.drawn_of_part hshared)
    simpa using hall
  · intro more hmore
    have hshared : Text.Sealed (shared ++ more) :=
      Text.Sealed.of_append (a := before ++ kept ++ part) (by simpa using hmore)
    simpa using Text.sealed_separated (written ++ kept ++ head) hc hshared

end Faithful

end LuauTidy
