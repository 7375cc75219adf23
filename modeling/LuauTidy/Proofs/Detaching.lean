import LuauTidy.Proofs.Grafting

/-!
# Detached constructs

The words around a construct are read in the lowered text as they were read before it
if what stands in the place of the construct runs into none of them: into no token
before it, and into no token behind it that would call or index what the lowered text
ends in.

* `SyntaxTree.Detaches`, `SyntaxTree.IsDetached` — lowered texts that run into nothing;
* `Exchanged` — words of a source and those that stand for them in the lowered text;
* `Exchanged.kept`, `Exchanged.append`, `Exchanged.site` — how they are put together.
-/

namespace LuauTidy

open Lexeme

variable {t : SyntaxTree} {options : LoweringOptions}

/-! ### Detached constructs -/

/-- The lowered text of a site runs into nothing that stands around the site. -/
structure SyntaxTree.Detaches (t : SyntaxTree) (site : Site) (graft : Text) : Prop where
  /-- The token right before the site does not go on with the text. -/
  before : ∀ token ∈ tokenize t.source, token.stop = site.node.start →
    graft.head?.any token.cls.goesOn = false
  /-- No long bracket is opened where the text begins. -/
  brackets : Text.opensBracket ((t.source.slice? 0 site.node.start).getD []) graft = false
  /-- A text that ends in a parenthesis of its own is followed by no suffix. -/
  behind : site.isChoice = false → ∀ token ∈ (tokenize t.source).find? fun token =>
    decide (site.node.stop ≤ token.start) && !token.isComment, token.cls.startsSuffix = false

instance (t : SyntaxTree) (site : Site) (graft : Text) : Decidable (t.Detaches site graft) :=
  decidable_of_iff (_ ∧ _ ∧ _) ⟨fun h => ⟨h.1, h.2.1, h.2.2⟩, fun h => ⟨h.1, h.2, h.3⟩⟩

/-- A construct can be lowered where it stands: its condition is not open, and its lowered
text runs into nothing. -/
def SyntaxTree.IsDetached (t : SyntaxTree) (site : Site) : Prop :=
  site.node.ClosesCondition ∧ ∀ graft, t.loweredSite site = .ok graft → t.Detaches site graft

/-- The first token of some words that is no comment is what stands ahead of them. -/
theorem Word.cls_ahead (ws : List Word) :
    (ahead ws).cls = (ws.find? fun w => !w.isComment).map fun w => w.cls := by
  induction ws with
  | nil => rfl
  | cons w ws ih => cases hw : w.isComment <;> simp [ahead, hw, ih]

/-- Words lie between the ends of the text that they spell. -/
theorem Word.le_of_placed {offset : Nat} {ws : List Word} (h : place offset ws = ws) {w : Word}
    (hw : w ∈ ws) : offset ≤ w.start ∧ w.stop ≤ offset + (flat ws).byteLength := by
  obtain ⟨a, b, rfl⟩ := List.append_of_mem hw
  have hstart := start_of_placed h
  simp only [Token.stop, hstart, flat_append, flat_cons, Text.byteLength_append]
  omega

/-- Behind a site whose text ends in a parenthesis of its own stands no suffix. -/
theorem SyntaxTree.Detaches.endsChain {site : Site} {graft : Text} {ws xs vs : List Word}
    (h : t.Detaches site graft) (hchoice : site.isChoice = false)
    (hamong : Word.Among t ws xs vs)
    (htokens : tokenize t.source = (ws ++ (xs ++ vs)).map Word.toToken)
    (hstop : site.node.stop = (Word.flat ws ++ Word.flat xs).byteLength) :
    EndsChain (Word.ahead vs) := by
  have hplaced := hamong.placed
  rw [← List.append_assoc] at hplaced htokens
  obtain ⟨hbefore, hbehind⟩ := Word.placed_append.mp hplaced
  have hpassed : ∀ w ∈ ws ++ xs, ¬site.node.stop ≤ w.start := by
    intro w hw
    obtain ⟨a, b, hsplit⟩ := List.append_of_mem hw
    have hword : Word.Among t [] (a ++ w :: b) (vs ++ []) := by
      rw [← hsplit]
      exact Word.Among.left ⟨by simpa using hamong.spells, by simpa using hamong.placed,
        by simpa using hamong.noError⟩
    have hpos := Text.byteLength_eq_zero.not.mpr hword.text_ne_nil
    have hle := (Word.le_of_placed hbefore hw).2
    simp only [Token.stop, Word.flat_append, Text.byteLength_append] at hle hstop
    omega
  have hrest : ∀ w ∈ vs, site.node.stop ≤ w.start := by
    intro w hw
    have hle := (Word.le_of_placed hbehind hw).1
    simpa [hstop] using hle
  intro cls hcls
  rw [Word.cls_ahead, Option.map_eq_some_iff] at hcls
  obtain ⟨w, hw, rfl⟩ := hcls
  refine h.behind hchoice w.toToken ?_
  rw [Option.mem_def, htokens, List.find?_map, List.find?_append, List.find?_eq_none.mpr,
    Option.none_or, Option.map_eq_some_iff]
  · refine ⟨w, ?_, rfl⟩
    rw [← hw]
    refine List.find?_congr fun v hv => ?_
    simp [hrest v hv]
  · intro v hv
    simp [hpassed v hv]

/-! ### Words of the lowered text -/

/-- Comments leave the stack as it is. -/
theorem Spells.of_comments {n m : Nesting} {passed : List Word} {rest : Text}
    (h : Spells n passed m rest) (hpassed : ∀ p ∈ passed, p.isComment) : m = n := by
  rw [← List.append_nil passed] at h
  cases h.behind_comments hpassed with
  | nil => rfl

/-- A token of code begins with no blank. -/
theorem Takes.startsVisible {n m : Nesting} {text rest : Text} {cls : TokenClass}
    (h : Takes n text rest cls m) (hn : n.inLiteral = false) :
    Text.startsWith isBlank text = false := by
  obtain ⟨c, tail, rfl⟩ := List.exists_cons_of_ne_nil h.ne_nil
  cases hc : isBlank c with
  | false => simpa [Text.startsWith] using hc
  | true =>
      rw [Takes, List.cons_append, Lexeme.read, next_blank hn hc] at h
      simp at h

/-- Words up to some place are no errors. -/
theorem Word.Among.noError_before {ws xs vs : List Word} (h : Word.Among t ws xs vs) :
    ∀ v ∈ ws ++ xs, ∀ cause, v.cls ≠ .error cause := by
  intro v hv
  apply h.noError v
  rw [← List.append_assoc]
  exact List.mem_append_left _ hv

/-- The words before a detached construct are kept before its lowered text. -/
theorem SyntaxTree.Detaches.exchange {site : Site} {graft rest rest' : Text} {n m : Nesting}
    {ws vs later : List Word} {w : Word} (h : t.Detaches site graft)
    (hamong : Word.Among t ws (w :: later) vs)
    (htokens : tokenize t.source = (ws ++ (w :: later ++ vs)).map Word.toToken)
    (hstart : site.node.start = (Word.flat ws ++ w.gap).byteLength) (hn : n.inLiteral = false)
    (hspells : Spells n (w :: later) m rest)
    (hstarts : ∃ c tail, graft = c :: tail ∧ c ≠ '=') :
    Exchange ws n (Word.flat (w :: later) ++ rest) (w.gap ++ (graft ++ rest')) := by
  obtain ⟨c, tail, rfl, hc⟩ := hstarts
  have hsource : t.source.slice? 0 site.node.start = some (Word.flat ws ++ w.gap) := by
    obtain ⟨behind, hsource⟩ := hamong.source_eq
    have hslice := Text.slice?_append [] (Word.flat ws ++ w.gap)
      (w.text ++ (Word.flat later ++ (Word.flat vs ++ behind)))
    rw [hstart, hsource]
    simpa using hslice
  obtain ⟨p, htakes⟩ : ∃ p, Takes n w.text (Word.flat later ++ rest) w.cls p := by
    cases hspells with
    | cons _ _ read _ => exact ⟨_, read⟩
  have hcls : ∀ v ∈ ws, ∀ cause, v.cls ≠ .error cause :=
    fun v hv => hamong.noError_before v (List.mem_append_left _ hv)
  rw [Word.flat_cons, List.append_assoc w.gap, List.append_assoc]
  refine .graft hn (hamong.gap_blank w List.mem_cons_self) hcls (htakes.startsVisible hn)
    htakes.ne_nil hc ?_ ?_
  · intro hgap u hu
    have hbefore := h.before u.toToken
    rw [List.head?_cons, Option.any_some] at hbefore
    apply hbefore
    · rw [htokens]
      exact List.mem_map_of_mem (List.mem_append_left _ (List.mem_of_getLast? hu))
    · obtain ⟨init, hinit⟩ := List.getLast?_eq_some_iff.mp hu
      have hplaced := (Word.placed_append.mp hamong.placed).1
      rw [hinit] at hplaced hstart
      rw [hstart, hgap, List.append_nil, Word.stop_of_placed hplaced, Nat.zero_add]
  · intro hgap
    have hbrackets := h.brackets
    rwa [hsource, Option.getD_some, hgap, List.append_nil] at hbrackets

/-- The last character of a text is a parenthesis, or that of another text. -/
def Text.EndsAs (text other : Text) : Prop :=
  text.getLast? = some ')' ∨ text.getLast? = other.getLast?

theorem Text.EndsAs.append {a b a' b' : Text} (h : EndsAs a' a) (h' : EndsAs b' b) :
    EndsAs (a' ++ b') (a ++ b) := by
  rw [EndsAs, List.getLast?_append, List.getLast?_append]
  obtain hb | hb := h'
  · exact .inl (by rw [hb, Option.some_or])
  · rw [hb]
    cases b.getLast? with
    | none => simpa [EndsAs] using h
    | some c => exact .inr (by rw [Option.some_or, Option.some_or])

/-- Words of a source between two stacks, and those that stand for them in the lowered
text, where another text follows.  The words before them are kept. -/
structure Exchanged (t : SyntaxTree) (ws : List Word) (n m : Nesting) (rest rest' : Text)
    (sites : List Site) (xs xs' : List Word) : Prop where
  laid : ∃ grafts, Laid t (Word.flat ws) (Word.flat xs) sites grafts (Word.flat xs')
  spells : Spells n xs' m rest'
  exchange : Exchange ws n (Word.flat xs ++ rest) (Word.flat xs' ++ rest')
  ends : (Word.flat xs').EndsAs (Word.flat xs)

namespace Exchanged

variable {ws xs xs' ys ys' : List Word} {n m last : Nesting} {rest rest' : Text}
  {sites sites' : List Site}

/-- Words that are kept. -/
theorem kept (hspells : Spells n xs m rest) (hcls : ∀ v ∈ ws ++ xs, ∀ cause, v.cls ≠ .error cause)
    (hexchange : Exchange (ws ++ xs) m rest rest') :
    Exchanged t ws n m rest rest' [] xs xs := by
  obtain ⟨hspells, hexchange⟩ := hspells.exchanged hcls hexchange
  exact ⟨⟨[], .nil _ _⟩, hspells, hexchange, .inr rfl⟩

/-- Words one behind the other. -/
theorem append
    (h : Exchanged t ws n m (Word.flat ys ++ rest) (Word.flat ys' ++ rest') sites xs xs')
    (h' : Exchanged t (ws ++ xs) m last rest rest' sites' ys ys') :
    Exchanged t ws n last rest rest' (sites ++ sites') (xs ++ ys) (xs' ++ ys') := by
  obtain ⟨grafts, hlaid⟩ := h.laid
  obtain ⟨grafts', hlaid'⟩ := h'.laid
  rw [Word.flat_append] at hlaid'
  refine ⟨⟨grafts ++ grafts', ?_⟩, h.spells.append h'.spells, ?_, ?_⟩
  · rw [Word.flat_append, Word.flat_append]
    exact hlaid.append hlaid'
  · rw [Word.flat_append, Word.flat_append, List.append_assoc, List.append_assoc]
    exact h.exchange
  · rw [Word.flat_append, Word.flat_append]
    exact h.ends.append h'.ends

/-- Comments before a construct, and the row in the place of the construct. -/
theorem site {site : Site} {passed later vs : List Word} {w : Word} {graft : Text} {next : Ahead}
    {f : Forest} (hamong : Word.Among t ws (passed ++ w :: later) vs)
    (htokens : tokenize t.source = (ws ++ ((passed ++ w :: later) ++ vs)).map Word.toToken)
    (hpassed : ∀ p ∈ passed, p.isComment) (hw : w.isComment = false) (hn : n.inLiteral = false)
    (hspells : Spells n (passed ++ w :: later) n rest)
    (hstands : Construct.Stands t site (Word.flat ws) (passed ++ w :: later))
    (hgraft : t.loweredSite site = .ok graft) (hdetaches : t.Detaches site graft)
    (hrow : site.Row (passed ++ w :: later) w.gap graft next rest' f) :
    Exchanged t ws n n rest rest' [site] (passed ++ w :: later) (passed ++ f.words) := by
  have hlead := Word.lead_of_comments hpassed hw later
  have hbody := Word.body_of_comments hpassed hw later
  obtain ⟨middle, hcomments, hword⟩ := hspells.split
  obtain rfl := hcomments.of_comments hpassed
  have hstart : site.node.start = (Word.flat (ws ++ passed) ++ w.gap).byteLength := by
    rw [hstands.spans.start_eq, hlead, Word.flat_append, List.append_assoc]
  have hexchange : Exchange (ws ++ passed) middle (Word.flat (w :: later) ++ rest)
      (Word.flat f.words ++ rest') := by
    rw [hrow.flat_eq, List.append_assoc]
    rw [List.append_assoc, ← List.append_assoc ws] at htokens
    exact hdetaches.exchange hamong.right htokens hstart hn hword hrow.starts
  obtain ⟨hcomments', hbefore⟩ := hcomments.exchanged hamong.left.noError_before hexchange
  refine ⟨?_, hcomments'.append (hrow.spells _ hn), ?_, ?_⟩
  · obtain ⟨hspans, hnonempty, hclosed, graft', hgraft', hgrafts, halters⟩ := hstands
    obtain rfl : graft = graft' := Except.ok.inj (hgraft.symm.trans hgraft')
    have hlaid := Laid.cons hspans.start_eq (by
      rw [hspans.stop_eq, List.append_assoc, Word.lead_append_body]) hnonempty hclosed hgraft
      hgrafts halters (.nil _ [])
    rw [List.append_nil, Word.lead_append_body, hlead, List.append_nil, List.append_assoc] at hlaid
    rw [Word.flat_append passed f.words, hrow.flat_eq]
    exact ⟨[graft], hlaid⟩
  · simpa only [Word.flat_append, List.append_assoc] using hbefore
  · obtain ⟨c, tail, hstarts, -⟩ := hrow.starts
    rw [Text.EndsAs, Word.flat_append passed f.words, hrow.flat_eq, ← List.append_assoc,
      List.getLast?_append_of_ne_nil _ (by simp [hstarts])]
    exact hrow.ends

end Exchanged

end LuauTidy
