import LuauTidy.Proofs.Frames
import LuauTidy.Proofs.Sketches
import LuauTidy.Proofs.Tokens

/-!
# Other spacings

The words of a source may be set with other blanks between them.  A row that
matches the grammar still does so, since no production asks where a token
starts.  The nodes that it makes start and stop with the same words as before;
so a node that is made of one word has its text in both sources, and between
two nodes a line breaks in both or in neither, if it does so in both or in
neither between any two adjacent words.

* `SameWords`, `Forest.Respaced` — words and rows with other blanks;
* `Derives.respaced` — a row with other blanks matches;
* `Spacings` — the words of two sources, with their places;
* `Spacings.slice_word`, `Spacings.contains_between` — what the sources have in
  common;
* `Node.Respaced`, `Derives.nodes_respaced` — the nodes of a row.
-/

namespace LuauTidy

/-! ### Rows -/

/-- Words that are the same but for their gaps and places. -/
def SameWords (ws vs : List Word) : Prop := ws.map (·.content) = vs.map (·.content)

namespace SameWords

variable {ws vs : List Word}

theorem length_eq (h : SameWords ws vs) : ws.length = vs.length := by
  have hlength := congrArg List.length h
  simpa using hlength

theorem isEmpty_eq (h : SameWords ws vs) : ws.isEmpty = vs.isEmpty := by
  rw [Bool.eq_iff_iff, List.isEmpty_iff_length_eq_zero, List.isEmpty_iff_length_eq_zero,
    h.length_eq]

theorem comments (h : SameWords ws vs) (hws : ∀ w ∈ ws, w.isComment) :
    ∀ v ∈ vs, v.isComment := by
  intro v hv
  have hmem : v.content ∈ ws.map (·.content) := h ▸ List.mem_map_of_mem hv
  obtain ⟨w, hw, hcontent⟩ := List.mem_map.mp hmem
  have hcomment := hws w hw
  rw [Token.isComment, (Prod.mk.inj hcontent).1] at hcomment
  exact hcomment

end SameWords

/-- Rows that are the same but for the gaps and places of their words. -/
inductive Forest.Respaced : Forest → Forest → Prop
  | nil : Respaced .nil .nil
  | leaf (kind : Kind) {passed passed' : List Word} {w w' : Word} {later later' : Forest}
      (passedSame : SameWords passed passed') (same : w.content = w'.content)
      (tail : Respaced later later') :
      Respaced (.leaf kind passed w later) (.leaf kind passed' w' later')
  | skipped {passed passed' : List Word} {w w' : Word} {later later' : Forest}
      (passedSame : SameWords passed passed') (same : w.content = w'.content)
      (tail : Respaced later later') :
      Respaced (.skipped passed w later) (.skipped passed' w' later')
  | node (kind : Kind) {inner inner' later later' : Forest} (inside : Respaced inner inner')
      (tail : Respaced later later') : Respaced (.node kind inner later) (.node kind inner' later')

namespace Forest

/-- Other words with the same tokens make up a row. -/
theorem exists_respaced (f : Forest) {vs : List Word} (h : SameWords f.words vs) :
    ∃ g, f.Respaced g ∧ g.words = vs := by
  have hword : ∀ {passed : List Word} {w : Word} {later : Forest} {vs : List Word},
      SameWords (passed ++ w :: later.words) vs → ∃ passed' w' rest, vs = passed' ++ w' :: rest ∧
        SameWords passed passed' ∧ w.content = w'.content ∧ SameWords later.words rest := by
    intro passed w later vs h
    rw [SameWords, List.map_append, List.map_cons, eq_comm, List.map_eq_append_iff] at h
    obtain ⟨passed', rest, rfl, hpassed, hrest⟩ := h
    obtain ⟨w', rest, rfl, hw, hlater⟩ := List.map_eq_cons_iff.mp hrest
    exact ⟨passed', w', rest, rfl, hpassed.symm, hw.symm, hlater.symm⟩
  induction f generalizing vs with
  | nil =>
      obtain rfl : vs = [] := List.length_eq_zero_iff.mp h.length_eq.symm
      exact ⟨.nil, .nil, rfl⟩
  | leaf kind passed w later ih =>
      obtain ⟨passed', w', rest, rfl, hpassed, hw, hlater⟩ := hword h
      obtain ⟨g, hg, rfl⟩ := ih hlater
      exact ⟨.leaf kind passed' w' g, .leaf kind hpassed hw hg, rfl⟩
  | skipped passed w later ih =>
      obtain ⟨passed', w', rest, rfl, hpassed, hw, hlater⟩ := hword h
      obtain ⟨g, hg, rfl⟩ := ih hlater
      exact ⟨.skipped passed' w' g, .skipped hpassed hw hg, rfl⟩
  | node kind inner later ihInner ih =>
      rw [words, SameWords, List.map_append, eq_comm, List.map_eq_append_iff] at h
      obtain ⟨us, rest, rfl, hinner, hlater⟩ := h
      obtain ⟨g, hg, rfl⟩ := ihInner hinner.symm
      obtain ⟨g', hg', rfl⟩ := ih hlater.symm
      exact ⟨.node kind g g', .node kind hg hg', rfl⟩

namespace Respaced

variable {f g later : Forest}

theorem words (h : f.Respaced g) : SameWords f.words g.words := by
  induction h with
  | nil => rfl
  | leaf _ hpassed hw _ ih =>
      simp only [SameWords, Forest.words, List.map_append, List.map_cons, hw] at *
      rw [hpassed, ih]
  | skipped hpassed hw _ ih =>
      simp only [SameWords, Forest.words, List.map_append, List.map_cons, hw] at *
      rw [hpassed, ih]
  | node _ _ _ ihInner ih =>
      simp only [SameWords, Forest.words, List.map_append] at *
      rw [ihInner, ih]

/-- The same token stands ahead. -/
theorem ahead (h : f.Respaced g) (next : Ahead) : f.ahead next = g.ahead next := by
  have hword : ∀ {w w' : Word}, w.content = w'.content →
      w.cls = w'.cls ∧ w.isComment = w'.isComment := by
    intro w w' hw
    have hcls := (Prod.mk.inj hw).1
    exact ⟨hcls, by rw [Token.isComment, Token.isComment, hcls]⟩
  induction h generalizing next with
  | nil => rfl
  | leaf _ hpassed hw _ ih =>
      simp only [Forest.ahead, (hword hw).1, (hword hw).2, hpassed.isEmpty_eq, ih]
  | skipped hpassed hw _ ih => simp only [Forest.ahead, (hword hw).1, hpassed.isEmpty_eq]
  | node _ _ _ ihInner ih => simp only [Forest.ahead, ihInner, ih]

/-- A concatenation with other blanks is a concatenation. -/
theorem append_cases (h : (f ++ later).Respaced g) :
    ∃ g₁ g₂, g = g₁ ++ g₂ ∧ f.Respaced g₁ ∧ later.Respaced g₂ := by
  induction f generalizing g with
  | nil => exact ⟨.nil, g, rfl, .nil, h⟩
  | leaf kind passed w rest ih =>
      cases h with
      | leaf _ hpassed hw htail =>
          obtain ⟨g₁, g₂, rfl, hg₁, hg₂⟩ := ih htail
          exact ⟨_, g₂, rfl, .leaf kind hpassed hw hg₁, hg₂⟩
  | skipped passed w rest ih =>
      cases h with
      | skipped hpassed hw htail =>
          obtain ⟨g₁, g₂, rfl, hg₁, hg₂⟩ := ih htail
          exact ⟨_, g₂, rfl, .skipped hpassed hw hg₁, hg₂⟩
  | node kind inner rest _ ih =>
      cases h with
      | node _ hinside htail =>
          obtain ⟨g₁, g₂, rfl, hg₁, hg₂⟩ := ih htail
          exact ⟨_, g₂, rfl, .node kind hinside hg₁, hg₂⟩

/-- As many comments are passed over. -/
theorem strays (h : f.Respaced g) : SameWords f.strays g.strays := by
  induction h with
  | nil => rfl
  | leaf _ hpassed _ _ ih | skipped hpassed _ _ ih =>
      simp only [SameWords, Forest.strays, List.map_append] at *
      rw [hpassed, ih]
  | node _ _ _ ihInner ih =>
      simp only [SameWords, Forest.strays, List.map_append] at *
      rw [ihInner, ih]

end Respaced

end Forest

/-! ### The grammar -/

/-- What is asked of a token does not depend on its place. -/
def Symbol.IgnoresPlace : Symbol → Prop
  | .leaf _ fits => ∀ t u : Token, t.content = u.content → fits t → fits u
  | _ => True

@[simp] theorem Symbol.ignoresPlace_mark (k : TokenKind) : (Symbol.mark k).IgnoresPlace := by
  intro t u hsame ht
  exact (Prod.mk.inj hsame).1.symm.trans ht

@[simp] theorem Symbol.ignoresPlace_literal (k : ExprKind) : (Symbol.literal k).IgnoresPlace := by
  intro t u hsame ht
  exact (Prod.mk.inj hsame).1.symm.trans ht

@[simp] theorem Symbol.ignoresPlace_comment : Symbol.comment.IgnoresPlace := by
  intro t u hsame ht
  exact (Prod.mk.inj hsame).1.symm.trans ht

@[simp] theorem Symbol.ignoresPlace_continueWord : Symbol.continueWord.IgnoresPlace := by
  intro t u hsame ht
  obtain ⟨hcls, htext⟩ := Prod.mk.inj hsame
  exact ⟨hcls.symm.trans ht.1, htext.symm.trans ht.2⟩

@[simp] theorem Symbol.ignoresPlace_skip (k : TokenKind) : (Symbol.skip k).IgnoresPlace := trivial

@[simp] theorem Symbol.ignoresPlace_look (fits : Ahead → Prop) :
    (Symbol.look fits).IgnoresPlace := trivial

@[simp] theorem Symbol.ignoresPlace_sub (n : Nonterminal) : (Symbol.sub n).IgnoresPlace := trivial

/-- No production asks where a token starts. -/
theorem Production.ignoresPlace {n : Nonterminal} {kind : Option Kind} {parts : List Symbol}
    (h : Production n kind parts) : ∀ s ∈ parts, s.IgnoresPlace := by
  cases h <;> simp

/-- A row with other blanks matches what the row matches. -/
theorem Derives.respaced {symbols : List Symbol} {f : Forest} {next : Ahead}
    (h : Derives symbols f next) (hsymbols : ∀ s ∈ symbols, s.IgnoresPlace) {g : Forest}
    (hg : f.Respaced g) : Derives symbols g next := by
  induction h generalizing g with
  | nil next =>
      cases hg
      exact .nil next
  | leaf comments right fitting _ ih =>
      rw [List.forall_mem_cons] at hsymbols
      cases hg with
      | leaf _ hpassed hw htail =>
          refine .leaf (hpassed.comments comments) ?_ (hsymbols.1 _ _ hw fitting)
            (ih hsymbols.2 htail)
          intro hcomment
          rw [Token.isComment, ← (Prod.mk.inj hw).1] at hcomment
          have hnil := right hcomment
          subst hnil
          exact List.length_eq_zero_iff.mp hpassed.length_eq.symm
  | skip comments fitting _ ih =>
      rw [List.forall_mem_cons] at hsymbols
      cases hg with
      | skipped hpassed hw htail =>
          refine .skip (hpassed.comments comments) ?_ (ih hsymbols.2 htail)
          exact (Prod.mk.inj hw).1.symm.trans fitting
  | look fitting _ ih =>
      rw [List.forall_mem_cons] at hsymbols
      exact .look (hg.ahead _ ▸ fitting) (ih hsymbols.2 hg)
  | flat rule _ _ ihInside ih =>
      rw [List.forall_mem_cons] at hsymbols
      obtain ⟨g₁, g₂, rfl, hg₁, hg₂⟩ := hg.append_cases
      exact .flat rule (hg₂.ahead _ ▸ ihInside rule.ignoresPlace hg₁) (ih hsymbols.2 hg₂)
  | node rule _ _ ihInside ih =>
      rw [List.forall_mem_cons] at hsymbols
      cases hg with
      | node _ hinside htail =>
          exact .node rule (htail.ahead _ ▸ ihInside rule.ignoresPlace hinside)
            (ih hsymbols.2 htail)

/-! ### Sources -/

/-- A line breaks in the gap before a word. -/
def Word.breaksLine (w : Word) : Bool := w.gap.contains '\n'

/-- The words of two sources, which differ in their gaps.  If there are comments,
lines break between the same words. -/
structure Spacings where
  left : List Word
  right : List Word
  /-- The blanks behind the last word. -/
  leftGap : Text
  rightGap : Text
  same : SameWords left right
  leftPlaced : Word.place 0 left = left
  rightPlaced : Word.place 0 right = right
  breaks : (∃ w ∈ left, w.isComment) →
    left.tail.map Word.breaksLine = right.tail.map Word.breaksLine

/-- The slice between two equal offsets. -/
theorem Text.slice?_of_le {t part : Text} {start stop : Nat} (h : t.slice? start stop = some part)
    (hle : stop ≤ start) : part = [] := by
  by_cases hstart : start ≤ stop
  · obtain rfl : start = stop := Nat.le_antisymm hstart hle
    cases hafter : Text.after? start t with
    | none => simp [slice?, hafter] at h
    | some rest => simpa [slice?, hafter, splitAt?, cutAt?, eq_comm] using h
  · simp [slice?, hstart] at h

namespace Word

/-- Where a placed word stands in the text that the words spell. -/
theorem ends_of_placed {before after : List Word} {w : Word}
    (h : place 0 (before ++ w :: after) = before ++ w :: after) :
    w.start = (flat before ++ w.gap).byteLength ∧ w.stop = (flat (before ++ [w])).byteLength := by
  have hstart := start_of_placed h
  constructor
  · simpa using hstart
  · simp [Token.stop, hstart, ← Nat.add_assoc]

/-- The text of a placed word. -/
theorem slice_of_placed {before after : List Word} {w : Word}
    (h : place 0 (before ++ w :: after) = before ++ w :: after) (gap : Text) :
    Text.slice? (flat (before ++ w :: after) ++ gap) w.start w.stop = some w.text := by
  obtain ⟨hstart, hstop⟩ := ends_of_placed h
  have hslice := Text.slice?_append (flat before ++ w.gap) w.text (flat after ++ gap)
  have hlength : (flat before ++ w.gap).byteLength + w.text.byteLength = w.stop := by
    rw [hstop]
    simp [← Nat.add_assoc]
  rw [hlength, ← hstart] at hslice
  simpa using hslice

/-- The text between two placed words. -/
theorem slice_between {before middle after : List Word} {w v : Word}
    (h : place 0 (before ++ w :: (middle ++ v :: after)) = before ++ w :: (middle ++ v :: after))
    (gap : Text) :
    Text.slice? (flat (before ++ w :: (middle ++ v :: after)) ++ gap) w.stop v.start =
      some (flat middle ++ v.gap) := by
  obtain ⟨-, hstop⟩ := ends_of_placed h
  have hstart : v.start = w.stop + (flat middle ++ v.gap).byteLength := by
    have hregrouped : place 0 ((before ++ w :: middle) ++ v :: after) =
        (before ++ w :: middle) ++ v :: after := by simpa using h
    rw [(ends_of_placed hregrouped).1, hstop]
    simp [Nat.add_assoc]
  have hslice := Text.slice?_append (flat (before ++ [w])) (flat middle ++ v.gap)
    (v.text ++ (flat after ++ gap))
  rw [← hstop, ← hstart] at hslice
  simpa using hslice

/-- Of two placed words, the second stands behind the first, or does not start
behind it. -/
theorem placed_cases {before after before' after' ws : List Word} {w v : Word}
    (hplaced : place 0 ws = ws) (hw : ws = before ++ w :: after)
    (hv : ws = before' ++ v :: after') :
    (∃ middle, before' = before ++ w :: middle ∧ after = middle ++ v :: after') ∨
      (before'.length ≤ before.length ∧ v.start ≤ w.stop) := by
  have hstarts := ends_of_placed (hv ▸ hplaced)
  have hstops := ends_of_placed (hw ▸ hplaced)
  rw [hw] at hv
  obtain ⟨middle, rfl, hrest⟩ | ⟨middle, rfl, hrest⟩ := List.append_eq_append_iff.mp hv
  · cases middle with
    | nil =>
        obtain ⟨rfl, rfl⟩ := List.cons.inj hrest
        exact .inr ⟨by simp, Nat.le_add_right _ _⟩
    | cons u middle =>
        obtain ⟨rfl, rfl⟩ := List.cons.inj hrest
        exact .inl ⟨middle, rfl, rfl⟩
  · refine .inr ⟨by simp, ?_⟩
    rw [hstarts.1, hstops.2]
    cases middle with
    | nil =>
        obtain ⟨rfl, rfl⟩ := List.cons.inj hrest
        simp only [List.append_nil, flat_append, flat_cons, Text.byteLength_append]
        omega
    | cons u middle =>
        obtain ⟨rfl, rfl⟩ := List.cons.inj hrest
        simp only [flat_append, flat_cons, Text.byteLength_append]
        omega

theorem contains_append (a b : Text) :
    (a ++ b).contains '\n' = (a.contains '\n' || b.contains '\n') := by
  simp [List.contains_eq_mem, Bool.decide_or]

/-- A line breaks in the texts of words in both rows or in neither. -/
theorem contains_flat {ws vs : List Word} (h : SameWords ws vs)
    (hbreaks : ws.map breaksLine = vs.map breaksLine) :
    (flat ws).contains '\n' = (flat vs).contains '\n' := by
  induction ws generalizing vs with
  | nil =>
      obtain rfl : vs = [] := List.length_eq_zero_iff.mp h.length_eq.symm
      rfl
  | cons w ws ih =>
      obtain ⟨v, vs, rfl, hcontent, hsame⟩ := List.map_eq_cons_iff.mp h.symm
      obtain ⟨hgap, hlater⟩ := List.cons.inj hbreaks
      have hgap : w.gap.contains '\n' = v.gap.contains '\n' := hgap
      have htext : w.text = v.text := (Prod.mk.inj hcontent).2.symm
      simp only [flat_cons, contains_append, ih hsame.symm hlater, hgap, htext]

end Word

namespace Spacings

variable {z : Spacings} {w w' v v' : Word}

/-- The source that the words spell. -/
def leftSource (z : Spacings) : Text := Word.flat z.left ++ z.leftGap

/-- The other source. -/
def rightSource (z : Spacings) : Text := Word.flat z.right ++ z.rightGap

/-- Two words with the same number. -/
def Pairs (z : Spacings) (w w' : Word) : Prop :=
  ∃ before after before' after', z.left = before ++ w :: after ∧
    z.right = before' ++ w' :: after' ∧ before.length = before'.length

/-- Two words with the same number are the same. -/
theorem Pairs.content (h : z.Pairs w w') : w.content = w'.content := by
  obtain ⟨before, after, before', after', hleft, hright, hlength⟩ := h
  have hsame := z.same
  rw [SameWords, hleft, hright, List.map_append, List.map_append] at hsame
  have hrest := List.append_inj_right hsame (by simpa using hlength)
  exact (List.cons.inj hrest).1

/-- A word has its text in both sources. -/
theorem slice_word (h : z.Pairs w w') :
    z.leftSource.slice? w.start w.stop = some w.text ∧
      z.rightSource.slice? w'.start w'.stop = some w.text := by
  have htext : w.text = w'.text := (Prod.mk.inj h.content).2
  obtain ⟨before, after, before', after', hleft, hright, -⟩ := h
  constructor
  · rw [leftSource, hleft]
    exact Word.slice_of_placed (hleft ▸ z.leftPlaced) z.leftGap
  · rw [rightSource, hright, htext]
    exact Word.slice_of_placed (hright ▸ z.rightPlaced) z.rightGap

/-- A line breaks between two words in both sources or in neither. -/
theorem contains_between (hcomment : ∃ c ∈ z.left, c.isComment) (hw : z.Pairs w w')
    (hv : z.Pairs v v') {part part' : Text}
    (hpart : z.leftSource.slice? w.stop v.start = some part)
    (hpart' : z.rightSource.slice? w'.stop v'.start = some part') :
    part.contains '\n' = part'.contains '\n' := by
  have behind : ∀ (before : List Word) (w : Word) (after : List Word),
      (before ++ w :: after).tail.drop before.length = after := by
    intro before w after
    cases before <;> simp
  have hbreaks := z.breaks hcomment
  have hsame := z.same
  obtain ⟨before, after, before', after', hleft, hright, hlength⟩ := hw
  obtain ⟨start, rest, start', rest', hleft', hright', hlength'⟩ := hv
  obtain ⟨middle, rfl, rfl⟩ | ⟨hle, hbehind⟩ := Word.placed_cases z.leftPlaced hleft hleft'
  · obtain ⟨middle', rfl, rfl⟩ | ⟨hle, -⟩ := Word.placed_cases z.rightPlaced hright hright'
    · rw [leftSource, hleft, Word.slice_between (hleft ▸ z.leftPlaced)] at hpart
      rw [rightSource, hright, Word.slice_between (hright ▸ z.rightPlaced)] at hpart'
      obtain rfl := Option.some.inj hpart
      obtain rfl := Option.some.inj hpart'
      have hlength' : middle.length = middle'.length := by
        simp only [List.length_append, List.length_cons] at hlength'
        omega
      obtain ⟨hmiddle, hgap⟩ : middle.map Word.breaksLine = middle'.map Word.breaksLine ∧
          v.gap.contains '\n' = v'.gap.contains '\n' := by
        have hdrop := congrArg (List.drop before.length) hbreaks
        rw [← List.map_drop, ← List.map_drop, hleft, hright, behind, hlength, behind,
          List.map_append, List.map_append] at hdrop
        obtain ⟨hmiddle, hrest⟩ := List.append_inj hdrop (by simpa using hlength')
        exact ⟨hmiddle, (List.cons.inj hrest).1⟩
      have hwords : SameWords middle middle' := by
        rw [SameWords, hleft, hright, List.map_append, List.map_append] at hsame
        have hrest := (List.cons.inj (List.append_inj_right hsame (by simpa using hlength))).2
        rw [List.map_append, List.map_append] at hrest
        exact List.append_inj_left hrest (by simpa using hlength')
      rw [Word.contains_append, Word.contains_append, Word.contains_flat hwords hmiddle, hgap]
    · simp only [List.length_append, List.length_cons] at hlength'
      omega
  · obtain ⟨middle', rfl, rfl⟩ | ⟨-, hbehind'⟩ := Word.placed_cases z.rightPlaced hright hright'
    · simp only [List.length_append, List.length_cons] at hlength'
      omega
    · rw [Text.slice?_of_le hpart hbehind, Text.slice?_of_le hpart' hbehind']

end Spacings

/-! ### Nodes -/

/-- A node of the kind is made of one word. -/
def Kind.isWord : Kind → Bool
  | .token _ | .stmt .comment | .aux .binding => true
  | .expr k => k.isLiteral
  | _ => false

namespace Spacings

/-- Two offsets where the same word stops. -/
def Stops (z : Spacings) (stop stop' : Nat) : Prop :=
  ∃ w w', z.Pairs w w' ∧ stop = w.stop ∧ stop' = w'.stop

/-- Two nodes that extend over the same word. -/
def Extents (z : Spacings) (n n' : Node) : Prop :=
  ∃ w w', z.Pairs w w' ∧ n.start = w.start ∧ n.stop = w.stop ∧ n'.start = w'.start ∧
    n'.stop = w'.stop

end Spacings

/-- Two nodes that stop with the same word, and everything below them. -/
inductive Node.Respaced (z : Spacings) : Node → Node → Prop
  | mk {n n' : Node} (kind : n.kind = n'.kind) (stop : z.Stops n.stop n'.stop)
      (word : n.kind.isWord → z.Extents n n')
      (comment : n.kind = .stmt .comment → ∃ w ∈ z.left, w.isComment)
      (children : List.Forall₂ (Node.Respaced z) n.children n'.children) : n.Respaced z n'

namespace Node.Respaced

variable {z : Spacings} {n n' : Node} {nodes nodes' : List Node}

theorem kind (h : n.Respaced z n') : n.kind = n'.kind := by
  cases h with
  | mk kind => exact kind

theorem stop (h : n.Respaced z n') : z.Stops n.stop n'.stop := by
  cases h with
  | mk _ stop => exact stop

theorem word (h : n.Respaced z n') (hkind : n.kind.isWord) : z.Extents n n' := by
  cases h with
  | mk _ _ word => exact word hkind

theorem comment (h : n.Respaced z n') (hkind : n.kind = .stmt .comment) :
    ∃ w ∈ z.left, w.isComment := by
  cases h with
  | mk _ _ _ comment => exact comment hkind

theorem children (h : n.Respaced z n') :
    List.Forall₂ (Node.Respaced z) n.children n'.children := by
  cases h with
  | mk _ _ _ _ children => exact children

/-- Nodes around others stop where the last of these do. -/
theorem stop_around (h : List.Forall₂ (Node.Respaced z) nodes nodes') (hne : nodes ≠ [])
    (id id' : Nat) (kind : Kind) (position position' : Nat) :
    z.Stops (Node.around id kind position nodes).stop
      (Node.around id' kind position' nodes').stop := by
  induction h with
  | nil => exact absurd rfl hne
  | @cons n n' rest rest' hn hrest ih =>
      cases hrest with
      | nil => simpa [Node.around] using hn.stop
      | cons => simpa [Node.around] using ih (List.cons_ne_nil _ _)

end Node.Respaced

/-- The only nodes around others that are made of one word are those of names
that are declared. -/
theorem Production.eq_binding {n : Nonterminal} {kind : Kind} {parts : List Symbol}
    (h : Production n (some kind) parts) (hkind : kind.isWord) : parts = [.mark .name] := by
  cases h <;> first | rfl | cases hkind

/-- Two rows of words behind as many words of their sources. -/
def Spacings.Among (z : Spacings) (ws ws' : List Word) : Prop :=
  ∃ us vs us' vs', z.left = us ++ (ws ++ vs) ∧ z.right = us' ++ (ws' ++ vs') ∧
    us.length = us'.length

namespace Spacings.Among

variable {z : Spacings} {a b a' b' passed passed' ws ws' : List Word} {w w' : Word}

theorem left (h : z.Among (a ++ b) (a' ++ b')) : z.Among a a' := by
  obtain ⟨us, vs, us', vs', hleft, hright, hlength⟩ := h
  exact ⟨us, b ++ vs, us', b' ++ vs', by simpa using hleft, by simpa using hright, hlength⟩

theorem right (h : z.Among (a ++ b) (a' ++ b')) (hsame : SameWords a a') : z.Among b b' := by
  obtain ⟨us, vs, us', vs', hleft, hright, hlength⟩ := h
  refine ⟨us ++ a, vs, us' ++ a', vs', by simpa using hleft, by simpa using hright, ?_⟩
  rw [List.length_append, List.length_append, hlength, hsame.length_eq]

/-- The first words behind the comments that are passed over. -/
theorem pairs (h : z.Among (passed ++ w :: ws) (passed' ++ w' :: ws'))
    (hpassed : SameWords passed passed') : z.Pairs w w' := by
  obtain ⟨us, vs, us', vs', hleft, hright, hlength⟩ := h
  refine ⟨us ++ passed, ws ++ vs, us' ++ passed', ws' ++ vs', by simpa using hleft,
    by simpa using hright, ?_⟩
  rw [List.length_append, List.length_append, hlength, hpassed.length_eq]

theorem tail (h : z.Among (passed ++ w :: ws) (passed' ++ w' :: ws'))
    (hpassed : SameWords passed passed') (hw : w.content = w'.content) : z.Among ws ws' := by
  have hsplit : z.Among ((passed ++ [w]) ++ ws) ((passed' ++ [w']) ++ ws') := by simpa using h
  refine hsplit.right ?_
  rw [SameWords, List.map_append, List.map_append, hpassed]
  simp [hw]

end Spacings.Among

/-- Only a comment becomes the leaf of a comment. -/
theorem LeafFits.isComment {t : Token} (h : LeafFits (.stmt .comment) t) : t.isComment := by
  obtain h | ⟨hcls, -⟩ | ⟨-, -, hkind⟩ := h
  · cases hcls : t.cls <;> simp [hcls, TokenClass.leafKind?] at h
  · simp [Token.isComment, hcls]
  · cases hkind

/-- The leaves of two words with the same number. -/
theorem Spacings.Pairs.leaf {z : Spacings} {w w' : Word} (h : z.Pairs w w') {kind : Kind}
    (hfit : LeafFits kind w.toToken) (id id' : Nat) :
    Node.Respaced z ⟨id, kind, w.start, w.stop, []⟩ ⟨id', kind, w'.start, w'.stop, []⟩ := by
  refine .mk rfl ⟨w, w', h, rfl, rfl⟩ (fun _ => ⟨w, w', h, rfl, rfl, rfl, rfl⟩) ?_ .nil
  intro hkind
  have hcomment : kind = .stmt .comment := hkind
  subst hcomment
  obtain ⟨before, after, before', after', hleft, -, -⟩ := h
  exact ⟨w, by simp [hleft], hfit.isComment⟩

/-- The nodes of a row and of the row with other blanks. -/
theorem Derives.nodes_respaced {z : Spacings} {symbols : List Symbol} {f : Forest} {next : Ahead}
    (h : Derives symbols f next) (hfit : f.Fit) {behind : Bool}
    (hblocks : Symbol.blocksBehindTokens behind symbols) {g : Forest} (hg : f.Respaced g)
    (hamong : z.Among f.words g.words) (made made' : Nat) {lastEnd lastEnd' : Nat}
    (hbehind : behind → z.Stops lastEnd lastEnd') :
    List.Forall₂ (Node.Respaced z) (f.nodes made lastEnd) (g.nodes made' lastEnd') := by
  induction h generalizing behind g made made' lastEnd lastEnd' with
  | nil =>
      cases hg
      exact .nil
  | @leaf kind _ passed w later _ _ _ _ _ _ ih =>
      cases hg with
      | @leaf _ _ passed' _ w' _ later' hpassed hw htail =>
          have hpair := hamong.pairs hpassed
          refine .cons (hpair.leaf hfit.2.1 _ _)
            (ih hfit.2.2 hblocks htail (hamong.tail hpassed hw) _ _ ?_)
          intro hkind
          have hcomment : w.isComment = false :=
            hfit.2.1.not_comment (by simpa using hkind)
          have hcomment' : w'.isComment = false := by
            rw [Token.isComment, ← (Prod.mk.inj hw).1]
            exact hcomment
          rw [hcomment, hcomment']
          exact ⟨w, w', hpair, rfl, rfl⟩
  | skip _ _ _ ih =>
      cases hg with
      | skipped hpassed hw htail =>
          exact ih hfit.2.2 hblocks htail (hamong.tail hpassed hw) _ _
            fun _ => ⟨_, _, hamong.pairs hpassed, rfl, rfl⟩
  | look _ _ ih => exact ih hfit hblocks hg hamong made made' hbehind
  | flat rule _ _ ihInside ih =>
      simp only [Symbol.blocksBehindTokens, Bool.and_eq_true] at hblocks
      obtain ⟨⟨hn, -⟩, hrest⟩ := hblocks
      obtain ⟨hfit, hfitLater⟩ := Forest.fit_append.mp hfit
      obtain ⟨g₁, g₂, rfl, hg₁, hg₂⟩ := hg.append_cases
      rw [Forest.words_append, Forest.words_append] at hamong
      rw [Forest.nodes_append, Forest.nodes_append]
      refine List.rel_append ?_ (ih hfitLater hrest hg₂ (hamong.right hg₁.words) _ _ (by simp))
      exact ihInside hfit (rule.blocksBehindTokens hn) hg₁ hamong.left _ _ (by simp)
  | @node n kind _ _ inner later _ rule inside _ ihInside ih =>
      simp only [Symbol.blocksBehindTokens, Bool.and_eq_true, Bool.or_eq_true,
        bne_iff_ne] at hblocks
      obtain ⟨⟨hn, hblock⟩, hrest⟩ := hblocks
      cases hg with
      | @node _ _ inner' _ later' hinside htail =>
          rw [Forest.words, Forest.words] at hamong
          have hinner : List.Forall₂ (Node.Respaced z) (inner.nodes made lastEnd)
              (inner'.nodes made' lastEnd') :=
            ihInside hfit.1 (rule.blocksBehindTokens hn) hinside hamong.left made made' (by simp)
          refine .cons ⟨rfl, ?_, ?_, ?_, hinner⟩
            (ih hfit.2 hrest htail (hamong.right hinside.words) _ _ (by simp))
          · by_cases hnodes : inner.nodes made lastEnd = []
            · -- an empty block stops with the token before it
              obtain ⟨rfl, rfl⟩ := rule.block_of_nodes hn inside hnodes
              rw [hnodes] at hinner ⊢
              rw [List.forall₂_nil_left_iff.mp hinner]
              exact hbehind (by simpa using hblock)
            · exact Node.Respaced.stop_around hinner hnodes _ _ _ _ _
          · intro hkind
            obtain rfl := rule.eq_binding hkind
            cases inside with
            | leaf _ _ _ tail =>
                cases tail
                cases hinside with
                | leaf _ hpassed hw htail =>
                    cases htail
                    exact ⟨_, _, hamong.left.pairs hpassed, rfl, rfl, rfl, rfl⟩
          · intro hkind
            have hcomment : kind = .stmt .comment := hkind
            subst hcomment
            cases rule

end LuauTidy
