import LuauTidy.Proofs.Counterparts
import LuauTidy.Proofs.Cuts

/-!
# Rows that mirror nodes

The tree of a pass is made of a row, whose words stand somewhere in the lowered
text.  Where that is does not matter for the tree to mirror the one before the pass:
such rows are put together piece by piece, as the nodes of the tree are.

* `Forest.place` — a row with its words at their places in a text;
* `Forest.Mirrors` — a row of which nodes are made that mirror others, wherever it
  stands;
* `Forest.Mirrors.leaf`, `Forest.Mirrors.node`, `Forest.Mirrors.site`,
  `Forest.Mirrors.append` — how such rows are put together.
-/

namespace LuauTidy

variable {options : LoweringOptions} {t t' : SyntaxTree}

/-! ### Rows at their places -/

/-- Words at their places are the same words. -/
theorem Word.sameWords_place (offset : Nat) (ws : List Word) : SameWords ws (Word.place offset ws) := by
  have hcontent := Word.content_place offset ws
  rw [List.map_map] at hcontent
  exact hcontent.symm

namespace Forest

/-- The row with the starts of its words, where the first gap starts at an offset. -/
def place (offset : Nat) : Forest → Forest
  | nil => nil
  | leaf kind passed word later =>
    let before := offset + (Word.flat passed).byteLength
    leaf kind (Word.place offset passed) { word with start := before + word.gap.byteLength }
      (later.place (before + word.whole.byteLength))
  | skipped passed word later =>
    let before := offset + (Word.flat passed).byteLength
    skipped (Word.place offset passed) { word with start := before + word.gap.byteLength }
      (later.place (before + word.whole.byteLength))
  | node kind inner later =>
    node kind (inner.place offset) (later.place (offset + (Word.flat inner.words).byteLength))

@[simp] theorem words_place (f : Forest) (offset : Nat) :
    (f.place offset).words = Word.place offset f.words := by
  induction f generalizing offset with
  | nil => rfl
  | leaf kind passed word later ih | skipped passed word later ih =>
      simp only [place, words, ih, Word.place_append, Word.place]
  | node kind inner later ihInner ih =>
      simp only [place, words, ihInner, ih, Word.place_append]

theorem place_append (f g : Forest) (offset : Nat) : (f ++ g).place offset =
    f.place offset ++ g.place (offset + (Word.flat f.words).byteLength) := by
  induction f generalizing offset with
  | nil => simp [place, words]
  | leaf kind passed word later ih | skipped passed word later ih =>
      simp [place, words, ih, Word.whole, Nat.add_assoc]
  | node kind inner later ihInner ih => simp [place, words, ih, Nat.add_assoc]

theorem respaced_place (f : Forest) (offset : Nat) : f.Respaced (f.place offset) := by
  induction f generalizing offset with
  | nil => exact .nil
  | leaf kind passed word later ih => exact .leaf kind (Word.sameWords_place _ _) rfl (ih _)
  | skipped passed word later ih => exact .skipped (Word.sameWords_place _ _) rfl (ih _)
  | node kind inner later ihInner ih => exact .node kind (ihInner _) (ih _)

theorem Fit.place {f : Forest} (h : f.Fit) (offset : Nat) : (f.place offset).Fit := by
  induction f generalizing offset with
  | nil => trivial
  | leaf kind passed word later ih | skipped passed word later ih =>
      exact ⟨(Word.sameWords_place _ _).comments h.1, h.2.1, ih h.2.2 _⟩
  | node kind inner later ihInner ih => exact ⟨ihInner h.1 _, ih h.2 _⟩

theorem place_eq_nil {f : Forest} {offset : Nat} : f.place offset = nil ↔ f = nil := by
  cases f <;> simp [place]

theorem firstLeaf_place {f : Forest} {kind : Kind} {w : Word}
    (h : f.firstLeaf = some (kind, w)) (offset : Nat) :
    ∃ v, (f.place offset).firstLeaf = some (kind, v) := by
  induction f generalizing offset with
  | nil | skipped => cases h
  | leaf kind' passed word later =>
      obtain ⟨rfl, -⟩ := Prod.mk.inj (Option.some.inj h)
      exact ⟨_, rfl⟩
  | node kind' inner later ihInner => exact ihInner h offset

theorem lastLeaf_place {f : Forest} {kind : Kind} {w : Word}
    (h : f.lastLeaf = some (kind, w)) (offset : Nat) :
    ∃ v, (f.place offset).lastLeaf = some (kind, v) := by
  induction f generalizing offset with
  | nil => cases h
  | leaf kind' passed word later ih =>
      simp only [lastLeaf, place, place_eq_nil] at h ⊢
      split at h
      · rename_i hlater
        obtain ⟨rfl, -⟩ := Prod.mk.inj (Option.some.inj h)
        exact ⟨_, if_pos hlater⟩
      · rename_i hlater
        rw [if_neg hlater]
        exact ih h _
  | skipped passed word later ih => exact ih h _
  | node kind' inner later ihInner ih =>
      simp only [lastLeaf, place, place_eq_nil] at h ⊢
      split at h
      · rename_i hlater
        rw [if_pos hlater]
        exact ihInner h _
      · rename_i hlater
        rw [if_neg hlater]
        exact ih h _

theorem Grounded.place {f : Forest} (h : f.Grounded) (offset : Nat) :
    (f.place offset).Grounded := by
  obtain ⟨⟨kind, w, hw, hkind⟩, kind', w', hw'⟩ := h
  obtain ⟨v, hv⟩ := firstLeaf_place hw offset
  obtain ⟨v', hv'⟩ := lastLeaf_place hw' offset
  exact ⟨⟨kind, v, hv, hkind⟩, kind', v', hv'⟩

end Forest

/-! ### Nodes and the rows that mirror them -/

/-- Between a cut and itself is nothing. -/
theorem Text.IsCut.slice_self {text : Text} {offset : Nat} (h : text.IsCut offset) :
    text.slice? offset offset = some [] := by
  obtain ⟨before, after, rfl, rfl⟩ := h
  simpa using Text.slice?_append before [] after

/-- The text from the first word that is no comment on does not depend on where the
words start. -/
theorem Word.body_place (offset : Nat) (ws : List Word) : body (place offset ws) = body ws := by
  induction ws generalizing offset with
  | nil => rfl
  | cons w ws ih =>
      simp only [place, body, ih, flat_place]
      rfl

/-- A node mirrors one that is no construct. -/
theorem Node.mirrored_of_none {n m : Node} {parent : Option Kind}
    (hnone : Construct.of? options n = none) (hkind : m.kind = n.kind)
    (hchildren : mirroredAll t t' options (some n.kind) n.children m.children)
    (htext : n.children = [] → t'.source.slice? m.start m.stop = t.source.slice? n.start n.stop) :
    n.mirrored t t' options parent m := by
  obtain ⟨id, kind, start, stop, children⟩ := n
  simp only [Node.mirrored, hnone, hkind, hchildren, beq_self_eq_true, Bool.true_and,
    Bool.or_eq_true, Bool.not_eq_true', beq_iff_eq]
  cases children with
  | nil => exact .inr (htext rfl)
  | cons => exact .inl rfl

/-- A node mirrors a construct. -/
theorem Node.mirrored_of_some {n m : Node} {parent : Option Kind} {c : Construct} {graft : Text}
    (hc : Construct.of? options n = some c) (hgraft : t.loweredSite ⟨c, n, parent⟩ = .ok graft)
    (hgives : c.givesWay m.kind) (htext : t'.text m = .ok graft) :
    n.mirrored t t' options parent m := by
  obtain ⟨id, kind, start, stop, children⟩ := n
  rw [SyntaxTree.text] at htext
  split at htext
  · rename_i part hpart
    cases htext
    simp [Node.mirrored, hc, hgraft, hgives, hpart]
  · cases htext

theorem mirroredAll_append {nodes nodes' others others' : List Node} {parent : Option Kind}
    (h : mirroredAll t t' options parent nodes nodes')
    (h' : mirroredAll t t' options parent others others') :
    mirroredAll t t' options parent (nodes ++ others) (nodes' ++ others') := by
  induction nodes generalizing nodes' with
  | nil =>
      cases nodes' with
      | nil => exact h'
      | cons => simp [mirroredAll] at h
  | cons n nodes ih =>
      cases nodes' with
      | nil => simp [mirroredAll] at h
      | cons m nodes' =>
          rw [mirroredAll, Bool.and_eq_true] at h
          rw [List.cons_append, List.cons_append, mirroredAll, h.1, ih h.2, Bool.true_and]

theorem mirroredAll_nil_iff {nodes' : List Node} {parent : Option Kind} :
    mirroredAll t t' options parent [] nodes' ↔ nodes' = [] := by
  cases nodes' <;> simp [mirroredAll]

/-- Wherever the words of a row stand in the source of a tree, the nodes that are made
of the row mirror some nodes. -/
def Forest.Mirrors (t : SyntaxTree) (options : LoweringOptions) (parent : Option Kind)
    (nodes : List Node) (f : Forest) : Prop :=
  ∀ (t' : SyntaxTree) (ws vs : List Word) (made lastEnd : Nat),
    Word.Among t' ws (f.place (Word.flat ws).byteLength).words vs → t'.source.IsCut lastEnd →
      mirroredAll t t' options parent nodes
        ((f.place (Word.flat ws).byteLength).nodes made lastEnd)

namespace Forest.Mirrors

variable {parent : Option Kind} {nodes others : List Node} {f g : Forest}

theorem nil (t : SyntaxTree) (options : LoweringOptions) (parent : Option Kind) :
    Forest.Mirrors t options parent [] .nil :=
  fun _ _ _ _ _ _ _ => rfl

/-- One row after the other. -/
theorem append (h : f.Mirrors t options parent nodes) (h' : g.Mirrors t options parent others) :
    (f ++ g).Mirrors t options parent (nodes ++ others) := by
  intro t' ws vs made lastEnd hamong hcut
  have hoffset : (Word.flat ws).byteLength + (Word.flat f.words).byteLength =
      (Word.flat (ws ++ (f.place (Word.flat ws).byteLength).words)).byteLength := by simp
  rw [place_append, words_append, hoffset] at hamong
  rw [place_append, nodes_append, hoffset]
  exact mirroredAll_append (h t' ws _ made lastEnd hamong.left hcut)
    (h' t' _ vs _ _ hamong.right (endFrom_cut hamong.left hcut))

/-- Where the words behind a word and the comments before it stand. -/
theorem place_behind (ws passed : List Word) (w : Word) :
    (Word.flat ws).byteLength + (Word.flat passed).byteLength + w.whole.byteLength =
      (Word.flat (ws ++ (Word.place (Word.flat ws).byteLength passed ++
        [{ w with start := (Word.flat ws).byteLength + (Word.flat passed).byteLength +
          w.gap.byteLength }]))).byteLength := by
  simp [Word.whole, Nat.add_assoc]

/-- A leaf with its text. -/
theorem leaf {kind : Kind} {passed xs ws vs : List Word} {w : Word} {id : Nat}
    (hamong : Word.Among t ws (passed ++ w :: xs) vs)
    (hnone : Construct.of? options ⟨id, kind, w.start, w.stop, []⟩ = none)
    (h : f.Mirrors t options parent nodes) :
    (Forest.leaf kind passed w f).Mirrors t options parent
      (⟨id, kind, w.start, w.stop, []⟩ :: nodes) := by
  intro t' ws' vs' made lastEnd hamong' hcut
  simp only [place, words] at hamong'
  rw [place, Forest.nodes, mirroredAll, Bool.and_eq_true]
  have htail := hamong'.tail
  rw [place_behind] at htail ⊢
  refine ⟨Node.mirrored_of_none hnone rfl rfl fun _ => ?_, h t' _ vs' _ _ htail ?_⟩
  · exact hamong'.cuts.2.2.trans hamong.cuts.2.2.symm
  · split
    · exact hcut
    · exact hamong'.cuts.2.1

/-- A token without a leaf. -/
theorem skipped (passed : List Word) (w : Word) (h : f.Mirrors t options parent nodes) :
    (Forest.skipped passed w f).Mirrors t options parent nodes := by
  intro t' ws' vs' made lastEnd hamong' hcut
  simp only [place, words] at hamong'
  simp only [place, Forest.nodes]
  have htail := hamong'.tail
  rw [place_behind] at htail ⊢
  exact h t' _ vs' _ _ htail hamong'.cuts.2.1

/-- A node that is no construct. -/
theorem node {kind : Kind} {id lastEnd : Nat} (hcut : t.source.IsCut lastEnd)
    (hnone : Construct.of? options (.around id kind (emptyPlace kind lastEnd) nodes) = none)
    (h : f.Mirrors t options (some kind) nodes) :
    (Forest.node kind f .nil).Mirrors t options parent
      [.around id kind (emptyPlace kind lastEnd) nodes] := by
  intro t' ws vs made lastEnd' hamong hcut'
  simp only [place, words, List.append_nil] at hamong
  have hnodes := h t' ws vs made lastEnd' hamong hcut'
  rw [place, Forest.nodes, mirroredAll, Bool.and_eq_true]
  refine ⟨Node.mirrored_of_none hnone rfl hnodes fun hnil => ?_, rfl⟩
  -- without children both nodes stand at a place
  have hplace : ∀ {text : Text} {lastEnd : Nat}, text.IsCut lastEnd →
      text.IsCut (emptyPlace kind lastEnd) := by
    intro text lastEnd hcut
    rw [emptyPlace]
    split
    · exact hcut
    · exact ⟨[], text, rfl, rfl⟩
  obtain rfl : nodes = [] := hnil
  rw [mirroredAll_nil_iff.mp hnodes]
  exact (hplace hcut').slice_self.trans (hplace hcut).slice_self.symm

/-- A node over the lowered text of a construct. -/
theorem site {n : Node} {c : Construct} {graft : Text} {content : Content}
    (hc : Construct.of? options n = some c) (hgraft : t.loweredSite ⟨c, n, parent⟩ = .ok graft)
    (hfit : f.Fit) (hgrounded : f.Grounded) (hcontents : f.contents = [content])
    (hgives : c.givesWay content.kind) (hbody : Word.body f.words = graft) :
    f.Mirrors t options parent [n] := by
  intro t' ws vs made lastEnd hamong hcut
  have hstand := hamong.stand
  have hnodes := Forest.contentsOf_nodes hstand made lastEnd
  rw [← (f.respaced_place _).contents, hcontents, contentsOf_eq_map,
    List.map_eq_singleton_iff] at hnodes
  obtain ⟨m, hm, hcontent⟩ := hnodes
  have hspans : m.Spans t' (Word.flat ws) _ := Forest.spans (hfit.place _) (hgrounded.place _)
    hstand made lastEnd (by simp [hm]) (by simp [hm])
  have hkind : m.kind = content.kind := by
    rw [← hcontent, Node.content_eq]
    rfl
  have htext := hspans.text_eq
  rw [words_place, Word.body_place, hbody] at htext
  rw [hm, mirroredAll, Node.mirrored_of_some hc hgraft (hkind ▸ hgives) htext]
  rfl

end Forest.Mirrors

end LuauTidy
