import LuauTidy.Proofs.Extents
import LuauTidy.Proofs.Fates
import LuauTidy.Proofs.StmtReading

/-!
# Frames

The nodes of a row lie one behind the other in the source, and so do the
children of each node, within the node.  Only a node without children could
stand elsewhere, since it stands where the last token ended and not where the
next one starts.  Blocks are the only nodes that may be empty, and each block
follows a keyword or a parenthesis, so it stands right behind it.

* `Lined` — nodes one behind the other;
* `Node.IsFrame` — a node around its children;
* `Derives.frames` — the nodes of a row.
-/

namespace LuauTidy

/-- Nodes one behind the other between two offsets. -/
def Lined : (low : Nat) → List Node → (high : Nat) → Prop
  | low, [], high => low ≤ high
  | low, n :: rest, high => low ≤ n.start ∧ n.start ≤ n.stop ∧ Lined n.stop rest high

namespace Lined

variable {low middle high : Nat} {a b nodes : List Node} {n : Node}

theorem le (h : Lined low nodes high) : low ≤ high := by
  induction nodes generalizing low with
  | nil => exact h
  | cons n rest ih =>
      have := ih h.2.2
      have := h.1
      have := h.2.1
      omega

theorem lower {other : Nat} (h : Lined low nodes high) (hle : other ≤ low) :
    Lined other nodes high := by
  cases nodes with
  | nil => exact Nat.le_trans hle h
  | cons n rest => exact ⟨Nat.le_trans hle h.1, h.2⟩

theorem append (ha : Lined low a middle) (hb : Lined middle b high) : Lined low (a ++ b) high := by
  induction a generalizing low with
  | nil => exact hb.lower ha
  | cons n rest ih => exact ⟨ha.1, ha.2.1, ih ha.2.2⟩

theorem raise {other : Nat} (h : Lined low nodes high) (hle : high ≤ other) :
    Lined low nodes other := by
  have hlined : Lined low (nodes ++ []) other := h.append hle
  rwa [List.append_nil] at hlined

/-- The last of some nodes stops before the upper offset. -/
theorem last (h : Lined low nodes high) : ∀ m ∈ nodes.getLast?, m.stop ≤ high := by
  induction nodes generalizing low with
  | nil => simp
  | cons n rest ih =>
      cases rest with
      | nil => simpa using h.2.2.le
      | cons k rest =>
          intro m hm
          rw [List.getLast?_cons_cons] at hm
          exact ih h.2.2 m hm

/-- Nodes lie between the start of the first and the stop of the last of them. -/
theorem tight (h : Lined low (n :: nodes) high) :
    Lined n.start (n :: nodes) (((n :: nodes).getLast?.map Node.stop).getD 0) := by
  induction nodes generalizing low n with
  | nil => exact ⟨Nat.le_refl _, h.2.1, Nat.le_refl _⟩
  | cons k rest ih =>
      have hrest := ih h.2.2
      rw [List.getLast?_cons_cons]
      exact ⟨Nat.le_refl _, h.2.1, hrest.lower h.2.2.1⟩

theorem pairwise (h : Lined low nodes high) :
    nodes.Pairwise fun first second => first.stop ≤ second.start := by
  have hall : ∀ {low nodes}, Lined low nodes high → ∀ m ∈ nodes, low ≤ m.start := by
    intro low nodes
    induction nodes generalizing low with
    | nil => simp
    | cons n rest ih =>
        intro h m hm
        obtain rfl | hm := List.mem_cons.mp hm
        · exact h.1
        · exact Nat.le_trans (Nat.le_trans h.1 h.2.1) (ih h.2.2 m hm)
  induction nodes generalizing low with
  | nil => exact .nil
  | cons n rest ih => exact .cons (hall h.2.2) (ih h.2.2)

end Lined

/-- A node around its children, which lie one behind the other; without them
it is the leaf of a token or an empty block. -/
structure Node.IsFrame (n : Node) : Prop where
  le : n.start ≤ n.stop
  lined : n.children ≠ [] → Lined n.start n.children n.stop
  empty : n.children = [] → n.isHollow → n.kind = .aux .block ∧ n.start = n.stop

mutual

/-- The leaves of frames lie one behind the other. -/
theorem Node.lined_leaves (n : Node) (h : ∀ m ∈ n.preorder, m.IsFrame) :
    Lined n.start n.leaves n.stop := by
  cases n with
  | mk id kind start stop children =>
      simp only [Node.preorder_eq, List.mem_cons, forall_eq_or_imp] at h
      obtain ⟨hframe, hchildren⟩ := h
      cases children with
      | nil => exact ⟨Nat.le_refl _, hframe.le, Nat.le_refl _⟩
      | cons first rest =>
          rw [Node.leaves_of_ne_nil (List.cons_ne_nil first rest)]
          exact lined_leavesOfAll (first :: rest) (hframe.lined (List.cons_ne_nil first rest)) hchildren

/-- The leaves of frames one behind the other lie one behind the other. -/
theorem lined_leavesOfAll (nodes : List Node) {low high : Nat} (h : Lined low nodes high)
    (hframes : ∀ m ∈ preorderOfAll nodes, m.IsFrame) : Lined low (leavesOfAll nodes) high := by
  cases nodes with
  | nil => exact h
  | cons n rest =>
      simp only [preorderOfAll, List.mem_append] at hframes
      rw [leavesOfAll_cons]
      exact ((Node.lined_leaves n fun m hm => hframes m (.inl hm)).lower h.1).append
        (lined_leavesOfAll rest h.2.2 fun m hm => hframes m (.inr hm))

end

/-! ### The nodes of a row -/

/-- Phrases within a source. -/
def Nonterminal.isInner : Nonterminal → Bool
  | .chunk => false
  | .more _ item => item.isInner
  | _ => true

/-- Blocks are asked for only behind a token, and the whole source never. -/
def Symbol.blocksBehindTokens : (behind : Bool) → List Symbol → Bool
  | _, [] => true
  | _, leaf kind _ :: rest => blocksBehindTokens (kind != .stmt .comment) rest
  | _, skip _ :: rest => blocksBehindTokens true rest
  | behind, look _ :: rest => blocksBehindTokens behind rest
  | behind, sub n :: rest =>
    n.isInner && (behind || n != .block) && blocksBehindTokens false rest

theorem Production.blocksBehindTokens {n : Nonterminal} {kind : Option Kind}
    {parts : List Symbol} (h : Production n kind parts) (hn : n.isInner) :
    Symbol.blocksBehindTokens false parts := by
  cases h with
  | more separator item separates =>
      simpa [Symbol.blocksBehindTokens, Symbol.mark, Nonterminal.isInner] using hn
  | chunk => cases hn
  | _ => rfl

/-- Within a source only blocks stay without children. -/
theorem Production.block_of_nodes {n : Nonterminal} {kind : Kind} {parts : List Symbol}
    (h : Production n (some kind) parts) (hn : n.isInner) {inner : Forest} {next : Ahead}
    (inside : Derives parts inner next) {made lastEnd : Nat}
    (hnodes : inner.nodes made lastEnd = []) : n = .block ∧ kind = .aux .block := by
  obtain hleaf | rfl | rfl := h.hasLeaf_of_kind
  · exact absurd (Forest.leaves_of_nodes hnodes) (inside.leaves_ne_nil (h.hasLeaf hleaf) made)
  · cases h
    exact ⟨rfl, rfl⟩
  · cases h
    cases hn

/-- A word behind the words that are passed over. -/
theorem Word.placed_passed {offset : Nat} {passed ws : List Word} {w : Word}
    (h : place offset (passed ++ w :: ws) = passed ++ w :: ws) :
    offset ≤ w.start ∧ w.start ≤ w.stop ∧ place w.stop ws = ws ∧
      w.stop + (flat ws).byteLength = offset + (flat (passed ++ w :: ws)).byteLength := by
  have hstart := start_of_placed h
  have htail := (placed_cons.mp (placed_append.mp h).2).2
  have hstop : w.stop = offset + (flat passed).byteLength + w.whole.byteLength := by
    simp only [Token.stop, hstart, whole, Text.byteLength_append]
    omega
  rw [← hstop] at htail
  refine ⟨by omega, Nat.le_add_right _ _, htail, ?_⟩
  simp only [hstop, whole, flat_append, flat_cons, Text.byteLength_append]
  omega

/-- The frame around the nodes of a row. -/
theorem Lined.around {low high : Nat} {nodes : List Node} (h : Lined low nodes high)
    (hne : nodes ≠ []) (id : Nat) (kind : Kind) (position : Nat) :
    Lined low [Node.around id kind position nodes] high ∧
      (Node.around id kind position nodes).IsFrame := by
  cases nodes with
  | nil => exact absurd rfl hne
  | cons n rest =>
      obtain ⟨last, hlast⟩ : ∃ last, (n :: rest).getLast? = some last :=
        ⟨_, List.getLast?_eq_getLast_of_ne_nil hne⟩
      have hstop := h.last last (by simp [hlast])
      have htight := h.tight
      rw [hlast] at htight
      have hle : n.start ≤ last.stop := htight.le
      simp only [Node.around, hlast, Option.map_some, Option.getD_some, List.head?_cons]
      exact ⟨⟨h.1, hle, hstop⟩, hle, fun _ => htight, fun hnil => absurd hnil hne⟩

/-- The leaf of a token is a frame. -/
theorem LeafFits.isFrame {kind : Kind} {t : Token} (h : LeafFits kind t) (made : Nat) :
    (Node.mk made kind t.start t.stop []).IsFrame :=
  ⟨Nat.le_add_right _ _, fun hne => absurd rfl hne, fun _ hhollow => by
    rw [h.isHollow] at hhollow
    cases hhollow⟩

/-- The nodes of a row lie one behind the other in the text of its words, and
each is a frame. -/
theorem Derives.frames {symbols : List Symbol} {f : Forest} {next : Ahead}
    (h : Derives symbols f next) (hfit : f.Fit) {behind : Bool}
    (hblocks : Symbol.blocksBehindTokens behind symbols) {offset : Nat}
    (hplaced : Word.place offset f.words = f.words) (made lastEnd : Nat)
    (hbehind : behind → lastEnd = offset) :
    Lined offset (f.nodes made lastEnd) (offset + (Word.flat f.words).byteLength) ∧
      ∀ m ∈ preorderOfAll (f.nodes made lastEnd), m.IsFrame := by
  induction h generalizing behind offset made lastEnd with
  | nil => exact ⟨Nat.le_add_right _ _, by simp [Forest.nodes, preorderOfAll]⟩
  | @leaf kind _ passed w later _ _ _ _ _ _ ih =>
      obtain ⟨hstart, hle, htail, hend⟩ := Word.placed_passed hplaced
      have hbehind' : (kind != .stmt .comment) = true →
          (if w.isComment then lastEnd else w.stop) = w.stop := by
        intro hkind
        rw [hfit.2.1.not_comment (by simpa using hkind)]
        rfl
      obtain ⟨hlined, hframes⟩ := ih hfit.2.2 hblocks htail (made + 1) _ hbehind'
      simp only [Forest.nodes, Forest.words]
      rw [← hend]
      exact ⟨⟨hstart, hle, hlined⟩, List.forall_mem_cons.mpr ⟨hfit.2.1.isFrame made, hframes⟩⟩
  | @skip _ passed w later _ _ _ _ _ ih =>
      obtain ⟨hstart, hle, htail, hend⟩ := Word.placed_passed hplaced
      obtain ⟨hlined, hframes⟩ := ih hfit.2.2 hblocks htail made w.stop fun _ => rfl
      simp only [Forest.nodes, Forest.words]
      rw [← hend]
      exact ⟨hlined.lower (Nat.le_trans hstart hle), hframes⟩
  | look _ _ ih => exact ih hfit hblocks hplaced made lastEnd hbehind
  | flat rule _ _ ihInside ih =>
      simp only [Symbol.blocksBehindTokens, Bool.and_eq_true] at hblocks
      obtain ⟨⟨hn, -⟩, hrest⟩ := hblocks
      obtain ⟨hfit, hfitLater⟩ := Forest.fit_append.mp hfit
      rw [Forest.words_append] at hplaced
      obtain ⟨hplaced, hplacedLater⟩ := Word.placed_append.mp hplaced
      obtain ⟨hlined, hframes⟩ :=
        ihInside hfit (rule.blocksBehindTokens hn) hplaced made lastEnd (by simp)
      obtain ⟨hlinedLater, hframesLater⟩ := ih hfitLater hrest hplacedLater _ _ (by simp)
      rw [Forest.nodes_append, Forest.words_append, Word.flat_append, Text.byteLength_append,
        ← Nat.add_assoc offset, preorderOfAll_append]
      exact ⟨hlined.append hlinedLater, List.forall_mem_append.mpr ⟨hframes, hframesLater⟩⟩
  | @node n kind _ _ inner later _ rule inside _ ihInside ih =>
      simp only [Symbol.blocksBehindTokens, Bool.and_eq_true, Bool.or_eq_true, bne_iff_ne] at hblocks
      obtain ⟨⟨hn, hblock⟩, hrest⟩ := hblocks
      rw [Forest.words] at hplaced
      obtain ⟨hplaced, hplacedLater⟩ := Word.placed_append.mp hplaced
      obtain ⟨hlined, hframes⟩ :=
        ihInside hfit.1 (rule.blocksBehindTokens hn) hplaced made lastEnd (by simp)
      obtain ⟨hlinedLater, hframesLater⟩ :=
        ih hfit.2 hrest hplacedLater (made + (inner.count + 1)) (inner.endFrom lastEnd) (by simp)
      obtain ⟨hnode, hframe⟩ : Lined offset [Node.around (made + inner.count) kind
            (Forest.emptyPlace kind lastEnd) (inner.nodes made lastEnd)]
              (offset + (Word.flat inner.words).byteLength) ∧
          (Node.around (made + inner.count) kind (Forest.emptyPlace kind lastEnd)
            (inner.nodes made lastEnd)).IsFrame := by
        by_cases hnodes : inner.nodes made lastEnd = []
        · -- an empty block stands right behind the token before it
          obtain ⟨rfl, rfl⟩ := rule.block_of_nodes hn inside hnodes
          have hplace : lastEnd = offset := hbehind (by simpa using hblock)
          rw [hnodes, hplace]
          exact ⟨⟨Nat.le_refl _, Nat.le_refl _, Nat.le_add_right _ _⟩, Nat.le_refl _,
            fun hne => absurd rfl hne, fun _ _ => ⟨rfl, rfl⟩⟩
        · exact hlined.around hnodes _ kind _
      rw [Forest.nodes, Forest.words, Word.flat_append, Text.byteLength_append,
        ← Nat.add_assoc offset]
      refine ⟨hnode.append hlinedLater, ?_⟩
      simp only [preorderOfAll, Node.preorder_eq, List.mem_append, List.mem_cons]
      rintro m ((rfl | hm) | hm)
      · exact hframe
      · exact hframes m hm
      · exact hframesLater m hm

variable {source : Text} {t : SyntaxTree} {inner : Forest} {gap : Text}

theorem Parsed.children_eq (h : Parsed source t inner gap) :
    t.root.children = inner.nodes 0 0 := by
  rw [h.root_eq]
  rfl

/-- The nodes below the root are frames, and those right below it lie one
behind the other in the source. -/
theorem Parsed.frames (h : Parsed source t inner gap) :
    Lined 0 t.root.children source.byteLength ∧
      ∀ m ∈ preorderOfAll t.root.children, m.IsFrame := by
  have hblocks : Symbol.blocksBehindTokens false [.sub .items] := rfl
  obtain ⟨hlined, hframes⟩ :=
    h.derives.frames (h.derives.fit (by simp)) hblocks h.placed 0 0 (by simp)
  have hlength : 0 + (Word.flat inner.words).byteLength ≤ source.byteLength := by
    rw [← h.flat, Text.byteLength_append]
    omega
  rw [h.children_eq]
  exact ⟨hlined.raise hlength, hframes⟩

end LuauTidy
