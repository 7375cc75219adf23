import LuauTidy.Proofs.Syntax

/-!
# What becomes of the words of a row

No token that a parser reads gets lost, and none is used twice.  Each becomes
a leaf, or is a comment that no node has a place for, or a semicolon that is
skipped.  The fates of the words are read off the forest, in the order in
which they are spelled, and so are the numbers of the nodes.

* `Node.preorder`, `Node.postorder`, `Node.leaves` — the ways through a tree;
* `Forest.postorder_nodes` — the numbers of the nodes of a row;
* `Fate`, `Forest.fates` — what becomes of the words of a row;
* `Nonterminal.hasLeaf` — phrases that have a leaf;
* `Forest.tokens_nodes` — the leaves of a row and the fates of its words.
-/

namespace LuauTidy

/-! ### Leaves -/

mutual

/-- The nodes of a subtree, each before its children. -/
def Node.preorder : Node → List Node
  | n@⟨_, _, _, _, children⟩ => n :: preorderOfAll children

/-- The nodes of the subtrees of siblings, each before its children. -/
def preorderOfAll : List Node → List Node
  | [] => []
  | n :: rest => n.preorder ++ preorderOfAll rest

end

mutual

/-- The nodes of a subtree, each behind its children. -/
def Node.postorder : Node → List Node
  | n@⟨_, _, _, _, children⟩ => postorderOfAll children ++ [n]

/-- The nodes of the subtrees of siblings, each behind its children. -/
def postorderOfAll : List Node → List Node
  | [] => []
  | n :: rest => n.postorder ++ postorderOfAll rest

end

namespace Node

theorem preorder_eq (n : Node) : n.preorder = n :: preorderOfAll n.children := by
  cases n
  rfl

theorem postorder_eq (n : Node) : n.postorder = postorderOfAll n.children ++ [n] := by
  cases n
  rfl

/-- A node that stands for no token even if it has no children. -/
def isHollow (n : Node) : Bool := n.kind == .aux .block || n.kind == .aux .chunk

/-- The leaves of a subtree, from left to right. -/
def leaves (n : Node) : List Node := n.preorder.filter isLeaf

/-- The leaves of a subtree that stand for tokens. -/
def tokens (n : Node) : List Node := n.leaves.filter fun l => !l.isHollow

end Node

/-- The leaves of the subtrees of siblings. -/
def leavesOfAll (nodes : List Node) : List Node := (preorderOfAll nodes).filter Node.isLeaf

@[simp] theorem leavesOfAll_nil : leavesOfAll [] = [] := rfl

@[simp] theorem leavesOfAll_cons (n : Node) (rest : List Node) :
    leavesOfAll (n :: rest) = n.leaves ++ leavesOfAll rest := by
  simp [leavesOfAll, preorderOfAll, Node.leaves]

theorem preorderOfAll_append (a b : List Node) :
    preorderOfAll (a ++ b) = preorderOfAll a ++ preorderOfAll b := by
  induction a with
  | nil => rfl
  | cons n a ih => simp [preorderOfAll, ih]

theorem mem_preorderOfAll_of_mem {n : Node} {nodes : List Node} (h : n ∈ nodes) :
    n ∈ preorderOfAll nodes := by
  obtain ⟨front, back, rfl⟩ := List.append_of_mem h
  simp [preorderOfAll_append, preorderOfAll, Node.preorder_eq]

mutual

/-- What is below a node that is below another one is below that one. -/
theorem Node.mem_preorder_trans (n : Node) {m k : Node} (hm : m ∈ n.preorder)
    (hk : k ∈ m.preorder) : k ∈ n.preorder := by
  cases n with
  | mk id kind start stop children =>
      rw [Node.preorder_eq, List.mem_cons] at hm
      obtain rfl | hm := hm
      · exact hk
      · rw [Node.preorder_eq]
        exact List.mem_cons_of_mem _ (mem_preorderOfAll_trans children hm hk)

theorem mem_preorderOfAll_trans (nodes : List Node) {m k : Node} (hm : m ∈ preorderOfAll nodes)
    (hk : k ∈ m.preorder) : k ∈ preorderOfAll nodes := by
  cases nodes with
  | nil => cases hm
  | cons n rest =>
      rw [preorderOfAll, List.mem_append] at hm ⊢
      exact hm.imp (fun hm => n.mem_preorder_trans hm hk)
        fun hm => mem_preorderOfAll_trans rest hm hk

end

/-- The nodes below one of some siblings are below the siblings. -/
theorem mem_preorderOfAll_of_below {n m : Node} {nodes : List Node} (hn : n ∈ nodes)
    (hm : m ∈ n.preorder) : m ∈ preorderOfAll nodes :=
  mem_preorderOfAll_trans nodes (mem_preorderOfAll_of_mem hn) hm

/-- The nodes below a child are below the node. -/
theorem Node.mem_preorder_of_child {n child m : Node} (hchild : child ∈ n.children)
    (hm : m ∈ child.preorder) : m ∈ n.preorder := by
  rw [Node.preorder_eq]
  exact List.mem_cons_of_mem _ (mem_preorderOfAll_of_below hchild hm)

@[simp] theorem leavesOfAll_append (a b : List Node) :
    leavesOfAll (a ++ b) = leavesOfAll a ++ leavesOfAll b := by
  simp [leavesOfAll, preorderOfAll_append]

/-- A node without children is its own leaf. -/
theorem Node.leaves_of_nil {n : Node} (h : n.children = []) : n.leaves = [n] := by
  simp [Node.leaves, Node.preorder_eq, Node.isLeaf, preorderOfAll, h]

/-- The leaves of a node with children are theirs. -/
theorem Node.leaves_of_ne_nil {n : Node} (h : n.children ≠ []) :
    n.leaves = leavesOfAll n.children := by
  simp [Node.leaves, Node.preorder_eq, Node.isLeaf, leavesOfAll, h]

mutual

/-- The nodes of a tree are visited in preorder. -/
theorem Node.map_visits (n : Node) (parent previous : Option Node) :
    (n.visits parent previous).map Visit.node = n.preorder := by
  cases n with
  | mk id kind start stop children =>
      simp [Node.visits, Node.preorder, map_visitsOfAll children]

/-- The nodes of siblings are visited in preorder. -/
theorem map_visitsOfAll (nodes : List Node) (parent : Node) (previous : Option Node) :
    (visitsOfAll parent previous nodes).map Visit.node = preorderOfAll nodes := by
  cases nodes with
  | nil => rfl
  | cons n rest =>
      simp [visitsOfAll, preorderOfAll, Node.map_visits n, map_visitsOfAll rest]

end

/-! ### Numbers -/

namespace Forest

/-- The nodes of a row are numbered in the order in which they end. -/
theorem postorder_nodes (f : Forest) (made lastEnd : Nat) :
    (postorderOfAll (f.nodes made lastEnd)).map Node.id = List.range' made f.count := by
  induction f generalizing made lastEnd with
  | nil => rfl
  | leaf kind passed w later ih =>
      have hrange : List.range' made (1 + later.count) =
          made :: List.range' (made + 1) later.count := by
        rw [Nat.add_comm, List.range'_succ]
      rw [nodes, count, hrange]
      simp [postorderOfAll, Node.postorder, ih]
  | skipped passed w later ih => exact ih made w.stop
  | node kind inner later ihInner ih =>
      have hrange : List.range' made (inner.count + (1 + later.count)) =
          List.range' made inner.count ++ ((made + inner.count) ::
            List.range' (made + (inner.count + 1)) later.count) := by
        rw [← List.range'_append_1, Nat.add_comm 1, List.range'_succ, Nat.add_assoc]
      rw [nodes, count, hrange]
      simp [postorderOfAll, Node.postorder, Node.around, ihInner, ih]

/-- Every number of a row is met once on the way through it. -/
theorem preorder_nodes (f : Forest) (made lastEnd : Nat) :
    ((preorderOfAll (f.nodes made lastEnd)).map Node.id).Perm
      ((postorderOfAll (f.nodes made lastEnd)).map Node.id) := by
  induction f generalizing made lastEnd with
  | nil => exact .refl _
  | leaf kind passed w later ih =>
      simpa [nodes, preorderOfAll, Node.preorder, postorderOfAll, Node.postorder] using ih _ _
  | skipped passed w later ih => exact ih made w.stop
  | node kind inner later ihInner ih =>
      simp only [nodes, Node.around, preorderOfAll, Node.preorder, postorderOfAll, Node.postorder,
        List.map_append, List.map_cons, List.cons_append, List.append_assoc, List.nil_append]
      exact (((ihInner made lastEnd).append (ih _ _)).cons _).trans List.perm_middle.symm

end Forest

/-! ### Fates -/

/-- What becomes of a token. -/
inductive Fate
  /-- It is a leaf. -/
  | leaf (node : Node)
  /-- It is a comment that no node has a place for. -/
  | stray
  /-- It is a semicolon that is skipped. -/
  | separator

namespace Fate

/-- The leaf of a token. -/
def node? : Fate → Option Node
  | leaf node => some node
  | _ => none

/-- A comment that no node has a place for. -/
def isStray : Fate → Bool
  | leaf _ | separator => false
  | stray => true

/-- A token can have a fate: a leaf has the range of its token and a kind that
fits it. -/
def Fits (t : Token) : Fate → Prop
  | leaf n => (n.start, n.stop) = t.range ∧ LeafFits n.kind t
  | stray => t.isComment
  | separator => t.cls = .token .semi

end Fate

/-- The leaves among fates. -/
def leavesOfFates (fates : List (Token × Fate)) : List Node := fates.filterMap fun p => p.2.node?

@[simp] theorem leavesOfFates_append (a b : List (Token × Fate)) :
    leavesOfFates (a ++ b) = leavesOfFates a ++ leavesOfFates b := by
  simp [leavesOfFates]

/-- The fates of words that are passed over. -/
def Word.passedOver (ws : List Word) : List (Token × Fate) := ws.map fun w => (w.toToken, .stray)

namespace Forest

/-- The fates of the words of a row, whose first node gets the number `made`. -/
def fates (made : Nat) : Forest → List (Token × Fate)
  | nil => []
  | leaf kind passed w later =>
    Word.passedOver passed ++
      (w.toToken, .leaf ⟨made, kind, w.start, w.stop, []⟩) :: later.fates (made + 1)
  | skipped passed w later =>
    Word.passedOver passed ++ (w.toToken, .separator) :: later.fates made
  | node _ inner later => inner.fates made ++ later.fates (made + (inner.count + 1))

theorem fates_append (f g : Forest) (made : Nat) :
    (f ++ g).fates made = f.fates made ++ g.fates (made + f.count) := by
  induction f generalizing made <;> simp_all [fates, count, Nat.add_assoc]

/-- Every word has a fate. -/
theorem tokens_fates (f : Forest) (made : Nat) :
    (f.fates made).map Prod.fst = f.words.map Word.toToken := by
  induction f generalizing made <;> simp_all [fates, words, Word.passedOver, Function.comp_def]

/-- The fates of a row whose leaves fit their tokens. -/
theorem fits_fates {f : Forest} (hfit : f.Fit) (made : Nat) :
    ∀ p ∈ f.fates made, p.2.Fits p.1 := by
  have hpassed : ∀ {ws : List Word}, (∀ w ∈ ws, w.isComment) →
      ∀ p ∈ Word.passedOver ws, p.2.Fits p.1 := by
    intro ws hws p hp
    obtain ⟨w, hw, rfl⟩ := List.mem_map.mp hp
    exact hws w hw
  induction f generalizing made with
  | nil => simp [fates]
  | leaf kind passed w later ih =>
      intro p hp
      rw [fates, List.mem_append, List.mem_cons] at hp
      obtain hp | rfl | hp := hp
      · exact hpassed hfit.1 p hp
      · exact ⟨rfl, hfit.2.1⟩
      · exact ih hfit.2.2 _ p hp
  | skipped passed w later ih =>
      intro p hp
      rw [fates, List.mem_append, List.mem_cons] at hp
      obtain hp | rfl | hp := hp
      · exact hpassed hfit.1 p hp
      · exact hfit.2.1
      · exact ih hfit.2.2 _ p hp
  | node kind inner later ihInner ih =>
      intro p hp
      rw [fates, List.mem_append] at hp
      exact hp.elim (ihInner hfit.1 _ p) (ih hfit.2 _ p)

/-- The words passed over are those without a place. -/
theorem strays_fates (f : Forest) (made : Nat) :
    ((f.fates made).filter fun p => p.2.isStray).map (fun p => p.1.range) =
      f.strays.map fun w => w.toToken.range := by
  have hpassed : ∀ ws : List Word,
      ((Word.passedOver ws).filter fun p => p.2.isStray).map (fun p => p.1.range) =
        ws.map fun w => w.toToken.range := by
    intro ws
    rw [List.filter_eq_self.mpr (by simp [Word.passedOver, Fate.isStray])]
    simp [Word.passedOver, Function.comp_def]
  induction f generalizing made <;> simp_all [fates, strays, Fate.isStray]

end Forest

/-! ### Phrases with a leaf -/

/-- Phrases that have a leaf. -/
def Nonterminal.hasLeaf : Nonterminal → Bool
  | .more _ _ | .elseifs | .fields | .paramList | .elseifBlocks | .elseBlock => false
  | .comments | .semicolons | .items | .block | .chunk => false
  | _ => true

/-- A leaf is asked for, or a phrase that has one. -/
def Symbol.hasLeaf : Symbol → Bool
  | .leaf _ _ => true
  | .sub n => n.hasLeaf
  | _ => false

theorem Production.hasLeaf {n : Nonterminal} {kind : Option Kind} {parts : List Symbol}
    (h : Production n kind parts) (hn : n.hasLeaf) : parts.any Symbol.hasLeaf := by
  cases h <;> first | rfl | simp [Nonterminal.hasLeaf] at hn

/-- Only blocks and the whole source may be built without a leaf. -/
theorem Production.hasLeaf_of_kind {n : Nonterminal} {kind : Kind} {parts : List Symbol}
    (h : Production n (some kind) parts) :
    n.hasLeaf ∨ kind = .aux .block ∨ kind = .aux .chunk := by
  cases h <;> first | exact .inl rfl | simp

theorem Derives.leaves_ne_nil {symbols : List Symbol} {f : Forest} {next : Ahead}
    (h : Derives symbols f next) (hleaf : symbols.any Symbol.hasLeaf) (made : Nat) :
    leavesOfFates (f.fates made) ≠ [] := by
  induction h generalizing made with
  | nil => simp at hleaf
  | leaf => simp [Forest.fates, leavesOfFates, Fate.node?]
  | skip _ _ _ ih =>
      have hlater := ih (by simpa [Symbol.hasLeaf] using hleaf) made
      simpa [Forest.fates, leavesOfFates, Fate.node?, Word.passedOver] using hlater
  | look _ _ ih => exact ih (by simpa [Symbol.hasLeaf] using hleaf) made
  | flat rule _ _ ihInside ih =>
      rw [Forest.fates_append, leavesOfFates_append]
      simp only [List.any_cons, Bool.or_eq_true] at hleaf
      obtain hn | hleaf := hleaf
      · exact List.append_ne_nil_of_left_ne_nil (ihInside (rule.hasLeaf hn) made) _
      · exact List.append_ne_nil_of_right_ne_nil _ (ih hleaf _)
  | node rule _ _ ihInside ih =>
      rw [Forest.fates, leavesOfFates_append]
      simp only [List.any_cons, Bool.or_eq_true] at hleaf
      obtain hn | hleaf := hleaf
      · exact List.append_ne_nil_of_left_ne_nil (ihInside (rule.hasLeaf hn) made) _
      · exact List.append_ne_nil_of_right_ne_nil _ (ih hleaf _)

/-- A row without nodes has no leaf. -/
theorem Forest.leaves_of_nodes {f : Forest} {made lastEnd : Nat} (h : f.nodes made lastEnd = []) :
    leavesOfFates (f.fates made) = [] := by
  induction f generalizing made lastEnd with
  | nil => rfl
  | leaf => simp [nodes] at h
  | skipped passed w later ih =>
      have hlater := ih h
      simpa [fates, leavesOfFates, Fate.node?, Word.passedOver] using hlater
  | node => simp [nodes] at h

/-- Only blocks and the whole source may stay without children. -/
theorem Forest.Ruled.hollow {kind : Kind} {inner later : Forest} {next : Ahead}
    (h : (Forest.node kind inner later).Ruled next) {made lastEnd : Nat}
    (hnodes : inner.nodes made lastEnd = []) : kind = .aux .block ∨ kind = .aux .chunk := by
  obtain ⟨⟨n, parts, rule, inside⟩, -⟩ := h
  obtain hn | hkind := rule.hasLeaf_of_kind
  · exact absurd (Forest.leaves_of_nodes hnodes) (inside.leaves_ne_nil (rule.hasLeaf hn) made)
  · exact hkind

/-- The leaf of a token is none of the nodes that may stay without children. -/
theorem LeafFits.isHollow {kind : Kind} {t : Token} (h : LeafFits kind t)
    {id start stop : Nat} {children : List Node} :
    Node.isHollow ⟨id, kind, start, stop, children⟩ = false := by
  rcases h with hkind | ⟨-, rfl⟩ | ⟨-, -, rfl⟩
  · cases hcls : t.cls <;> rw [hcls] at hkind <;> cases hkind <;> rfl
  · rfl
  · rfl

/-- The leaves of a row that stand for tokens, in the order of the tokens. -/
theorem Forest.tokens_nodes {f : Forest} {next : Ahead} (hfit : f.Fit) (hruled : f.Ruled next)
    (made lastEnd : Nat) :
    (leavesOfAll (f.nodes made lastEnd)).filter (fun l => !l.isHollow) =
      leavesOfFates (f.fates made) := by
  induction f generalizing next made lastEnd with
  | nil => rfl
  | leaf kind passed w later ih =>
      have hhollow : Node.isHollow ⟨made, kind, w.start, w.stop, []⟩ = false := hfit.2.1.isHollow
      have hlater := ih hfit.2.2 hruled (made + 1) (if w.isComment then lastEnd else w.stop)
      rw [nodes, fates, leavesOfAll_cons, Node.leaves_of_nil rfl]
      simp [hhollow, hlater, leavesOfFates, Fate.node?, Word.passedOver]
  | skipped passed w later ih =>
      have hlater := ih hfit.2.2 hruled made w.stop
      rw [nodes, hlater]
      simp [fates, leavesOfFates, Fate.node?, Word.passedOver]
  | node kind inner later ihInner ih =>
      have hlater := ih hfit.2 hruled.2 (made + (inner.count + 1)) (inner.endFrom lastEnd)
      obtain ⟨⟨n, parts, rule, inside⟩, -⟩ := id hruled
      have hinner := ihInner hfit.1 inside.ruled made lastEnd
      rw [nodes, fates, leavesOfAll_cons, List.filter_append, hlater, leavesOfFates_append]
      congr 1
      cases hnodes : inner.nodes made lastEnd with
      | nil =>
          have hhollow : (Node.around (made + inner.count) kind (emptyPlace kind lastEnd)
              []).isHollow := by
            simpa [Node.isHollow, Node.around] using hruled.hollow hnodes
          rw [Node.leaves_of_nil rfl, Forest.leaves_of_nodes hnodes]
          simp [hhollow]
      | cons n rest =>
          rw [Node.leaves_of_ne_nil (by simp [Node.around]), ← hinner, hnodes]
          rfl

end LuauTidy
