import LuauTidy.Proofs.Frames
import LuauTidy.Proofs.Passes

/-!
# Accounts

The tree of a source that parses accounts for every token of the source.  A
token is a leaf, or a comment that the tree lists as stray, or a semicolon
that is skipped; which of them are leaves, and in which order, the tree shows.
The one thing that the tree does not show is which semicolons are skipped: it
is those behind a statement, with nothing between but further semicolons and
stray comments.

* `Separates` — a semicolon behind one of some statements;
* `SyntaxTree.Accounts` — the fates of all tokens of a source;
* `SyntaxTree.Numbered` — the numbers of all nodes;
* `parse_accounts` — the tree of a source that parses.
-/

namespace LuauTidy

/-! ### Semicolons -/

/-- The last leaf before is the last one of a node. -/
def Node.EndsAt (n : Node) (before : List (Token × Fate)) : Prop :=
  ∃ l, n.tokens.getLast? = some l ∧ (leavesOfFates before).getLast? = some l

/-- One of some siblings is a statement which ends at the last leaf before. -/
def Separates (siblings : List Node) (before : List (Token × Fate)) : Prop :=
  ∃ s ∈ siblings, (∃ k, s.kind = .stmt k ∧ k ≠ .comment) ∧ s.EndsAt before

/-- The same in a block among some nodes. -/
def SeparatesWithin (nodes : List Node) (before : List (Token × Fate)) : Prop :=
  ∃ m ∈ nodes, m.isHollow ∧ Separates m.children before

theorem Separates.behind {siblings nodes : List Node} {before : List (Token × Fate)}
    (h : Separates siblings before) (hsub : siblings ⊆ nodes) (earlier : List (Token × Fate)) :
    Separates nodes (earlier ++ before) := by
  obtain ⟨s, hs, hkind, l, htokens, hlast⟩ := h
  exact ⟨s, hsub hs, hkind, l, htokens, by simp [hlast]⟩

theorem SeparatesWithin.behind {inside nodes : List Node} {before : List (Token × Fate)}
    (h : SeparatesWithin inside before) (hsub : inside ⊆ nodes) (earlier : List (Token × Fate)) :
    SeparatesWithin nodes (earlier ++ before) := by
  obtain ⟨m, hm, hhollow, hseparates⟩ := h
  exact ⟨m, hsub hm, hhollow, hseparates.behind (List.Subset.refl _) earlier⟩

/-- The semicolons that are skipped in a row stand behind statements of blocks
in the row; or of the row itself, if it is one of statements. -/
def Forest.Separated (statements : Bool) (f : Forest) : Prop :=
  ∀ made lastEnd before token after, f.fates made = before ++ (token, .separator) :: after →
    SeparatesWithin (preorderOfAll (f.nodes made lastEnd)) before ∨
      statements ∧ Separates (f.nodes made lastEnd) before

/-- An item of a concatenation is one of the first list or of the second. -/
theorem cons_of_append {α : Type} {a b before after : List α} {x : α}
    (h : a ++ b = before ++ x :: after) :
    (∃ rest, a = before ++ x :: rest) ∨ ∃ front, before = a ++ front ∧ b = front ++ x :: after := by
  obtain ⟨front, rfl, hb⟩ | ⟨rest, rfl, hrest⟩ := List.append_eq_append_iff.mp h
  · exact .inr ⟨front, rfl, hb⟩
  · cases rest with
    | nil => exact .inr ⟨[], by simp, by simpa using hrest.symm⟩
    | cons y rest =>
        obtain ⟨rfl, -⟩ := List.cons.inj hrest
        exact .inl ⟨rest, rfl⟩

namespace Forest.Separated

variable {f g inner : Forest} {statements : Bool} {kind : Kind}

theorem weaken (h : f.Separated false) : f.Separated statements := by
  intro made lastEnd before token after heq
  obtain hwithin | ⟨hfalse, -⟩ := h made lastEnd before token after heq
  · exact .inl hwithin
  · cases hfalse

theorem nil : Forest.nil.Separated statements := by
  intro made lastEnd before token after heq
  simp [fates] at heq

theorem append (hf : f.Separated statements) (hg : g.Separated statements) :
    (f ++ g).Separated statements := by
  intro made lastEnd before token after heq
  rw [fates_append] at heq
  rw [nodes_append, preorderOfAll_append]
  obtain ⟨rest, hleft⟩ | ⟨front, rfl, hright⟩ := cons_of_append heq
  · obtain hwithin | ⟨hs, hhere⟩ := hf made lastEnd _ _ _ hleft
    · exact .inl (hwithin.behind (List.subset_append_left _ _) [])
    · exact .inr ⟨hs, hhere.behind (List.subset_append_left _ _) []⟩
  · obtain hwithin | ⟨hs, hhere⟩ := hg _ (f.endFrom lastEnd) _ _ _ hright
    · exact .inl (hwithin.behind (List.subset_append_right _ _) _)
    · exact .inr ⟨hs, hhere.behind (List.subset_append_right _ _) _⟩

/-- A leaf is no semicolon that is skipped. -/
theorem leaf (kind : Kind) (passed : List Word) (w : Word) :
    (Forest.leaf kind passed w .nil).Separated statements := by
  intro made lastEnd before token after heq
  have hmem : (token, Fate.separator) ∈ (Forest.leaf kind passed w .nil).fates made := by
    simp [heq]
  simp [fates, Word.passedOver] at hmem

/-- The semicolons within a node. -/
theorem node (h : inner.Separated (kind == .aux .block || kind == .aux .chunk)) :
    (Forest.node kind inner .nil).Separated statements := by
  intro made lastEnd before token after heq
  rw [fates, fates, List.append_nil] at heq
  rw [nodes, nodes, preorderOfAll, preorderOfAll, List.append_nil, Node.preorder_eq]
  obtain hwithin | ⟨hhollow, hhere⟩ := h made lastEnd _ _ _ heq
  · exact .inl (hwithin.behind (List.subset_cons_self _ _) [])
  · exact .inl ⟨_, List.mem_cons_self, hhollow, hhere⟩

/-- The semicolons behind a statement. -/
theorem statement {k : StmtKind} (hk : k ≠ .comment)
    (h : (Forest.node (.stmt k) inner .nil).Separated false)
    (hfit : inner.Fit) {next : Ahead} (hruled : (Forest.node (.stmt k) inner .nil).Ruled next)
    (hleaves : ∀ made, leavesOfFates (inner.fates made) ≠ [])
    (hg : ∀ made lastEnd, g.nodes made lastEnd = []) :
    (Forest.node (.stmt k) inner .nil ++ g).Separated true := by
  intro made lastEnd before token after heq
  rw [fates_append] at heq
  rw [nodes_append, preorderOfAll_append]
  obtain ⟨rest, hleft⟩ | ⟨front, rfl, hright⟩ := cons_of_append heq
  · obtain hwithin | ⟨hfalse, -⟩ := h made lastEnd _ _ _ hleft
    · exact .inl (hwithin.behind (List.subset_append_left _ _) [])
    · cases hfalse
  · have hfront : leavesOfFates front = [] := by
      have hnone := Forest.leaves_of_nodes (hg (made + (Forest.node (.stmt k) inner .nil).count) 0)
      rw [hright, leavesOfFates_append] at hnone
      exact (List.append_eq_nil_iff.mp hnone).1
    have htokens := Forest.tokens_nodes (f := .node (.stmt k) inner .nil) ⟨hfit, trivial⟩ hruled
      made lastEnd
    obtain ⟨l, hl⟩ : ∃ l, (leavesOfFates (inner.fates made)).getLast? = some l :=
      ⟨_, List.getLast?_eq_getLast_of_ne_nil (hleaves made)⟩
    rw [nodes, nodes, leavesOfAll_cons, leavesOfAll_nil, List.append_nil, fates, fates,
      List.append_nil] at htokens
    refine .inr ⟨rfl, Node.around (made + inner.count) (.stmt k)
      (Forest.emptyPlace (.stmt k) lastEnd) (inner.nodes made lastEnd), ?_, ⟨k, rfl, hk⟩, l, ?_, ?_⟩
    · exact List.mem_append_left _ List.mem_cons_self
    · rw [Node.tokens, htokens, hl]
    · rw [leavesOfFates_append, hfront, List.append_nil, fates, fates, List.append_nil, hl]

end Forest.Separated

/-- Neither semicolons nor a row of statements. -/
def Nonterminal.isPlain : Nonterminal → Bool
  | .semicolons | .items => false
  | .more _ item => item.isPlain
  | _ => true

/-- Neither semicolons nor a row of statements are asked for. -/
def Symbol.isPlain : Symbol → Bool
  | .skip _ => false
  | .sub n => n.isPlain
  | _ => true

/-- What is known of the semicolons in a phrase. -/
structure Nonterminal.Separated (n : Nonterminal) (f : Forest) : Prop where
  semicolons : n = .semicolons → ∀ made lastEnd, f.nodes made lastEnd = []
  items : n = .items → f.Separated true
  plain : n.isPlain → f.Separated false

theorem Holds.separated {symbols : List Symbol} {f : Forest} {next : Ahead}
    (h : Holds (fun n f _ => n.Separated f) symbols f next) (hplain : symbols.all Symbol.isPlain) :
    f.Separated false := by
  induction symbols generalizing f with
  | nil =>
      obtain rfl : f = .nil := h
      exact .nil
  | cons s symbols ih =>
      simp only [List.all_cons, Bool.and_eq_true] at hplain
      obtain ⟨hs, hplain⟩ := hplain
      cases s with
      | leaf kind fits =>
          obtain ⟨passed, w, later, rfl, -, -, -, hlater⟩ := h
          exact (Forest.Separated.leaf kind passed w).append (ih hlater hplain)
      | skip => cases hs
      | look => exact ih h.2 hplain
      | sub n =>
          obtain ⟨g, later, rfl, -, hg, hlater⟩ := h
          exact (hg.plain hs).append (ih hlater hplain)

/-- A statement is a single node. -/
theorem Derives.statement {n : Nonterminal} {f : Forest} {next : Ahead}
    (h : Derives [.sub n] f next) (hn : n = .statement ∨ n = .returnStatement) :
    ∃ k inner, k ≠ .comment ∧ f = .node (.stmt k) inner .nil ∧
      ∀ made, leavesOfFates (inner.fates made) ≠ [] := by
  obtain ⟨parts, rule, -⟩ | ⟨kind, parts, inner, rfl, rule, inside⟩ := h.phrase_cases
  · obtain rfl | rfl := hn <;> cases rule
  · have hleaf : n.hasLeaf := by obtain rfl | rfl := hn <;> rfl
    obtain ⟨k, rfl, hk⟩ : ∃ k, kind = .stmt k ∧ k ≠ .comment := by
      obtain rfl | rfl := hn <;> cases rule <;> exact ⟨_, rfl, by decide⟩
    exact ⟨k, inner, hk, rfl, inside.leaves_ne_nil (rule.hasLeaf hleaf)⟩

/-- The semicolons of a statement and those behind it. -/
theorem Derives.separated_statement {n : Nonterminal} {f g : Forest} {next : Ahead}
    (h : Derives [.sub n] f next) (hn : n = .statement ∨ n = .returnStatement)
    (hf : n.Separated f) (hg : Nonterminal.Separated .semicolons g) :
    (f ++ g).Separated true := by
  obtain ⟨k, inner, hk, rfl, hleaves⟩ := h.statement hn
  have hplain : n.isPlain := by obtain rfl | rfl := hn <;> rfl
  exact (hf.plain hplain).statement hk (h.fit (by simp)).1 h.ruled hleaves (hg.semicolons rfl)

/-- The semicolons that are skipped stand behind statements. -/
theorem Derives.separated {n : Nonterminal} {f : Forest} {next : Ahead}
    (h : Derives [.sub n] f next) : n.Separated f := by
  refine h.phrase_induction (M := fun n f _ => n.Separated f) ?_ ?_
  · intro n parts f next rule inside holds
    cases rule with
    | noSemicolons =>
        obtain ⟨-, rfl⟩ := holds
        exact ⟨fun _ _ _ => rfl, by simp, fun hn => by cases hn⟩
    | semicolons =>
        obtain ⟨passed, w, _, rfl, -, -, g, _, rfl, -, hg, rfl⟩ := holds
        refine ⟨fun _ made lastEnd => ?_, by simp, fun hn => by cases hn⟩
        simpa [Forest.nodes] using hg.semicolons rfl made w.stop
    | lastItems =>
        exact ⟨by simp, fun _ => (holds.separated rfl).weaken, fun hn => by cases hn⟩
    | items =>
        obtain ⟨g₁, _, rfl, -, h₁, g₂, _, rfl, hs, h₂, g₃, _, rfl, -, h₃, g₄, _, rfl, -, h₄, rfl⟩ :=
          holds
        have hstatement := hs.separated_statement (.inl rfl) h₂ h₃
        rw [Forest.append_nil, ← Forest.append_assoc g₂]
        refine ⟨by simp, fun _ => ?_, fun hn => by cases hn⟩
        exact (h₁.plain rfl).weaken.append (hstatement.append (h₄.items rfl))
    | returnItems =>
        obtain ⟨g₁, _, rfl, -, h₁, g₂, _, rfl, hs, h₂, g₃, _, rfl, -, h₃, g₄, _, rfl, -, h₄, -, rfl⟩ :=
          holds
        have hstatement := hs.separated_statement (.inr rfl) h₂ h₃
        rw [Forest.append_nil, ← Forest.append_assoc g₂]
        refine ⟨by simp, fun _ => ?_, fun hn => by cases hn⟩
        exact (h₁.plain rfl).weaken.append (hstatement.append (h₄.plain rfl).weaken)
    | more separator item =>
        refine ⟨by simp, by simp, fun hn => holds.separated ?_⟩
        have hitem : item.isPlain := hn
        simp [Symbol.isPlain, Symbol.mark, Nonterminal.isPlain, hitem]
    | _ => exact ⟨by simp, by simp, fun _ => holds.separated rfl⟩
  · intro n kind parts f next rule inside holds
    have hnode : f.Separated (kind == .aux .block || kind == .aux .chunk) →
        (Forest.node kind f .nil).Separated false := .node
    cases rule with
    | block | chunk =>
        obtain ⟨g, _, rfl, -, hg, rfl⟩ := holds
        rw [Forest.append_nil] at hnode ⊢
        exact ⟨by simp, by simp, fun _ => hnode (hg.items rfl)⟩
    | _ => exact ⟨by simp, by simp, fun _ => hnode (holds.separated rfl)⟩

/-! ### The tree of a source -/

variable {source : Text} {t : SyntaxTree} {inner : Forest} {gap : Text}

/-- The nodes of a tree are numbered in the order in which they end, and the
way through the tree meets every number once. -/
structure SyntaxTree.Numbered (t : SyntaxTree) : Prop where
  postorder : t.root.postorder.map Node.id = List.range t.nodeCount
  preorder : (t.visits.map fun v => v.node.id).Perm (List.range t.nodeCount)
  root : t.root.id + 1 = t.nodeCount

theorem Parsed.numbered (h : Parsed source t inner gap) : t.Numbered := by
  have hroot : t.root.id = inner.count ∧ t.root.children = inner.nodes 0 0 := by
    rw [h.root_eq]
    exact ⟨rfl, rfl⟩
  have hpost : t.root.postorder.map Node.id = List.range t.nodeCount := by
    have hnodes := inner.postorder_nodes 0 0
    rw [← List.range_eq_range'] at hnodes
    rw [h.nodeCount_eq, List.range_succ, ← hnodes, ← hroot.1, ← hroot.2, Node.postorder_eq]
    simp
  refine ⟨hpost, ?_, by rw [hroot.1, h.nodeCount_eq]⟩
  have hvisits : (t.visits.map fun v => v.node.id) = t.root.preorder.map Node.id := by
    rw [← Node.map_visits t.root t.rootVisit.parent t.rootVisit.previous, List.map_map]
    rfl
  have hperm := inner.preorder_nodes 0 0
  rw [← hroot.2] at hperm
  rw [hvisits, ← hpost, Node.preorder_eq, Node.postorder_eq, List.map_append]
  exact (hperm.cons _).trans (List.perm_append_singleton _ _).symm

/-- Fates of all tokens of a source, as its tree shows them. -/
structure SyntaxTree.Accounts (t : SyntaxTree) (fates : List (Token × Fate)) : Prop where
  /-- Every token has a fate. -/
  tokens_eq : fates.map Prod.fst = tokenize t.source
  /-- Every token has text, and the fate is one that it can have. -/
  fits : ∀ p ∈ fates, p.1.start < p.1.stop ∧ p.2.Fits p.1
  /-- The leaves of the tokens are those of the tree, in the same order. -/
  leaves_eq : leavesOfFates fates = t.root.tokens
  /-- The comments without a place are those that the tree lists. -/
  strays_eq : (fates.filter fun p => p.2.isStray).map (fun p => p.1.range) = t.strayComments
  /-- The semicolons that are skipped stand behind statements of blocks. -/
  separated : ∀ before token after, fates = before ++ (token, .separator) :: after →
    SeparatesWithin t.root.preorder before

theorem Parsed.root_isHollow (h : Parsed source t inner gap) : t.root.isHollow := by
  rw [h.root_eq]
  rfl

/-- The leaves of the tree that stand for tokens. -/
theorem Parsed.tokens_eq (h : Parsed source t inner gap) :
    leavesOfFates (inner.fates 0) = t.root.tokens := by
  have hnodes := Forest.tokens_nodes (h.derives.fit (by simp)) h.derives.ruled 0 0
  rw [← h.children_eq] at hnodes
  rw [← hnodes, Node.tokens]
  by_cases hnil : t.root.children = []
  · rw [Node.leaves_of_nil hnil, hnil]
    simp [h.root_isHollow]
  · rw [Node.leaves_of_ne_nil hnil]

theorem Parsed.accounts (h : Parsed source t inner gap) : t.Accounts (inner.fates 0) := by
  have hfit := h.derives.fit (by simp)
  refine ⟨?_, ?_, h.tokens_eq, ?_, ?_⟩
  · rw [Forest.tokens_fates, h.source_eq, h.tokenize_eq]
  · intro p hp
    refine ⟨?_, Forest.fits_fates hfit 0 p hp⟩
    have hmem : p.1 ∈ inner.words.map Word.toToken := by
      rw [← Forest.tokens_fates inner 0]
      exact List.mem_map_of_mem hp
    obtain ⟨w, hw, htoken⟩ := List.mem_map.mp hmem
    obtain ⟨front, rest, hwords⟩ := List.append_of_mem hw
    have htext : w.text ≠ [] := by
      have hamong := h.among
      rw [hwords] at hamong
      exact hamong.text_ne_nil
    have hlength : 0 < w.text.byteLength := by
      rw [Nat.pos_iff_ne_zero, Ne, Text.byteLength_eq_zero]
      exact htext
    rw [← htoken, Token.stop]
    omega
  · rw [Forest.strays_fates, h.strays_eq]
  · intro before token after heq
    rw [Node.preorder_eq, h.children_eq]
    obtain hwithin | ⟨-, hhere⟩ := h.derives.separated.items rfl 0 0 before token after heq
    · exact hwithin.behind (List.subset_cons_self _ _) []
    · refine ⟨t.root, List.mem_cons_self, h.root_isHollow, ?_⟩
      rw [h.children_eq]
      exact hhere

/-- Statements without a node are no words. -/
theorem Derives.nil_of_nodes {f : Forest} {next : Ahead} (h : Derives [.sub .items] f next)
    {made lastEnd : Nat} (hnodes : f.nodes made lastEnd = []) : f = .nil := by
  obtain ⟨parts, rule, inside⟩ | ⟨kind, parts, inner, rfl, rule, -⟩ := h.phrase_cases
  · cases rule with
    | lastItems =>
        obtain ⟨g, _, rfl, hg, -, -, rfl⟩ := inside.parted
        rw [Forest.append_nil] at hnodes ⊢
        obtain ⟨parts, rule, inside⟩ | ⟨kind, parts, inner, rfl, rule, -⟩ := hg.phrase_cases
        · cases rule with
          | noComments => exact inside.nil_of_looks rfl
          | comments => exact absurd (Forest.leaves_of_nodes hnodes) (inside.leaves_ne_nil rfl made)
        · cases rule
    | items | returnItems =>
        exact absurd (Forest.leaves_of_nodes hnodes) (inside.leaves_ne_nil rfl made)
  · cases rule

/-- The leaves of a tree lie one behind the other. -/
theorem Parsed.pairwise (h : Parsed source t inner gap) :
    t.root.leaves.Pairwise fun first second => first.stop ≤ second.start := by
  obtain ⟨hlined, hframes⟩ := h.frames
  by_cases hnil : t.root.children = []
  · rw [Node.leaves_of_nil hnil]
    exact List.pairwise_singleton _ _
  · rw [Node.leaves_of_ne_nil hnil]
    exact (lined_leavesOfAll _ hlined hframes).pairwise

/-- The leaves that stand for no token. -/
theorem Parsed.hollow (h : Parsed source t inner gap) : ∀ l ∈ t.root.leaves, l.isHollow →
    l.kind = .aux .block ∧ l.start = l.stop ∨ l = t.root ∧ tokenize t.source = [] := by
  intro l hl hhollow
  obtain ⟨hmem, hleaf⟩ := List.mem_filter.mp hl
  have hchildren : l.children = [] := List.isEmpty_iff.mp hleaf
  rw [Node.preorder_eq, List.mem_cons] at hmem
  obtain rfl | hmem := hmem
  · rw [h.children_eq] at hchildren
    have htokens := h.accounts.tokens_eq
    rw [h.derives.nil_of_nodes hchildren] at htokens
    exact .inr ⟨rfl, htokens.symm⟩
  · exact .inl ((h.frames.2 l hmem).empty hchildren hhollow)

/-- The tree of a source that parses accounts for every token of it, once and
in order; its other leaves are empty blocks, or the root if there is no token;
and its nodes are numbered in the order in which they end. -/
theorem parse_accounts (hparse : parse source = .ok t) (herrors : t.errors = []) :
    t.source = source ∧ (∃ fates, t.Accounts fates) ∧
      t.root.leaves.Pairwise (fun first second => first.stop ≤ second.start) ∧
      (∀ l ∈ t.root.leaves, l.isHollow →
        l.kind = .aux .block ∧ l.start = l.stop ∨ l = t.root ∧ tokenize source = []) ∧
      t.Numbered := by
  obtain ⟨inner, gap, h⟩ := parse_parsed hparse herrors
  have hhollow := h.hollow
  rw [h.source_eq] at hhollow
  exact ⟨h.source_eq, ⟨_, h.accounts⟩, h.pairwise, hhollow, h.numbered⟩

/-- A source with a comment of each sort, a semicolon of each sort, an empty
block and the word `continue`. -/
theorem parse_accounts_mixed :
    ∃ t, parse "while --[[a]] x do --b\n continue; end do end; f\x7b1;2\x7d".toList = .ok t ∧
      t.errors = [] ∧ (∃ fates, t.Accounts fates) ∧ t.Numbered := by
  obtain ⟨t, hparse, herrors⟩ := exists_tree
    "while --[[a]] x do --b\n continue; end do end; f\x7b1;2\x7d".toList (by decide +kernel)
  obtain ⟨-, haccounts, -, -, hnumbered⟩ := parse_accounts hparse herrors
  exact ⟨t, hparse, herrors, haccounts, hnumbered⟩

end LuauTidy
