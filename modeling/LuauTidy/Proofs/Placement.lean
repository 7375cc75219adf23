import LuauTidy.Proofs.Accounts

/-!
# Where nodes stand

Siblings lie one behind the other and within their parent, a node spans its
children, and each child leads to its parent.  That siblings also start one
behind the other has to be shown for empty blocks alone, since all other nodes
have text.  An empty block stands right behind the token before it, so what
counts is whether the next token touches that one.  Where the two are keywords
they cannot touch, or they would be one word.  In the body of a function the
token before the block is a parenthesis, and there they can.

* `Word.Among.opens_lt_closes` — two keywords do not touch;
* `Derives.rising`, `Derives.rising_body` — the nodes of a row, and those of the
  body of a function;
* `SyntaxTree.IsPlaced`, `SyntaxTree.Ascends`, `Node.IsBareBody` — where the nodes
  of a tree stand;
* `parse_isPlaced` — the tree of a source that parses;
* `not_parsesPlaced_bareBody` — a block that starts where its keyword does.
-/

namespace LuauTidy

open Lexeme

/-! ### Words one behind the other -/

namespace Word

variable {t : SyntaxTree} {a b x y ws : List Word} {v w : Word}

/-- Placed words start behind what stands before them. -/
theorem le_start_of_placed {offset : Nat} (h : place offset ws = ws) :
    ∀ v ∈ ws, offset ≤ v.start := by
  intro v hv
  obtain ⟨front, rest, rfl⟩ := List.append_of_mem hv
  rw [start_of_placed h]
  exact Nat.le_add_right _ _

/-- The same words, parted in another way. -/
theorem Among.regroup (h : Among t a ws b) {a' ws' b' : List Word}
    (hwords : a' ++ (ws' ++ b') = a ++ (ws ++ b)) : Among t a' ws' b' := by
  refine ⟨?_, ?_, ?_⟩
  · rw [hwords]
    exact h.spells
  · rw [hwords]
    exact h.placed
  · rw [hwords]
    exact h.noError

/-- The words of a row start behind the words before it. -/
theorem Among.le_start (h : Among t a (x ++ w :: y) b) : ∀ v ∈ y ++ b, w.stop ≤ v.start := by
  have hplaced := h.placed
  have hassoc : a ++ ((x ++ w :: y) ++ b) = (a ++ x) ++ w :: (y ++ b) := by simp
  rw [hassoc] at hplaced
  exact le_start_of_placed (placed_passed hplaced).2.2.1

/-- A word has text. -/
theorem Among.start_lt_stop (h : Among t a (x ++ w :: y) b) : w.start < w.stop := by
  have hlength : 0 < w.text.byteLength := by
    rw [Nat.pos_iff_ne_zero, Ne, Text.byteLength_eq_zero]
    exact h.text_ne_nil
  rw [Token.stop]
  omega

end Word

/-! ### Keywords around a block -/

/-- The keywords behind which a block stands. -/
def TokenKind.opensBlock : TokenKind → Bool
  | .kwThen | .kwDo | .kwElse | .kwRepeat => true
  | _ => false

/-- Such a keyword is a word. -/
theorem TokenKind.isWord_of_opensBlock {k : TokenKind} (h : k.opensBlock) :
    k.isMark ∧ Text.startsWith isWordStart k.grammarName.toList := by
  cases k <;> first | exact absurd h (by decide) | decide

/-- So is one that closes a block. -/
theorem TokenClass.isWord_of_closesBlock {cls : TokenClass} (h : cls.closesBlock) :
    ∃ k, cls = .token k ∧ k.isMark ∧ Text.startsWith isWordChar k.grammarName.toList := by
  unfold TokenClass.closesBlock at h
  split at h
  · exact ⟨_, rfl, by decide, by decide⟩
  · exact ⟨_, rfl, by decide, by decide⟩
  · exact ⟨_, rfl, by decide, by decide⟩
  · exact ⟨_, rfl, by decide, by decide⟩
  · cases h

/-- A keyword that opens a block does not touch the one that closes it: the two
would be one word. -/
theorem Word.Among.opens_lt_closes {t : SyntaxTree} {a b x y : List Word} {v w : Word}
    {k : TokenKind} (h : Among t a (x ++ w :: v :: y) b) (hw : w.cls = .token k)
    (hopens : k.opensBlock) (hv : v.cls.closesBlock) : w.stop < v.start := by
  obtain ⟨hmark, hstart⟩ := TokenKind.isWord_of_opensBlock hopens
  obtain ⟨k', hk', hmark', hstart'⟩ := TokenClass.isWord_of_closesBlock hv
  have hpiece : w.cls.isPiece = false := by
    rw [hw]
    exact TokenKind.isPiece_of_isMark hmark
  rw [← h.mark_text (by simp) hw hmark] at hstart
  rw [← h.mark_text (by simp) hk' hmark'] at hstart'
  obtain ⟨-, hstop, -⟩ := h.word hpiece hstart
  have hgap : v.gap ≠ [] := by
    intro hnil
    rw [flat_cons, hnil, List.nil_append] at hstop
    cases htext : v.text with
    | nil =>
        rw [htext] at hstart'
        cases hstart'
    | cons c text =>
        rw [htext] at hstart' hstop
        rw [List.cons_append] at hstop
        exact absurd (hstart'.symm.trans hstop) (by simp)
  have hlength : 0 < v.gap.byteLength := by
    rw [Nat.pos_iff_ne_zero, Ne, Text.byteLength_eq_zero]
    exact hgap
  have hplaced := (placed_append.mp (placed_append.mp h.placed).2).1
  have hplaced' := (placed_cons.mp (placed_passed hplaced).2.2.1).1
  omega

/-- Where a block stays empty, no comment stands ahead, and a token closes the
block. -/
theorem Derives.closes_of_nil {next : Ahead} (h : Derives [.sub .items] .nil next) :
    next.comment = false ∧ ∀ cls, next.cls = some cls → cls.closesBlock := by
  have hnone : leavesOfFates (Forest.nil.fates 0) = [] := rfl
  obtain ⟨parts, rule, inside⟩ | ⟨kind, parts, inner, hnode, -⟩ := h.phrase_cases
  · cases rule with
    | lastItems =>
        obtain ⟨g, later, heq, hcomments, -, hcloses, rfl⟩ := inside.parted
        rw [Forest.append_nil] at heq
        subst heq
        refine ⟨?_, hcloses⟩
        obtain ⟨parts, rule, inside⟩ | ⟨kind, parts, inner, hnode, -⟩ := hcomments.phrase_cases
        · cases rule with
          | noComments => exact inside.parted.1
          | comments => exact absurd hnone (inside.leaves_ne_nil rfl 0)
        · cases hnode
    | items | returnItems => exact absurd hnone (inside.leaves_ne_nil rfl 0)
  · cases hnode

/-! ### The nodes of a row -/

/-- The leaf of a keyword behind which a block stands. -/
def Kind.opensBlock : Kind → Bool
  | .token k => k.opensBlock
  | _ => false

theorem LeafFits.opens {kind : Kind} {token : Token} (h : LeafFits kind token)
    (hopens : kind.opensBlock) : ∃ k, token.cls = .token k ∧ k.opensBlock := by
  rcases h with hkind | ⟨-, rfl⟩ | ⟨-, -, rfl⟩
  · cases hcls : token.cls with
    | token k =>
        rw [hcls, TokenClass.leafKind?, Option.some.injEq] at hkind
        rw [← hkind] at hopens
        exact ⟨k, rfl, hopens⟩
    | literal k =>
        rw [hcls, TokenClass.leafKind?, Option.some.injEq] at hkind
        rw [← hkind] at hopens
        cases hopens
    | _ =>
        rw [hcls] at hkind
        cases hkind
  · cases hopens
  · cases hopens

/-- Phrases within a source, lists of blocks apart. -/
def Nonterminal.isPart : Nonterminal → Bool
  | .chunk => false
  | .more _ item => item != .block && item.isPart
  | _ => true

theorem Nonterminal.isInner_of_isPart {n : Nonterminal} (h : n.isPart) : n.isInner := by
  induction n with
  | more separator item ih =>
      rw [isPart, Bool.and_eq_true] at h
      exact ih h.2
  | chunk => cases h
  | _ => rfl

/-- Blocks are asked for only behind a keyword that opens them. -/
def Symbol.blocksBehindWords : (behind : Bool) → List Symbol → Bool
  | _, [] => true
  | _, leaf kind _ :: rest => blocksBehindWords kind.opensBlock rest
  | _, skip _ :: rest => blocksBehindWords false rest
  | behind, look _ :: rest => blocksBehindWords behind rest
  | behind, sub n :: rest =>
    n.isPart && (n != .block || behind) && blocksBehindWords false rest

theorem Production.blocksBehindWords_of_flat {n : Nonterminal} {parts : List Symbol}
    (h : Production n none parts) (hn : n.isPart) : Symbol.blocksBehindWords false parts := by
  cases h with
  | more separator item separates =>
      simp only [Nonterminal.isPart, Bool.and_eq_true] at hn
      simp [Symbol.blocksBehindWords, Symbol.mark, Nonterminal.isPart, hn.1, hn.2]
  | _ => rfl

/-- Only in the body of a function a block stands behind a parenthesis. -/
theorem Production.blocksBehindWords_of_node {n : Nonterminal} {kind : Kind}
    {parts : List Symbol} (h : Production n (some kind) parts) (hbody : n ≠ .functionBody) :
    Symbol.blocksBehindWords false parts := by
  cases h with
  | functionBody => exact absurd rfl hbody
  | _ => rfl

theorem Symbol.blocksBehindTokens_of_words {symbols : List Symbol} {behind behind' : Bool}
    (h : blocksBehindWords behind symbols) (hbehind : behind → behind') :
    blocksBehindTokens behind' symbols := by
  induction symbols generalizing behind behind' with
  | nil => rfl
  | cons s symbols ih =>
      cases s with
      | leaf kind fits =>
          apply ih h
          intro hopens
          rw [bne_iff_ne]
          rintro rfl
          cases hopens
      | skip k => exact ih h fun _ => rfl
      | look fits => exact ih h hbehind
      | sub n =>
          simp only [blocksBehindWords, Bool.and_eq_true, Bool.or_eq_true] at h
          simp only [blocksBehindTokens, Bool.and_eq_true, Bool.or_eq_true]
          exact ⟨⟨Nonterminal.isInner_of_isPart h.1.1, (h.1.2.imp_right hbehind).symm⟩, ih h.2 id⟩

/-- If all words of a row start behind an offset, so do its nodes. -/
theorem Derives.bound_lt_start {symbols : List Symbol} {f : Forest} {next : Ahead}
    (h : Derives symbols f next) (hfit : f.Fit) {behind : Bool}
    (hblocks : Symbol.blocksBehindTokens behind symbols) {bound : Nat}
    (hwords : ∀ w ∈ f.words, bound < w.start) (made lastEnd : Nat)
    (hbehind : behind → bound < lastEnd) : ∀ n ∈ f.nodes made lastEnd, bound < n.start := by
  induction h generalizing behind made lastEnd with
  | nil => simp [Forest.nodes]
  | @leaf kind _ passed w later _ _ _ _ _ _ ih =>
      simp only [Forest.words, List.forall_mem_append, List.forall_mem_cons] at hwords
      rw [Forest.nodes, List.forall_mem_cons]
      refine ⟨hwords.2.1, ih hfit.2.2 hblocks hwords.2.2 _ _ ?_⟩
      intro hkind
      rw [hfit.2.1.not_comment (by simpa using hkind)]
      exact Nat.lt_of_lt_of_le hwords.2.1 (Nat.le_add_right _ _)
  | @skip _ passed w later _ _ _ _ _ ih =>
      simp only [Forest.words, List.forall_mem_append, List.forall_mem_cons] at hwords
      apply ih hfit.2.2 hblocks hwords.2.2
      intro _
      exact Nat.lt_of_lt_of_le hwords.2.1 (Nat.le_add_right _ _)
  | look _ _ ih => exact ih hfit hblocks hwords made lastEnd hbehind
  | flat rule _ _ ihInside ih =>
      simp only [Symbol.blocksBehindTokens, Bool.and_eq_true] at hblocks
      obtain ⟨⟨hn, -⟩, hrest⟩ := hblocks
      obtain ⟨hfit, hfitLater⟩ := Forest.fit_append.mp hfit
      rw [Forest.words_append, List.forall_mem_append] at hwords
      rw [Forest.nodes_append, List.forall_mem_append]
      exact ⟨ihInside hfit (rule.blocksBehindTokens hn) hwords.1 _ _ (by simp),
        ih hfitLater hrest hwords.2 _ _ (by simp)⟩
  | @node n kind _ _ inner later _ rule inside _ ihInside ih =>
      simp only [Symbol.blocksBehindTokens, Bool.and_eq_true, Bool.or_eq_true, bne_iff_ne]
        at hblocks
      obtain ⟨⟨hn, hblock⟩, hrest⟩ := hblocks
      rw [Forest.words, List.forall_mem_append] at hwords
      rw [Forest.nodes, List.forall_mem_cons]
      refine ⟨?_, ih hfit.2 hrest hwords.2 _ _ (by simp)⟩
      have hinner := ihInside hfit.1 (rule.blocksBehindTokens hn) hwords.1 made lastEnd (by simp)
      cases hnodes : inner.nodes made lastEnd with
      | nil =>
          obtain ⟨rfl, rfl⟩ := rule.block_of_nodes hn inside hnodes
          exact hbehind (by simpa using hblock)
      | cons first rest =>
          rw [hnodes, List.forall_mem_cons] at hinner
          exact hinner.1

/-- What stands before a row behind a keyword that opens a block. -/
def Word.Opened (a : List Word) (lastEnd : Nat) : Prop :=
  ∃ front w k, a = front ++ [w] ∧ w.cls = .token k ∧ k.opensBlock ∧ lastEnd = w.stop

/-- Nodes that start one behind the other, and before some words. -/
structure Rising (nodes : List Node) (b : List Word) : Prop where
  pairwise : nodes.Pairwise fun m n => m.start < n.start
  words : ∀ n ∈ nodes, ∀ v ∈ b, n.start < v.start

theorem Rising.cons {n : Node} {nodes : List Node} {b : List Word} (h : Rising nodes b)
    (hnodes : ∀ m ∈ nodes, n.start < m.start) (hwords : ∀ v ∈ b, n.start < v.start) :
    Rising (n :: nodes) b where
  pairwise := List.pairwise_cons.mpr ⟨hnodes, h.pairwise⟩
  words := List.forall_mem_cons.mpr ⟨hwords, h.words⟩

section Row

variable {t : SyntaxTree} {symbols : List Symbol} {f inner : Forest} {next : Ahead}
  {a b : List Word}

/-- What stands ahead of a row, where words stand behind it. -/
theorem Derives.ahead_eq (h : Derives symbols f next) (hnext : next = Word.ahead b) :
    f.ahead next = Word.ahead (f.words ++ b) := by
  rw [h.ahead_words, hnext]

/-- The first node of a row that begins with a leaf starts before all words
behind. -/
theorem Derives.first_lt_words {kind : Kind} {fits : Token → Prop}
    (h : Derives (.leaf kind fits :: symbols) f next) (hamong : Word.Among t a f.words b)
    {made lastEnd : Nat} {first : Node} {rest : List Node}
    (hnodes : f.nodes made lastEnd = first :: rest) : ∀ v ∈ b, first.start < v.start := by
  cases h with
  | leaf _ _ _ _ =>
      rw [Forest.nodes, List.cons.injEq] at hnodes
      rw [← hnodes.1]
      intro v hv
      exact Nat.lt_of_lt_of_le hamong.start_lt_stop
        (hamong.le_start v (List.mem_append_right _ hv))

/-- An empty block between two keywords stands before the second of them. -/
theorem Derives.block_lt_words (h : Derives [.sub .items] .nil (Word.ahead b))
    (hamong : Word.Among t a [] b) {lastEnd : Nat} (hopened : Word.Opened a lastEnd) :
    ∀ v ∈ b, lastEnd < v.start := by
  obtain ⟨front, w, k, rfl, hw, hopens, rfl⟩ := hopened
  obtain ⟨hcomment, hcloses⟩ := h.closes_of_nil
  cases b with
  | nil => simp
  | cons v b =>
      have hv : v.isComment = false := by
        rw [Word.ahead_comment_eq_false] at hcomment
        exact hcomment v rfl
      have hbetween : Word.Among t front ([] ++ w :: v :: b) [] := hamong.regroup (by simp)
      have hlt := hbetween.opens_lt_closes hw hopens (hcloses v.cls (by simp [Word.ahead, hv]))
      have hbehind : Word.Among t (front ++ [w]) ([] ++ v :: b) [] := hamong.regroup (by simp)
      rw [List.forall_mem_cons]
      refine ⟨hlt, ?_⟩
      intro u hu
      exact Nat.lt_of_lt_of_le (Nat.lt_trans hlt hbehind.start_lt_stop)
        (hbehind.le_start u (by simpa using hu))

/-- The nodes of a row start one behind the other, and before all words behind
the row. -/
theorem Derives.rising (h : Derives symbols f next) (hfit : f.Fit)
    (hamong : Word.Among t a f.words b) (hnext : next = Word.ahead b) {behind : Bool}
    (hblocks : Symbol.blocksBehindWords behind symbols) (made lastEnd : Nat)
    (hbehind : behind → Word.Opened a lastEnd) : Rising (f.nodes made lastEnd) b := by
  induction h generalizing a b behind made lastEnd with
  | nil => exact ⟨.nil, by simp [Forest.nodes]⟩
  | @leaf kind _ passed w later _ _ _ _ _ tail ih =>
      have hlt := hamong.start_lt_stop
      have hle := hamong.le_start
      have hend : kind.opensBlock → (if w.isComment then lastEnd else w.stop) = w.stop := by
        intro hopens
        obtain ⟨k, hcls, -⟩ := hfit.2.1.opens hopens
        exact if_neg (by simp [Token.isComment_of_mark hcls])
      have hbehind' : kind.opensBlock → Word.Opened (a ++ (passed ++ [w]))
          (if w.isComment then lastEnd else w.stop) := by
        intro hopens
        obtain ⟨k, hcls, hk⟩ := hfit.2.1.opens hopens
        exact ⟨a ++ passed, w, k, by simp, hcls, hk, hend hopens⟩
      have hrest : Symbol.blocksBehindWords kind.opensBlock _ := hblocks
      refine (ih hfit.2.2 hamong.tail hnext hblocks (made + 1) _ hbehind').cons ?_ ?_
      · apply tail.bound_lt_start hfit.2.2 (Symbol.blocksBehindTokens_of_words hrest id)
        · intro v hv
          exact Nat.lt_of_lt_of_le hlt (hle v (List.mem_append_left _ hv))
        · intro hopens
          rw [hend hopens]
          exact hlt
      · intro v hv
        exact Nat.lt_of_lt_of_le hlt (hle v (List.mem_append_right _ hv))
  | @skip _ passed w later _ _ _ _ _ ih =>
      exact ih hfit.2.2 hamong.tail hnext hblocks made w.stop (by simp)
  | look _ _ ih => exact ih hfit hamong hnext hblocks made lastEnd hbehind
  | @flat n _ _ f later _ rule _ tail ihInside ih =>
      simp only [Symbol.blocksBehindWords, Bool.and_eq_true] at hblocks
      obtain ⟨⟨hn, -⟩, hrest⟩ := hblocks
      obtain ⟨hfit, hfitLater⟩ := Forest.fit_append.mp hfit
      rw [Forest.words_append] at hamong
      have hahead := tail.ahead_eq hnext
      have hinside := ihInside hfit hamong.left hahead (rule.blocksBehindWords_of_flat hn) made
        lastEnd (by simp)
      have hlater := ih hfitLater hamong.right hnext hrest (made + f.count) (f.endFrom lastEnd)
        (by simp)
      rw [Forest.nodes_append]
      refine ⟨List.pairwise_append.mpr ⟨hinside.pairwise, hlater.pairwise, ?_⟩, ?_⟩
      · intro m hm
        apply tail.bound_lt_start hfitLater (Symbol.blocksBehindTokens_of_words hrest id)
        · intro v hv
          exact hinside.words m hm v (List.mem_append_left _ hv)
        · simp
      · rw [List.forall_mem_append]
        refine ⟨?_, hlater.words⟩
        intro m hm v hv
        exact hinside.words m hm v (List.mem_append_right _ hv)
  | @node n kind _ _ inner later _ rule inside tail ihInside ih =>
      simp only [Symbol.blocksBehindWords, Bool.and_eq_true, Bool.or_eq_true, bne_iff_ne]
        at hblocks
      obtain ⟨⟨hn, hblock⟩, hrest⟩ := hblocks
      rw [Forest.words] at hamong
      have hahead := tail.ahead_eq hnext
      have hnode : ∀ v ∈ later.words ++ b,
          (Node.around (made + inner.count) kind (Forest.emptyPlace kind lastEnd)
            (inner.nodes made lastEnd)).start < v.start := by
        cases hnodes : inner.nodes made lastEnd with
        | nil =>
            obtain ⟨rfl, rfl⟩ := rule.block_of_nodes (Nonterminal.isInner_of_isPart hn) inside hnodes
            cases rule with
            | block =>
                obtain rfl := inside.nil_of_nodes hnodes
                rw [hahead] at inside
                exact inside.block_lt_words hamong.left (hbehind (by simpa using hblock))
        | cons first rest =>
            by_cases hbody : n = .functionBody
            · subst hbody
              cases rule with
              | functionBody =>
                  have hfirst := inside.first_lt_words hamong.left hnodes
                  exact hfirst
            · have hinside := ihInside hfit.1 hamong.left hahead
                (rule.blocksBehindWords_of_node hbody) made lastEnd (by simp)
              rw [hnodes] at hinside
              exact hinside.words first List.mem_cons_self
      refine (ih hfit.2 hamong.right hnext hrest (made + (inner.count + 1))
        (inner.endFrom lastEnd) (by simp)).cons ?_ ?_
      · apply tail.bound_lt_start hfit.2 (Symbol.blocksBehindTokens_of_words hrest id)
        · intro v hv
          exact hnode v (List.mem_append_left _ hv)
        · simp
      · intro v hv
        exact hnode v (List.mem_append_right _ hv)

/-- A block and the keyword behind it.  The block starts before the keyword,
unless the keyword touches what stands before the block. -/
theorem Derives.block_lt_last (h : Derives [.sub .block, .mark .kwEnd] f next) (hfit : f.Fit)
    (hamong : Word.Among t a f.words b) (hnext : next = Word.ahead b) (made lastEnd : Nat)
    (hle : ∀ v ∈ f.words, lastEnd ≤ v.start) :
    ∃ body last, f.nodes made lastEnd = [body, last] ∧ last.kind = .token .kwEnd ∧
      (lastEnd ≠ last.start → body.start < last.start) := by
  obtain ⟨g, _, rfl, hg, -, passed, w, _, rfl, hpassed, hright, hw, rfl⟩ := h.parted
  obtain ⟨parts, rule, -⟩ | ⟨kind, parts, inner, rfl, rule, inside⟩ := hg.phrase_cases
  · cases rule
  cases rule with
  | block =>
      simp only [Forest.node_append, Forest.nil_append, Forest.words] at hamong hle
      refine ⟨_, _, rfl, rfl, ?_⟩
      intro hne
      have hwle : lastEnd ≤ w.start := hle w (by simp)
      cases hnodes : inner.nodes made lastEnd with
      | nil => exact Nat.lt_of_le_of_ne hwle hne
      | cons first rest =>
          have hlast : Derives [.mark .kwEnd] (.leaf (.token .kwEnd) passed w .nil) next :=
            .leaf hpassed hright hw (.nil next)
          have hahead := hlast.ahead_eq hnext
          have hblocks : Symbol.blocksBehindWords false [.sub .items] := rfl
          have hrising := inside.rising hfit.1 hamong.left hahead hblocks made lastEnd (by simp)
          rw [hnodes] at hrising
          exact hrising.words first List.mem_cons_self w (by simp)

/-- The body of a function ends with a parenthesis, a block and a keyword.  Its
parts start one behind the other, unless the keyword touches the parenthesis. -/
theorem Derives.rising_body
    (h : Derives [.mark .lparen, .sub .paramList, .mark .rparen, .sub .block, .mark .kwEnd] f next)
    (hfit : f.Fit) (hamong : Word.Among t a f.words b) (hnext : next = Word.ahead b)
    (made lastEnd : Nat) :
    ∃ before close body last, f.nodes made lastEnd = before ++ [close, body, last] ∧
      close.kind = .token .rparen ∧ last.kind = .token .kwEnd ∧
      (close.stop ≠ last.start → (f.nodes made lastEnd).Pairwise fun m n => m.start < n.start) := by
  obtain ⟨p₁, w₁, _, rfl, hp₁, hr₁, hw₁, g, _, rfl, hg, -, p₂, w₂, rear, rfl, hp₂, hr₂, hw₂, hrear⟩ :=
    h.parted
  have hrear : Derives [.sub .block, .mark .kwEnd] rear next := by
    obtain ⟨blk, _, rfl, hblk, -, p₃, w₃, _, rfl, hp₃, hr₃, hw₃, rfl⟩ := hrear
    exact hblk.append (.leaf hp₃ hr₃ hw₃ (.nil next))
  have hcomment : w₂.isComment = false := Token.isComment_of_mark hw₂
  -- What stands before the block is a row by itself.
  obtain ⟨front, hfront⟩ : ∃ front, front = Forest.leaf (.token .lparen) p₁ w₁
      (g ++ .leaf (.token .rparen) p₂ w₂ .nil) := ⟨_, rfl⟩
  have hderives : Derives [.mark .lparen, .sub .paramList, .mark .rparen] front
      (rear.ahead next) := by
    rw [hfront]
    have hparams : Derives [.sub .paramList] g
        ((Forest.leaf (.token .rparen) p₂ w₂ .nil).ahead (rear.ahead next)) := by
      simpa [Forest.ahead, hcomment] using hg
    exact .leaf hp₁ hr₁ hw₁ (hparams.append (.leaf hp₂ hr₂ hw₂ (.nil _)))
  have heq : Forest.leaf (.token .lparen) p₁ w₁ (g ++ .leaf (.token .rparen) p₂ w₂ rear) =
      front ++ rear := by simp [hfront]
  rw [heq] at hfit hamong ⊢
  obtain ⟨hfitFront, hfitRear⟩ := Forest.fit_append.mp hfit
  rw [Forest.words_append] at hamong
  have hahead := hrear.ahead_eq hnext
  have hblocks : Symbol.blocksBehindWords false
      [.mark .lparen, .sub .paramList, .mark .rparen] := rfl
  have hrising := hderives.rising hfitFront hamong.left hahead hblocks made lastEnd (by simp)
  obtain ⟨before, close, hnodes, hkind, hstart, hstop⟩ : ∃ before close,
      front.nodes made lastEnd = before ++ [close] ∧ close.kind = .token .rparen ∧
        close.start = w₂.start ∧ close.stop = w₂.stop := by
    let lparen : Node := ⟨made, .token .lparen, w₁.start, w₁.stop, []⟩
    refine ⟨lparen :: g.nodes (made + 1) (if w₁.isComment then lastEnd else w₁.stop),
      ⟨made + 1 + g.count, .token .rparen, w₂.start, w₂.stop, []⟩, ?_, rfl, rfl, rfl⟩
    rw [hfront, Forest.nodes, Forest.nodes_append]
    rfl
  have hend : front.endFrom lastEnd = close.stop := by
    simp [hfront, Forest.endFrom, hcomment, hstop]
  obtain ⟨hlt, hle⟩ : close.start < close.stop ∧ ∀ v ∈ rear.words, close.stop ≤ v.start := by
    have hclose := hamong.left
    have hwords : front.words = (p₁ ++ w₁ :: (g.words ++ p₂)) ++ w₂ :: [] := by
      simp [hfront, Forest.words]
    rw [hwords] at hclose
    rw [hstart, hstop]
    refine ⟨hclose.start_lt_stop, ?_⟩
    intro v hv
    exact hclose.le_start v (by simp [hv])
  obtain ⟨body, last, hrearNodes, hlastKind, hbody⟩ := hrear.block_lt_last hfitRear hamong.right hnext
    (made + front.count) close.stop hle
  rw [Forest.nodes_append, hend, hrearNodes]
  refine ⟨before, close, body, last, by simp [hnodes], hkind, hlastKind, ?_⟩
  intro hne
  rw [List.pairwise_append]
  refine ⟨hrising.pairwise, by simpa using hbody hne, ?_⟩
  intro m hm
  rw [← hrearNodes]
  have htokens : Symbol.blocksBehindTokens true [.sub .block, .mark .kwEnd] := rfl
  apply hrear.bound_lt_start hfitRear htokens
  · intro v hv
    exact hrising.words m hm v (List.mem_append_left _ hv)
  · intro _
    have hpairwise := hrising.pairwise
    rw [hnodes, List.pairwise_append] at hpairwise
    rw [hnodes, List.mem_append, List.mem_singleton] at hm
    obtain hm | rfl := hm
    · exact Nat.lt_trans (hpairwise.2.2 m hm close (List.mem_singleton_self _)) hlt
    · exact hlt

end Row

/-! ### Where nodes stand -/

/-- The children of a node start one behind the other. -/
def Node.Ascends (n : Node) : Prop := n.children.IsChain fun c d => c.start < d.start

instance (n : Node) : Decidable n.Ascends :=
  inferInstanceAs (Decidable (n.children.IsChain fun c d => c.start < d.start))

/-- The body of a function whose last keyword touches the parenthesis of its
parameters, so that the block between them has no place of its own. -/
def Node.IsBareBody (n : Node) : Prop :=
  n.kind = .aux .funcBody ∧ ∃ before close body last, n.children = before ++ [close, body, last] ∧
    close.kind = .token .rparen ∧ last.kind = .token .kwEnd ∧ close.stop = last.start

/-- A node spans its children, if it has any. -/
def Node.SpansChildren (n : Node) : Prop :=
  (∀ c, n.children.head? = some c → n.start = c.start) ∧
    ∀ c, n.children.getLast? = some c → n.stop = c.stop

/-- The children of all nodes start one behind the other. -/
def SyntaxTree.Ascends (t : SyntaxTree) : Prop := ∀ n ∈ t.root.preorder, n.Ascends

instance (t : SyntaxTree) : Decidable t.Ascends :=
  inferInstanceAs (Decidable (∀ n ∈ t.root.preorder, n.Ascends))

/-- Where the nodes of a tree stand, and how they are linked. -/
structure SyntaxTree.IsPlaced (t : SyntaxTree) : Prop where
  /-- A node stops before the next one starts. -/
  apart : ∀ n ∈ t.root.preorder, n.children.IsChain fun c d => c.stop ≤ d.start
  /-- Children lie within their parent. -/
  within : ∀ n ∈ t.root.preorder, ∀ c ∈ n.children, n.start ≤ c.start ∧ c.stop ≤ n.stop
  /-- The root apart, nodes span their children. -/
  spans : ∀ n ∈ preorderOfAll t.root.children, n.SpansChildren
  /-- Each child is visited, and leads to its parent. -/
  parents : ∀ v ∈ t.visits, ∀ c ∈ v.node.children,
    ∃ u ∈ t.visits, u.node = c ∧ u.parent = some v.node ∧
      ∀ u' ∈ t.visits, u'.node.id = c.id → u' = u

/-- Nodes are made around their children. -/
theorem Forest.spansChildren (f : Forest) (made lastEnd : Nat) :
    ∀ n ∈ preorderOfAll (f.nodes made lastEnd), n.SpansChildren := by
  induction f generalizing made lastEnd with
  | nil => simp [Forest.nodes, preorderOfAll]
  | leaf kind passed w later ih =>
      rw [Forest.nodes]
      exact List.forall_mem_cons.mpr ⟨⟨by simp, by simp⟩, ih _ _⟩
  | skipped passed w later ih => exact ih _ _
  | node kind inner later ihInner ih =>
      rw [Forest.nodes, preorderOfAll, Node.preorder_eq, List.forall_mem_append,
        List.forall_mem_cons]
      refine ⟨⟨⟨?_, ?_⟩, ihInner _ _⟩, ih _ _⟩
      · intro c hc
        rw [Node.around] at hc ⊢
        simp only [hc, Option.map_some, Option.getD_some]
      · intro c hc
        rw [Node.around] at hc ⊢
        simp only [hc, Option.map_some, Option.getD_some]

/-- Below a row the children of each node start one behind the other, where no
body is bare. -/
theorem Derives.ascends {t : SyntaxTree} {symbols : List Symbol} {f : Forest} {next : Ahead}
    {a b : List Word} (h : Derives symbols f next) (hfit : f.Fit)
    (hamong : Word.Among t a f.words b) (hnext : next = Word.ahead b) (made lastEnd : Nat) :
    ∀ n ∈ preorderOfAll (f.nodes made lastEnd), n.Ascends ∨ n.IsBareBody := by
  induction h generalizing a b made lastEnd with
  | nil => simp [Forest.nodes, preorderOfAll]
  | leaf _ _ _ _ ih =>
      rw [Forest.nodes]
      exact List.forall_mem_cons.mpr ⟨.inl .nil, ih hfit.2.2 hamong.tail hnext _ _⟩
  | skip _ _ _ ih => exact ih hfit.2.2 hamong.tail hnext _ _
  | look _ _ ih => exact ih hfit hamong hnext _ _
  | flat _ _ tail ihInside ih =>
      obtain ⟨hfit, hfitLater⟩ := Forest.fit_append.mp hfit
      rw [Forest.words_append] at hamong
      have hahead := tail.ahead_eq hnext
      rw [Forest.nodes_append, preorderOfAll_append, List.forall_mem_append]
      exact ⟨ihInside hfit hamong.left hahead _ _, ih hfitLater hamong.right hnext _ _⟩
  | @node n kind _ _ inner later _ rule inside tail ihInside ih =>
      rw [Forest.words] at hamong
      have hahead := tail.ahead_eq hnext
      rw [Forest.nodes, preorderOfAll, Node.preorder_eq, List.forall_mem_append,
        List.forall_mem_cons]
      refine ⟨⟨?_, ihInside hfit.1 hamong.left hahead _ _⟩, ih hfit.2 hamong.right hnext _ _⟩
      by_cases hbody : n = .functionBody
      · subst hbody
        cases rule with
        | functionBody =>
            obtain ⟨before, close, body, last, hnodes, hclose, hlast, hrising⟩ :=
              inside.rising_body hfit.1 hamong.left hahead made lastEnd
            by_cases htouch : close.stop = last.start
            · exact .inr ⟨rfl, before, close, body, last, hnodes, hclose, hlast, htouch⟩
            · exact .inl (hrising htouch).isChain
      · have hrising := inside.rising hfit.1 hamong.left hahead
          (rule.blocksBehindWords_of_node hbody) made lastEnd (by simp)
        exact .inl hrising.pairwise.isChain

/-! ### Parents -/

/-- Siblings are visited as children of their parent. -/
theorem exists_visit_of_mem (parent : Node) {nodes : List Node} (previous : Option Node) {c : Node}
    (hc : c ∈ nodes) : ∃ u ∈ visitsOfAll parent previous nodes, u.node = c ∧ u.parent = some parent := by
  induction nodes generalizing previous with
  | nil => cases hc
  | cons n nodes ih =>
      rw [visitsOfAll]
      obtain rfl | hc := List.mem_cons.mp hc
      · refine ⟨⟨c, some parent, previous⟩, List.mem_append_left _ ?_, rfl, rfl⟩
        obtain ⟨id, kind, start, stop, children⟩ := c
        exact List.mem_cons_self
      · obtain ⟨u, hu, hnode, hparent⟩ := ih (some n) hc
        exact ⟨u, List.mem_append_right _ hu, hnode, hparent⟩

mutual

/-- Below a node every child is visited as one of its parent. -/
theorem Node.exists_visit_child (n : Node) (parent previous : Option Node) :
    ∀ v ∈ n.visits parent previous, ∀ c ∈ v.node.children,
      ∃ u ∈ n.visits parent previous, u.node = c ∧ u.parent = some v.node := by
  obtain ⟨id, kind, start, stop, children⟩ := n
  rw [Node.visits, List.forall_mem_cons]
  constructor
  · intro c hc
    obtain ⟨u, hu, hnode, hparent⟩ := exists_visit_of_mem ⟨id, kind, start, stop, children⟩ none hc
    exact ⟨u, List.mem_cons_of_mem _ hu, hnode, hparent⟩
  · intro v hv c hc
    obtain ⟨u, hu, hnode, hparent⟩ :=
      exists_visit_childOfAll ⟨id, kind, start, stop, children⟩ none children v hv c hc
    exact ⟨u, List.mem_cons_of_mem _ hu, hnode, hparent⟩

theorem exists_visit_childOfAll (parent : Node) (previous : Option Node) (nodes : List Node) :
    ∀ v ∈ visitsOfAll parent previous nodes, ∀ c ∈ v.node.children,
      ∃ u ∈ visitsOfAll parent previous nodes, u.node = c ∧ u.parent = some v.node := by
  cases nodes with
  | nil => simp [visitsOfAll]
  | cons n nodes =>
      rw [visitsOfAll, List.forall_mem_append]
      constructor
      · intro v hv c hc
        obtain ⟨u, hu, hnode, hparent⟩ := n.exists_visit_child (some parent) previous v hv c hc
        exact ⟨u, List.mem_append_left _ hu, hnode, hparent⟩
      · intro v hv c hc
        obtain ⟨u, hu, hnode, hparent⟩ :=
          exists_visit_childOfAll parent (some n) nodes v hv c hc
        exact ⟨u, List.mem_append_right _ hu, hnode, hparent⟩

end

/-! ### The tree of a source -/

variable {source : Text} {t : SyntaxTree} {inner : Forest} {gap : Text}

/-- A visit is known by the number of its node. -/
theorem SyntaxTree.Numbered.visit_unique (h : t.Numbered) {u v : Visit} (hu : u ∈ t.visits)
    (hv : v ∈ t.visits) (hid : u.node.id = v.node.id) : u = v := by
  have hnodup := h.preorder.nodup_iff.mpr List.nodup_range
  exact List.inj_on_of_nodup_map hnodup hu hv hid

theorem Parsed.lined (h : Parsed source t inner gap) :
    ∀ n ∈ t.root.preorder, Lined n.start n.children n.stop ∨ n.children = [] := by
  obtain ⟨hlined, hframes⟩ := h.frames
  rw [Node.preorder_eq, List.forall_mem_cons]
  refine ⟨.inl ?_, ?_⟩
  · have hroot : t.root.start = 0 ∧ t.root.stop = source.byteLength := by
      rw [h.root_eq]
      exact ⟨rfl, rfl⟩
    rw [hroot.1, hroot.2]
    exact hlined
  · intro n hn
    by_cases hchildren : n.children = []
    · exact .inr hchildren
    · exact .inl ((hframes n hn).lined hchildren)

/-- Nodes one behind the other lie between the offsets. -/
theorem Lined.within {low high : Nat} {nodes : List Node} (h : Lined low nodes high) :
    ∀ c ∈ nodes, low ≤ c.start ∧ c.stop ≤ high := by
  induction nodes generalizing low with
  | nil => simp
  | cons n nodes ih =>
      rw [List.forall_mem_cons]
      refine ⟨⟨h.1, h.2.2.le⟩, ?_⟩
      intro c hc
      obtain ⟨hlow, hhigh⟩ := ih h.2.2 c hc
      exact ⟨Nat.le_trans (Nat.le_trans h.1 h.2.1) hlow, hhigh⟩

theorem Parsed.isPlaced (h : Parsed source t inner gap) : t.IsPlaced where
  apart := by
    intro n hn
    obtain hlined | hnil := h.lined n hn
    · exact hlined.pairwise.isChain
    · rw [hnil]
      exact .nil
  within := by
    intro n hn c hc
    obtain hlined | hnil := h.lined n hn
    · exact hlined.within c hc
    · rw [hnil] at hc
      cases hc
  spans := by
    rw [h.children_eq]
    exact inner.spansChildren 0 0
  parents := by
    intro v hv c hc
    obtain ⟨u, hu, hnode, hparent⟩ := t.root.exists_visit_child _ _ v hv c hc
    refine ⟨u, hu, hnode, hparent, ?_⟩
    intro u' hu' hid
    exact h.numbered.visit_unique hu' hu (by rw [hid, hnode])

/-- In a bare body the block starts where the keyword does. -/
theorem Node.IsBareBody.not_ascends {n : Node} (h : n.IsBareBody)
    (hlined : Lined n.start n.children n.stop) : ¬n.Ascends := by
  obtain ⟨-, before, close, body, last, hchildren, -, -, htouch⟩ := h
  intro hascends
  have hsuffix : [close, body, last] <:+ n.children := by
    rw [hchildren]
    exact List.suffix_append _ _
  have happart := hlined.pairwise.sublist hsuffix.sublist
  have hrising := hascends.suffix hsuffix
  have hbody : close.stop ≤ body.start := by
    rw [List.pairwise_cons] at happart
    exact happart.1 body List.mem_cons_self
  have hlast : body.start < last.start := by
    rw [List.isChain_cons_cons, List.isChain_cons_cons] at hrising
    exact hrising.2.1
  omega

/-- The children of all nodes start one behind the other if and only if no body
of a function is bare. -/
theorem Parsed.ascends_iff (h : Parsed source t inner gap) :
    t.Ascends ↔ ∀ n ∈ t.root.preorder, ¬n.IsBareBody := by
  constructor
  · intro hascends n hn hbare
    obtain hlined | hnil := h.lined n hn
    · exact hbare.not_ascends hlined (hascends n hn)
    · obtain ⟨-, before, close, body, last, hchildren, -⟩ := hbare
      rw [hnil] at hchildren
      simp at hchildren
  · intro hnone n hn
    have hfit := h.derives.fit (by simp)
    have hn' := hn
    rw [Node.preorder_eq, h.children_eq, List.mem_cons] at hn'
    obtain rfl | hn' := hn'
    · have hblocks : Symbol.blocksBehindWords false [.sub .items] := rfl
      have hrising := h.derives.rising hfit h.among rfl hblocks 0 0 (by simp)
      rw [Node.Ascends, h.children_eq]
      exact hrising.pairwise.isChain
    · obtain hascends | hbare := h.derives.ascends hfit h.among rfl 0 0 n hn'
      · exact hascends
      · exact absurd hbare (hnone n hn)

/-- In the tree of a source that parses, siblings lie apart and within their
parent, nodes span their children, and each child leads to its parent.  Siblings
start one behind the other, unless the body of a function is bare. -/
theorem parse_isPlaced (hparse : parse source = .ok t) (herrors : t.errors = []) :
    t.IsPlaced ∧ (t.Ascends ↔ ∀ n ∈ t.root.preorder, ¬n.IsBareBody) := by
  obtain ⟨inner, gap, h⟩ := parse_parsed hparse herrors
  exact ⟨h.isPlaced, h.ascends_iff⟩

/-- A source with blocks between keywords, and an empty one that is not bare. -/
theorem parse_isPlaced_blocks :
    ∃ t, parse "function f() end if a then else b() end".toList = .ok t ∧ t.errors = [] ∧
      t.IsPlaced ∧ ∀ n ∈ t.root.preorder, ¬n.IsBareBody := by
  obtain ⟨t, hparse, herrors, hascends⟩ :=
    exists_tree_with "function f() end if a then else b() end".toList
      (p := fun t => t.errors = [] ∧ t.Ascends) (by decide +kernel)
  obtain ⟨hplaced, hiff⟩ := parse_isPlaced hparse herrors
  exact ⟨t, hparse, herrors, hplaced, hiff.mp hascends⟩

/-- Without exception: in the tree of a source that parses, all nodes have their
place, and siblings start one behind the other. -/
def ParsesPlaced (source : Text) : Prop :=
  ∀ t, parse source = .ok t → t.errors = [] → t.IsPlaced ∧ t.Ascends

theorem not_parsesPlaced_bareBody : ¬ParsesPlaced "function f()end".toList := by
  intro h
  obtain ⟨t, hparse, herrors, hascends⟩ := exists_tree_with "function f()end".toList
    (p := fun t => t.errors = [] ∧ ¬t.Ascends) (by decide +kernel)
  exact hascends (h t hparse herrors).2

end LuauTidy
