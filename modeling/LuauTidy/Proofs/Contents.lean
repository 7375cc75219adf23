import LuauTidy.Proofs.Phrases
import LuauTidy.Proofs.Rejoining
import LuauTidy.Proofs.Spacings
import LuauTidy.Proofs.StmtAccepting

/-!
# Contents

Two trees of different sources are equal as trees if they have the same kinds
and the same texts at their leaves: the numbers and the places of the nodes
depend on what else the source holds.  The content of a node is what it has
apart from them.  It depends on the row of phrases only that was read, so a row
whose words spell a text shows what the parser makes of the text.

* `Content`, `Node.content` — a subtree with its texts, without numbers and
  places;
* `Forest.contents` — the contents of the nodes of a row;
* `expression?`, `ReadsAs` — a text read as one expression;
* `exists_expression`, `exists_tree_of_spells` — what is read from the words of a
  row.
-/

namespace LuauTidy

/-- A subtree: a kind, a text if it is a leaf, and what is below it. -/
inductive Content
  | mk (kind : Kind) (text : Text) (children : List Content)

mutual

/-- A node of a source without its number and its place. -/
def Node.content (source : Text) : Node → Content
  | ⟨_, kind, start, stop, children⟩ =>
    ⟨kind, if children.isEmpty then (source.slice? start stop).getD [] else [],
      contentsOf source children⟩

/-- Siblings without their numbers and places. -/
def contentsOf (source : Text) : List Node → List Content
  | [] => []
  | n :: rest => n.content source :: contentsOf source rest

end

theorem Node.content_eq (source : Text) (n : Node) :
    n.content source = ⟨n.kind, if n.children.isEmpty then (source.slice? n.start n.stop).getD []
      else [], contentsOf source n.children⟩ := by
  cases n
  rfl

theorem contentsOf_eq_map (source : Text) (nodes : List Node) :
    contentsOf source nodes = nodes.map (Node.content source) := by
  induction nodes with
  | nil => rfl
  | cons n nodes ih => rw [contentsOf, ih, List.map_cons]

theorem length_contentsOf (source : Text) (nodes : List Node) :
    (contentsOf source nodes).length = nodes.length := by
  rw [contentsOf_eq_map, List.length_map]

/-- A node whose content has three children. -/
theorem Node.exists_parts {n : Node} {source text : Text} {kind : Kind} {a b c : Content}
    (h : n.content source = ⟨kind, text, [a, b, c]⟩) : n.kind = kind ∧ ∃ x y z,
      n.children = [x, y, z] ∧ x.content source = a ∧ y.content source = b ∧
        z.content source = c := by
  rw [Node.content_eq, Content.mk.injEq, contentsOf_eq_map] at h
  obtain ⟨hkind, -, hchildren⟩ := h
  obtain ⟨x, _, hx, hxContent, hchildren⟩ := List.map_eq_cons_iff.mp hchildren
  obtain ⟨y, _, rfl, hyContent, hchildren⟩ := List.map_eq_cons_iff.mp hchildren
  obtain ⟨z, _, rfl, hzContent, hchildren⟩ := List.map_eq_cons_iff.mp hchildren
  obtain rfl := List.map_eq_nil_iff.mp hchildren
  exact ⟨hkind, x, y, z, hx, hxContent, hyContent, hzContent⟩

theorem Node.kind_content {n : Node} {source text : Text} {kind : Kind} {contents : List Content}
    (h : n.content source = ⟨kind, text, contents⟩) : n.kind = kind := by
  rw [Node.content_eq, Content.mk.injEq] at h
  exact h.1

/-- Between an offset and itself is nothing. -/
theorem Text.slice?_self (t : Text) (offset : Nat) : (t.slice? offset offset).getD [] = [] := by
  cases h : after? offset t with
  | none => simp [slice?, h]
  | some rest => simp [slice?, h, splitAt?, cutAt?]

/-- The contents of the nodes of a row. -/
def Forest.contents : Forest → List Content
  | nil => []
  | leaf kind _ word later => ⟨kind, word.text, []⟩ :: later.contents
  | skipped _ _ later => later.contents
  | node kind inner later => ⟨kind, [], inner.contents⟩ :: later.contents

@[simp] theorem Forest.contents_append (f g : Forest) :
    (f ++ g).contents = f.contents ++ g.contents := by
  induction f <;> simp_all [contents]

/-- The row of an expression has one content. -/
theorem Forest.IsExpr.contents {f : Forest} (h : f.IsExpr) : ∃ content, f.contents = [content] := by
  obtain ⟨k, passed, w, rfl⟩ | ⟨k, inner, rfl⟩ := h
  · exact ⟨_, rfl⟩
  · exact ⟨_, rfl⟩

/-- Other blanks do not change the contents. -/
theorem Forest.Respaced.contents {f g : Forest} (h : f.Respaced g) : f.contents = g.contents := by
  induction h with
  | nil => rfl
  | leaf kind _ hw _ ih =>
      have htext := (Prod.mk.inj hw).2
      simp only [Forest.contents, htext, ih]
  | skipped _ _ _ ih => exact ih
  | node kind _ _ ihInside ih => simp only [Forest.contents, ihInside, ih]

/-- The text of a word that stands in a source. -/
theorem Word.Stand.slice_word {source before : Text} {passed later : List Word} {w : Word}
    (h : Word.Stand source before (passed ++ w :: later)) :
    source.slice? w.start w.stop = some w.text := by
  obtain ⟨⟨rest, rfl⟩, hplace⟩ := h
  have hstart := Word.start_of_placed hplace
  have hslice := Text.slice?_append (before ++ Word.flat passed ++ w.gap) w.text
    (Word.flat later ++ rest)
  have hstart' : w.start = (before ++ Word.flat passed ++ w.gap).byteLength := by
    simp only [hstart, Text.byteLength_append, Nat.add_assoc]
  rw [← hstart'] at hslice
  simpa [Token.stop] using hslice

/-- The nodes of a row that stands in a source have the contents of the row. -/
theorem Forest.contentsOf_nodes {source before : Text} {f : Forest}
    (h : Word.Stand source before f.words) (made lastEnd : Nat) :
    contentsOf source (f.nodes made lastEnd) = f.contents := by
  induction f generalizing before made lastEnd with
  | nil => rfl
  | leaf kind passed w later ih =>
      rw [nodes, contentsOf, contents, ih h.tail, Node.content_eq]
      have hword := h.slice_word
      simp [hword, contentsOf]
  | skipped passed w later ih =>
      rw [nodes, contents]
      exact ih h.tail made w.stop
  | node kind inner later ihInner ih =>
      rw [words] at h
      have hinner := ihInner h.append.1 made lastEnd
      rw [nodes, contentsOf, contents, ih h.append.2, Node.content_eq]
      simp only [Node.around, hinner]
      cases hnodes : inner.nodes made lastEnd with
      | nil => simp [Text.slice?_self]
      | cons n rest => simp

/-! ### Texts read on their own -/

/-- The node of a text that is an expression and nothing else. -/
def expression? (text : Text) : Option Node :=
  let tokens := tokenize text
  match (Grammar.operand (Descent.ofDepth tokens.length) 0).run (Cursor.start text tokens) with
  | .ok e c => if c.rest.isEmpty then some e else none
  | .error _ _ => none

/-- A text is an expression with some content. -/
def ReadsAs (text : Text) (content : Content) : Prop :=
  ∃ e, expression? text = some e ∧ e.content text = content

/-- A row whose words spell a text, set at the places that they have in it. -/
theorem Forest.exists_placed {f : Forest} (h : Spells [] f.words [] []) :
    ∃ g, f.Respaced g ∧ tokenize (Word.flat f.words) = g.words.map Word.toToken ∧
      Word.Stand (Word.flat f.words) [] g.words := by
  have hsame : SameWords f.words (Word.place 0 f.words) := by
    have hcontent := Word.content_place 0 f.words
    rw [List.map_map] at hcontent
    exact hcontent.symm
  obtain ⟨g, hg, hwords⟩ := f.exists_respaced hsame
  refine ⟨g, hg, ?_, ?_⟩
  · have htokens := tokenize_spells h rfl
    rw [List.append_nil] at htokens
    rw [htokens, hwords]
  · rw [hwords]
    exact ⟨⟨[], by simp⟩, Word.place_place 0 0 f.words⟩

variable {f : Forest}

/-- The words of an expression are read as this expression. -/
theorem exists_expression (h : Derives [.sub .expr] f (Word.ahead []))
    (hspells : Spells [] f.words [] []) :
    ∃ e, expression? (Word.flat f.words) = some e ∧
      [e.content (Word.flat f.words)] = f.contents := by
  obtain ⟨g, hg, htokens, hstand⟩ := Forest.exists_placed hspells
  have hderives := h.respaced (by simp) hg
  obtain ⟨e, hrun, hnodes⟩ := Grammar.accepts_operand (Grammar.complete_ofDepth g.words.length) 0
    hderives (Nat.le_succ _) (Cursor.start (Word.flat f.words) [])
  have hstart : Cursor.start (Word.flat f.words) (tokenize (Word.flat f.words)) =
      (Cursor.start (Word.flat f.words) []).facing (g.words ++ []) := by
    simp [htokens, Cursor.start, Cursor.facing]
  refine ⟨e, ?_, ?_⟩
  · have hlength : (tokenize (Word.flat f.words)).length = g.words.length := by
      simp [htokens]
    rw [expression?, hlength, hstart, hrun]
    rfl
  · have hcontents := g.contentsOf_nodes hstand (Cursor.start (Word.flat f.words) []).made
      (Cursor.start (Word.flat f.words) []).lastEnd
    rw [← hnodes] at hcontents
    rw [hg.contents, ← hcontents]
    rfl

/-- The words of some statements are read as these statements. -/
theorem exists_tree_of_spells (h : Derives [.sub .items] f (Word.ahead []))
    (hspells : Spells [] f.words [] []) :
    ∃ u, parse (Word.flat f.words) = .ok u ∧ u.errors = [] ∧
      u.root.kind = .aux .chunk ∧ contentsOf u.source u.root.children = f.contents := by
  obtain ⟨g, hg, htokens, hstand⟩ := Forest.exists_placed hspells
  have hparse := parse_of_derives (h.respaced (by simp) hg) htokens
  refine ⟨_, hparse, rfl, rfl, ?_⟩
  rw [hg.contents, ← g.contentsOf_nodes hstand 0 0]
  rfl

end LuauTidy
