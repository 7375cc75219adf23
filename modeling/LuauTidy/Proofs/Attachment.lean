import LuauTidy.Proofs.Places
import LuauTidy.Proofs.Respacing

/-!
# Comments and blank lines

The text of a tree is put together from the texts of its nodes, and every block finds
its place in it: behind the token that opens it, and before the one that closes it.
There the statements of the block are, each joined to those before it.

* `Node.IsShown` — a node in whose text the blocks have their places;
* `Node.isShown` — a node of which all nodes below are sound;
* `Parsed.exists_places`, `Parsed.areLaid` — the blocks of a source, and what is in them;
* `parse_attaches` — the blocks of a source.
-/

namespace LuauTidy

open Typeset (word lineStart)
open Layout (Meets Extends Appends needsBlankLine)
open Enclosure (levels)

/-! ### Children -/

/-- Nodes whose texts are those of the expressions among their children. -/
def Kind.isSeries : Kind → Bool
  | .aux .varList | .aux .exprList | .aux .argList | .aux .interpExpr | .expr .parens
  | .stmt .returnStmt => true
  | _ => false

/-- Blocks, and whole sources. -/
def Kind.isHollow (k : Kind) : Bool := k == .aux .block || k == .aux .chunk

theorem Kind.isHollow_of_isExpr {k : Kind} (h : k.isExpr) : k.isHollow = false := by
  simp [isHollow, Kind.ne_aux_of_isExpr h]

/-- Nodes all of whose children are words. -/
def Kind.hasWords : Kind → Bool
  | .aux .paramList | .aux .funcName | .stmt .breakStmt | .stmt .continueStmt => true
  | _ => false

/-- How the text of a node is put together. -/
theorem Kind.cases_text (k : Kind) : k.isWord ∨ k.hasWords ∨ k.isRow ∨ k.isSeries ∨
    k = .expr .table ∨ k = .aux .fieldList ∨ k.hasClauses ∨ k.isHollow := by
  cases k with
  | token k => exact .inl rfl
  | expr k | stmt k | aux k => cases k <;> decide

theorem Form.hasWords_isWord {kind : Kind} {ks : List Kind} (h : Form kind ks)
    (hkind : kind.hasWords) : ∀ k ∈ ks, k.isWord := by
  cases kind with
  | aux a =>
      cases a with
      | paramList => exact h.words (.inl rfl)
      | funcName => exact h.words (.inr rfl)
      | _ => cases hkind
  | stmt e =>
      cases e with
      | breakStmt | continueStmt =>
          cases h
          decide
      | _ => cases hkind
  | _ => cases hkind

/-- No block is among children that stay on their line. -/
theorem Form.row_isHollow {kind : Kind} {ks : List Kind} (h : Form kind ks) (hkind : kind.isRow) :
    ∀ k ∈ ks, k.isHollow = false := by
  have hexpr : ∀ k : Kind, k.isExpr → k.isHollow = false := fun k hk => Kind.isHollow_of_isExpr hk
  have hcallee : ∀ k : Kind, k.isCallee → k.isHollow = false := fun k hk =>
    hexpr k (Kind.isExpr_of_isCallee hk)
  have hnames : ∀ {ks : List Kind}, Series .comma (· = .aux .binding) ks →
      ∀ k ∈ ks, k.isHollow = false := fun h => h.all (by rintro k rfl; rfl) rfl
  have hvalues : ∀ {ks : List Kind}, Series .comma (·.isExpr) ks →
      ∀ k ∈ ks, k.isHollow = false := fun h => h.all hexpr rfl
  have hnil : ∀ k ∈ ([] : List Kind), k.isHollow = false := List.forall_mem_nil _
  cases h with
  | declaration h => exact List.forall_mem_cons.mpr ⟨rfl, hnames h⟩
  | definition h hv =>
      simp only [List.forall_mem_cons, List.forall_mem_append]
      exact ⟨rfl, hnames h, rfl, hvalues hv⟩
  | interpolation hpieces =>
      simp only [List.forall_mem_cons, List.forall_mem_append]
      refine ⟨rfl, fun k hk => ?_, rfl, hnil⟩
      rcases hpieces k hk with rfl | rfl <;> rfl
  | conditional hc hv hbranches hlast =>
      simp only [List.forall_mem_cons, List.forall_mem_append]
      exact ⟨rfl, hexpr _ hc, rfl, hexpr _ hv, hbranches.all hexpr hexpr rfl rfl, rfl,
        hexpr _ hlast, hnil⟩
  | call hcall | callStatement hcall => exact hcall.all hexpr rfl rfl rfl
  | access hk =>
      simp only [List.forall_mem_cons]
      exact ⟨hcallee _ hk, rfl, rfl, hnil⟩
  | index hk hkey =>
      simp only [List.forall_mem_cons]
      exact ⟨hcallee _ hk, rfl, hexpr _ hkey, rfl, hnil⟩
  | keyedField hkey hv =>
      simp only [List.forall_mem_cons]
      exact ⟨rfl, hexpr _ hkey, rfl, rfl, hexpr _ hv, hnil⟩
  | namedField hv | compoundAssignment _ hv =>
      simp only [List.forall_mem_cons]
      exact ⟨rfl, rfl, hexpr _ hv, hnil⟩
  | itemField hv => exact List.forall_mem_cons.mpr ⟨hexpr _ hv, hnil⟩
  | unary _ hv =>
      simp only [List.forall_mem_cons]
      exact ⟨rfl, hexpr _ hv, hnil⟩
  | binary hleft _ hright =>
      simp only [List.forall_mem_cons]
      exact ⟨hexpr _ hleft, rfl, hexpr _ hright, hnil⟩
  | localFunction | function | assignment | anonymousFunction | variableName => decide
  | @literal k hk => cases k <;> first | (cases hk; done) | cases hkind
  | _ => cases hkind

/-- Among expressions with commas between them there are only words. -/
theorem Form.series_isWord {kind : Kind} {ks : List Kind} (h : Form kind ks)
    (hkind : kind.isSeries) : ∀ k ∈ ks, k.isExpr ∨ k.isWord := by
  have hseries : ∀ {item : Kind → Prop} {ks : List Kind}, Series .comma item ks →
      (∀ k, item k → k.isExpr) → ∀ k ∈ ks, k.isExpr ∨ k.isWord := fun h hitem =>
    h.all (fun k hk => .inl (hitem k hk)) (.inr rfl)
  have hvalues : ∀ {ks : List Kind}, Series .comma (·.isExpr) ks →
      ∀ k ∈ ks, k.isExpr ∨ k.isWord := fun h => hseries h fun _ hk => hk
  cases h with
  | returnNothing | noArguments => simp [Kind.isWord]
  | returnValues h => simpa [Kind.isWord] using hvalues h
  | interpolated hv | parens hv => simp [Kind.isWord, hv]
  | arguments h =>
      simp only [List.forall_mem_cons, List.forall_mem_append]
      exact ⟨.inr rfl, hvalues h, .inr rfl, List.forall_mem_nil _⟩
  | stringArgument | tableArgument => simp [Kind.isExpr, Kind.expr?]
  | varList h => exact hseries h (by rintro k rfl; rfl)
  | exprList h => exact hvalues h
  | @literal k hk => cases k <;> first | (cases hk; done) | cases hkind
  | _ => cases hkind

/-! ### Nodes with their children -/

/-- What is known of a node: what is around it, and that the blocks in it have their
places in its text. -/
structure Node.IsShown (n root : Node) (s : Setting) (around : List Enclosure) : Prop where
  enclosed : root.Encloses around n
  word : n.kind.isWord → n.blocks = []
  shows : n.isHollow = false → Shows s root n.blocks (Typeset.node s (levels around) n)
  block : n.kind = .aux .block → ∀ opener : Node, opener.Precedes s.source n.start →
    ∃ items, items.map Item.node = n.children ∧
      Typeset.block s (levels around + 1) (some opener.stop) n =
        items.flatMap (Item.text s (levels around + 1)) ∧
      (∀ before i later, items = before ++ i :: later → i.IsJoined s (some opener) before) ∧
      Shows s root (blocksOfAll n.children) (items.flatMap (Item.text s (levels around + 1)))

namespace Shows

variable {root : Node} {s : Setting} {around : List Enclosure} {nodes : List Node}

/-- Children that stay on their line. -/
theorem row (h : ∀ c ∈ nodes, c.IsShown root s around)
    (hplain : ∀ c ∈ nodes, c.isHollow = false) (parent : Kind) (first : Bool) :
    Shows s root (blocksOfAll nodes) (Typeset.row s (levels around) parent first nodes) := by
  induction nodes generalizing first with
  | nil => exact .plain _
  | cons n rest ih =>
      rw [List.forall_mem_cons] at h hplain
      have hrest := ih h.2 hplain.2 false
      rw [blocksOfAll_cons]
      by_cases htoken : ∃ k, n.kind = .token k
      · obtain ⟨k, hk⟩ := htoken
        rw [Typeset.row_token hk, h.1.word (by rw [hk]; rfl)]
        exact hrest.behind _
      · rw [Typeset.row_node fun k hk => htoken ⟨k, hk⟩]
        exact (h.1.shows hplain.1).append hrest

/-- Expressions with commas between them. -/
theorem series (h : ∀ c ∈ nodes, c.IsShown root s around)
    (hwords : ∀ c ∈ nodes, c.kind.isExpr ∨ c.kind.isWord) (first : Bool) :
    Shows s root (blocksOfAll nodes) (Typeset.series s (levels around) first nodes) := by
  induction nodes generalizing first with
  | nil => exact .plain _
  | cons n rest ih =>
      rw [List.forall_mem_cons] at h hwords
      rw [blocksOfAll_cons, Typeset.series]
      by_cases hexpr : n.isExpr
      · rw [if_pos hexpr, List.append_assoc]
        exact ((h.1.shows (Kind.isHollow_of_isExpr hexpr)).append (ih h.2 hwords.2 false)).behind _
      · rw [if_neg hexpr, h.1.word (hwords.1.resolve_left hexpr)]
        exact ih h.2 hwords.2 first

/-- The items of a field list, each on its line. -/
theorem fieldLines (h : ∀ c ∈ nodes, c.IsShown root s around)
    (hitem : ∀ c ∈ nodes, c.kind.IsItem) (previous : Option Nat) :
    Shows s root (blocksOfAll nodes) (Typeset.items s (levels around) previous nodes) := by
  induction nodes generalizing previous with
  | nil => exact .plain _
  | cons n rest ih =>
      rw [List.forall_mem_cons] at h hitem
      have hrest := ih h.2 hitem.2 (some n.stop)
      rw [blocksOfAll_cons, Typeset.items]
      rcases hitem.1 with hk | hk | hk | hk
      · have hfield := h.1.shows (by simp [Node.isHollow, hk])
        rw [hk]
        exact ((hfield.behind _).before _).append hrest
      all_goals
        rw [h.1.word (by rw [hk]; rfl)]
        exact hrest.behind _

/-- The only field of a field list. -/
theorem firstField (h : ∀ c ∈ nodes, c.IsShown root s around)
    (hitem : ∀ c ∈ nodes, c.kind.IsItem)
    (hsingle : nodes.countP (·.kind == .aux .field) ≤ 1) :
    Shows s root (blocksOfAll nodes) (Typeset.firstField s (levels around) nodes) := by
  induction nodes with
  | nil => exact .plain _
  | cons n rest ih =>
      rw [List.forall_mem_cons] at h hitem
      rw [List.countP_cons] at hsingle
      rw [blocksOfAll_cons, Typeset.firstField]
      by_cases hfield : n.kind = .aux .field
      · have hwords : blocksOfAll rest = [] := by
          refine blocksOfAll_eq_nil fun c hc => (h.2 c hc).word ?_
          have hnone : rest.countP (·.kind == .aux .field) = 0 := by
            rw [hfield, beq_self_eq_true, if_pos rfl] at hsingle
            omega
          rw [List.countP_eq_zero] at hnone
          rcases hitem.2 c hc with hk | hk | hk | hk
          · exact absurd (by simp [hk]) (hnone c hc)
          all_goals rw [hk]; rfl
        rw [if_pos hfield, hwords, List.append_nil]
        exact h.1.shows (by simp [Node.isHollow, hfield])
      · have hword : n.kind.isWord := by
          rcases hitem.1 with hk | hk | hk | hk
          · exact absurd hk hfield
          all_goals rw [hk]; rfl
        rw [if_neg hfield, h.1.word hword]
        exact ih h.2 hitem.2 (by omega)

/-- A block between two tokens. -/
theorem block {parent opener b closer : Node} {front back later : List Node} {k l : TokenKind}
    {pre post : Text} (h : b.IsShown root s around) (hkind : b.kind = .aux .block)
    (hparent : parent ∈ root.preorder)
    (hchildren : parent.children = front ++ opener :: b :: closer :: back)
    (hopener : opener.kind = .token k) (hcloser : closer.kind = .token l)
    (hprecedes : opener.Precedes s.source b.start) (hpre : k.grammarName.toList <:+ pre)
    (hpost : lineStart (levels around) ++ l.grammarName.toList <+: post)
    (hlater : Shows s root later post) :
    Shows s root (b.blocks ++ later)
      (pre ++ (Typeset.block s (levels around + 1) (some opener.stop) b ++ post)) := by
  obtain ⟨items, hnodes, htext, hjoined, hshows⟩ := h.block hkind opener hprecedes
  have hindent : levels (.node b :: around) = levels around + 1 := Enclosure.levels_block hkind
  rw [Node.blocks_of_isHollow (by simp [Node.isHollow, hkind]), List.cons_append, htext]
  refine Shows.cons (p := ⟨b, around, some opener, pre, items, post⟩)
    ⟨h.enclosed, ?_, hnodes, hjoined⟩
    ?_ (hshows.append hlater)
  · rw [Place.text, Place.indent, hindent]
  · refine ⟨parent, hparent, front, opener, closer, back, k, l, hchildren, rfl, hopener, hcloser,
      hpre, ?_⟩
    rwa [Place.indent, hindent, Nat.add_sub_cancel]

end Shows

/-- Behind a block a token starts a line. -/
theorem Clauses.exists_closer {nodes : List Node} (h : Clauses true (nodes.map Node.kind))
    (s : Setting) (d : Nat) (previous : Option Nat) :
    ∃ closer back l, nodes = closer :: back ∧ closer.kind = .token l ∧
      lineStart d ++ l.grammarName.toList <+: Typeset.clauses s d false previous nodes := by
  have hcloser : ∀ {n : Node} {rest : List Node} {l : TokenKind} (hl : n.kind = .token l),
      lineStart d ++ l.grammarName.toList <+: Typeset.keyword s d false n →
      lineStart d ++ l.grammarName.toList <+: Typeset.clauses s d false previous (n :: rest) := by
    intro n rest l hl hprefix
    rw [Typeset.clauses_token hl]
    exact hprefix.trans (List.prefix_append _ _)
  generalize hks : nodes.map Node.kind = ks at h
  cases h with
  | last =>
      obtain ⟨n, rfl, hn⟩ := List.map_eq_singleton_iff.mp hks
      refine ⟨n, [], .kwEnd, rfl, hn, hcloser hn ?_⟩
      rw [Typeset.keyword, hn]
      exact List.prefix_rfl
  | @closes k _ hk =>
      obtain ⟨n, rest, rfl, hn, -⟩ := List.map_eq_cons_iff.mp hks
      refine ⟨n, rest, k, rfl, hn, hcloser hn ?_⟩
      rw [Typeset.keyword, hn]
      rcases hk with rfl | rfl
      · exact ⟨" ".toList, by simp [TokenKind.grammarName]⟩
      · exact ⟨" ".toList, by simp [TokenKind.grammarName]⟩
  | otherwise =>
      obtain ⟨n, rest, rfl, hn, -⟩ := List.map_eq_cons_iff.mp hks
      refine ⟨n, rest, .kwElse, rfl, hn, hcloser hn ?_⟩
      rw [Typeset.keyword, hn]
      exact List.prefix_rfl

/-- Each child of a node ends before the next one starts. -/
def Node.IsApart (source : Text) (n : Node) : Prop :=
  ∀ front m c back, n.children = front ++ m :: c :: back → m.Precedes source c.start

namespace Shows

variable {root parent : Node} {s : Setting} {around : List Enclosure} {nodes front : List Node}

/-- A token with a block behind it, and what comes behind the block. -/
theorem opened {opener b : Node} {k : TokenKind} {first : Bool}
    (h : ∀ c ∈ opener :: b :: nodes, c.IsShown root s around) (hparent : parent ∈ root.preorder)
    (hapart : parent.IsApart s.source) (hchildren : parent.children = front ++ opener :: b :: nodes)
    (hopener : opener.kind = .token k) (hb : b.kind = .aux .block)
    (hname : k.grammarName.toList <:+ Typeset.keyword s (levels around) first opener)
    (hrest : Clauses true (nodes.map Node.kind))
    (hlater : Shows s root (blocksOfAll nodes)
      (Typeset.clauses s (levels around) false (some b.stop) nodes)) (previous : Option Nat) :
    Shows s root (blocksOfAll (opener :: b :: nodes))
      (Typeset.clauses s (levels around) first previous (opener :: b :: nodes)) := by
  simp only [List.forall_mem_cons] at h
  obtain ⟨closer, back, l, rfl, hl, hcloser⟩ :=
    hrest.exists_closer s (levels around) (some b.stop)
  rw [blocksOfAll_cons, blocksOfAll_cons, h.1.word (by rw [hopener]; rfl), List.nil_append,
    Typeset.clauses_token hopener, Typeset.clauses_block hb]
  exact .block h.2.1 hb hparent hchildren hopener hl (hapart front opener b _ hchildren) hname
    hcloser hlater

/-- Children behind the first one, of a statement with blocks. -/
theorem clauses {inside : Bool} (hkinds : Clauses inside (nodes.map Node.kind))
    (h : ∀ c ∈ nodes, c.IsShown root s around) (hparent : parent ∈ root.preorder)
    (hapart : parent.IsApart s.source) (hchildren : parent.children = front ++ nodes)
    (previous : Option Nat) :
    Shows s root (blocksOfAll nodes)
      (Typeset.clauses s (levels around) false previous nodes) := by
  generalize hks : nodes.map Node.kind = ks at hkinds
  induction hkinds generalizing nodes front previous with
  | last =>
      obtain ⟨n, rfl, hn⟩ := List.map_eq_singleton_iff.mp hks
      rw [List.forall_mem_singleton] at h
      rw [blocksOfAll_cons, h.word (by rw [hn]; rfl)]
      exact .plain _
  | condition hexpr =>
      obtain ⟨n, rfl, rfl⟩ := List.map_eq_singleton_iff.mp hks
      rw [List.forall_mem_singleton] at h
      rw [blocksOfAll_cons, blocksOfAll_nil, Typeset.clauses_node
        (Kind.ne_token_of_isExpr hexpr) (Kind.ne_aux_of_isExpr hexpr _)]
      exact (h.shows (Kind.isHollow_of_isExpr hexpr)).append (.plain _)
  | value hk _ ih =>
      obtain ⟨n, rest, rfl, rfl, hrest⟩ := List.map_eq_cons_iff.mp hks
      rw [List.forall_mem_cons] at h
      have hbehind : parent.children = (front ++ [n]) ++ rest := by simpa using hchildren
      have hlater := ih h.2 hbehind (some n.stop) hrest
      have hn : n.isHollow = false ∧ (∀ k, n.kind ≠ .token k) ∧ n.kind ≠ .aux .block := by
        rcases hk with hexpr | hbinding
        · exact ⟨Kind.isHollow_of_isExpr hexpr, Kind.ne_token_of_isExpr hexpr,
            Kind.ne_aux_of_isExpr hexpr _⟩
        · simp [Node.isHollow, hbinding]
      rw [blocksOfAll_cons, Typeset.clauses_node hn.2.1 hn.2.2]
      exact (h.1.shows hn.1).append hlater
  | mark _ _ ih | closes _ _ ih =>
      obtain ⟨n, rest, rfl, hn, hrest⟩ := List.map_eq_cons_iff.mp hks
      rw [List.forall_mem_cons] at h
      have hbehind : parent.children = (front ++ [n]) ++ rest := by simpa using hchildren
      have hlater := ih h.2 hbehind (some n.stop) hrest
      rw [blocksOfAll_cons, h.1.word (by rw [hn]; rfl), Typeset.clauses_token hn]
      exact hlater.behind _
  | @opens k _ hk htail ih =>
      obtain ⟨n, _, rfl, hn, hkinds⟩ := List.map_eq_cons_iff.mp hks
      obtain ⟨b, rest, rfl, hb, rfl⟩ := List.map_eq_cons_iff.mp hkinds
      have hbehind : parent.children = (front ++ [n, b]) ++ rest := by simpa using hchildren
      have hlater := ih (fun c hc => h c (by simp [hc])) hbehind (some b.stop) rfl
      refine opened h hparent hapart hchildren hn hb ?_ htail hlater previous
      rw [Typeset.keyword, hn]
      rcases hk with rfl | rfl
      · exact ⟨" ".toList, by simp [TokenKind.grammarName]⟩
      · exact ⟨" ".toList, by simp [TokenKind.grammarName]⟩
  | @otherwise _ htail ih =>
      obtain ⟨n, _, rfl, hn, hkinds⟩ := List.map_eq_cons_iff.mp hks
      obtain ⟨b, rest, rfl, hb, rfl⟩ := List.map_eq_cons_iff.mp hkinds
      have hbehind : parent.children = (front ++ [n, b]) ++ rest := by simpa using hchildren
      have hlater := ih (fun c hc => h c (by simp [hc])) hbehind (some b.stop) rfl
      refine opened h hparent hapart hchildren hn hb ?_ htail hlater previous
      rw [Typeset.keyword, hn]
      exact List.suffix_append _ _

/-- A statement with blocks. -/
theorem blockForm (hform : BlockForm (parent.children.map Node.kind))
    (h : ∀ c ∈ parent.children, c.IsShown root s around) (hparent : parent ∈ root.preorder)
    (hapart : parent.IsApart s.source) :
    Shows s root (blocksOfAll parent.children)
      (Typeset.clauses s (levels around) true none parent.children) := by
  generalize hks : parent.children.map Node.kind = ks at hform
  cases hform with
  | condition hk htail =>
      obtain ⟨n, rest, hchildren, hn, rfl⟩ := List.map_eq_cons_iff.mp hks
      rw [hchildren, List.forall_mem_cons] at h
      have hbehind : parent.children = [n] ++ rest := hchildren
      have hlater := clauses htail h.2 hparent hapart hbehind (some n.stop)
      rw [hchildren, blocksOfAll_cons, h.1.word (by rw [hn]; rfl), Typeset.clauses_token hn]
      exact hlater.behind _
  | block hk htail =>
      obtain ⟨n, _, hchildren, hn, hkinds⟩ := List.map_eq_cons_iff.mp hks
      obtain ⟨b, rest, rfl, hb, rfl⟩ := List.map_eq_cons_iff.mp hkinds
      rw [hchildren] at h
      have hwhole : parent.children = [] ++ n :: b :: rest := hchildren
      have hbehind : parent.children = [n, b] ++ rest := hchildren
      have hlater := clauses htail (fun c hc => h c (by simp [hc])) hparent hapart hbehind
        (some b.stop)
      rw [hchildren]
      refine opened h hparent hapart hwhole hn hb ?_ htail hlater none
      rw [Typeset.keyword, hn]
      rcases hk with rfl | rfl
      · exact List.suffix_rfl
      · exact List.suffix_rfl

/-- The body of a function. -/
theorem functionBody (hform : Form (.aux .funcBody) (parent.children.map Node.kind))
    (h : ∀ c ∈ parent.children, c.IsShown root s around) (hparent : parent ∈ root.preorder)
    (hapart : parent.IsApart s.source) :
    Shows s root (blocksOfAll parent.children)
      (Typeset.clauses s (levels around) true none parent.children) := by
  have hend : ∀ {front : List Node} {right body last : Node} (previous : Option Nat),
      parent.children = front ++ [right, body, last] → right.kind = .token .rparen →
      body.kind = .aux .block → last.kind = .token .kwEnd →
      Shows s root (blocksOfAll [right, body, last])
        (Typeset.clauses s (levels around) false previous [right, body, last]) := by
    intro front right body last previous hchildren hright hbody hlast
    rw [hchildren, List.forall_mem_append] at h
    have htail : Clauses true ([last].map Node.kind) := by
      rw [List.map_singleton, hlast]
      exact .last
    have hbehind : parent.children = (front ++ [right, body]) ++ [last] := by
      simpa using hchildren
    have hlater := clauses htail (fun c hc => h.2 c (by simp_all)) hparent hapart hbehind
      (some body.stop)
    refine opened h.2 hparent hapart hchildren hright hbody ?_ htail hlater previous
    rw [Typeset.keyword, hright]
    exact List.suffix_rfl
  generalize hks : parent.children.map Node.kind = ks at hform
  cases hform with
  | functionBody =>
      simp only [List.map_eq_cons_iff, List.map_eq_nil_iff] at hks
      obtain ⟨left, _, hchildren, hleft, right, _, rfl, hright, body, _, rfl, hbody, last, _, rfl,
        hlast, rfl⟩ := hks
      have hbehind : parent.children = [left] ++ [right, body, last] := hchildren
      have hlater := hend (some left.stop) hbehind hright hbody hlast
      rw [hchildren, blocksOfAll_cons, (h left (by simp [hchildren])).word (by rw [hleft]; rfl),
        Typeset.clauses_token hleft]
      exact hlater.behind _
  | functionBodyParams =>
      simp only [List.map_eq_cons_iff, List.map_eq_nil_iff] at hks
      obtain ⟨left, _, hchildren, hleft, params, _, rfl, hparams, right, _, rfl, hright, body, _,
        rfl, hbody, last, _, rfl, hlast, rfl⟩ := hks
      have hbehind : parent.children = [left, params] ++ [right, body, last] := hchildren
      have hlater := hend (some params.stop) hbehind hright hbody hlast
      have hnames := (h params (by simp [hchildren])).shows (by simp [Node.isHollow, hparams])
      rw [hchildren, blocksOfAll_cons, blocksOfAll_cons,
        (h left (by simp [hchildren])).word (by rw [hleft]; rfl), Typeset.clauses_token hleft,
        Typeset.clauses_node (by simp [hparams]) (by simp [hparams])]
      exact (hnames.append hlater).behind _

end Shows

/-! ### Nodes -/

/-- What is around a node leads to it from the root. -/
theorem Node.Encloses.mem_preorder {root n : Node} {around : List Enclosure}
    (h : root.Encloses around n) : n ∈ root.preorder := by
  induction h with
  | root => simp [Node.preorder_eq]
  | child _ hc ih | field _ _ hc ih =>
      exact root.mem_preorder_trans ih
        (Node.mem_preorder_of_child hc (by simp [Node.preorder_eq]))

namespace Node

variable {n root : Node} {s : Setting} {around : List Enclosure}

theorem IsSound.isApart (h : n.IsSound s.source)
    (hchildren : ∀ c ∈ n.children, c.IsSound s.source) : n.IsApart s.source := by
  intro front m c back heq
  have hlined := h.frame.lined (by simp [heq])
  rw [heq] at hlined hchildren
  have hpairs := (List.pairwise_append.mp hlined.pairwise).2.1
  exact ⟨(hchildren m (by simp)).cut.stop, (List.pairwise_cons.mp hpairs).1 c (by simp)⟩

/-- There is no block in a word. -/
theorem IsSound.blocks_of_isWord (h : n.IsSound s.source)
    (hbelow : ∀ c ∈ n.children, c.kind.isWord → c.blocks = []) (hkind : n.kind.isWord) :
    n.blocks = [] := by
  have hhollow : n.isHollow = false := by
    rw [Node.isHollow]
    cases hk : n.kind with
    | aux a => cases a <;> simp_all [Kind.isWord]
    | _ => rfl
  rw [Node.blocks_eq hhollow]
  refine blocksOfAll_eq_nil fun c hc => hbelow c hc ?_
  obtain ⟨ks, hks, hform⟩ := h.form rfl
  have hmem : c.kind ∈ ks := hks ▸ List.mem_map_of_mem hc
  generalize n.kind = kind at hform hkind
  cases hform with
  | token | literal | comment => cases hmem
  | binding =>
      rw [List.mem_singleton.mp hmem]
      rfl
  | _ => cases hkind

/-- There is no block among words. -/
theorem IsSound.blocks_of_hasWords (h : n.IsSound s.source)
    (hbelow : ∀ c ∈ n.children, c.kind.isWord → c.blocks = []) (hkind : n.kind.hasWords) :
    blocksOfAll n.children = [] := by
  obtain ⟨ks, rfl, hform⟩ := h.form rfl
  exact blocksOfAll_eq_nil fun c hc =>
    hbelow c hc (hform.hasWords_isWord hkind c.kind (List.mem_map_of_mem hc))

/-- The statements of a block, with the blocks in them. -/
theorem exists_items (hbelow : ∀ c ∈ n.children, c.IsShown root s (.node n :: around))
    (hchildren : ∀ c ∈ n.children, c.IsSound s.source)
    (hstmt : ∀ c ∈ n.children, c.kind.isStmt) {low high : Nat} (hlined : Lined low n.children high)
    (opener : Option Node) (hopener : ∀ m ∈ opener, m.Precedes s.source low) :
    ∃ items, items.map Item.node = n.children ∧
      Typeset.statements s (levels (.node n :: around)) (opener.map Node.stop) none none
        n.children = items.flatMap (Item.text s (levels (.node n :: around))) ∧
      (∀ before i later, items = before ++ i :: later → i.IsJoined s opener before) ∧
      Shows s root (blocksOfAll n.children)
        (items.flatMap (Item.text s (levels (.node n :: around)))) := by
  obtain ⟨items, hnodes, htext, hjoined⟩ := LuauTidy.exists_items (levels (.node n :: around)) hstmt
    (fun c hc => ⟨(hchildren c hc).cut.start, (hchildren c hc).cut.stop⟩) hlined hopener
  refine ⟨items, hnodes, htext, hjoined, ?_⟩
  rw [← hnodes]
  refine .items fun i hi => ?_
  have hmem : i.node ∈ n.children := hnodes ▸ List.mem_map_of_mem hi
  refine (hbelow i.node hmem).shows ?_
  have hkind := hstmt i.node hmem
  rw [Node.isHollow]
  cases hk : i.node.kind with
  | stmt k => rfl
  | _ => simp [hk, Kind.isStmt, Kind.stmt?] at hkind

variable (h : n.IsSound s.source) (hbelow : ∀ c ∈ n.children, c.IsShown root s (.node n :: around))

include h hbelow

/-- A table with its fields, or without. -/
theorem IsSound.shows_table (hkind : n.kind = .expr .table) :
    Shows s root (blocksOfAll n.children)
      (Typeset.table s (levels (.node n :: around)) n.children) := by
  obtain ⟨ks, hks, hform⟩ := h.form hkind
  cases hform with
  | literal hliteral => cases hliteral
  | emptyTable =>
      have hwords : blocksOfAll n.children = [] := by
        refine blocksOfAll_eq_nil fun c hc => (hbelow c hc).word ?_
        have hmem : c.kind ∈ n.children.map Node.kind := List.mem_map_of_mem hc
        rw [hks] at hmem
        simp only [List.mem_cons, List.not_mem_nil, or_false] at hmem
        rcases hmem with hk | hk <;> rw [hk] <;> rfl
      rw [hwords]
      exact .plain _
  | table =>
      simp only [List.map_eq_cons_iff, List.map_eq_nil_iff] at hks
      obtain ⟨left, _, hchildren, hleft, fields, _, rfl, hfields, right, _, rfl, hright, rfl⟩ := hks
      rw [hchildren] at hbelow ⊢
      simp only [List.forall_mem_cons] at hbelow
      have hshows := hbelow.2.1.shows (by simp [Node.isHollow, hfields])
      rw [blocksOfAll_cons, blocksOfAll_cons, blocksOfAll_cons, blocksOfAll_nil,
        hbelow.1.word (by rw [hleft]; rfl), hbelow.2.2.1.word (by rw [hright]; rfl),
        List.nil_append, List.append_nil, List.append_nil, Typeset.table, if_neg (by simp [hleft]),
        Typeset.table, if_pos hfields]
      exact hshows

/-- The fields of a table, on one line or more. -/
theorem IsSound.shows_fieldList
    (hbroken : ∀ c ∈ n.children, c.IsShown root s (.brokenTable n :: around))
    (hkind : n.kind = .aux .fieldList) :
    Shows s root (blocksOfAll n.children) (Typeset.node s (levels around) n) := by
  have hlevels : levels (.node n :: around) = levels around :=
    Enclosure.levels_node (by simp [hkind])
  rw [Typeset.node_fieldList hkind]
  split
  · rename_i hinline
    rw [Bool.and_eq_true, Layout.mayBeInline, Bool.and_eq_true, decide_eq_true_eq] at hinline
    have hfirst := Shows.firstField hbelow (h.isItem hkind) hinline.1.1
    rw [hlevels] at hfirst
    exact (hfirst.behind _).before _
  · have hlines := Shows.fieldLines hbroken (h.isItem hkind) none
    exact ((hlines.behind _).before _).before _

/-- There is no block in a return without values. -/
theorem IsSound.blocks_of_returnsNothing (hkind : n.kind = .stmt .returnStmt)
    (hlength : ¬n.children.length > 1) : blocksOfAll n.children = [] := by
  obtain ⟨ks, hks, hform⟩ := h.form hkind
  cases hform with
  | returnNothing =>
      obtain ⟨c, hchildren, hc⟩ := List.map_eq_singleton_iff.mp hks
      rw [hchildren, List.forall_mem_singleton] at hbelow
      rw [hchildren, blocksOfAll_cons, hbelow.word (by rw [hc]; rfl)]
      rfl
  | returnValues hvalues =>
      have hlong := congrArg List.length hks
      cases hvalues <;> simp at hlong <;> omega

/-- Expressions with commas between them. -/
theorem IsSound.shows_series (hkind : n.kind.isSeries) :
    Shows s root (blocksOfAll n.children) (Typeset.node s (levels around) n) := by
  have hlevels : levels (.node n :: around) = levels around :=
    Enclosure.levels_node fun hk => by rw [hk] at hkind; cases hkind
  obtain ⟨ks, hks, hform⟩ := h.form rfl
  have hvalues : Shows s root (blocksOfAll n.children)
      (Typeset.series s (levels around) true n.children) := by
    rw [← hlevels]
    refine .series hbelow (fun c hc => ?_) true
    exact hform.series_isWord hkind c.kind (hks ▸ List.mem_map_of_mem hc)
  cases hk : n.kind with
  | aux a =>
      cases a with
      | varList => rwa [Typeset.node_expressions (.inl hk)]
      | exprList => rwa [Typeset.node_expressions (.inr hk)]
      | argList =>
          rw [Typeset.node_argList hk]
          split
          · exact hvalues.behind _
          · exact (hvalues.behind _).before _
      | interpExpr =>
          rw [Typeset.node_interpExpr hk, Typeset.braced]
          exact ((hvalues.behind _).before _).before _
      | _ => simp [hk, Kind.isSeries] at hkind
  | expr e =>
      cases e with
      | parens =>
          rw [Typeset.node_parens hk]
          exact (hvalues.behind _).before _
      | _ => simp [hk, Kind.isSeries] at hkind
  | stmt e =>
      cases e with
      | returnStmt =>
          rw [Typeset.node_returnStmt hk]
          split
          · exact (hvalues.behind _).behind _
          · rename_i hlength
            rw [h.blocks_of_returnsNothing hbelow hk hlength]
            exact .plain _
      | _ => simp [hk, Kind.isSeries] at hkind
  | token k => simp [hk, Kind.isSeries] at hkind

/-- A node with blocks among its children. -/
theorem IsSound.shows_clauses (hn : root.Encloses around n)
    (hchildren : ∀ c ∈ n.children, c.IsSound s.source) (hkind : n.kind.hasClauses) :
    Shows s root (blocksOfAll n.children) (Typeset.node s (levels around) n) := by
  have hlevels : levels (.node n :: around) = levels around :=
    Enclosure.levels_node fun hk => by rw [hk] at hkind; cases hkind
  have hapart := h.isApart hchildren
  obtain ⟨ks, rfl, hform⟩ := h.form rfl
  rw [Typeset.node_of_hasClauses hkind, ← hlevels]
  rw [Kind.hasClauses, Bool.or_eq_true, beq_iff_eq] at hkind
  rcases hkind with hkind | hkind
  · exact .blockForm (hform.blockForm hkind) hbelow hn.mem_preorder hapart
  · rw [hkind] at hform
    exact .functionBody hform hbelow hn.mem_preorder hapart

/-- A node in whose text the blocks have their places, if they have them in the texts of
its children. -/
theorem IsSound.isShown (hn : root.Encloses around n)
    (hchildren : ∀ c ∈ n.children, c.IsSound s.source)
    (hbroken : n.kind = .aux .fieldList →
      ∀ c ∈ n.children, c.IsShown root s (.brokenTable n :: around)) :
    n.IsShown root s around where
  enclosed := hn
  word := h.blocks_of_isWord fun c hc => (hbelow c hc).word
  shows hhollow := by
    have hlevels : levels (.node n :: around) = levels around :=
      Enclosure.levels_node fun hk => by simp [Node.isHollow, hk] at hhollow
    rcases n.kind.cases_text with hk | hk | hk | hk | hk | hk | hk | hk
    · rw [h.blocks_of_isWord (fun c hc => (hbelow c hc).word) hk]
      exact .plain _
    · rw [Node.blocks_eq hhollow, h.blocks_of_hasWords (fun c hc => (hbelow c hc).word) hk]
      exact .plain _
    · rw [Node.blocks_eq hhollow, Typeset.node_of_isRow hk, ← hlevels]
      obtain ⟨ks, hks, hform⟩ := h.form rfl
      refine .row hbelow (fun c hc => ?_) n.kind true
      exact hform.row_isHollow hk c.kind (hks ▸ List.mem_map_of_mem hc)
    · rw [Node.blocks_eq hhollow]
      exact h.shows_series hbelow hk
    · rw [Node.blocks_eq hhollow, Typeset.node_table hk, ← hlevels]
      exact h.shows_table hbelow hk
    · rw [Node.blocks_eq hhollow]
      exact h.shows_fieldList hbelow (hbroken hk) hk
    · rw [Node.blocks_eq hhollow]
      exact h.shows_clauses hbelow hn hchildren hk
    · exact absurd hk (by simpa [Node.isHollow, Kind.isHollow] using hhollow)
  block hkind opener hprecedes := by
    have hlevels : levels (.node n :: around) = levels around + 1 := Enclosure.levels_block hkind
    have hstmt : ∀ c ∈ n.children, c.kind.isStmt := by
      obtain ⟨ks, rfl, hform⟩ := h.form hkind
      cases hform with
      | block hstmt => exact fun c hc => hstmt c.kind (List.mem_map_of_mem hc)
    obtain ⟨high, hlined⟩ := h.lined
    have hitems := exists_items hbelow hchildren hstmt hlined (some opener)
      (by simpa using hprecedes)
    rw [hlevels] at hitems
    obtain ⟨id, kind, start, stop, children⟩ := n
    rw [Typeset.block]
    exact hitems

end Node

mutual

/-- A node of which all nodes below are sound. -/
theorem Node.isShown (root : Node) (s : Setting) (around : List Enclosure) (n : Node)
    (hn : root.Encloses around n) (h : ∀ m ∈ n.preorder, m.IsSound s.source) :
    n.IsShown root s around := by
  cases n with
  | mk id kind start stop children =>
      rw [Node.preorder_eq, List.forall_mem_cons] at h
      obtain ⟨hsound, hbelow⟩ := h
      refine hsound.isShown ?_ hn (fun c hc => ?_) fun hkind => ?_
      · exact areShown root s _ children (fun c hc => hn.child hc) hbelow
      · exact hbelow c (mem_preorderOfAll_of_mem hc)
      · exact areShown root s _ children (fun c hc => hn.field hkind hc) hbelow

/-- So are its siblings. -/
theorem areShown (root : Node) (s : Setting) (around : List Enclosure) (nodes : List Node)
    (hn : ∀ c ∈ nodes, root.Encloses around c)
    (h : ∀ m ∈ preorderOfAll nodes, m.IsSound s.source) :
    ∀ c ∈ nodes, c.IsShown root s around := by
  cases nodes with
  | nil => exact List.forall_mem_nil _
  | cons n rest =>
      rw [preorderOfAll, List.forall_mem_append] at h
      rw [List.forall_mem_cons] at hn
      exact List.forall_mem_cons.mpr
        ⟨Node.isShown root s around n hn.1 h.1, areShown root s around rest hn.2 h.2⟩

end

/-! ### The text of a source -/

/-- The statements of a whole source.  Its first line starts behind nothing, so the text
is one line feed short. -/
theorem Layout.Meets.statements_blank {s : Setting} {nodes : List Node}
    (h : ∀ n ∈ nodes, n.IsTypeset s) (hstmt : ∀ n ∈ nodes, n.kind.isStmt) (parent : Node) :
    Meets (· = Page.blank) (Layout.statements s parent none none none nodes) fun _ p =>
      '\n' :: p.text = Typeset.statements s 0 none none none nodes ++ ['\n'] := by
  cases nodes with
  | nil =>
      rw [Layout.statements, Typeset.statements]
      exact .pure fun p hp => by rw [hp]; rfl
  | cons n rest =>
      rw [List.forall_mem_cons] at h hstmt
      obtain ⟨kind, hkind⟩ : ∃ kind, n.kind = .stmt kind := by
        cases hk : n.kind <;> first | exact ⟨_, rfl⟩ | simp [hk, Kind.isStmt, Kind.stmt?] at hstmt
      have hblank : needsBlankLine none none kind = false := by cases kind <;> rfl
      have hshares : Typeset.sharesLine s none n = false := rfl
      have hrest : Extends 0 _ _ :=
        .statements h.2 hstmt.2 parent (some n.stop) (some kind) (some kind)
      have hfirst := (h.1.statement hstmt.1 0 []).bind fun _ =>
        (hrest (Typeset.node s 0 n).reverse).mono (fun p hp => by simp [hp]) fun _ _ hq => hq
      rw [Layout.statements, Typeset.statements]
      simp only [hkind, hblank, hshares, Bool.and_false]
      refine Meets.bind (.pure (B := fun trailing p => trailing = false ∧ p = Page.blank)
        fun p hp => ⟨rfl, hp⟩) fun trailing => ?_
      rintro p ⟨rfl, rfl⟩ a q hrun
      have hq := hfirst Page.blank rfl a q hrun
      simp [hq, Page.text, lineStart]

/-- What the text of an item is: what the layout writes for the statement on lines of its
own, which begins with ink and ends in no line feed.  A comment keeps its text. -/
structure Item.IsLaid (s : Setting) (d : Nat) (i : Item) : Prop where
  statement : Appends d (Layout.statement s i.node)
    (List.replicate d '\t' ++ (Typeset.node s d i.node ++ ['\n']))
  inked : (Typeset.node s d i.node).IsInked
  closed : (Typeset.node s d i.node).IsClosed
  comment : i.node.kind = .stmt .comment →
    s.source.slice? i.node.start i.node.stop = some (Typeset.node s d i.node)

/-- What is written behind tabs begins with ink. -/
theorem FillsLines.isInked {root : Node} {d : Nat} {l : Layout Unit} {w : Journaled Unit} {t : Text}
    (h : FillsLines root d l w) (happends : Appends d l (List.replicate d '\t' ++ (t ++ ['\n'])))
    (hne : t ≠ []) : t.IsInked := by
  obtain ⟨q, hrun, htext, -⟩ := happends ⟨[], d⟩ rfl
  obtain ⟨⟨c, hc, hline⟩, -⟩ := h [] ⟨[], d⟩ rfl () q hrun
  have hsuffix : c :: (List.replicate d '\t' ++ []) <:+ q.reversed :=
    hline.kept.trans (List.tail_suffix _)
  obtain ⟨first, rest, rfl⟩ := List.exists_cons_of_ne_nil hne
  refine ⟨first, rest, rfl, ?_⟩
  have hprefix : List.replicate d '\t' ++ [c] <+: q.text := by
    rw [← List.reverse_prefix] at hsuffix
    simpa [Page.text] using hsuffix
  rw [htext, show (⟨[], d⟩ : Page).text = [] from rfl, List.nil_append,
    List.prefix_append_right_inj, List.cons_append, List.cons_prefix_cons] at hprefix
  exact hprefix.1 ▸ hc

/-! ### The blocks of a source -/

variable {source : Text} {tree : SyntaxTree} {inner : Forest} {gap : Text}

/-- The statements of a source. -/
theorem Parsed.isLaid (h : Parsed source tree inner gap) (options : LayoutOptions)
    {around : List Enclosure} {i : Item} (hn : i.node ∈ preorderOfAll tree.root.children)
    (hencloses : tree.root.Encloses around i.node) (hkind : i.node.kind.isStmt) :
    i.IsLaid ⟨tree.source, options⟩ (levels around) := by
  have hbelow : ∀ m ∈ i.node.preorder, m ∈ preorderOfAll tree.root.children := fun m hm =>
    mem_preorderOfAll_trans _ hn hm
  obtain ⟨htypeset, hwritten⟩ := h.isTypeset options i.node hn
  have hrecorded := Node.isRecorded tree.root ⟨tree.source, options⟩ around i.node hencloses
    fun m hm => ⟨h.sound m (hbelow m hm), (h.isWord m (hbelow m hm)).hasInk⟩
  have hclosed : (Typeset.node ⟨tree.source, options⟩ (levels around) i.node).IsClosed := by
    refine i.node.isClosed _ (fun m hm => h.isSpelled m (hbelow m hm)) ?_ _
    cases hk : i.node.kind with
    | stmt k => rfl
    | _ => simp [hk, Kind.isStmt, Kind.stmt?] at hkind
  have happends := (htypeset.statement hkind (levels around)).appends (hwritten.statement hkind)
  refine ⟨happends, (hrecorded.statement hkind).isInked happends hclosed.ne_nil, hclosed, ?_⟩
  intro hcomment
  have hsound : i.node.IsSound tree.source := h.sound i.node hn
  obtain ⟨text, htext⟩ := hsound.cut.start.slice hsound.cut.stop hsound.frame.le
  rw [Typeset.node_word (.inl (by rw [hcomment]; exact ⟨rfl, by simp⟩)), word, htext]
  rfl

/-- The statements of a block of a source. -/
theorem Parsed.areStmts_of_isHollow (h : Parsed source tree inner gap) {n : Node}
    (hn : n ∈ tree.root.preorder) (hhollow : n.isHollow) : ∀ c ∈ n.children, c.kind.isStmt := by
  have hform : Form n.kind (n.children.map Node.kind) := h.formed n hn
  simp only [Node.isHollow, Bool.or_eq_true, beq_iff_eq] at hhollow
  rcases hhollow with hk | hk
  · rw [hk] at hform
    cases hform with
    | block hstmt => exact fun c hc => hstmt c.kind (List.mem_map_of_mem hc)
  · rw [hk] at hform
    cases hform with
    | chunk hstmt => exact fun c hc => hstmt c.kind (List.mem_map_of_mem hc)

theorem Layout.block_eq {s : Setting} {opener : Option Nat} {n : Node} :
    Layout.block s opener n = Layout.statements s n opener none none n.children := by
  cases n
  rw [Layout.block]

/-- The blocks of a source have their places in what the layout writes for it. -/
theorem Parsed.exists_places (h : Parsed source tree inner gap) (options : LayoutOptions)
    {page : Page} (hrun : (Layout.block ⟨tree.source, options⟩ none tree.root).run Page.blank =
      .ok ((), page)) :
    ∃ places : List Place, places.map Place.block = tree.root.blocks ∧
      (places.Pairwise fun p q => p.before.length < q.before.length) ∧
      ∀ p ∈ places, p.Holds ⟨tree.source, options⟩ tree.root ('\n' :: page.text) ∧
        (p.IsWhole tree.root ∨ p.IsBetween tree.root) := by
  set s : Setting := ⟨tree.source, options⟩
  have hchildren : ∀ c ∈ tree.root.children, c ∈ preorderOfAll tree.root.children := fun c hc =>
    mem_preorderOfAll_of_mem hc
  have hpage : '\n' :: page.text =
      Typeset.statements s 0 none none none tree.root.children ++ ['\n'] :=
    Layout.Meets.statements_blank (fun c hc => (h.isTypeset options c (hchildren c hc)).1)
      h.areStmts tree.root Page.blank rfl () page (Layout.block_eq ▸ hrun)
  have hinside := areShown tree.root s [.node tree.root] tree.root.children
    (fun c hc => .child .root hc) h.sound
  have hlevels : levels [.node tree.root] = 0 := Enclosure.levels_node (by simp [h.root_kind])
  obtain ⟨items, hnodes, htext, hjoined, hshows⟩ := Node.exists_items hinside
    (fun c hc => h.sound c (hchildren c hc)) h.areStmts h.frames.1 none (by simp)
  rw [hlevels] at htext hshows
  obtain ⟨places, hblocks, hplaces, hsorted⟩ := hshows.before ['\n']
  rw [← htext, Option.map_none, ← hpage] at hplaces
  have hroot : tree.root.isHollow := h.root_isHollow
  let whole : Place := ⟨tree.root, [], none, [], items, ['\n']⟩
  have hwhole : whole.Holds s tree.root ('\n' :: page.text) := by
    refine ⟨.root, ?_, hnodes, hjoined⟩
    rw [Place.text, Place.indent, hlevels, hpage, ← htext]
    rfl
  refine ⟨whole :: places, ?_, ?_, List.forall_mem_cons.mpr ⟨?_, fun p hp => ?_⟩⟩
  · rw [List.map_cons, hblocks, Node.blocks_of_isHollow hroot]
  · exact List.pairwise_cons.mpr
      ⟨fun p hp => List.length_pos_iff.mpr (hplaces p hp).2.before_ne_nil, hsorted⟩
  · exact ⟨hwhole, .inl ⟨rfl, rfl, rfl, rfl⟩⟩
  · exact ⟨(hplaces p hp).1, .inr (hplaces p hp).2⟩

/-- What stands in the place of a block is what the layout writes for its statements. -/
theorem Parsed.areLaid (h : Parsed source tree inner gap) {options : LayoutOptions} {p : Place}
    {t : Text} (hp : p.Holds ⟨tree.source, options⟩ tree.root t) (hhollow : p.block.isHollow) :
    ∀ i ∈ p.items, i.IsLaid ⟨tree.source, options⟩ p.indent := by
  intro i hi
  have hi' : i.node ∈ p.block.children := hp.nodes ▸ List.mem_map_of_mem hi
  have hencloses := hp.enclosed.child hi'
  have hkind := h.areStmts_of_isHollow hp.enclosed.mem_preorder hhollow i.node hi'
  refine h.isLaid options ?_ hencloses hkind
  have hbelow := hencloses.mem_preorder
  rw [Node.preorder_eq, List.mem_cons] at hbelow
  refine hbelow.resolve_left fun heq => ?_
  rw [heq, h.root_kind] at hkind
  cases hkind

/-- Every block of a source has its place in what the source is laid out as: the token that
opens it, its statements in order, and the token that closes it.  A comment is on the line
where the statement before it ends, or where the token ends that opens the block, if no
line feed is between them in the source, and else on a line of its own.  A blank line is
before a comment behind a statement and before a call or an assignment behind declarations,
and nowhere else. -/
theorem parse_attaches (hparse : parse source = .ok tree) (herrors : tree.errors = [])
    (hstrays : tree.strayComments = []) (options : LayoutOptions) :
    let s : Setting := ⟨tree.source, options⟩
    ∃ (page : Page) (places : List Place),
      tree.format options = .ok (.produced page.text.withSingleTrailingNewline) ∧
      (Layout.block s none tree.root).run Page.blank = .ok ((), page) ∧
      places.map Place.block = tree.root.blocks ∧
      (places.Pairwise fun p q => p.before.length < q.before.length) ∧
      ∀ p ∈ places, p.Holds s tree.root ('\n' :: page.text) ∧
        (p.IsWhole tree.root ∨ p.IsBetween tree.root) ∧
        (p.block.children.Pairwise fun m n => m.stop ≤ n.start) ∧
        (∀ i ∈ p.items.head?, i.joint ≠ .ownLine true) ∧
        ∀ i ∈ p.items, i.IsLaid s p.indent := by
  obtain ⟨inner, gap, h⟩ := parse_parsed hparse herrors
  intro s
  obtain ⟨⟨⟩, page, hrun⟩ := h.block_succeeds options Page.blank
  obtain ⟨places, hblocks, hsorted, hplaces⟩ := h.exists_places options hrun
  refine ⟨page, places, ?_, hrun, hblocks, hsorted, fun p hp => ?_⟩
  · rw [h.format_layout options hstrays, hrun]
    rfl
  have hblock : p.block ∈ tree.root.blocks := hblocks ▸ List.mem_map_of_mem hp
  obtain ⟨hmem, hhollow⟩ := List.mem_filter.mp hblock
  obtain ⟨hholds, hframed⟩ := hplaces p hp
  refine ⟨hholds, hframed, ?_, hholds.opens, h.areLaid hholds hhollow⟩
  rcases h.lined p.block hmem with hlined | hnil
  · exact hlined.pairwise
  · rw [hnil]
    exact .nil

/-- Comments on lines of statements and of their own, in a source and in a block. -/
theorem parse_attaches_trailing :
    ∃ (t : SyntaxTree) (page : Page) (places : List Place),
      parse "local a = 1 -- one\nf(a)\n-- two\nif a then -- three\nb()\nend".toList = .ok t ∧
      t.errors = [] ∧ t.strayComments = [] ∧
      page.text.withSingleTrailingNewline =
        "local a = 1 -- one\n\nf(a)\n\n-- two\nif a then -- three\n\tb()\nend\n".toList ∧
      places.length = 2 ∧
      ∀ p ∈ places, p.Holds ⟨t.source, .standard⟩ t.root ('\n' :: page.text) := by
  obtain ⟨t, hparse, herrors, hstrays, htext, hblocks⟩ := exists_tree_with
    "local a = 1 -- one\nf(a)\n-- two\nif a then -- three\nb()\nend".toList
    (p := fun t => t.errors = [] ∧ t.strayComments = [] ∧
      t.format .standard = .ok (.produced
        "local a = 1 -- one\n\nf(a)\n\n-- two\nif a then -- three\n\tb()\nend\n".toList) ∧
      t.root.blocks.length = 2) (by decide +kernel)
  obtain ⟨page, places, hformat, -, hplaces, -, hholds⟩ :=
    parse_attaches hparse herrors hstrays .standard
  rw [htext] at hformat
  have hlength := congrArg List.length hplaces
  rw [List.length_map, hblocks] at hlength
  exact ⟨t, page, places, hparse, herrors, hstrays,
    (Outcome.produced.inj (Except.ok.inj hformat)).symm, hlength, fun p hp => (hholds p hp).1⟩

end LuauTidy
