import LuauTidy.Proofs.Indentation
import LuauTidy.Proofs.Placement
import LuauTidy.Proofs.Typesetting

/-!
# Where texts end

A comment may be put behind what was laid out before it, and the layout of a loop
ends its line unless it has ended already.  For both it matters that no text of an
expression or a statement ends in a line feed.  A token does not, since a comment
stops before the line feed and a string behind its quote; and the text of a node ends
in that of its last child, or in a word of its own.

* `Text.IsClosed` — texts that do not end in a line feed;
* `Code.isClosed` — the tokens of code;
* `Kind.isWhole` — the kinds of nodes whose texts are closed;
* `Node.isClosed` — the text of a node.
-/

namespace LuauTidy

open Lexeme

/-! ### Closed texts -/

/-- A text that ends in a character, which is no line feed. -/
def Text.IsClosed (t : Text) : Prop := ∃ before c, t = before ++ [c] ∧ c ≠ '\n'

namespace Text

variable {t : Text}

theorem IsClosed.append (h : IsClosed t) (before : Text) : IsClosed (before ++ t) := by
  obtain ⟨inside, c, rfl, hc⟩ := h
  exact ⟨before ++ inside, c, by simp, hc⟩

theorem IsClosed.ne_nil (h : IsClosed t) : t ≠ [] := by
  obtain ⟨before, c, rfl, -⟩ := h
  simp

/-- A text that ends in a character. -/
theorem isClosed_of_getLast? {c : Char} (h : t.getLast? = some c) (hc : c ≠ '\n') : IsClosed t := by
  obtain ⟨before, rfl⟩ := List.getLast?_eq_some_iff.mp h
  exact ⟨before, c, rfl, hc⟩

/-- A text without a line feed. -/
theorem isClosed_of_notMem (hne : t ≠ []) (h : '\n' ∉ t) : IsClosed t := by
  obtain ⟨before, c, rfl⟩ := (List.eq_nil_or_concat t).resolve_left hne
  rw [List.concat_eq_append] at h ⊢
  refine ⟨before, c, rfl, ?_⟩
  rintro rfl
  exact h (by simp)

/-- A text of characters that are no line feed. -/
theorem isClosed_of_all {p : Char → Bool} (hp : p '\n' = false) (hne : t ≠ []) (h : t.all p) :
    IsClosed t := by
  refine isClosed_of_notMem hne fun hmem => ?_
  rw [List.all_eq_true.mp h _ hmem] at hp
  cases hp

/-- A page that ends in a closed text does not end in a line feed. -/
theorem IsClosed.head?_reverse (h : IsClosed t) (before : Text) :
    (t.reverse ++ before).head? ≠ some '\n' := by
  obtain ⟨inside, c, rfl, hc⟩ := h
  simpa using hc

end Text

/-! ### Tokens -/

/-- A line comment stops before the line feed. -/
theorem Lexeme.lineComment_all {tail rest : Text}
    (h : lineCommentTail (tail ++ rest) = tail.length) : '\n' ∉ tail := by
  have hle : tail.length ≤ ((tail ++ rest).takeWhile (· != '\n')).length := by
    rw [← h, lineCommentTail]
    split <;> omega
  have hkept : tail <+: (tail ++ rest).takeWhile (· != '\n') :=
    List.prefix_of_prefix_length_le (List.prefix_append _ _) (List.takeWhile_prefix _) hle
  intro hmem
  have hline := List.all_eq_true.mp List.all_takeWhile _ (hkept.subset hmem)
  simp at hline

/-- No token of code ends in a line feed. -/
theorem Code.isClosed {n m : Nesting} {text rest : Text} {cls : TokenClass}
    (h : Code n text rest cls m) (hne : text ≠ []) : text.IsClosed := by
  cases h with
  | word start all stop => exact Text.isClosed_of_all (by decide) hne all
  | number start length stop =>
      have hall := Lexeme.number_numeral (text ++ rest)
      rw [length, List.take_left] at hall
      exact Text.isClosed_of_all (by decide) hne hall
  | @string quote tail rest isQuote closed =>
      have hlast := Lexeme.shortStringTail_last closed
      rw [List.take_left] at hlast
      refine (Text.isClosed_of_getLast? hlast ?_).append [quote]
      rintro rfl
      cases isQuote
  | @longComment level tail rest bracket closed =>
      have hlast := Lexeme.longBracket_last closed
      rw [List.take_left] at hlast
      exact (Text.isClosed_of_getLast? hlast (by decide)).append ['-', '-']
  | @lineComment tail rest bracket length =>
      exact Text.isClosed_of_notMem hne (by simpa using Lexeme.lineComment_all length)
  | longString bracket closed =>
      have hlast := Lexeme.longBracket_last closed
      rw [List.take_left] at hlast
      exact Text.isClosed_of_getLast? hlast (by decide)
  | interpStart | lbrace | rbrace | vararg => exact Text.isClosed_of_notMem hne (by decide)
  | @symbol k rest number comment bracket vararg found =>
      have hplain : ∀ k ∈ TokenKind.symbols, '\n' ∉ k.grammarName.toList := by decide
      exact Text.isClosed_of_notMem hne (hplain k (List.mem_of_find?_eq_some found))

/-- Delimiting a literal anew leaves a closed text. -/
theorem normalizeQuotes_isClosed {literal t : Text} (h : literal.IsClosed)
    (hquotes : normalizeQuotes literal = .ok t) : t.IsClosed := by
  unfold normalizeQuotes at hquotes
  split at hquotes
  · cases hquotes
    exact h
  · rename_i current _
    split at hquotes
    · rename_i hquote
      split at hquotes
      · cases hquotes
      · rename_i body _
        dsimp only at hquotes
        split at hquotes
        · cases hquotes
          exact h
        · cases hquotes
          have hpreferred := isQuote_preferredQuote hquote (StringPiece.ofBody body)
          refine ⟨_, preferredQuote current (StringPiece.ofBody body), rfl, ?_⟩
          intro heq
          rw [heq] at hpreferred
          cases hpreferred
    · cases hquotes
      exact h

/-! ### Last children -/

/-- Nodes whose texts are closed. -/
def Kind.isWhole : Kind → Bool
  | .expr _ | .stmt _ | .aux .argList | .aux .exprList | .aux .fieldList | .aux .field
  | .aux .funcBody | .aux .binding => true
  | _ => false

/-- Children that close the text of a node, when they come last. -/
inductive Kind.Ends : (parent last : Kind) → Prop
  | whole {parent last : Kind} (h : last.isWhole) : Ends parent last
  | quote : Ends (.expr .interpolation) (.token .interpEnd)
  | name : Ends (.expr .var) (.token .name)
  | bracket : Ends (.expr .var) (.token .rbracket)
  | keyword {parent : Kind} (h : parent.hasClauses) : Ends parent (.token .kwEnd)

theorem Kind.isWhole_of_isExpr {k : Kind} (h : k.isExpr) : k.isWhole := by
  cases k with
  | expr e => rfl
  | _ => cases h

theorem Series.ends {separator : TokenKind} {item : Kind → Prop} {ks : List Kind}
    (h : Series separator item ks) : ∃ init last, ks = init ++ [last] ∧ item last := by
  induction h with
  | one hk => exact ⟨[], _, rfl, hk⟩
  | cons hk _ ih =>
      obtain ⟨init, last, rfl, hlast⟩ := ih
      exact ⟨_ :: _ :: init, last, rfl, hlast⟩

theorem Series.exists_item {separator : TokenKind} {item : Kind → Prop} {ks : List Kind}
    (h : Series separator item ks) : ∃ k ∈ ks, item k := by
  obtain ⟨init, last, rfl, hlast⟩ := h.ends
  exact ⟨last, by simp, hlast⟩

theorem CallForm.ends {ks : List Kind} (h : CallForm ks) :
    ∃ init, ks = init ++ [.aux .argList] := by
  cases h with
  | call => exact ⟨[_], rfl⟩
  | method => exact ⟨[_, _, _], rfl⟩

/-- The last child of a node that has a text of its children. -/
theorem Form.ends {kind : Kind} {ks : List Kind} (h : Form kind ks)
    (hkind : kind.isRow || kind.hasClauses) :
    ∃ init last, ks = init ++ [last] ∧ kind.Ends last := by
  have whole : ∀ {k : Kind}, k.isExpr → kind.Ends k := fun h => .whole (Kind.isWhole_of_isExpr h)
  cases h with
  | @interpolation pieces hpieces => exact ⟨_ :: pieces, _, rfl, .quote⟩
  | variableName => exact ⟨[], _, rfl, .name⟩
  | access hk => exact ⟨[_, _], _, rfl, .name⟩
  | index hk hkey => exact ⟨[_, _, _], _, rfl, .bracket⟩
  | call hcall | callStatement hcall =>
      obtain ⟨init, rfl⟩ := hcall.ends
      exact ⟨init, _, rfl, .whole rfl⟩
  | @conditional c value last branches _ _ _ hlast =>
      exact ⟨.token .kwIf :: c :: .token .kwThen :: value :: (branches ++ [.token .kwElse]), last,
        by simp, whole hlast⟩
  | functionBody => exact ⟨[_, _, _], _, rfl, .keyword rfl⟩
  | functionBodyParams => exact ⟨[_, _, _, _], _, rfl, .keyword rfl⟩
  | keyedField hkey hv => exact ⟨[_, _, _, _], _, rfl, whole hv⟩
  | namedField hv => exact ⟨[_, _], _, rfl, whole hv⟩
  | itemField hv => exact ⟨[], _, rfl, whole hv⟩
  | declaration hnames =>
      obtain ⟨init, _, rfl, rfl⟩ := hnames.ends
      exact ⟨_ :: init, _, rfl, .whole rfl⟩
  | @definition names _ _ hvalues =>
      obtain ⟨init, _, rfl, hlast⟩ := hvalues.ends
      exact ⟨.token .kwLocal :: (names ++ .token .assign :: init), _, by simp,
        whole hlast⟩
  | localFunction => exact ⟨[_, _, _], _, rfl, .whole rfl⟩
  | function | assignment => exact ⟨[_, _], _, rfl, .whole rfl⟩
  | compoundAssignment _ hv => exact ⟨[_, _], _, rfl, whole hv⟩
  | anonymousFunction => exact ⟨[_], _, rfl, .whole rfl⟩
  | unary _ hv => exact ⟨[_], _, rfl, whole hv⟩
  | binary _ _ hv => exact ⟨[_, _], _, rfl, whole hv⟩
  | @ifStatement _ branches => exact ⟨_ :: _ :: _ :: _ :: branches, _, rfl, .keyword rfl⟩
  | @ifElseStatement c branches =>
      exact ⟨.token .kwIf :: c :: .token .kwThen :: .aux .block ::
        (branches ++ [.token .kwElse, .aux .block]), .token .kwEnd, by simp, .keyword rfl⟩
  | whileStatement => exact ⟨[_, _, _, _], _, rfl, .keyword rfl⟩
  | doStatement => exact ⟨[_, _], _, rfl, .keyword rfl⟩
  | repeatStatement hc => exact ⟨[_, _, _], _, rfl, whole hc⟩
  | forRange => exact ⟨[_, _, _, _, _, _, _, _], _, rfl, .keyword rfl⟩
  | forRangeStep => exact ⟨[_, _, _, _, _, _, _, _, _, _], _, rfl, .keyword rfl⟩
  | @forIn names values =>
      exact ⟨.token .kwFor :: (names ++ .token .kwIn :: (values ++ [.token .kwDo, .aux .block])),
        .token .kwEnd, by simp, .keyword rfl⟩
  | @literal k hk => cases k <;> first | (cases hk; done) | cases hkind
  | _ => cases hkind

/-! ### The text of a node -/

namespace Typeset

variable {s : Setting} {d : Nat} {n last : Node} {init nodes : List Node}

/-- A row ends as its last child does. -/
theorem row_isClosed {parent : Kind} (h : ∀ first, (row s d parent first [last]).IsClosed)
    (first : Bool) : (row s d parent first (init ++ [last])).IsClosed := by
  induction init generalizing first with
  | nil => exact h first
  | cons n init ih =>
      rw [List.cons_append, row]
      exact (ih false).append _

/-- Children with blocks among them end as the last one does. -/
theorem clauses_isClosed (h : ∀ first previous, (clauses s d first previous [last]).IsClosed)
    (first : Bool) (previous : Option Nat) :
    (clauses s d first previous (init ++ [last])).IsClosed := by
  induction init generalizing first previous with
  | nil => exact h first previous
  | cons n init ih =>
      rw [List.cons_append, clauses]
      exact (ih false _).append _

/-- A list of expressions ends as the last one does. -/
theorem series_isClosed (h : ∀ n ∈ nodes, n.isExpr → (node s d n).IsClosed)
    (hsome : ∃ n ∈ nodes, n.isExpr) (first : Bool) : (series s d first nodes).IsClosed := by
  induction nodes generalizing first with
  | nil =>
      obtain ⟨n, hn, -⟩ := hsome
      cases hn
  | cons n rest ih =>
      rw [List.forall_mem_cons] at h
      rw [series]
      by_cases hrest : ∃ m ∈ rest, m.isExpr
      · split
        · exact (ih h.2 hrest false).append _
        · exact ih h.2 hrest first
      · have hn : n.isExpr := by
          obtain ⟨m, hm, hexpr⟩ := hsome
          obtain rfl | hm := List.mem_cons.mp hm
          · exact hexpr
          · exact absurd ⟨m, hm, hexpr⟩ hrest
        rw [if_pos hn, series_eq_nil (by simpa using hrest), List.append_nil]
        exact (h.1 hn).append _

/-- A table ends in a brace. -/
theorem table_isClosed (h : ∀ n ∈ nodes, n.kind = .aux .fieldList → (node s d n).IsClosed) :
    (table s d nodes).IsClosed := by
  induction nodes with
  | nil => exact ⟨['{'], '}', by rw [table]; rfl, by decide⟩
  | cons n rest ih =>
      rw [List.forall_mem_cons] at h
      rw [table]
      split
      · exact h.1 ‹_›
      · exact ih h.2

end Typeset

/-! ### Nodes of a source -/

/-- What a node of a source is known for: it is sound, it spans its children, and its
word, if it is one, is a token. -/
structure Node.IsSpelled (source : Text) (n : Node) : Prop where
  sound : n.IsSound source
  spans : n.SpansChildren
  word : n.IsWord source

theorem Parsed.isSpelled {t : SyntaxTree} {source : Text} {inner : Forest} {gap : Text}
    (h : Parsed source t inner gap) :
    ∀ m ∈ preorderOfAll t.root.children, m.IsSpelled t.source := by
  intro m hm
  refine ⟨h.sound m hm, ?_, h.isWord m hm⟩
  rw [h.children_eq] at hm
  exact inner.spansChildren 0 0 m hm

namespace Node

open Typeset

variable {s : Setting} {n : Node}

/-- A word does not end in a line feed. -/
theorem IsWord.isClosed (h : n.IsWord s.source) (hkind : n.kind.isInked) :
    (Typeset.word s n).IsClosed := by
  obtain ⟨_, _, text, _, _, htakes, hcls, htext⟩ := h hkind
  rw [Typeset.word, htext]
  exact (htakes.code_of_cls hcls).isClosed htakes.ne_nil

/-- The kinds of children tell whether an expression is among them. -/
theorem exists_isExpr {nodes : List Node} (h : ∃ k ∈ nodes.map Node.kind, k.isExpr) :
    ∃ c ∈ nodes, c.isExpr := by
  obtain ⟨k, hk, hexpr⟩ := h
  obtain ⟨c, hc, rfl⟩ := List.mem_map.mp hk
  exact ⟨c, hc, hexpr⟩

theorem exists_isExpr_of_isSugar {nodes : List Node}
    (h : Layout.isSugar (nodes.filter (·.isExpr))) : ∃ c ∈ nodes, c.isExpr := by
  unfold Layout.isSugar at h
  split at h
  · rename_i only honly
    have hmem : only ∈ nodes.filter (·.isExpr) := by simp [honly]
    exact ⟨only, List.mem_filter.mp hmem⟩
  · cases h

variable (h : n.IsSpelled s.source)
  (hbelow : ∀ c ∈ n.children, c.IsSpelled s.source ∧
    (c.kind.isWhole → ∀ d, (node s d c).IsClosed))

include h hbelow

/-- A name that is declared. -/
theorem IsSpelled.binding_isClosed (hkind : n.kind = .aux .binding) :
    (Typeset.word s n).IsClosed := by
  obtain ⟨ks, hks, hform⟩ := h.sound.form hkind
  cases hform with
  | binding =>
      obtain ⟨name, _, hchildren, hname, hnil⟩ := List.map_eq_cons_iff.mp hks
      obtain rfl := List.map_eq_nil_iff.mp hnil
      have hword : Typeset.word s n = Typeset.word s name := by
        rw [Typeset.word, Typeset.word, h.spans.1 name (by simp [hchildren]),
          h.spans.2 name (by simp [hchildren])]
      rw [hword]
      exact (hbelow name (by simp [hchildren])).1.word.isClosed (by rw [hname]; rfl)

omit h in
/-- A child that closes the row of its parent. -/
theorem row_isClosed {init : List Node} {last : Node}
    (hchildren : n.children = init ++ [last]) (hends : n.kind.Ends last.kind)
    (hrow : n.kind.isRow) (d : Nat) : (row s d n.kind true n.children).IsClosed := by
  rw [hchildren]
  refine Typeset.row_isClosed (fun first => ?_) true
  obtain ⟨hlast, hwhole⟩ := hbelow last (by simp [hchildren])
  generalize hkind : n.kind = kind at hends hrow
  generalize hlastKind : last.kind = k at hends
  cases hends with
  | whole hk =>
      subst hlastKind
      rw [row_node (fun k heq => by rw [heq] at hk; cases hk), row, List.append_nil]
      exact hwhole hk d
  | quote =>
      rw [row_token hlastKind, row, List.append_nil, sign_of_rule rfl, ruled, hlastKind]
      exact ⟨[], '`', rfl, by decide⟩
  | name =>
      have hname : ruled s Rule.var first last = Typeset.word s last := by
        rw [ruled, hlastKind]
        exact List.append_nil _
      rw [row_token hlastKind, row, List.append_nil, sign_of_rule rfl, hname]
      exact hlast.word.isClosed (by rw [hlastKind]; rfl)
  | bracket =>
      rw [row_token hlastKind, row, List.append_nil, sign_of_rule rfl, ruled, hlastKind]
      exact ⟨[], ']', rfl, by decide⟩
  | keyword hclauses =>
      cases kind with
      | expr k | stmt k | aux k => cases k <;> first | (cases hrow; done) | cases hclauses
      | token k => cases hrow

omit h in
/-- A child that closes the text of its parent, which has blocks. -/
theorem clauses_isClosed {init : List Node} {last : Node}
    (hchildren : n.children = init ++ [last]) (hends : n.kind.Ends last.kind)
    (hclauses : n.kind.hasClauses) (d : Nat) :
    (clauses s d true none n.children).IsClosed := by
  rw [hchildren]
  refine Typeset.clauses_isClosed (fun first previous => ?_) true none
  obtain ⟨hlast, hwhole⟩ := hbelow last (by simp [hchildren])
  generalize hkind : n.kind = kind at hends hclauses
  generalize hlastKind : last.kind = k at hends
  cases hends with
  | whole hk =>
      subst hlastKind
      rw [clauses_node (fun k heq => by rw [heq] at hk; cases hk)
        (fun heq => by rw [heq] at hk; cases hk), clauses, List.append_nil]
      exact hwhole hk d
  | keyword =>
      rw [clauses_token hlastKind, clauses, List.append_nil, keyword, hlastKind]
      exact Text.IsClosed.append ⟨"en".toList, 'd', rfl, by decide⟩ _
  | quote | name | bracket => cases hclauses

omit hbelow in
/-- Lists of expressions are not empty. -/
theorem IsSpelled.exists_listed (hkind : n.kind = .aux .exprList) : ∃ c ∈ n.children, c.isExpr := by
  obtain ⟨ks, hks, hform⟩ := h.sound.form hkind
  cases hform with
  | exprList hvalues => exact exists_isExpr (hks ▸ hvalues.exists_item)

omit hbelow in
/-- Neither are lists of values that are returned, if there is one. -/
theorem IsSpelled.exists_returned (hkind : n.kind = .stmt .returnStmt)
    (hlength : n.children.length > 1) : ∃ c ∈ n.children, c.isExpr := by
  obtain ⟨ks, hks, hform⟩ := h.sound.form hkind
  rw [← List.length_map, hks] at hlength
  cases hform with
  | returnNothing => simp at hlength
  | returnValues hvalues =>
      obtain ⟨k, hk, hexpr⟩ := hvalues.exists_item
      exact exists_isExpr (hks ▸ ⟨k, List.mem_cons_of_mem _ hk, hexpr⟩)

omit hbelow in
/-- A literal is closed, and also when it is delimited anew. -/
theorem IsSpelled.string_isClosed (hkind : n.kind = .expr .string) (d : Nat) :
    (node s d n).IsClosed := by
  obtain ⟨literal, hliteral⟩ := h.sound.cut.start.slice h.sound.cut.stop h.sound.frame.le
  obtain ⟨quoted, hquoted⟩ := h.sound.cut.literal hkind literal hliteral
  have hword := h.word.isClosed (by rw [hkind]; rfl)
  rw [Typeset.word, hliteral] at hword
  rw [node_string hkind, Typeset.word, hliteral, Option.getD_some, hquoted]
  exact normalizeQuotes_isClosed hword hquoted

/-- A node whose text is a row ends as its last child does. -/
theorem IsSpelled.ends_isClosed (hkind : n.kind.isRow || n.kind.hasClauses) (d : Nat) :
    (node s d n).IsClosed := by
  obtain ⟨inits, last, hks, hends⟩ := Form.ends h.sound.formed hkind
  obtain ⟨init, lasts, hchildren, rfl, hlasts⟩ := List.map_eq_append_iff.mp hks
  obtain ⟨last, rfl, rfl⟩ := List.map_eq_singleton_iff.mp hlasts
  rcases Bool.or_eq_true_iff.mp hkind with hrow | hclauses
  · rw [node_of_isRow hrow]
    exact n.row_isClosed hbelow hchildren hends hrow d
  · rw [node_of_hasClauses hclauses]
    exact n.clauses_isClosed hbelow hchildren hends hclauses d

/-- Whether the text of a node is closed, from the texts of its children. -/
theorem IsSpelled.isClosed (hkind : n.kind.isWhole) (d : Nat) : (node s d n).IsClosed := by
  have hword : n.kind.isInked → n.kind ≠ .expr .string → (node s d n).IsClosed := fun hink hne => by
    rw [node_word (.inl ⟨hink, hne⟩)]
    exact h.word.isClosed hink
  have hlast : n.kind.isRow || n.kind.hasClauses → (node s d n).IsClosed := fun hrow =>
    h.ends_isClosed hbelow hrow d
  have hexprs : ∀ c ∈ n.children, c.isExpr → (node s d c).IsClosed := fun c hc hexpr =>
    (hbelow c hc).2 (Kind.isWhole_of_isExpr hexpr) d
  have hseries : (∃ c ∈ n.children, c.isExpr) → (series s d true n.children).IsClosed :=
    fun hsome => series_isClosed hexprs hsome true
  have hbrace : Text.IsClosed "\x7d".toList := ⟨[], '\x7d', rfl, by decide⟩
  have hparen : Text.IsClosed ")".toList := ⟨[], ')', rfl, by decide⟩
  cases hk : n.kind with
  | expr k =>
      cases k with
      | nil | true | false | number | vararg => exact hword (by rw [hk]; rfl) (by simp [hk])
      | string => exact h.string_isClosed hk d
      | interpolation | var | call | conditional | binary | unary | function =>
          exact hlast (by rw [hk]; rfl)
      | table =>
          rw [node_table hk]
          exact table_isClosed fun c hc hlist => (hbelow c hc).2 (by rw [hlist]; rfl) d
      | parens =>
          rw [node_parens hk]
          exact hparen.append _
  | stmt k =>
      cases k with
      | comment => exact hword (by rw [hk]; rfl) (by simp [hk])
      | returnStmt =>
          rw [node_returnStmt hk]
          split
          · rename_i hlength
            exact ((hseries (h.exists_returned hk hlength)).append _).append _
          · exact ⟨"retur".toList, 'n', rfl, by decide⟩
      | breakStmt =>
          rw [node_breakStmt hk]
          exact ⟨"brea".toList, 'k', rfl, by decide⟩
      | continueStmt =>
          rw [node_continueStmt hk]
          exact ⟨"continu".toList, 'e', rfl, by decide⟩
      | _ => exact hlast (by rw [hk]; rfl)
  | aux k =>
      cases k with
      | argList =>
          rw [node_argList hk]
          split
          · rename_i hsugar
            rw [Bool.and_eq_true] at hsugar
            exact (hseries (exists_isExpr_of_isSugar hsugar.1)).append _
          · exact hparen.append _
      | exprList =>
          rw [node_expressions (.inr hk)]
          exact hseries (h.exists_listed hk)
      | fieldList =>
          rw [node_fieldList hk]
          split <;> exact hbrace.append _
      | binding =>
          rw [node_word (.inr hk)]
          exact h.binding_isClosed hbelow hk
      | field | funcBody => exact hlast (by rw [hk]; rfl)
      | _ => rw [hk] at hkind; cases hkind
  | token k => rw [hk] at hkind; cases hkind

end Node

mutual

/-- The text of a node of a source does not end in a line feed. -/
theorem Node.isClosed (s : Setting) (n : Node) (h : ∀ m ∈ n.preorder, m.IsSpelled s.source)
    (hkind : n.kind.isWhole) (d : Nat) : (Typeset.node s d n).IsClosed := by
  cases n with
  | mk id kind start stop children =>
      rw [Node.preorder_eq, List.forall_mem_cons] at h
      exact h.1.isClosed (areClosed s children h.2) hkind d

/-- Neither do those of siblings. -/
theorem areClosed (s : Setting) (nodes : List Node)
    (h : ∀ m ∈ preorderOfAll nodes, m.IsSpelled s.source) :
    ∀ c ∈ nodes, c.IsSpelled s.source ∧
      (c.kind.isWhole → ∀ d, (Typeset.node s d c).IsClosed) := by
  cases nodes with
  | nil => exact List.forall_mem_nil _
  | cons n rest =>
      rw [preorderOfAll, List.forall_mem_append] at h
      exact List.forall_mem_cons.mpr ⟨⟨h.1 n (by simp [Node.preorder_eq]), n.isClosed s h.1⟩,
        areClosed s rest h.2⟩

end

end LuauTidy
