import LuauTidy.StringLiteral
import LuauTidy.Proofs.Contexts
import LuauTidy.Proofs.Fates

/-!
# Cuts

The source of a tree may be cut wherever a node starts or stops, since there a
word does.  The layout also cuts the quotes off the literal of a string; there
are quotes at both ends of it, unless it begins with a bracket.

* `Text.IsCut`, `Text.IsCut.slice` — offsets between characters;
* `Takes.normalizeQuotes` — strings are delimited anew;
* `Node.IsCut`, `Forest.cuts` — the nodes of a row.
-/

namespace LuauTidy

/-! ### Cuts -/

/-- An offset between two characters of a text, or at one of its ends. -/
def Text.IsCut (t : Text) (offset : Nat) : Prop :=
  ∃ before after, t = before ++ after ∧ before.byteLength = offset

/-- The text between two cuts. -/
theorem Text.IsCut.slice {t : Text} {start stop : Nat} (hstart : t.IsCut start)
    (hstop : t.IsCut stop) (hle : start ≤ stop) : ∃ part, t.slice? start stop = some part := by
  obtain ⟨a, b, rfl, rfl⟩ := hstart
  obtain ⟨c, d, heq, rfl⟩ := hstop
  obtain ⟨middle, rfl, rfl⟩ | ⟨middle, rfl, rfl⟩ := List.append_eq_append_iff.mp heq
  · exact ⟨middle, by simpa using Text.slice?_append a middle d⟩
  · have hnil : middle = [] := by
      rw [← Text.byteLength_eq_zero]
      simp only [Text.byteLength_append] at hle
      omega
    subst hnil
    exact ⟨[], by simpa using Text.slice?_append c [] b⟩

/-! ### String literals -/

/-- A string literal is delimited by quotes, or begins with a bracket. -/
theorem Takes.string_text {n m : Nesting} {text rest : Text}
    (h : Takes n text rest (.literal .string) m) :
    (∃ quote body, isQuote quote ∧ text = delimited quote body) ∨ ∃ tail, text = '[' :: tail := by
  have hne := h.ne_nil
  generalize hcls : TokenClass.literal .string = cls at h
  cases h.code_of_cls (hcls ▸ rfl) with
  | @string quote tail rest hquote closed =>
      have hlast := Lexeme.shortStringTail_last closed
      rw [List.take_left] at hlast
      obtain ⟨body, rfl⟩ := List.getLast?_eq_some_iff.mp hlast
      exact .inl ⟨quote, body, by simpa [isQuote, Bool.or_comm] using hquote, rfl⟩
  | @longString level text rest bracket closed =>
      obtain ⟨c, tail, rfl⟩ := List.exists_cons_of_ne_nil hne
      unfold Lexeme.longBracketLevel? at bracket
      split at bracket
      · rename_i heq
        obtain ⟨rfl, -⟩ := List.cons.inj heq
        exact .inr ⟨tail, rfl⟩
      · cases bracket
  | @word text rest start all stop =>
      simp only [Lexeme.wordClass] at hcls
      repeat' split at hcls
      all_goals cases hcls
  | number | interpStart | lbrace | rbrace | longComment | lineComment | vararg | symbol => cases hcls

/-- The body of a literal is what stands between its first and its last byte. -/
theorem slice?_delimited {quote : Char} (hquote : isQuote quote) (body : Text) :
    Text.slice? (delimited quote body) 1 ((delimited quote body).byteLength - 1) = some body := by
  have hsize : quote.utf8Size = 1 := by
    simp only [isQuote, Bool.or_eq_true, beq_iff_eq] at hquote
    obtain rfl | rfl := hquote <;> rfl
  have h := Text.slice?_append [quote] body [quote]
  simpa [delimited, hsize, Nat.add_comm, ← Nat.add_assoc] using h

/-- A string literal can be delimited anew. -/
theorem Takes.normalizeQuotes {n m : Nesting} {text rest : Text}
    (h : Takes n text rest (.literal .string) m) : ∃ t, normalizeQuotes text = .ok t := by
  obtain ⟨quote, body, hquote, rfl⟩ | ⟨tail, rfl⟩ := h.string_text
  · have hslice := slice?_delimited hquote body
    simp only [LuauTidy.normalizeQuotes, delimited, List.cons_append, hquote, if_true] at hslice ⊢
    rw [hslice]
    dsimp only
    split
    · exact ⟨_, rfl⟩
    · exact ⟨_, rfl⟩
  · exact ⟨_, rfl⟩

/-! ### Words and nodes in a source -/

variable {t : SyntaxTree}

/-- A word in a source lies between two cuts, and its text between them. -/
theorem Word.Among.cuts {a passed ws b : List Word} {w : Word}
    (h : Word.Among t a (passed ++ w :: ws) b) :
    t.source.IsCut w.start ∧ t.source.IsCut w.stop ∧
      t.source.slice? w.start w.stop = some w.text := by
  obtain ⟨rest, hsource⟩ := h.source_eq
  have hstart := Word.start_of_placed h.stand.2
  have hparts : t.source = (Word.flat a ++ Word.flat passed ++ w.gap) ++ (w.text ++
      (Word.flat ws ++ (Word.flat b ++ rest))) := by
    simp [hsource]
  have hplace : w.start = (Word.flat a ++ Word.flat passed ++ w.gap).byteLength := by
    simp [hstart, ← Nat.add_assoc]
  have hstop : w.stop = (Word.flat a ++ Word.flat passed ++ w.gap).byteLength + w.text.byteLength := by
    rw [Token.stop, hplace]
  refine ⟨⟨_, _, hparts, hplace.symm⟩, ?_, ?_⟩
  · refine ⟨Word.flat a ++ Word.flat passed ++ w.gap ++ w.text,
      Word.flat ws ++ (Word.flat b ++ rest), ?_, by rw [Text.byteLength_append, hstop]⟩
    rw [hparts, List.append_assoc _ w.text]
  · rw [hstop, hplace, hparts, Text.slice?_append]

/-- A row ends at a cut. -/
theorem Forest.endFrom_cut {f : Forest} {ws vs : List Word} (hamong : Word.Among t ws f.words vs)
    {lastEnd : Nat} (hlast : t.source.IsCut lastEnd) : t.source.IsCut (f.endFrom lastEnd) := by
  induction f generalizing ws vs lastEnd with
  | nil => exact hlast
  | leaf kind passed w later ih =>
      refine ih hamong.tail ?_
      split
      · exact hlast
      · exact hamong.cuts.2.1
  | skipped passed w later ih => exact ih hamong.tail hamong.cuts.2.1
  | node kind inner later ihInner ih =>
      rw [words] at hamong
      exact ih hamong.right (ihInner hamong.left hlast)

/-- The node lies between two cuts, and a string can be delimited anew. -/
structure Node.IsCut (source : Text) (n : Node) : Prop where
  start : source.IsCut n.start
  stop : source.IsCut n.stop
  literal : n.kind = .expr .string → ∀ text, source.slice? n.start n.stop = some text →
    ∃ t, normalizeQuotes text = .ok t

/-- The node around some nodes, which is no string. -/
theorem Node.isCut_around {source : Text} {nodes : List Node} {kind : Kind} {position : Nat}
    (hnodes : ∀ m ∈ preorderOfAll nodes, m.IsCut source) (hposition : source.IsCut position)
    (hkind : kind ≠ .expr .string) (id : Nat) :
    (Node.around id kind position nodes).IsCut source := by
  have hmem : ∀ m ∈ nodes, m.IsCut source := by
    intro m hm
    obtain ⟨a, b, rfl⟩ := List.append_of_mem hm
    refine hnodes m ?_
    rw [preorderOfAll_append, preorderOfAll, Node.preorder_eq]
    simp
  refine ⟨?_, ?_, fun h => absurd h hkind⟩
  · cases hhead : nodes.head? with
    | none => simpa [Node.around, hhead] using hposition
    | some first =>
        simpa [Node.around, hhead] using (hmem first (List.mem_of_mem_head? hhead)).start
  · cases hlast : nodes.getLast? with
    | none => simpa [Node.around, hlast] using hposition
    | some last =>
        simpa [Node.around, hlast] using (hmem last (List.mem_of_mem_getLast? hlast)).stop

/-- The nodes of a row lie between cuts. -/
theorem Forest.cuts {f : Forest} {next : Ahead} (hfit : f.Fit) (hruled : f.Ruled next)
    {ws vs : List Word} (hamong : Word.Among t ws f.words vs) (made : Nat) {lastEnd : Nat}
    (hlast : t.source.IsCut lastEnd) :
    ∀ m ∈ preorderOfAll (f.nodes made lastEnd), m.IsCut t.source := by
  induction f generalizing next ws vs made lastEnd with
  | nil => simp [nodes, preorderOfAll]
  | leaf kind passed w later ih =>
      obtain ⟨hstart, hstop, hslice⟩ := hamong.cuts
      have hlater : t.source.IsCut (if w.isComment then lastEnd else w.stop) := by
        split
        · exact hlast
        · exact hstop
      refine List.forall_mem_cons.mpr ⟨⟨hstart, hstop, ?_⟩, ih hfit.2.2 hruled hamong.tail _ hlater⟩
      rintro rfl text htext
      have hcls : w.cls = .literal .string := by
        rcases hfit.2.1 with hkind | ⟨-, hkind⟩ | ⟨-, -, hkind⟩
        · cases hcls : w.cls <;> simp_all [TokenClass.leafKind?]
        · cases hkind
        · cases hkind
      obtain ⟨n, m, rest, htakes, -⟩ := hamong.takes
      rw [hcls] at htakes
      rw [hslice] at htext
      cases htext
      exact htakes.normalizeQuotes
  | skipped passed w later ih => exact ih hfit.2.2 hruled hamong.tail made hamong.cuts.2.1
  | node kind inner later ihInner ih =>
      obtain ⟨⟨n, parts, rule, inside⟩, hlater⟩ := hruled
      rw [words] at hamong
      have hinner := ihInner hfit.1 inside.ruled hamong.left made hlast
      have hkind : kind ≠ .expr .string := by
        rintro rfl
        cases rule
      have hplace : t.source.IsCut (emptyPlace kind lastEnd) := by
        unfold emptyPlace
        split
        · exact hlast
        · exact ⟨[], t.source, rfl, rfl⟩
      simp only [nodes, preorderOfAll, Node.preorder_eq, List.mem_append, List.mem_cons]
      rintro m ((rfl | hm) | hm)
      · exact Node.isCut_around hinner hplace hkind _
      · exact hinner m hm
      · exact ih hfit.2 hlater hamong.right _ (Forest.endFrom_cut hamong.left hlast) m hm

end LuauTidy
