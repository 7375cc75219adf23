import LuauTidy.Proofs.Levels
import LuauTidy.Proofs.Transplants

/-!
# Passes that keep tokens apart

A pass joins texts and does not look at what stands around a construct, which may run
into the lowered text.  If the constructs of a source are detached, then it does not, and
a pass gives a text that parses, to a tree that is that of the source outside of the
constructs.  On a way of such sources lowering never stumbles.

* `SyntaxTree.KeepsApart`, `KeepsApart` — sources whose constructs are detached;
* `exists_mirrored` — what a pass over such a source gives;
* `keepsParsing_of_keepsApart`, `isLocal_of_keepsApart` — such a pass does what it should.
-/

namespace LuauTidy

variable {options : LoweringOptions} {source text : Text} {t : SyntaxTree}

/-- The constructs of a tree are detached, and the last token of its source does not end
with the line. -/
structure SyntaxTree.KeepsApart (t : SyntaxTree) (options : LoweringOptions) : Prop where
  detached : ∀ site ∈ t.sites options, t.IsDetached site
  last : ∀ token ∈ (tokenize t.source).getLast?, token.text.getLast?.any Text.isLineEnd = false

/-- A source is without errors only if its constructs are detached. -/
def KeepsApart (options : LoweringOptions) (source : Text) : Prop :=
  ∀ t, parse source = .ok t → t.errors = [] → t.KeepsApart options

instance (t : SyntaxTree) (site : Site) : Decidable (t.IsDetached site) :=
  decidable_of_iff (site.node.ClosesCondition ∧
    ∀ graft ∈ (t.loweredSite site).toOption, t.Detaches site graft) <| by
    rw [SyntaxTree.IsDetached]
    cases t.loweredSite site <;> simp [Except.toOption]

instance (t : SyntaxTree) : Decidable (t.KeepsApart options) :=
  decidable_of_iff (_ ∧ _) ⟨fun h => ⟨h.1, h.2⟩, fun h => ⟨h.1, h.2⟩⟩

instance (source : Text) : Decidable (KeepsApart options source) :=
  decidable_of_iff (∀ t ∈ tree? source, t.KeepsApart options) <| by
    simp [KeepsApart, tree?_eq_some]

/-- The word is not kept apart from the lowered text, and the text not from the parenthesis
behind it. -/
example : ¬KeepsApart .standard "if(a)//b then end".toList ∧
    ¬KeepsApart .standard "x = a // 2 (f)()".toList := by
  decide +kernel

/-! ### One pass -/

/-- The last characters of words of a source. -/
theorem Word.Among.last_flat {ws xs vs : List Word} (h : Word.Among t ws xs vs) {u : Word}
    (hu : xs.getLast? = some u) : (Word.flat xs).getLast? = u.text.getLast? := by
  obtain ⟨init, rfl⟩ := List.getLast?_eq_some_iff.mp hu
  rw [Word.flat_append, Word.flat_cons, Word.flat_nil, List.append_nil, ← List.append_assoc,
    List.getLast?_append_of_ne_nil _ h.text_ne_nil]

/-- The last word of a source whose constructs are detached does not end with the line. -/
theorem SyntaxTree.KeepsApart.last_word {inner : Forest} {gap : Text}
    (hapart : t.KeepsApart options) (h : Parsed source t inner gap) {u : Word}
    (hu : inner.words.getLast? = some u) {c : Char} (hc : u.text.getLast? = some c) :
    Text.isLineEnd c = false := by
  have hends := hapart.last u.toToken (by
    rw [Option.mem_def, h.source_eq, h.tokenize_eq, List.getLast?_map, hu, Option.map_some])
  rwa [hc, Option.any_some] at hends

/-- Nor does a text that ends as its words do, or in a parenthesis. -/
theorem SyntaxTree.KeepsApart.last_character {inner : Forest} {gap text : Text}
    (hapart : t.KeepsApart options) (h : Parsed source t inner gap)
    (hends : text.EndsAs (Word.flat inner.words)) {c : Char} (hc : text.getLast? = some c) :
    Text.isLineEnd c = false := by
  obtain hparen | hsame := hends
  · rw [hc, Option.some.injEq] at hparen
    rw [hparen]
    rfl
  · rw [hc] at hsame
    cases hwords : inner.words.getLast? with
    | none =>
        rw [List.getLast?_eq_none_iff.mp hwords] at hsame
        cases hsame
    | some u => exact hapart.last_word h hwords (by rw [← h.among.last_flat hwords, hsame])

/-- The tree of a text that the words of a row make up. -/
theorem Derives.parse_flat {f : Forest} {gap : Text} (h : Derives [.sub .items] f (Word.ahead []))
    (hspells : Spells [] f.words [] gap) (hblank : gap.all Lexeme.isBlank) :
    parse (Word.flat f.words ++ gap) = .ok (.ofForest (Word.flat f.words ++ gap) (f.place 0)) ∧
      Word.Among (.ofForest (Word.flat f.words ++ gap) (f.place 0)) [] (f.place 0).words [] := by
  have hplaced := h.respaced (by simp) (f.respaced_place 0)
  have htokens : tokenize (Word.flat f.words ++ gap) = (f.place 0).words.map Word.toToken := by
    rw [tokenize_spells hspells hblank, Forest.words_place]
  refine ⟨parse_of_derives hplaced htokens, ⟨gap, ?_, ?_⟩, ?_, ?_⟩
  · simpa using hspells.place 0
  · simp [SyntaxTree.ofForest]
  · simp
  · simpa using (hplaced.fit (by simp)).noError

/-- A pass over a source whose constructs are detached gives a text that parses, to a tree
that mirrors the one of the source. -/
theorem exists_mirrored (hparse : parse source = .ok t) (herrors : t.errors = [])
    (hapart : t.KeepsApart options) :
    ∃ text t', t.lowerOnce options = .ok (.produced text) ∧ parse text = .ok t' ∧
      t'.errors = [] ∧ t'.root.kind = .aux .chunk ∧
        mirroredAll t t' options (some (.aux .chunk)) t.root.children t'.root.children := by
  obtain ⟨inner, gap, h⟩ := parse_parsed hparse herrors
  have hchildren : t.root.children = inner.nodes 0 0 := by
    rw [h.root_eq]
    rfl
  -- behind the last word the pass writes one newline
  have hexchange : Exchange ([] ++ inner.words) [] gap gap.closing :=
    .closing rfl h.gap_blank (h.derives.fit (by simp)).noError
      fun _ hu _ hc => hapart.last_word h hu hc
  have hsettled : inner.Settled t options (some (.aux .chunk)) 0 0 [] [] := by
    refine ⟨h.among, ?_, ⟨[], _, rfl, rfl⟩, ?_⟩
    · rw [h.source_eq, h.tokenize_eq, List.nil_append, List.append_nil]
    · rw [← h.sites_eq]
      exact hapart.detached
  obtain ⟨f, hf⟩ := h.derives.transplant hsettled rfl (by simp)
    (by simp [Symbol.Admits, Nonterminal.Admits]) rfl ⟨by simp, trivial⟩ h.spells hexchange
  have hpass : t.lowerOnce options = .ok (.produced (Word.flat f.words ++ gap.closing)) := by
    obtain ⟨grafts, hlaid⟩ := hf.words.laid
    have hall := hlaid.append (.nil _ gap)
    rw [List.append_nil, ← h.sites_eq, h.flat, ← h.source_eq] at hall
    rw [Laid.pass herrors hall, Text.withSingleTrailingNewline_append]
    exact fun _ hc => hapart.last_character h hf.words.ends hc
  obtain ⟨hparse', hamong'⟩ := Derives.parse_flat (hf.derives 0 (.inr rfl)) hf.words.spells
    (Text.closing_blank h.gap_blank)
  refine ⟨_, _, hpass, hparse', rfl, rfl, ?_⟩
  rw [hchildren]
  exact hf.mirrors _ [] [] 0 0 hamong' ⟨[], _, rfl, rfl⟩

/-- A pass over a source whose constructs are detached gives a text that parses. -/
theorem keepsParsing_of_keepsApart (h : KeepsApart options source) :
    KeepsParsing options source := by
  intro t hparse herrors
  obtain ⟨text, t', hpass, hparse', herrors', -⟩ :=
    exists_mirrored hparse herrors (h t hparse herrors)
  exact ⟨text, t', hpass, hparse', herrors'⟩

/-- A pass over a source that holds something and whose constructs are detached leaves
the tree outside of the constructs as it is. -/
theorem isLocal_of_keepsApart (h : KeepsApart options source)
    (hsome : ∀ t, parse source = .ok t → t.root.children ≠ []) : IsLocal options source := by
  intro t text t' hparse herrors hpass hparse' herrors'
  obtain ⟨text', u, hpass', hparse'', -, hkind, hmirrored⟩ :=
    exists_mirrored hparse herrors (h t hparse herrors)
  rw [hpass, Except.ok.injEq, Outcome.produced.injEq] at hpass'
  rw [← hpass', hparse', Except.ok.injEq] at hparse''
  subst hparse''
  have hroot : t.root.kind = .aux .chunk := by
    obtain ⟨inner, gap, hparsed⟩ := parse_parsed hparse herrors
    rw [hparsed.root_eq]
    rfl
  have hnone : Construct.of? options t.root = none := by
    rw [Construct.of?, hroot]
  refine Node.mirrored_of_none hnone (hkind.trans hroot.symm) (by rwa [hroot]) fun hnil => ?_
  exact absurd hnil (hsome t hparse)

/-- A choice before a parenthesis, which is not called, and an assignment at the end. -/
theorem isLocal_of_keepsApart_choice :
    IsLocal .standard "x = if a then 1 else 2 (f)() y //= z".toList := by
  refine isLocal_of_keepsApart (by decide +kernel) fun t hparse => ?_
  have hsome : ∀ t ∈ (parse "x = if a then 1 else 2 (f)() y //= z".toList).toOption,
      t.root.children ≠ [] := by
    decide +kernel
  exact hsome t (by rw [hparse]; rfl)

/-! ### Lowering -/

/-- Lowering stumbles over a text only if a pass on its way broke it. -/
theorem Way.of_unparsable {pass : Nat} {error : SyntaxError}
    (h : lower source options = .ok (.error (.unparsable pass error text))) :
    ∃ code, Way options source code ∧ ¬KeepsParsing options code := by
  have hfrom : ∀ {left made : Nat} {code : Text}, Way options source code →
      (made ≠ 0 → ∃ t, parse code = .ok t ∧ t.errors = []) →
      lowerFrom options left made code = .ok (.error (.unparsable pass error text)) →
        ∃ code, Way options source code ∧ ¬KeepsParsing options code := by
    intro left
    induction left with
    | zero => simp [lowerFrom]
    | succ left ih =>
        intro made code hcode hmade hlater
        obtain ⟨t, hparse, ⟨_, _, -, -, hresult⟩ | ⟨_, _, herrors, hpasses, -⟩ | ⟨-, -, hresult⟩ |
          ⟨next, herrors, hpass, -, hlater⟩⟩ := lowerFrom_succ_iff.mp hlater
        · cases hresult
        · obtain ⟨t', hparse', herrors'⟩ := hmade hpasses
          rw [hparse, Except.ok.injEq] at hparse'
          rw [hparse', herrors'] at herrors
          cases herrors
        · cases hresult
        · by_cases hkeeps : KeepsParsing options code
          · obtain ⟨next', t', hpass', hparse', herrors'⟩ := hkeeps t hparse herrors
            rw [hpass, Except.ok.injEq, Outcome.produced.injEq] at hpass'
            subst hpass'
            exact ih (hcode.pass hparse herrors hpass) (fun _ => ⟨t', hparse', herrors'⟩) hlater
          · exact ⟨code, hcode, hkeeps⟩
  exact hfrom .start (fun h => absurd rfl h) h

/-- Where the constructs of every text on the way are detached, every pass gives a text
that parses, and lowering never stumbles. -/
theorem lower_parses_of_keepsApart (h : ∀ code, Way options source code → KeepsApart options code) :
    (∀ code, Way options source code → KeepsParsing options code) ∧
      ∀ pass error text, lower source options ≠ .ok (.error (.unparsable pass error text)) := by
  have hkeeps : ∀ code, Way options source code → KeepsParsing options code :=
    fun code hcode => keepsParsing_of_keepsApart (h code hcode)
  refine ⟨hkeeps, fun pass error text hlower => ?_⟩
  obtain ⟨code, hcode, hbroken⟩ := Way.of_unparsable hlower
  exact hbroken (hkeeps code hcode)

/-- A quotient in a choice, in parentheses and before a keyword: two passes, and one that
finds nothing. -/
theorem lower_parses_of_keepsApart_nested :
    KeepsParsing .standard "if (if a then 1 else b // c) then end".toList ∧
      ∀ pass error text, lower "if (if a then 1 else b // c) then end".toList .standard ≠
        .ok (.error (.unparsable pass error text)) := by
  have hapart : ∀ code ∈ ["if (if a then 1 else b // c) then end".toList,
      "if (a and 1 or b // c) then end\n".toList,
      "if (a and 1 or math.floor(b/c)) then end\n".toList], KeepsApart .standard code := by
    decide +kernel
  have hway : ∀ code, Way .standard "if (if a then 1 else b // c) then end".toList code →
      KeepsApart .standard code :=
    fun code hcode => hapart code (hcode.mem (by simp) (by decide +kernel))
  obtain ⟨hparses, hlower⟩ := lower_parses_of_keepsApart hway
  exact ⟨hparses _ .start, hlower⟩

end LuauTidy
