import LuauTidy.Proofs.Splicing
import LuauTidy.Proofs.StmtReading

/-!
# Passes

The outermost constructs of a tree lie one behind the other in its source, so a
pass is direct splicing.  The constructs are found along the forest of which
the tree is made: a node of a construct is built by the production of the
construct, and its words stand in the source.
-/

namespace LuauTidy

variable {t : SyntaxTree} {options : LoweringOptions}

/-! ### The nodes of constructs -/

/-- A leaf is no construct. -/
theorem Construct.of?_leaf {n : Node} {w : Word} (hleaf : LeafFits n.kind w.toToken)
    (hliteral : ∀ k, w.cls = .literal k → k.isLiteral) : Construct.of? options n = none := by
  cases hkind : n.kind with
  | token k => simp [Construct.of?, hkind]
  | aux k => simp [Construct.of?, hkind]
  | stmt k =>
      simp only [LeafFits, hkind, TokenClass.leafKind?] at hleaf
      rcases hleaf with hleaf | ⟨-, hcomment⟩ | ⟨-, -, hname⟩
      · cases hcls : w.cls <;> simp [hcls] at hleaf
      · rw [Kind.stmt.inj hcomment] at hkind
        simp [Construct.of?, hkind]
      · cases hname
  | expr k =>
      have hcls : w.cls = .literal k := by
        cases hcls : w.cls <;> simp_all [LeafFits, TokenClass.leafKind?]
      have hk := hliteral k hcls
      cases k <;> first | exact absurd hk (by decide) | simp [Construct.of?, hkind]

/-- The operator between two expressions. -/
theorem operator?_between {a b : Nonterminal} {op : TokenKind} {f : Forest}
    {next : Ahead} (h : Derives [.sub a, .mark op, .sub b] f next)
    (ha : a.isWholeExpr) (hb : b.isWholeExpr) {ws vs : List Word}
    (hamong : Word.Among t ws f.words vs) {made lastEnd : Nat} {n : Node}
    (hn : n.children = f.nodes made lastEnd) : n.operator? = some op := by
  obtain ⟨g, passed, w, later, left, mark, right, k, -, -, -, -, -, hnodes, hmark, -⟩ :=
    h.spans_between ha hb hamong.stand made lastEnd
  simp [Node.operator?, Node.child?, hn, hnodes, hmark, Kind.token?]

/-- The node of a construct: where it stands, and that its lowered text can take
its place. -/
structure Construct.Stands (t : SyntaxTree) (site : Site) (before : Text) (ws : List Word) :
    Prop where
  spans : site.node.Spans t before ws
  nonempty : Word.body ws ≠ []
  closed : Text.Sealed (before ++ Word.lead ws)
  lowered : ∃ graft, t.loweredSite site = .ok graft ∧ Grafts t.source (Word.body ws) graft ∧
    Alters (Word.body ws) graft

/-- A node that a production builds, if it is a construct. -/
theorem Production.stands {m : Nonterminal} {kind : Kind} {parts : List Symbol} {inner : Forest}
    {next : Ahead} (rule : Production m (some kind) parts)
    (inside : Derives parts inner next) {ws vs : List Word}
    (hamong : Word.Among t ws inner.words vs) {made lastEnd : Nat} {n : Node}
    (hn : n = Node.around (made + inner.count) kind (Forest.emptyPlace kind lastEnd)
      (inner.nodes made lastEnd))
    {c : Construct} (hc : Construct.of? options n = some c) (parent : Option Kind) :
    Construct.Stands t ⟨c, n, parent⟩ (Word.flat ws) inner.words := by
  have hkind : n.kind = kind := by rw [hn]; rfl
  have hchildren : n.children = inner.nodes made lastEnd := by rw [hn]; rfl
  -- a construct begins and ends with an expression, by whichever production
  have hstands : Symbol.firstIs Nonterminal.isExpr Kind.beginsExpr parts →
      Symbol.lastIs Nonterminal.endsExpr Kind.endsExpr parts →
      (∃ graft, t.loweredSite ⟨c, n, parent⟩ = .ok graft ∧
        Grafts t.source (Word.body inner.words) graft ∧ Alters (Word.body inner.words) graft) →
      Construct.Stands t ⟨c, n, parent⟩ (Word.flat ws) inner.words := by
    intro hfirst hlast hlowered
    have hfit := inside.fit rule.proper
    obtain ⟨first, w, hw, hbegins⟩ := inside.firstLeaf Production.firstIs_expr hfirst
    obtain ⟨⟨passed, rest, hwords, hpassed⟩, hleaf, -⟩ := Forest.head_of_firstLeaf hfit hw 0 0
    have hcomment : w.isComment = false :=
      hleaf.not_comment (by rintro rfl; simp [Kind.beginsExpr] at hbegins)
    have hgrounded : (Forest.node kind inner .nil).Grounded := by
      obtain ⟨hleft, v, u, hlast⟩ := inside.grounded hfirst hlast
      exact ⟨hleft, v, u, by simpa [Forest.lastLeaf] using hlast⟩
    have hspans : n.Spans t (Word.flat ws) inner.words := by
      have hstand := hamong.stand
      rw [← List.append_nil inner.words] at hstand ⊢
      refine Forest.spans (f := .node kind inner .nil) ⟨hfit, trivial⟩ hgrounded hstand made lastEnd
        ?_ ?_ <;> simp [Forest.nodes, ← hn]
    rw [hwords] at hamong
    refine ⟨hspans, ?_, ?_, hlowered⟩
    · simp [hwords, Word.body_of_comments hpassed hcomment, hamong.text_ne_nil]
    · simpa [hwords, Word.lead_of_comments hpassed hcomment] using
        hamong.sealed (Kind.isPiece_of_beginsExpr hbegins hleaf)
  unfold Construct.of? at hc
  split at hc
  · rename_i hconditional
    rw [hkind] at hconditional
    subst hconditional
    cases rule
    split at hc
    · obtain rfl := Option.some.inj hc
      exact hstands rfl rfl (SyntaxTree.lowered_conditional inside hamong parent hchildren)
    · cases hc
  · rename_i hbinary
    rw [hkind] at hbinary
    subst hbinary
    split at hc
    · rename_i hoperator
      obtain rfl := Option.some.inj hc
      cases rule with
      | binary limit op left right powers tighter =>
          rw [operator?_between inside rfl rfl hamong hchildren] at hoperator
          obtain ⟨-, rfl⟩ : _ ∧ op = .doubleSlash := by simpa using hoperator
          exact hstands rfl rfl
            (SyntaxTree.lowered_floorDivision inside rfl rfl hamong hchildren)
    · cases hc
  · rename_i hcompound
    rw [hkind] at hcompound
    subst hcompound
    split at hc
    · rename_i hoperator
      obtain rfl := Option.some.inj hc
      cases rule with
      | compoundAssignment op compound =>
          rw [operator?_between inside rfl rfl hamong hchildren] at hoperator
          obtain ⟨-, rfl⟩ : _ ∧ op = .doubleSlashAssign := by simpa using hoperator
          exact hstands rfl rfl (SyntaxTree.lowered_compound inside rfl rfl hamong hchildren)
    · cases hc
  · cases hc

/-! ### The sites of a forest -/

theorem Node.sites_of_some {n : Node} {c : Construct} {parent : Option Kind}
    (h : Construct.of? options n = some c) : n.sites options parent = [⟨c, n, parent⟩] := by
  cases n
  rw [Node.sites]
  simp only [h]

theorem Node.sites_of_none {n : Node} {parent : Option Kind}
    (h : Construct.of? options n = none) :
    n.sites options parent = sitesAmong options (some n.kind) n.children := by
  cases n
  rw [Node.sites]
  simp only [h]

/-- The outermost constructs among the nodes of a row lie one behind the other
in the text of the row. -/
theorem Forest.laid {f : Forest} {next : Ahead} (hfit : f.Fit) (hruled : f.Ruled next)
    {ws vs : List Word} (hamong : Word.Among t ws f.words vs) (options : LoweringOptions)
    (parent : Option Kind) (made lastEnd : Nat) :
    ∃ grafts spliced, Laid t (Word.flat ws) (Word.flat f.words)
      (sitesAmong options parent (f.nodes made lastEnd)) grafts spliced := by
  induction f generalizing next ws vs parent made lastEnd with
  | nil => exact ⟨[], [], .nil _ _⟩
  | leaf kind passed w later ih =>
      have hliteral := hamong.isLiteral w (by simp [words])
      have hnone : Construct.of? options ⟨made, kind, w.start, w.stop, []⟩ = none :=
        Construct.of?_leaf (w := w) hfit.2.1 hliteral
      obtain ⟨grafts, spliced, hlaid⟩ := ih hfit.2.2 hruled hamong.tail parent (made + 1)
        (if w.isComment then lastEnd else w.stop)
      refine ⟨grafts, Word.flat (passed ++ [w]) ++ spliced, ?_⟩
      rw [Word.flat_append] at hlaid
      have h := hlaid.behind
      simpa [nodes, words, sitesAmong, Node.sites_of_none hnone] using h
  | skipped passed w later ih =>
      obtain ⟨grafts, spliced, hlaid⟩ := ih hfit.2.2 hruled hamong.tail parent made w.stop
      refine ⟨grafts, Word.flat (passed ++ [w]) ++ spliced, ?_⟩
      rw [Word.flat_append] at hlaid
      have h := hlaid.behind
      simpa [nodes, words] using h
  | node kind inner later ihInner ih =>
      obtain ⟨⟨m, parts, rule, inside⟩, hlater⟩ := hruled
      rw [words] at hamong
      obtain ⟨grafts', spliced', hlaid'⟩ := ih hfit.2 hlater hamong.right parent
        (made + (inner.count + 1)) (inner.endFrom lastEnd)
      rw [Word.flat_append] at hlaid'
      suffices hnode : ∃ grafts spliced, Laid t (Word.flat ws) (Word.flat inner.words)
          (Node.sites options parent (Node.around (made + inner.count) kind
            (emptyPlace kind lastEnd) (inner.nodes made lastEnd))) grafts spliced by
        obtain ⟨grafts, spliced, hlaid⟩ := hnode
        refine ⟨grafts ++ grafts', spliced ++ spliced', ?_⟩
        simpa [nodes, words, sitesAmong] using hlaid.append hlaid'
      cases hc : Construct.of? options (Node.around (made + inner.count) kind
          (emptyPlace kind lastEnd) (inner.nodes made lastEnd)) with
      | some c =>
          obtain ⟨hspans, hnonempty, hclosed, graft, hlowered, hgrafts, halters⟩ :=
            rule.stands inside hamong.left rfl hc parent
          have hlaid := Laid.cons hspans.start_eq (by
            rw [hspans.stop_eq, List.append_assoc, Word.lead_append_body]) hnonempty hclosed
            hlowered hgrafts halters (.nil _ [])
          rw [List.append_nil, Word.lead_append_body] at hlaid
          refine ⟨[graft], Word.lead inner.words ++ graft, ?_⟩
          rw [Node.sites_of_some hc]
          simpa using hlaid
      | none =>
          have hinner := ihInner hfit.1 inside.ruled hamong.left (some kind) made lastEnd
          rwa [Node.sites_of_none hc]

/-- The constructs in a row stand in the text of the row. -/
theorem Forest.construct_spans {f : Forest} {next : Ahead} (hfit : f.Fit)
    (hruled : f.Ruled next) {ws vs : List Word} (hamong : Word.Among t ws f.words vs)
    (parent : Node) (previous : Option Node) (made lastEnd : Nat) :
    ∀ v ∈ visitsOfAll parent previous (f.nodes made lastEnd),
      (Construct.of? options v.node).isSome → ∃ a x b, f.words = a ++ (x ++ b) ∧ Word.body x ≠ [] ∧
        v.node.Spans t (Word.flat (ws ++ a)) x := by
  induction f generalizing next ws vs parent previous made lastEnd with
  | nil => simp [nodes, visitsOfAll]
  | leaf kind passed w later ih =>
      have hliteral := hamong.isLiteral w (by simp [words])
      have hnone : Construct.of? options ⟨made, kind, w.start, w.stop, []⟩ = none :=
        Construct.of?_leaf (w := w) hfit.2.1 hliteral
      intro v hv hsome
      simp only [nodes, visitsOfAll, Node.visits, List.cons_append, List.nil_append,
        List.mem_cons] at hv
      obtain rfl | hv := hv
      · simp [hnone] at hsome
      · obtain ⟨a, x, b, heq, hx, hspans⟩ := ih hfit.2.2 hruled hamong.tail parent _ _ _ v hv hsome
        exact ⟨passed ++ [w] ++ a, x, b, by simp [words, heq], hx, by simpa using hspans⟩
  | skipped passed w later ih =>
      intro v hv hsome
      obtain ⟨a, x, b, heq, hx, hspans⟩ := ih hfit.2.2 hruled hamong.tail parent _ _ _ v hv hsome
      exact ⟨passed ++ [w] ++ a, x, b, by simp [words, heq], hx, by simpa using hspans⟩
  | node kind inner later ihInner ih =>
      obtain ⟨⟨m, parts, rule, inside⟩, hlater⟩ := hruled
      rw [words] at hamong
      intro v hv hsome
      simp only [nodes, visitsOfAll, Node.around, Node.visits, List.mem_append, List.mem_cons] at hv
      obtain (rfl | hv) | hv := hv
      · obtain ⟨c, hc⟩ := Option.isSome_iff_exists.mp hsome
        have hstands := rule.stands inside hamong.left rfl hc none
        refine ⟨[], inner.words, later.words, rfl, hstands.nonempty, ?_⟩
        rw [List.append_nil]
        exact hstands.spans
      · obtain ⟨a, x, b, heq, hx, hspans⟩ :=
          ihInner hfit.1 inside.ruled hamong.left _ _ _ _ v hv hsome
        exact ⟨a, x, b ++ later.words, by simp [words, heq], hx, hspans⟩
      · obtain ⟨a, x, b, heq, hx, hspans⟩ := ih hfit.2 hlater hamong.right parent _ _ _ v hv hsome
        exact ⟨inner.words ++ a, x, b, by simp [words, heq], hx, by simpa using hspans⟩

/-- A node in the subtree of a site, within the bytes of the site. -/
structure Site.Holds (site : Site) (n : Node) : Prop where
  below : ∃ v ∈ site.node.visits none none, v.node = n
  start_le : site.node.start ≤ n.start
  stop_le : n.stop ≤ site.node.stop

/-- Every construct in a row is a site of the row or lies in one. -/
theorem Forest.sites_cover {f : Forest} {next : Ahead} (hfit : f.Fit)
    (hruled : f.Ruled next) {ws vs : List Word} (hamong : Word.Among t ws f.words vs)
    (parentKind : Option Kind) (parent : Node) (previous : Option Node) (made lastEnd : Nat) :
    ∀ v ∈ visitsOfAll parent previous (f.nodes made lastEnd),
      (Construct.of? options v.node).isSome →
        ∃ site ∈ sitesAmong options parentKind (f.nodes made lastEnd), site.Holds v.node := by
  induction f generalizing next ws vs parentKind parent previous made lastEnd with
  | nil => simp [nodes, visitsOfAll]
  | leaf kind passed w later ih =>
      have hliteral := hamong.isLiteral w (by simp [words])
      have hnone : Construct.of? options ⟨made, kind, w.start, w.stop, []⟩ = none :=
        Construct.of?_leaf (w := w) hfit.2.1 hliteral
      intro v hv hsome
      simp only [nodes, visitsOfAll, Node.visits, List.cons_append, List.nil_append,
        List.mem_cons] at hv
      obtain rfl | hv := hv
      · simp [hnone] at hsome
      · obtain ⟨site, hsite, hholds⟩ :=
          ih hfit.2.2 hruled hamong.tail parentKind parent _ _ _ v hv hsome
        exact ⟨site, by simp [nodes, sitesAmong, hsite], hholds⟩
  | skipped passed w later ih =>
      exact ih hfit.2.2 hruled hamong.tail parentKind parent previous made w.stop
  | node kind inner later ihInner ih =>
      obtain ⟨⟨m, parts, rule, inside⟩, hlater⟩ := hruled
      rw [words] at hamong
      intro v hv hsome
      simp only [nodes, visitsOfAll, List.mem_append] at hv
      simp only [nodes, sitesAmong, List.mem_append]
      obtain hv | hv := hv
      · generalize hn : Node.around (made + inner.count) kind (emptyPlace kind lastEnd)
          (inner.nodes made lastEnd) = n at hv
        have hvisits : ∀ p q, n.visits p q = ⟨n, p, q⟩ ::
            visitsOfAll n none (inner.nodes made lastEnd) := by
          intro p q
          rw [← hn]
          rfl
        rw [hvisits, List.mem_cons] at hv
        suffices h : ∃ site ∈ n.sites options parentKind, site.Holds v.node by
          obtain ⟨site, hsite, hholds⟩ := h
          exact ⟨site, .inl hsite, hholds⟩
        cases hc : Construct.of? options n with
        | some c =>
            have hstands := rule.stands inside hamong.left hn.symm hc parentKind
            refine ⟨⟨c, n, parentKind⟩, by rw [Node.sites_of_some hc]; simp, ?_⟩
            obtain rfl | hv := hv
            · exact ⟨⟨⟨n, none, none⟩, by rw [hvisits]; simp, rfl⟩, Nat.le_refl _, Nat.le_refl _⟩
            · obtain ⟨a, x, b, heq, hx, hspans⟩ := Forest.construct_spans hfit.1 inside.ruled
                hamong.left _ _ _ _ v hv hsome
              have hstart : n.start = _ := hstands.spans.start_eq
              have hstop : n.stop = _ := hstands.spans.stop_eq
              have hlead := Word.lead_append_le a (x ++ b)
              rw [Word.lead_append hx] at hlead
              rw [heq] at hstart hstop
              simp only [Word.flat_append, Text.byteLength_append] at hstart hstop
              refine ⟨⟨v, by rw [hvisits]; simp [hv], rfl⟩, ?_, ?_⟩
              · simp only [hstart, hspans.start_eq, Word.flat_append, Text.byteLength_append]
                omega
              · simp only [hstop, hspans.stop_eq, Word.flat_append, Text.byteLength_append]
                omega
        | none =>
            obtain rfl | hv := hv
            · simp [hc] at hsome
            · have hkind : n.kind = kind ∧ n.children = inner.nodes made lastEnd := by
                rw [← hn]
                exact ⟨rfl, rfl⟩
              rw [Node.sites_of_none hc, hkind.1, hkind.2]
              exact ihInner hfit.1 inside.ruled hamong.left _ _ _ _ _ v hv hsome
      · obtain ⟨site, hsite, hholds⟩ := ih hfit.2 hlater hamong.right parentKind parent _ _ _ v hv hsome
        exact ⟨site, .inr hsite, hholds⟩

/-! ### The sites of a tree -/

namespace Parsed

variable {source : Text} {inner : Forest} {gap : Text}

/-- The words of a tree make up its source. -/
theorem among (h : Parsed source t inner gap) : Word.Among t [] inner.words [] where
  spells := ⟨gap, by simpa using h.spells, by simp [h.source_eq, h.flat]⟩
  placed := by simpa using h.placed
  noError := by simpa using (h.derives.fit (by simp)).noError

theorem sites_eq (h : Parsed source t inner gap) (options : LoweringOptions) :
    t.sites options = sitesAmong options (some (.aux .chunk)) (inner.nodes 0 0) := by
  have hnone : Construct.of? options t.root = none := by
    rw [h.root_eq]
    rfl
  rw [SyntaxTree.sites, Node.sites_of_none hnone, h.root_eq]
  rfl

/-- The sites of a tree lie one behind the other in its source. -/
theorem laid (h : Parsed source t inner gap) (options : LoweringOptions) :
    ∃ grafts spliced, Laid t [] source (t.sites options) grafts spliced := by
  obtain ⟨grafts, spliced, hlaid⟩ := Forest.laid (h.derives.fit (by simp)) h.derives.ruled h.among
    options (some (.aux .chunk)) 0 0
  refine ⟨grafts, spliced ++ gap, ?_⟩
  have hall := hlaid.append (.nil _ gap)
  simpa [h.sites_eq, h.flat] using hall

/-- Every construct of a tree is a site or lies in one. -/
theorem sites_cover (h : Parsed source t inner gap) :
    ∀ v ∈ t.visits, (Construct.of? options v.node).isSome →
      ∃ site ∈ t.sites options, site.Holds v.node := by
  intro v hv hsome
  have hroot : t.visits = ⟨t.root, t.rootVisit.parent, t.rootVisit.previous⟩ ::
      visitsOfAll t.root none (inner.nodes 0 0) := by
    rw [SyntaxTree.visits, h.root_eq]
    rfl
  rw [hroot, List.mem_cons] at hv
  rw [h.sites_eq]
  obtain rfl | hv := hv
  · rw [h.root_eq] at hsome
    cases hsome
  · exact Forest.sites_cover (h.derives.fit (by simp)) h.derives.ruled h.among _ _ _ _ _ v hv hsome

end Parsed

/-- One pass over a tree is direct splicing: the outermost constructs lie one
behind the other in the source, each is exchanged for its lowered text, and
nothing else changes but the line ends of the last line. -/
structure SplicedOnce (t : SyntaxTree) (options : LoweringOptions) (grafts : List Text)
    (spliced : Text) : Prop where
  /-- Every site has a lowered text. -/
  lowered : (t.sites options).mapM t.loweredSite = .ok grafts
  /-- The text in which the bytes of each site are exchanged for its lowered
  text. -/
  direct : t.source.splice? 0 ((t.sites options).zip grafts) = some spliced
  /-- The pass by marks. -/
  byMarks : t.lowerOnce options = .ok (.produced spliced.withSingleTrailingNewline)
  /-- The pass by fillers, whatever fillers are drawn. -/
  byFillers : ∀ fillers, fillers.length = (t.sites options).length →
    Filler.areFree t.source [] ((t.sites options).zip fillers) →
      t.lowerOnceWith options fillers = .ok (.produced spliced.withSingleTrailingNewline)
  /-- The sites are disjoint and in order. -/
  ordered : (t.sites options).Pairwise fun first second => first.node.stop ≤ second.node.start
  /-- Every construct of the tree is a site or lies in one. -/
  covered : ∀ v ∈ t.visits, (Construct.of? options v.node).isSome →
    ∃ site ∈ t.sites options, site.Holds v.node

/-- A pass over sites that lie one behind the other in the source. -/
theorem Laid.pass {grafts : List Text} {spliced : Text} (herrors : t.errors = [])
    (h : Laid t [] t.source (t.sites options) grafts spliced) :
    t.lowerOnce options = .ok (.produced spliced.withSingleTrailingNewline) := by
  obtain ⟨held, hhold, hrelease⟩ := h.hold 0
  have hhold := hhold [] rfl
  have hrelease := hrelease [] (by simp)
  simp only [List.nil_append] at hhold hrelease
  simp [SyntaxTree.lowerOnce, SyntaxTree.hasError, herrors, hhold, hrelease, bind, Except.bind, pure,
    Except.pure]

/-- The same pass by fillers. -/
theorem Laid.pass_fillers {grafts fillers : List Text} {spliced : Text} (herrors : t.errors = [])
    (h : Laid t [] t.source (t.sites options) grafts spliced)
    (hlength : fillers.length = (t.sites options).length)
    (hfree : Filler.areFree t.source [] ((t.sites options).zip fillers)) :
    t.lowerOnceWith options fillers = .ok (.produced spliced.withSingleTrailingNewline) := by
  obtain ⟨filled, hfill, hsubstitute⟩ := h.fill rfl hlength hfree
  have hfill := hfill [] rfl
  have hsubstitute := hsubstitute [] (.start t.source)
  simp only [List.nil_append] at hfill hsubstitute
  simp [SyntaxTree.lowerOnceWith, SyntaxTree.hasError, herrors, hfill, hsubstitute, bind,
    Except.bind, pure, Except.pure]

/-- The texts that a pass over a source that parses splices into it. -/
theorem exists_spliced {source : Text} (options : LoweringOptions)
    (hparse : parse source = .ok t) (herrors : t.errors = []) :
    t.source = source ∧ ∃ grafts spliced, SplicedOnce t options grafts spliced := by
  obtain ⟨inner, gap, hparsed⟩ := parse_parsed hparse herrors
  obtain ⟨grafts, spliced, hlaid⟩ := hparsed.laid options
  rw [← hparsed.source_eq] at hlaid
  refine ⟨hparsed.source_eq, grafts, spliced, ?_⟩
  exact {
    lowered := hlaid.mapM_eq
    direct := hlaid.splice
    byMarks := hlaid.pass herrors
    byFillers := fun _ hlength hfree => hlaid.pass_fillers herrors hlength hfree
    ordered := hlaid.pairwise
    covered := hparsed.sites_cover }

/-- A pass over a source that parses is direct splicing. -/
theorem lowerOnce_splices {source : Text} (options : LoweringOptions)
    (hparse : parse source = .ok t) (herrors : t.errors = []) :
    t.source = source ∧ ∃ grafts spliced, SplicedOnce t options grafts spliced :=
  exists_spliced options hparse herrors

/-- A test for a source that has a tree with a property. -/
theorem exists_tree_with (source : Text) {p : SyntaxTree → Prop} [DecidablePred p]
    (h : (parse source).toOption.any fun t => decide (p t)) : ∃ t, parse source = .ok t ∧ p t := by
  cases hparse : parse source with
  | error cause => simp [hparse, Except.toOption] at h
  | ok t => exact ⟨t, rfl, by simpa [hparse, Except.toOption] using h⟩

/-- A test for a source that parses. -/
theorem exists_tree (source : Text)
    (h : (parse source).toOption.any fun t => decide (t.errors = [])) :
    ∃ t, parse source = .ok t ∧ t.errors = [] :=
  exists_tree_with source h

/-- A pass over a source with two constructs, one of them in the other. -/
theorem lowerOnce_splices_nested :
    ∃ t, parse "x = (a // b) // c".toList = .ok t ∧ t.errors = [] ∧
      ∃ grafts spliced, SplicedOnce t .standard grafts spliced := by
  obtain ⟨t, hparse, herrors⟩ := exists_tree "x = (a // b) // c".toList (by decide +kernel)
  exact ⟨t, hparse, herrors, (lowerOnce_splices .standard hparse herrors).2⟩

end LuauTidy
