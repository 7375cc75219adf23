import LuauTidy.Proofs.Levels
import LuauTidy.Proofs.Placement
import LuauTidy.Proofs.Values

/-!
# Last values

A path leads to a construct in the tree of a source, and in the tree of a local
pass the same path leads to what takes the place of the construct: nodes keep
their places among their siblings, and the nodes on the way are no constructs.
So it is known which conditionals may have several values once they are lowered:
those that become functions.

* `exists_mirrored_of_follow` — the same path through both trees;
* `Node.lastValue?_eq_some` — the value that all its values are taken of;
* `mayExpand_lowered_iff` — lowered conditionals at the end of a list.
-/

namespace LuauTidy

variable {options : LoweringOptions} {source text : Text} {t t' : SyntaxTree}

/-! ### Paths -/

namespace SyntaxTree

/-- A path goes on from where another one ends. -/
theorem follow_append {visit v : Visit} {path : List Nat} (h : follow visit path = .ok v)
    (rest : List Nat) : follow visit (path ++ rest) = follow v rest := by
  induction path generalizing visit with
  | nil => cases h; rfl
  | cons index path ih =>
      rw [follow] at h
      rw [List.cons_append, follow]
      cases hchild : visit.node.expectChild index with
      | error cause => simp [hchild, bind, Except.bind] at h
      | ok child =>
          simp only [hchild, bind, Except.bind] at h ⊢
          exact ih h

/-- A path of one more index leads through a child. -/
theorem follow_cons_eq_ok {visit v : Visit} {index : Nat} {path : List Nat} :
    follow visit (index :: path) = .ok v ↔ ∃ child, visit.node.children[index]? = some child ∧
      follow ⟨child, some visit.node,
        if index = 0 then none else visit.node.child? (index - 1)⟩ path = .ok v := by
  rw [follow, Node.expectChild, Node.child?]
  cases visit.node.children[index]? <;> simp [bind, Except.bind, Node.child?]

/-- What a path leads to is a node of the tree. -/
theorem mem_preorder_of_follow {visit v : Visit} {path : List Nat}
    (h : follow visit path = .ok v) : v.node ∈ visit.node.preorder := by
  induction path generalizing visit with
  | nil => cases h; simp [Node.preorder_eq]
  | cons index path ih =>
      obtain ⟨child, hchild, hlater⟩ := follow_cons_eq_ok.mp h
      exact Node.mem_preorder_of_child (List.mem_of_getElem? hchild) (ih hlater)

end SyntaxTree

/-! ### The same path through both trees -/

/-- The numbers of the nodes of a subtree differ. -/
def Node.Distinct (n : Node) : Prop := (n.preorder.map Node.id).Nodup

mutual

/-- A site is a construct of the subtree. -/
theorem Node.mem_of_mem_sites (n : Node) {parent : Option Kind} {site : Site}
    (h : site ∈ n.sites options parent) :
    site.node ∈ n.preorder ∧ Construct.of? options site.node = some site.construct := by
  cases n with
  | mk id kind start stop children =>
      rw [Node.sites] at h
      split at h
      · rename_i c hc
        rw [List.mem_singleton] at h
        subst h
        exact ⟨by simp [Node.preorder], hc⟩
      · obtain ⟨hmem, hc⟩ := mem_of_mem_sitesAmong children h
        exact ⟨by simp [Node.preorder, hmem], hc⟩

theorem mem_of_mem_sitesAmong (nodes : List Node) {parent : Option Kind} {site : Site}
    (h : site ∈ sitesAmong options parent nodes) :
    site.node ∈ preorderOfAll nodes ∧ Construct.of? options site.node = some site.construct := by
  cases nodes with
  | nil => simp [sitesAmong] at h
  | cons n nodes =>
      rw [sitesAmong, List.mem_append] at h
      obtain h | h := h
      · obtain ⟨hmem, hc⟩ := n.mem_of_mem_sites h
        exact ⟨by simp [preorderOfAll, hmem], hc⟩
      · obtain ⟨hmem, hc⟩ := mem_of_mem_sitesAmong nodes h
        exact ⟨by simp [preorderOfAll, hmem], hc⟩

end

/-- Numbers tell the subtrees of siblings apart. -/
theorem mem_sites_of_getElem? {nodes : List Node} {index : Nat} {n m : Node} {site : Site}
    {parent : Option Kind} (hdistinct : ((preorderOfAll nodes).map Node.id).Nodup)
    (hn : nodes[index]? = some n) (hm : m ∈ n.preorder) (hid : m.id = site.node.id)
    (hsite : site ∈ sitesAmong options parent nodes) :
    n.Distinct ∧ site ∈ n.sites options parent := by
  induction nodes generalizing index with
  | nil => simp at hn
  | cons first nodes ih =>
      rw [preorderOfAll, List.map_append, List.nodup_append] at hdistinct
      obtain ⟨hfirst, hrest, hapart⟩ := hdistinct
      rw [sitesAmong, List.mem_append] at hsite
      cases index with
      | zero =>
          obtain rfl : first = n := by simpa using hn
          refine ⟨hfirst, hsite.resolve_right fun hlater => ?_⟩
          obtain ⟨hmem, -⟩ := mem_of_mem_sitesAmong nodes hlater
          exact hapart _ (List.mem_map_of_mem hm) _ (List.mem_map_of_mem hmem) hid
      | succ index =>
          have hn : nodes[index]? = some n := by simpa using hn
          refine ih hrest hn (hsite.resolve_left fun hfirst => ?_)
          obtain ⟨hmem, -⟩ := first.mem_of_mem_sites hfirst
          have hbelow := mem_preorderOfAll_of_below (List.mem_of_getElem? hn) hm
          exact hapart _ (List.mem_map_of_mem hmem) _ (List.mem_map_of_mem hbelow) hid.symm

/-- Siblings stand for siblings in the same place. -/
theorem mirrored_getElem? {nodes nodes' : List Node} {parent : Option Kind} {index : Nat}
    {n : Node} (h : mirroredAll t t' options parent nodes nodes') (hn : nodes[index]? = some n) :
    ∃ m, nodes'[index]? = some m ∧ n.mirrored t t' options parent m := by
  induction nodes generalizing nodes' index with
  | nil => simp at hn
  | cons first nodes ih =>
      cases nodes' with
      | nil => simp [mirroredAll] at h
      | cons first' nodes' =>
          rw [mirroredAll, Bool.and_eq_true] at h
          cases index with
          | zero =>
              obtain rfl : first = n := by simpa using hn
              exact ⟨first', by simp, h.1⟩
          | succ index => simpa using ih h.2 (by simpa using hn)

/-- The path to a construct leads, through the tree that stands for a tree, to what
stands for the construct. -/
theorem exists_mirrored_of_follow {visit visit' v : Visit} {path : List Nat} {site : Site}
    {parent : Option Kind} (hmirrored : visit.node.mirrored t t' options parent visit'.node)
    (hdistinct : visit.node.Distinct) (hsite : site ∈ visit.node.sites options parent)
    (hv : SyntaxTree.follow visit path = .ok v) (hid : v.node.id = site.node.id) :
    v.node = site.node ∧ ∃ v', SyntaxTree.follow visit' path = .ok v' ∧
      site.node.mirrored t t' options site.parent v'.node := by
  induction path generalizing visit visit' parent with
  | nil =>
      obtain ⟨⟨id, kind, start, stop, children⟩, above, before⟩ := visit
      cases hv
      rw [Node.sites] at hsite
      split at hsite
      · rw [List.mem_singleton] at hsite
        subst hsite
        exact ⟨rfl, visit', rfl, hmirrored⟩
      · obtain ⟨hmem, -⟩ := mem_of_mem_sitesAmong children hsite
        rw [Node.Distinct, Node.preorder, List.map_cons, List.nodup_cons] at hdistinct
        exact absurd (List.mem_map.mpr ⟨_, hmem, hid.symm⟩) hdistinct.1
  | cons index path ih =>
      obtain ⟨child, hchild, hlater⟩ := SyntaxTree.follow_cons_eq_ok.mp hv
      have hbelow := SyntaxTree.mem_preorder_of_follow hlater
      obtain ⟨⟨id, kind, start, stop, children⟩, above, before⟩ := visit
      have hchild : children[index]? = some child := hchild
      have hbelowAll := mem_preorderOfAll_of_below (List.mem_of_getElem? hchild) hbelow
      rw [Node.Distinct, Node.preorder, List.map_cons, List.nodup_cons] at hdistinct
      rw [Node.sites] at hsite
      split at hsite
      · rw [List.mem_singleton] at hsite
        subst hsite
        exact absurd (List.mem_map.mpr ⟨_, hbelowAll, hid⟩) hdistinct.1
      · rename_i hplain
        simp only [Node.mirrored, hplain, Bool.and_eq_true] at hmirrored
        obtain ⟨child', hchild', hmirrored'⟩ := mirrored_getElem? hmirrored.1.2 hchild
        obtain ⟨hdistinct', hsite'⟩ :=
          mem_sites_of_getElem? hdistinct.2 hchild hbelow hid hsite
        let below : Visit := ⟨child', some visit'.node,
          if index = 0 then none else visit'.node.child? (index - 1)⟩
        have hbelow' : child.mirrored t t' options (some kind) below.node := hmirrored'
        obtain ⟨hnode, v', hv', hm⟩ := ih hbelow' hdistinct' hsite' hlater
        exact ⟨hnode, v', SyntaxTree.follow_cons_eq_ok.mpr ⟨child', hchild', hv'⟩, hm⟩

/-! ### Last values -/

/-- The last expression among siblings stands at its index. -/
theorem lastExpr?_eq_some {nodes : List Node} {index : Nat} {value : Node}
    (h : lastExpr? nodes = some (index, value)) : nodes[index]? = some value := by
  induction nodes generalizing index with
  | nil => cases h
  | cons n nodes ih =>
      rw [lastExpr?] at h
      split at h
      · rename_i index' value' hlater
        cases h
        simpa using ih hlater
      · split at h <;> cases h
        rfl

/-- The way to the value that all its values are taken of. -/
theorem Node.lastValue?_eq_some {visit : Visit} {rest : List Nat} {value : Node}
    (h : visit.node.lastValue? = some (rest, value)) :
    ∃ v, SyntaxTree.follow visit rest = .ok v ∧ v.node = value := by
  unfold Node.lastValue? at h
  split at h
  case h_6 =>
    split at h
    · rename_i id kind start stop value' before hfields
      cases h
      have hchildren : visit.node.children =
          before.reverse ++ ⟨id, kind, start, stop, [value]⟩ ::
            (visit.node.children.reverse.takeWhile fun c => c.kind != .aux .field).reverse := by
        rw [← List.reverse_inj, List.reverse_append, List.reverse_cons, List.reverse_reverse,
          List.reverse_reverse, List.append_assoc, List.singleton_append, ← hfields,
          List.takeWhile_append_dropWhile]
      have hfield : visit.node.children[before.length]? =
          some ⟨id, kind, start, stop, [value]⟩ := by
        rw [hchildren, List.getElem?_append_right (by simp)]
        simp
      exact ⟨_, SyntaxTree.follow_cons_eq_ok.mpr
        ⟨_, hfield, SyntaxTree.follow_cons_eq_ok.mpr ⟨value, rfl, rfl⟩⟩, rfl⟩
    · cases h
  case h_7 => cases h
  all_goals
    obtain ⟨⟨index, value'⟩, hlast, hvalue⟩ := Option.map_eq_some_iff.mp h
    cases hvalue
    exact ⟨_, SyntaxTree.follow_cons_eq_ok.mpr ⟨_, lastExpr?_eq_some hlast, rfl⟩, rfl⟩

/-- What takes the place of a conditional may have several values if and only if it
is a function that is called. -/
theorem Construct.Gives.mayExpand_iff {n m : Node}
    (h : Construct.conditional.Gives t n (m.content source)) :
    m.mayExpand ↔ SyntaxTree.shortConditional? n.children = none := by
  rw [Node.mayExpand, ← Node.kind_of_content source]
  generalize m.content source = content at h
  cases h with
  | choice enclosed guarded hshort =>
      -- it is the operation or stands in parentheses
      cases enclosed <;>
        simp [hshort, SyntaxTree.choiceOf, Content.parensIf, Content.parens]
  | closure hlong => simp [hlong, Content.closure, Content.called]

/-- In the text of a local pass a conditional that ended a list of values, where all
values of what stands there are taken, may have several values if and only if it is
lowered to a function. -/
theorem mayExpand_lowered_iff (hparse : parse source = .ok t) (herrors : t.errors = [])
    (hpass : t.lowerOnce options = .ok (.produced text)) (hparse' : parse text = .ok t')
    (herrors' : t'.errors = []) (hlocal : IsLocal options source) {path rest : List Nat}
    {visit : Visit} {value : Node} (hvisit : SyntaxTree.follow t.rootVisit path = .ok visit)
    (hlast : visit.node.lastValue? = some (rest, value))
    (hsite : ∃ site ∈ t.sites options, site.construct = .conditional ∧ site.node.id = value.id)
    (hclosed : value.ClosesCondition) :
    ∃ visit', SyntaxTree.follow t'.rootVisit (path ++ rest) = .ok visit' ∧
      (visit'.node.mayExpand ↔ SyntaxTree.shortConditional? value.children = none) := by
  obtain ⟨inner, gap, hparsed⟩ := parse_parsed hparse herrors
  obtain ⟨site, hmem, hconditional, hid⟩ := hsite
  obtain ⟨v, hv, rfl⟩ := Node.lastValue?_eq_some hlast
  have hroot : t.rootVisit.parent.map Node.kind = none := by
    rw [SyntaxTree.rootVisit, hparsed.enclosing_eq]
    rfl
  have hdistinct : t.root.Distinct := by
    have hperm := hparsed.numbered.preorder
    rw [Node.Distinct, ← Node.map_visits t.root t.rootVisit.parent t.rootVisit.previous,
      List.map_map]
    exact hperm.nodup_iff.mpr List.nodup_range
  have hfollow := SyntaxTree.follow_append hvisit rest
  rw [hv] at hfollow
  rw [SyntaxTree.sites, hroot] at hmem
  have hmirrored : t.rootVisit.node.mirrored t t' options none t'.rootVisit.node :=
    hlocal t text t' hparse herrors hpass hparse' herrors'
  obtain ⟨hnode, v', hv', hmirrored⟩ :=
    exists_mirrored_of_follow hmirrored hdistinct hmem hfollow hid.symm
  obtain ⟨hsite, hc⟩ := t.root.mem_of_mem_sites hmem
  rw [hconditional] at hc
  rw [hnode] at hclosed ⊢
  have hgives := Node.gives_of_mirrored hmirrored hc
    (exists_gives hparse herrors hsite hc (fun _ => hclosed) site.parent)
    fun x hx => readsAlone_root hparse' herrors' x
      (Node.mem_preorder_trans t'.root (SyntaxTree.mem_preorder_of_follow hv') hx)
  exact ⟨v', hv', hgives.mayExpand_iff⟩

/-- A value that counts as true before a call: the lowered text is a disjunction. -/
theorem mayExpand_lowered_iff_disjunction :
    ∃ t' visit', parse "return a and 1 or f()\n".toList = .ok t' ∧
      SyntaxTree.follow t'.rootVisit [0, 1] = .ok visit' ∧ visit'.node.mayExpand = false := by
  have h : ∃ t ∈ tree? "return if a then 1 else f()".toList,
      t.lowered? .standard = some "return a and 1 or f()\n".toList ∧
      ∃ n ∈ t.nodeAt? [0], ∃ last ∈ n.lastValue?, last.1 = [1] ∧
        (∃ site ∈ t.sites .standard, site.construct = .conditional ∧ site.node.id = last.2.id) ∧
        last.2.ClosesCondition ∧ (SyntaxTree.shortConditional? last.2.children).isSome := by
    decide +kernel
  obtain ⟨t, ht, hpass, n, hn, ⟨rest, value⟩, hlast, rfl, hsite, hclosed, hshort⟩ := h
  obtain ⟨t', ht'⟩ : ∃ t', tree? "return a and 1 or f()\n".toList = some t' :=
    Option.isSome_iff_exists.mp (by decide +kernel)
  obtain ⟨hparse, herrors⟩ := tree?_eq_some.mp ht
  obtain ⟨hparse', herrors'⟩ := tree?_eq_some.mp ht'
  obtain ⟨visit, hvisit, rfl⟩ := SyntaxTree.nodeAt?_eq_some.mp hn
  obtain ⟨visit', hvisit', hexpands⟩ := mayExpand_lowered_iff hparse herrors
    (SyntaxTree.lowered?_eq_some.mp hpass) hparse' herrors' (by decide +kernel) hvisit hlast hsite
    hclosed
  refine ⟨t', visit', hparse', hvisit', Bool.eq_false_iff.mpr fun hmay => ?_⟩
  rw [hexpands.mp hmay] at hshort
  cases hshort

end LuauTidy
