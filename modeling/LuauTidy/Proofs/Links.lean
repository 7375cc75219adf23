import LuauTidy.Proofs.Lockstep

/-!
# Links between records

A record knows its children by number, and nothing else.  Sealing goes through
the records and notes down for every child whose child it is; where a number
stood among the children of two records, the later one would have the last
word.  If no number does, then the notes lead from each child to the one record
that has it, and a tree that is read off the records shows the same links.

* `Arena.links`, `Arena.previous?` — what sealing notes down, and the sibling
  before a record;
* `Arena.Once`, `Arena.Linked` — records that are linked with their children and
  with no others;
* `SyntaxTree.Shows` — a tree with the links of its records;
* `Builder.exists_toTree` — what sealing a builder gives.
-/

namespace LuauTidy

namespace Arena

variable {a : Arena} {id c p i : Nat} {r : Record}

/-! ### Notes -/

/-- The notes, after the records from a number on have been gone through.  Each
of them is the parent of its children from now on. -/
def linksFrom (links : List (Option Nat)) (id : Nat) : Arena → List (Option Nat)
  | [] => links
  | r :: rest =>
    linksFrom (r.children.foldl (fun links c => links.set c (some id)) links) (id + 1) rest

/-- The notes of sealing: the parent of each record. -/
def links (a : Arena) : List (Option Nat) := linksFrom (List.replicate a.length none) 0 a

/-- The sibling before a record: the one before its place among the children of
its parent. -/
def previous? (a : Arena) (id : Nat) : Option Nat :=
  (a.parent? id).bind fun p => a[p]?.bind fun r => (r.children.idxOf? id).bind fun i =>
    if i = 0 then none else r.children[i - 1]?

/-- No number is twice among all children. -/
def Once (a : Arena) : Prop := (a.flatMap Record.children).Nodup

theorem parent?_cons (r : Record) (a : Arena) (c : Nat) :
    parent? (r :: a) c = if c ∈ r.children then some 0 else (parent? a c).map (· + 1) := by
  unfold parent?
  rw [List.findIdx?_cons]
  simp only [List.contains_eq_mem, decide_eq_true_eq]

/-- A record is noted down with its children. -/
theorem foldl_set_getElem? (children : List Nat) (links : List (Option Nat)) (id c : Nat) :
    (children.foldl (fun links c => links.set c (some id)) links)[c]? =
      if c ∈ children then links[c]?.map fun _ => some id else links[c]? := by
  induction children generalizing links with
  | nil => rfl
  | cons first children ih =>
      rw [List.foldl_cons, ih]
      by_cases hfirst : first = c
      · subst hfirst
        rw [List.getElem?_set_self']
        cases hlink : links[first]? <;> simp
      · rw [List.getElem?_set_ne hfirst]
        simp only [List.mem_cons, Ne.symm hfirst, false_or]

/-- The notes lead to the record that has a number among its children. -/
theorem linksFrom_getElem? (a : Arena) (links : List (Option Nat)) (id c : Nat) (honce : a.Once) :
    (linksFrom links id a)[c]? =
      links[c]?.map fun noted => ((a.parent? c).map (id + ·)).or noted := by
  induction a generalizing links id with
  | nil => simp [linksFrom, parent?]
  | cons r a ih =>
      rw [Once, List.flatMap_cons, List.nodup_append] at honce
      obtain ⟨-, honce, happart⟩ := honce
      rw [linksFrom, ih _ _ honce, foldl_set_getElem?, parent?_cons]
      by_cases hmem : c ∈ r.children
      · -- No later record has the number as well, so the note stays.
        have hlater : parent? a c = none := by
          unfold parent?
          rw [List.findIdx?_eq_none_iff]
          intro s hs
          simp only [List.contains_eq_mem, decide_eq_false_iff_not]
          intro hc
          exact happart c hmem c (List.mem_flatMap.mpr ⟨s, hs, hc⟩) rfl
        simp only [hmem, if_true, hlater, Option.map_map, Option.map_some, Option.map_none]
        congr 1
      · simp only [hmem, if_false, Option.map_map]
        congr 1
        funext noted
        congr 2
        funext place
        simp only [Function.comp_apply]
        omega

theorem links_eq (honce : a.Once) : a.links = (List.range a.length).map a.parent? := by
  apply List.ext_getElem?
  intro c
  rw [links, linksFrom_getElem? _ _ _ _ honce, List.getElem?_replicate, List.getElem?_map]
  by_cases hc : c < a.length
  · simp [hc]
  · simp [hc]

/-- The parent of a record is the one that has it. -/
theorem parent?_eq_some (honce : a.Once) :
    a.parent? c = some p ↔ ∃ r, a[p]? = some r ∧ c ∈ r.children := by
  rw [Once, List.nodup_flatMap] at honce
  unfold parent?
  rw [List.findIdx?_eq_some_iff_getElem]
  constructor
  · intro h
    obtain ⟨hp, hmem, -⟩ := h
    exact ⟨a[p], List.getElem?_eq_getElem hp, by simpa using hmem⟩
  · intro h
    obtain ⟨r, hr, hmem⟩ := h
    obtain ⟨hp, rfl⟩ := List.getElem?_eq_some_iff.mp hr
    refine ⟨hp, by simpa using hmem, ?_⟩
    intro j hj hfirst
    have happart := List.pairwise_iff_getElem.mp honce.2 j p (Nat.lt_trans hj hp) hp hj
    exact happart (by simpa using hfirst) hmem

theorem parent?_eq_none_iff (a : Arena) (c : Nat) :
    a.parent? c = none ↔ c ∉ a.flatMap Record.children := by
  unfold parent?
  rw [List.findIdx?_eq_none_iff, List.mem_flatMap]
  simp only [List.contains_eq_mem, decide_eq_false_iff_not, not_exists, not_and]

/-! ### Linked records -/

/-- The records are linked with their children and with no others. -/
structure Linked (a : Arena) : Prop where
  /-- No number is twice among all children. -/
  once : a.Once
  /-- Children stand in the order in which they were made. -/
  rising : ∀ r ∈ a, r.children.Pairwise (· < ·)
  /-- A record is made after its children. -/
  below : a.Ordered
  /-- The parent of each record is noted down. -/
  links : a.links = (List.range a.length).map a.parent?
  /-- It is the one record that has it among its children. -/
  parent : ∀ c p, a.parent? c = some p ↔ ∃ r, a[p]? = some r ∧ c ∈ r.children
  /-- Before a child is the child before it, if it is not the first. -/
  previous : ∀ (p : Nat) (r : Record) (i c : Nat), a[p]? = some r → r.children[i]? = some c →
    a.previous? c = if i = 0 then none else r.children[i - 1]?

theorem previous?_eq (honce : a.Once) (hr : a[p]? = some r) (hnodup : r.children.Nodup)
    (hc : r.children[i]? = some c) :
    a.previous? c = if i = 0 then none else r.children[i - 1]? := by
  have hparent : a.parent? c = some p :=
    (parent?_eq_some honce).mpr ⟨r, hr, List.mem_of_getElem? hc⟩
  obtain ⟨hi, rfl⟩ := List.getElem?_eq_some_iff.mp hc
  have hplace : r.children.idxOf? r.children[i] = some i := by
    rw [List.idxOf?_eq_some_iff]
    refine ⟨hi, rfl, ?_⟩
    intro j hj heq
    exact Nat.ne_of_lt hj ((List.Nodup.getElem_inj_iff hnodup).mp heq)
  rw [previous?, hparent, Option.bind_some, hr, Option.bind_some, hplace, Option.bind_some]

theorem linked_of_once (honce : a.Once) (hrising : ∀ r ∈ a, r.children.Pairwise (· < ·))
    (hbelow : a.Ordered) : Linked a where
  once := honce
  rising := hrising
  below := hbelow
  links := links_eq honce
  parent _ _ := parent?_eq_some honce
  previous _ r _ _ hr hc :=
    previous?_eq honce hr ((hrising r (List.mem_of_getElem? hr)).imp Nat.ne_of_lt) hc

/-- Every record stands for a node. -/
theorem Ordered.exists_has (h : a.Ordered) (hid : id < a.length) :
    ∃ n, a.nodes[id]? = some n ∧ n.id = id ∧ a.Has n := by
  induction id using Nat.strong_induction_on with
  | _ id ih =>
      have hr : a[id]? = some a[id] := List.getElem?_eq_getElem hid
      obtain ⟨before, hbefore, hnode⟩ := exists_nodeOf [] a hr
      simp only [List.length_nil, Nat.zero_add] at hbefore hnode
      have hchild : ∀ c ∈ a[id].children, ∃ n, before[c]? = some n ∧ n.id = c ∧ a.Has n := by
        intro c hc
        have hlt := h id _ hr c hc
        rw [hbefore c hlt]
        exact ih c hlt (Nat.lt_trans hlt hid)
      obtain ⟨children, hchildren⟩ : ∃ children, a[id].children.filterMap (before[·]?) = children :=
        ⟨_, rfl⟩
      have hhas : ∀ n ∈ children, n.id ∈ a[id].children ∧ a.Has n := by
        rw [← hchildren]
        intro n hn
        obtain ⟨c, hc, hcn⟩ := List.mem_filterMap.mp hn
        obtain ⟨m, hm, rfl, hhas⟩ := hchild c hc
        rw [hm, Option.some.injEq] at hcn
        subst hcn
        exact ⟨hc, hhas⟩
      have hids : children.map Node.id = a[id].children := by
        rw [← hchildren, List.map_filterMap]
        refine (List.filterMap_congr ?_).trans List.filterMap_some
        intro c hc
        obtain ⟨m, hm, hmid, -⟩ := hchild c hc
        rw [hm, Option.map_some, hmid]
      refine ⟨_, hnode, rfl, .mk _ ?_ ?_ ?_⟩
      · simp only [nodeOf, hchildren, hids]
        exact hr
      · simp only [nodeOf, hchildren]
        intro n hn
        exact h id _ hr n.id (hhas n hn).1
      · simp only [nodeOf, hchildren]
        intro n hn
        exact (hhas n hn).2

end Arena

/-! ### Linked trees -/

/-- A node on the way through a tree has the links of its record. -/
structure Visit.Shows (v : Visit) (a : Arena) : Prop where
  node : a.Has v.node
  parent : v.parent.map Node.id = a.parent? v.node.id
  above : ∀ n, v.parent = some n → a.Has n
  previous : v.previous.map Node.id = a.previous? v.node.id

/-- A tree shows the records, from the record with a number downwards. -/
structure SyntaxTree.Shows (t : SyntaxTree) (a : Arena) (root : Nat) : Prop where
  nodeCount : t.nodeCount = a.length
  root : t.root.id = root
  visits : ∀ v ∈ t.visits, v.Shows a

variable {a : Arena} {n : Node}

theorem Arena.Has.child (h : a.Has n) : ∀ c ∈ n.children, a.Has c := by
  cases h with
  | mk _ _ _ children => exact children

/-- The child that follows some children of a node has the links of its record. -/
theorem Arena.Linked.visit_child (hlinked : a.Linked) (hn : a.Has n) {before after : List Node}
    {c : Node} (hchildren : n.children = before ++ c :: after) :
    Visit.Shows ⟨c, some n, before.getLast?⟩ a where
  node := hn.child c (by simp [hchildren])
  parent := by
    symm
    exact (hlinked.parent c.id n.id).mpr ⟨_, hn.record, by simp [hchildren]⟩
  above := by
    intro m hm
    rw [Option.some.injEq] at hm
    rw [← hm]
    exact hn
  previous := by
    rw [hlinked.previous n.id _ before.length c.id hn.record (by simp [hchildren])]
    simp only [hchildren, List.map_append]
    cases before using List.reverseRecOn with
    | nil => rfl
    | append_singleton before last _ => simp

/-- Only a child behind the first has a sibling before it. -/
theorem previousSibling_eq_none {id : Nat} {first : Node} {nodes : List Node}
    (h : ∀ n ∈ nodes, n.id ≠ id) : previousSibling id (first :: nodes) = none := by
  induction nodes generalizing first with
  | nil => rfl
  | cons n nodes ih =>
      rw [List.forall_mem_cons] at h
      rw [previousSibling, if_neg h.1]
      exact ih h.2

/-- The sibling before a child, as it is looked up in a tree. -/
theorem previousSibling_eq {before after : List Node} {c : Node}
    (hids : ((before ++ c :: after).map Node.id).Nodup) :
    previousSibling c.id (before ++ c :: after) = before.getLast? := by
  induction before with
  | nil =>
      apply previousSibling_eq_none
      intro n hn heq
      exact (List.nodup_cons.mp hids).1 (List.mem_map.mpr ⟨n, hn, heq⟩)
  | cons m before ih =>
      have hids' := (List.nodup_cons.mp hids).2
      cases before with
      | nil => simp [previousSibling]
      | cons d before =>
          have hd : d.id ≠ c.id := by
            intro heq
            exact (List.nodup_cons.mp hids').1 (List.mem_map.mpr ⟨c, by simp, heq.symm⟩)
          rw [List.cons_append, List.cons_append, previousSibling, if_neg hd,
            List.getLast?_cons_cons]
          exact ih hids'

/-- Records stand for one node only. -/
theorem Arena.Has.unique {m : Node} (h : a.Has n) (hm : a.Has m) (hid : m.id = n.id) : m = n := by
  have hnodes := hm.nodes
  rw [hid, h.nodes, Option.some.injEq] at hnodes
  exact hnodes.symm

/-- The node that holds a node as a child, if there is one, and the sibling that
is looked up in it. -/
theorem Arena.Linked.visit_root (hlinked : a.Linked) (hn : a.Has n) {enclosing : Option Node}
    (henclosing : enclosing = (a.parent? n.id).bind fun id => a.nodes[id]?) :
    Visit.Shows ⟨n, enclosing, enclosing.bind fun m => previousSibling n.id m.children⟩ a := by
  cases hparent : a.parent? n.id with
  | none =>
      rw [hparent, Option.bind_none] at henclosing
      rw [henclosing]
      refine ⟨hn, ?_, ?_, ?_⟩
      · rw [hparent]
        rfl
      · intro m hm
        cases hm
      · rw [Arena.previous?, hparent]
        rfl
  | some p =>
      obtain ⟨r, hr, hmem⟩ := (hlinked.parent n.id p).mp hparent
      obtain ⟨m, hm, rfl, hhas⟩ :=
        hlinked.below.exists_has (List.getElem?_eq_some_iff.mp hr).1
      rw [hparent, Option.bind_some, hm] at henclosing
      have hrecord := hhas.record
      rw [hr, Option.some.injEq] at hrecord
      have hrising := hlinked.rising r (List.mem_of_getElem? hr)
      rw [hrecord] at hmem hrising
      obtain ⟨c, hc, hid⟩ := List.mem_map.mp hmem
      obtain rfl : c = n := hn.unique (hhas.child c hc) hid
      obtain ⟨before, after, hchildren⟩ := List.append_of_mem hc
      have hprevious : previousSibling c.id m.children = before.getLast? := by
        rw [hchildren] at hrising ⊢
        exact previousSibling_eq (hrising.imp Nat.ne_of_lt)
      rw [henclosing, Option.bind_some, hprevious]
      exact hlinked.visit_child hhas hchildren

mutual

/-- Below a node that has the links of its record every node has. -/
theorem Arena.Linked.shows_visits (hlinked : a.Linked) (n : Node) (parent previous : Option Node)
    (hshows : Visit.Shows ⟨n, parent, previous⟩ a) :
    ∀ v ∈ n.visits parent previous, v.Shows a := by
  obtain ⟨id, kind, start, stop, children⟩ := n
  rw [Node.visits, List.forall_mem_cons]
  refine ⟨hshows, ?_⟩
  exact hlinked.shows_visitsOfAll ⟨id, kind, start, stop, children⟩ hshows.node [] children rfl

theorem Arena.Linked.shows_visitsOfAll (hlinked : a.Linked) (n : Node) (hn : a.Has n)
    (before rest : List Node) (hchildren : n.children = before ++ rest) :
    ∀ v ∈ visitsOfAll n before.getLast? rest, v.Shows a := by
  cases rest with
  | nil => simp [visitsOfAll]
  | cons c rest =>
      rw [visitsOfAll, List.forall_mem_append]
      constructor
      · exact hlinked.shows_visits c _ _ (hlinked.visit_child hn hchildren)
      · have hlast : (before ++ [c]).getLast? = some c := by simp
        rw [← hlast]
        apply hlinked.shows_visitsOfAll n hn
        rw [hchildren, List.append_assoc]
        rfl

end

/-! ### Sealing -/

/-- The records of the tree whose root has a number; the root spans the text. -/
def Builder.sealed (b : Builder) (root : Nat) : Arena :=
  b.arena.modify root fun r => { r with start := 0, stop := b.text.byteLength }

variable {b : Builder} {root : Nat}

theorem Builder.sealed_eq_set {r : Record} (hr : b.arena[root]? = some r) :
    b.sealed root = b.arena.set root { r with start := 0, stop := b.text.byteLength } := by
  rw [sealed, List.modify_eq_set_getElem?, hr]
  rfl

@[simp] theorem Builder.sealed_length : (b.sealed root).length = b.arena.length :=
  List.length_modify ..

/-- Where no node is open and the records are linked, any record can be made the
root, and the tree shows them. -/
theorem Builder.exists_toTree (hopened : b.opened = []) (hlinked : (b.sealed root).Linked)
    (hroot : root < b.arena.length) :
    ∃ t, b.toTree root = .ok t ∧ t.Shows (b.sealed root) root := by
  have hlength : root < (b.sealed root).length := by
    rw [sealed_length]
    exact hroot
  obtain ⟨n, hn, rfl, hhas⟩ := hlinked.below.exists_has hlength
  obtain ⟨enclosing, henclosing⟩ : ∃ enclosing, enclosing =
      ((b.sealed n.id).parent? n.id).bind fun id => (b.sealed n.id).nodes[id]? := ⟨_, rfl⟩
  let t : SyntaxTree := {
    source := b.text
    nodeCount := (b.sealed n.id).length
    root := n
    enclosing := enclosing
    errors := b.errors
    strayComments := b.strayComments }
  have hr := List.getElem?_eq_getElem hroot
  refine ⟨t, ?_, rfl, rfl, ?_⟩
  · simp only [toTree, hr, hopened, ne_eq, not_true_eq_false, if_false, ← sealed_eq_set hr, hn,
      ← henclosing, t]
  · exact hlinked.shows_visits n _ _ (hlinked.visit_root hhas henclosing)

end LuauTidy
