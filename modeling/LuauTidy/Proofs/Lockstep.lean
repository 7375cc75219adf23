import LuauTidy.Grammar.Assembly
import LuauTidy.Proofs.Reading

/-!
# Two parsers in lockstep

A parser that makes its nodes itself and one that drives a builder go through a
source together: they take the same tokens, complain of the same, and what the
one holds in its hands the other has in the records of its builder.  Neither
stops with a fault.

* `Arena.Has` — the records that stand for a node;
* `Builder.Grows` — what a builder has got in addition;
* `Lockstep` — two parsers side by side;
* `Lockstep.bind`, `look`, `start`, `startAt`, `finishAt`, `advance`, … — one rule
  for each step, and for each way to put steps together.
-/

namespace LuauTidy

/-! ### Records -/

namespace Arena

/-- The records stand for the node and everything below it. -/
inductive Has (a : Arena) : Node → Prop
  | mk (n : Node) (record : a[n.id]? = some ⟨n.kind, n.start, n.stop, n.children.map Node.id⟩)
      (below : ∀ c ∈ n.children, c.id < n.id) (children : ∀ c ∈ n.children, a.Has c) : a.Has n

/-- The children of a record come before it. -/
def Ordered (a : Arena) : Prop :=
  ∀ (i : Nat) (r : Record), a[i]? = some r → ∀ id ∈ r.children, id < i

variable {a a' : Arena} {n : Node}

theorem Has.record (h : a.Has n) :
    a[n.id]? = some ⟨n.kind, n.start, n.stop, n.children.map Node.id⟩ := by
  cases h with
  | mk _ record => exact record

theorem Has.lt (h : a.Has n) : n.id < a.length := by
  have hrecord := h.record
  by_contra hlt
  rw [List.getElem?_eq_none (Nat.le_of_not_lt hlt)] at hrecord
  cases hrecord

/-- Only the records up to that of a node matter. -/
theorem Has.of_agree (h : a.Has n) (hagree : ∀ i ≤ n.id, a'[i]? = a[i]?) : a'.Has n := by
  induction h with
  | mk n record below _ ih =>
      refine .mk n ((hagree _ (Nat.le_refl _)).trans record) below fun c hc => ?_
      apply ih c hc
      intro i hi
      exact hagree i (Nat.le_of_lt (Nat.lt_of_le_of_lt hi (below c hc)))

/-- Records that are added do not matter. -/
theorem Has.kept (h : a.Has n) (hkept : a <+: a') : a'.Has n := by
  obtain ⟨more, rfl⟩ := hkept
  apply h.of_agree
  intro i hi
  exact List.getElem?_append_left (Nat.lt_of_le_of_lt hi h.lt)

/-- A record that is changed does not matter to what comes before it. -/
theorem Has.set (h : a.Has n) {id : Nat} (hid : n.id < id) (r : Record) :
    Arena.Has (List.set a id r) n := by
  apply h.of_agree
  intro i hi
  exact List.getElem?_set_ne (by omega)

/-- The record of a node may be exchanged for that of another with the same
number and children. -/
theorem Has.replace (h : a.Has n) (other : Node) (hid : other.id = n.id)
    (hchildren : other.children = n.children) :
    Arena.Has
      (List.set a n.id ⟨other.kind, other.start, other.stop, other.children.map Node.id⟩)
      other := by
  cases h with
  | mk _ record below children =>
      rw [← hid] at record below ⊢
      rw [← hchildren] at below children
      refine .mk other (List.getElem?_set_self ?_) below fun c hc => ?_
      · exact (List.getElem?_eq_some_iff.mp record).1
      · exact (children c hc).set (below c hc) _

/-- The order is kept where a record refers to what comes before it. -/
theorem Ordered.set (h : a.Ordered) {id : Nat} {r : Record} (hr : ∀ c ∈ r.children, c < id) :
    Arena.Ordered (List.set a id r) := by
  intro i r' hr' c hc
  by_cases hi : i = id
  · subst hi
    by_cases hlt : i < a.length
    · obtain rfl : r = r' := by simpa [hlt] using hr'
      exact hr c hc
    · rw [List.getElem?_eq_none (by simpa using Nat.le_of_not_lt hlt)] at hr'
      cases hr'
  · rw [List.getElem?_set_ne (Ne.symm hi)] at hr'
    exact h i r' hr' c hc

/-- The children of a node come before it. -/
theorem Has.ids_lt (h : a.Has n) : ∀ c ∈ n.children.map Node.id, c < n.id := by
  cases h with
  | mk _ _ below =>
      intro id hid
      obtain ⟨c, hc, rfl⟩ := List.mem_map.mp hid
      exact below c hc

/-- The nodes made before stay. -/
theorem nodesFrom_getElem? (made : List Node) (a : Arena) {i : Nat} (hi : i < made.length) :
    (nodesFrom made a)[i]? = made[i]? := by
  induction a generalizing made with
  | nil => rfl
  | cons r a ih =>
      have hlt : i < (made ++ [nodeOf made made.length r]).length := by
        rw [List.length_append]
        omega
      rw [nodesFrom, ih _ hlt, List.getElem?_append_left hi]

/-- The node of a record is made of the nodes before it. -/
theorem exists_nodeOf (made : List Node) (a : Arena) {j : Nat} {r : Record} (h : a[j]? = some r) :
    ∃ before, (∀ i < made.length + j, before[i]? = (nodesFrom made a)[i]?) ∧
      (nodesFrom made a)[made.length + j]? = some (nodeOf before (made.length + j) r) := by
  induction a generalizing made j with
  | nil => cases h
  | cons s a ih =>
      cases j with
      | zero =>
          obtain rfl : s = r := by simpa using h
          refine ⟨made, fun i hi => (nodesFrom_getElem? made (s :: a) hi).symm, ?_⟩
          rw [nodesFrom, nodesFrom_getElem? _ _ (by simp)]
          simp
      | succ j =>
          obtain ⟨before, hbefore, hnode⟩ := ih (made ++ [nodeOf made made.length s]) h
          have hlength :
              (made ++ [nodeOf made made.length s]).length + j = made.length + (j + 1) := by
            simp only [List.length_append, List.length_cons, List.length_nil]
            omega
          rw [hlength] at hbefore hnode
          exact ⟨before, hbefore, hnode⟩

/-- The node that the records stand for is among the nodes of the records. -/
theorem Has.nodes (h : a.Has n) : a.nodes[n.id]? = some n := by
  induction h with
  | mk n record below _ ih =>
      obtain ⟨before, hbefore, hnode⟩ := exists_nodeOf [] a record
      simp only [List.length_nil, Nat.zero_add] at hbefore hnode
      rw [Arena.nodes, hnode, nodeOf, List.filterMap_map]
      have hchildren : n.children.filterMap ((fun id => before[id]?) ∘ Node.id) = n.children := by
        refine (List.filterMap_congr fun c hc => ?_).trans List.filterMap_some
        exact (hbefore c.id (below c hc)).trans (ih c hc)
      rw [hchildren]
      cases n
      rfl

/-- The last record is no child. -/
theorem parent?_eq_none (h : a.Ordered) {id : Nat} (hid : a.length ≤ id + 1) :
    a.parent? id = none := by
  rw [parent?, List.findIdx?_eq_none_iff]
  intro r hr
  obtain ⟨i, hi, rfl⟩ := List.getElem_of_mem hr
  simp only [List.contains_eq_mem, decide_eq_false_iff_not]
  intro hmem
  have := h i _ (List.getElem?_eq_getElem hi) id hmem
  omega

end Arena

/-! ### Builders -/

/-- Open nodes of which the innermost has got further children. -/
def OpenNode.attach (ids : List Nat) : List OpenNode → List OpenNode
  | [] => []
  | top :: outer => ⟨top.kind, top.position, top.children ++ ids⟩ :: outer

@[simp] theorem OpenNode.attach_nil (opened : List OpenNode) : attach [] opened = opened := by
  cases opened <;> simp [attach]

@[simp] theorem OpenNode.attach_attach (ids later : List Nat) (opened : List OpenNode) :
    attach later (attach ids opened) = attach (ids ++ later) opened := by
  cases opened <;> simp [attach]

@[simp] theorem OpenNode.attach_eq_nil {ids : List Nat} {opened : List OpenNode} :
    attach ids opened = [] ↔ opened = [] := by
  cases opened <;> simp [attach]

/-- A builder has got further nodes, which are children of the open node. -/
structure Builder.Grows (b b' : Builder) (made : List Node) : Prop where
  opened : b'.opened = OpenNode.attach (made.map Node.id) b.opened
  kept : b.arena <+: b'.arena
  has : ∀ n ∈ made, b'.arena.Has n
  fresh : ∀ n ∈ made, b.arena.length ≤ n.id
  ordered : b.arena.Ordered → b'.arena.Ordered

namespace Builder

variable {b b' b'' : Builder} {made later : List Node} {kind : Kind} {place : Nat}

theorem Grows.refl (b : Builder) : b.Grows b [] where
  opened := by simp
  kept := List.prefix_rfl
  has := by simp
  fresh := by simp
  ordered h := h

theorem Grows.trans (h : b.Grows b' made) (h' : b'.Grows b'' later) :
    b.Grows b'' (made ++ later) where
  opened := by simp [h'.opened, h.opened]
  kept := h.kept.trans h'.kept
  has := by
    rw [List.forall_mem_append]
    exact ⟨fun n hn => (h.has n hn).kept h'.kept, h'.has⟩
  fresh := by
    rw [List.forall_mem_append]
    exact ⟨h.fresh, fun n hn => h.kept.length_le.trans (h'.fresh n hn)⟩
  ordered ho := h'.ordered (h.ordered ho)

/-- What counts is what a builder has made. -/
theorem Grows.of_eq (h : b.Grows b' made) (hopened : b''.opened = b'.opened)
    (harena : b''.arena = b'.arena) : b.Grows b'' made where
  opened := hopened.trans h.opened
  kept := harena ▸ h.kept
  has := harena ▸ h.has
  fresh := h.fresh
  ordered := harena ▸ h.ordered

/-- A record whose children stand for nodes stands for a node around them. -/
theorem grows_add {n : Node} {r : Record}
    (hr : r = ⟨n.kind, n.start, n.stop, n.children.map Node.id⟩) (hid : n.id = b.arena.length)
    (hchildren : ∀ c ∈ n.children, b.arena.Has c) : b.Grows (b.add r).2 [n] where
  opened := by cases hopened : b.opened <;> simp [add, OpenNode.attach, hopened, hid]
  kept := ⟨[r], rfl⟩
  has := by
    rw [List.forall_mem_singleton]
    refine .mk n ?_ (fun c hc => hid ▸ (hchildren c hc).lt) fun c hc => ?_
    · simp [add, hid, hr]
    · exact (hchildren c hc).kept ⟨[r], rfl⟩
  fresh := by simp [hid]
  ordered ho := by
    intro i s hs id hmem
    by_cases hi : i < b.arena.length
    · rw [add, List.getElem?_append_left hi] at hs
      exact ho i s hs id hmem
    · rw [add, List.getElem?_append_right (Nat.le_of_not_lt hi)] at hs
      obtain ⟨rfl, hzero⟩ : s = r ∧ i - b.arena.length = 0 := by
        cases hk : i - b.arena.length with
        | zero => simpa [hk, eq_comm] using hs
        | succ k => simp [hk] at hs
      simp only [hr, List.mem_map] at hmem
      obtain ⟨c, hc, rfl⟩ := hmem
      have := (hchildren c hc).lt
      omega

/-- The extent of records. -/
theorem startOf_eq {n : Node} (h : b.arena.Has n) : b.startOf n.id = n.start := by
  rw [startOf, h.record]
  rfl

theorem stopOf_eq {n : Node} (h : b.arena.Has n) : b.stopOf n.id = n.stop := by
  rw [stopOf, h.record]
  rfl

/-- A leaf stands for a node without children. -/
theorem grows_leaf (b : Builder) (kind : Kind) (start stop : Nat) :
    b.Grows (b.leaf kind start stop).2 [⟨b.arena.length, kind, start, stop, []⟩] :=
  grows_add rfl rfl (by simp)

/-- What a builder knows besides of nodes is the same. -/
structure Alike (b b' : Builder) : Prop where
  text : b'.text = b.text
  errors : b'.errors = b.errors
  strayComments : b'.strayComments = b.strayComments

/-- The open node takes what was made in it, and finishing it makes one node of
it in the node around it. -/
theorem Grows.finishNode (h : (b.startNode kind place).Grows b' made) :
    ∃ b'', b'.finishNode = .ok (b'.arena.length, b'') ∧
      b.Grows b'' [Node.around b'.arena.length kind place made] ∧
      b''.arena.length = b'.arena.length + 1 ∧ b'.Alike b'' := by
  have hopened : b'.opened = ⟨kind, place, made.map Node.id⟩ :: b.opened := by
    simpa [startNode, OpenNode.attach] using h.opened
  have hstart : ((made.map Node.id).head?.map b'.startOf) = made.head?.map Node.start := by
    cases made with
    | nil => rfl
    | cons n made => simpa using startOf_eq (h.has n List.mem_cons_self)
  have hstop : ((made.map Node.id).getLast?.map b'.stopOf) = made.getLast?.map Node.stop := by
    rw [List.getLast?_map]
    cases hlast : made.getLast? with
    | none => rfl
    | some n => simpa using stopOf_eq (h.has n (List.mem_of_getLast? hlast))
  let node := Node.around b'.arena.length kind place made
  let outer : Builder := { b' with opened := b.opened }
  let r : Record := ⟨kind, node.start, node.stop, made.map Node.id⟩
  have hadd : outer.Grows (outer.add r).2 [node] := grows_add rfl rfl h.has
  refine ⟨(outer.add r).2, ?_, ?_, by simp [outer, add], ⟨rfl, rfl, rfl⟩⟩
  · simp only [Builder.finishNode, hopened, hstart, hstop]
    rfl
  · exact {
      opened := hadd.opened
      kept := h.kept.trans hadd.kept
      has := hadd.has
      fresh := by
        rw [List.forall_mem_singleton]
        exact h.kept.length_le
      ordered := fun ho => hadd.ordered (h.ordered ho) }

/-- What was made since a checkpoint moves into the node that is opened there. -/
theorem Grows.startNodeAt (h : b.Grows b' made) (hopen : b.opened ≠ []) (kind : Kind) :
    ∃ place b'', b'.startNodeAt b.checkpoint kind = .ok b'' ∧
      (b.startNode kind place).Grows b'' made ∧ b''.arena = b'.arena ∧ b'.Alike b'' := by
  obtain ⟨top, outer, htop⟩ := List.exists_cons_of_ne_nil hopen
  have hopened : b'.opened =
      ⟨top.kind, top.position, top.children ++ made.map Node.id⟩ :: outer := by
    simpa [htop, OpenNode.attach] using h.opened
  let place := ((made.map Node.id).head?.map b'.startOf).getD b'.text.byteLength
  let opened := ⟨kind, place, made.map Node.id⟩ :: b.opened
  refine ⟨place, { b' with opened }, ?_, ?_, rfl, ⟨rfl, rfl, rfl⟩⟩
  · simp [Builder.startNodeAt, checkpoint, hopened, htop, opened, place]
  · exact {
      opened := by simp [opened, startNode, OpenNode.attach]
      kept := h.kept
      has := h.has
      fresh := h.fresh
      ordered := h.ordered }

/-- The record of a node that was just made may get another kind. -/
theorem Grows.retag {n : Node} (h : b.Grows b' [n]) (kind : Kind) :
    ∃ b'', b'.retag n.id kind = .ok b'' ∧ b.Grows b'' [{ n with kind }] ∧
      b''.arena.length = b'.arena.length ∧ b'.Alike b'' := by
  have hn := h.has n (List.mem_singleton.mpr rfl)
  have hfresh := h.fresh n (List.mem_singleton.mpr rfl)
  let r : Record := ⟨kind, n.start, n.stop, n.children.map Node.id⟩
  let arena : Arena := b'.arena.set n.id r
  have hkept : b.arena <+: arena := by
    obtain ⟨more, hmore⟩ := h.kept
    refine ⟨more.set (n.id - b.arena.length) r, ?_⟩
    rw [← List.set_append_right _ _ hfresh, hmore]
  refine ⟨{ b' with arena }, ?_, ?_, by simp [arena], ⟨rfl, rfl, rfl⟩⟩
  · rw [Builder.retag, hn.record]
  · exact {
      opened := h.opened
      kept := hkept
      has := by
        rw [List.forall_mem_singleton]
        exact hn.replace { n with kind } rfl rfl
      fresh := by
        rw [List.forall_mem_singleton]
        exact hfresh
      ordered := fun ho => (h.ordered ho).set hn.ids_lt }

/-- The kind of a record. -/
theorem kindOf_eq {n : Node} (h : b.arena.Has n) : b.kindOf n.id = .ok n.kind := by
  rw [kindOf, h.record]

end Builder

/-! ### Side by side -/

namespace Bench

/-- What a parse leaves as it is. -/
structure Keeps (s s' : Bench) : Prop where
  text : s'.builder.text = s.builder.text
  errors : s'.builder.errors = s.builder.errors

theorem Keeps.refl (s : Bench) : s.Keeps s := ⟨rfl, rfl⟩

theorem Keeps.trans {s s' s'' : Bench} (h : s.Keeps s') (h' : s'.Keeps s'') : s.Keeps s'' :=
  ⟨h'.text.trans h.text, h'.errors.trans h.errors⟩

/-- A node is open that takes what is made. -/
def Ready (s : Bench) : Prop := s.builder.opened ≠ []

/-- Everything as before, but for the builder. -/
abbrev withBuilder (s : Bench) (builder : Builder) : Bench := { s with builder }

/-- A node has been opened. -/
abbrev opening (s : Bench) (kind : Kind) (place : Nat) : Bench :=
  s.withBuilder (s.builder.startNode kind place)

/-- A parse has made further nodes in the open node. -/
structure Gone (s s' : Bench) (made : List Node) : Prop where
  grows : s.builder.Grows s'.builder made
  ready : s'.Ready

theorem Gone.of_grows {s s' : Bench} {made : List Node} (h : s.builder.Grows s'.builder made)
    (hs : s.Ready) : s.Gone s' made := by
  refine ⟨h, ?_⟩
  rw [Ready, h.opened]
  simpa [Ready] using hs

/-- How two parsers end that have gone through a source together: with results
that fit, or with the same complaint at the same place. -/
inductive Ends {α β : Type} (s : Bench) (Q : α → β → Bench → Prop) :
    EStateM.Result Failure Cursor α → EStateM.Result Failure Bench β → Prop
  | ok {a : α} {b : β} {s' : Bench} {c : Cursor} (keeps : s.Keeps s') (cursor : c = s'.cursor)
      (fits : Q a b s') : s.Ends Q (.ok a c) (.ok b s')
  | wrong {complaint : Complaint} {place : Nat} {s' : Bench} {c : Cursor} (keeps : s.Keeps s')
      (cursor : c = s'.cursor) :
      s.Ends Q (.error (.wrong complaint place) c) (.error (.wrong complaint place) s')

end Bench

/-- Two parsers side by side. -/
def Lockstep {α β : Type} (p : Parser α) (p' : Assembler β) (s : Bench)
    (Q : α → β → Bench → Prop) : Prop :=
  s.Ends Q (p.run s.cursor) (p'.run s)

/-- What a parser finds fault with in the next token, and where. -/
theorem Parser.run_unexpected_eq (α : Type) (what : Expectation) (c : Cursor) :
    (Parser.unexpected what : Parser α).run c =
      .error (.wrong
        (match Cursor.upcoming 0 c.rest with
          | none => .expected what .endOfFile
          | some t => match t.cls with
            | .error cause => .lexical cause
            | _ => .expected what (.text t.text))
        (((Cursor.upcoming 0 c.rest).map Token.start).getD c.sourceEnd)) c := by
  simp only [EStateM.run, unexpected, offset, peek, nth, Bind.bind, EStateM.bind, get, getThe,
    MonadStateOf.get, EStateM.get, Pure.pure, EStateM.pure]
  cases hu : Cursor.upcoming 0 c.rest with
  | none => rfl
  | some t =>
    simp only
    cases t.cls <;> rfl

namespace Lockstep

variable {α β γ δ : Type} {p : Parser α} {p' : Assembler β} {q : α → Parser γ}
  {q' : β → Assembler δ} {r : Parser γ} {a : α} {b : β} {s s₀ s' : Bench} {b₀ : Builder}
  {Q : α → β → Bench → Prop} {R : γ → δ → Bench → Prop}

theorem mono {Q' : α → β → Bench → Prop} (h : Lockstep p p' s Q)
    (hQ : ∀ a b s', Q a b s' → Q' a b s') : Lockstep p p' s Q' := by
  unfold Lockstep at *
  generalize p.run s.cursor = r at *
  generalize p'.run s = r' at *
  cases h with
  | ok keeps cursor fits => exact .ok keeps cursor (hQ _ _ _ fits)
  | wrong keeps cursor => exact .wrong keeps cursor

/-- One thing after the other. -/
theorem bind (h : Lockstep p p' s Q) (hq : ∀ a b s', Q a b s' → Lockstep (q a) (q' b) s' R) :
    Lockstep (p >>= q) (p' >>= q') s R := by
  unfold Lockstep at *
  simp only [EStateM.run, Bind.bind, EStateM.bind] at *
  generalize p s.cursor = r at *
  generalize p' s = r' at *
  cases h with
  | @ok a b s' c keeps cursor fits =>
      subst cursor
      have hnext := hq a b s' fits
      simp only at *
      generalize q a s'.cursor = t at *
      generalize q' b s' = t' at *
      cases hnext with
      | ok keeps' cursor' fits' => exact .ok (keeps.trans keeps') cursor' fits'
      | wrong keeps' cursor' => exact .wrong (keeps.trans keeps') cursor'
  | wrong keeps cursor => exact .wrong keeps cursor

theorem pure {a : α} {b : β} (h : Q a b s) : Lockstep (pure a) (pure b) s Q :=
  .ok (.refl s) rfl h

/-- Both stop with a complaint. -/
theorem wrong {complaint : Complaint} {place : Nat} :
    Lockstep (throw (.wrong complaint place)) (throw (.wrong complaint place)) s Q :=
  Bench.Ends.wrong (.refl s) rfl

/-- Both stop with a complaint, and nothing comes after it. -/
theorem wrongBind {complaint : Complaint} {place : Nat} :
    Lockstep (throw (.wrong complaint place) >>= q) (throw (.wrong complaint place) >>= q') s R :=
  (wrong (Q := fun _ _ _ => False)).bind fun _ _ _ h => h.elim

/-- A result that nothing uses. -/
theorem discard {Q : α → Unit → Bench → Prop} (h : Lockstep p p' s fun a _ s' => Q a () s') :
    Lockstep p (Functor.discard p') s Q := by
  have hrun : Lockstep (p >>= Pure.pure) (p' >>= fun _ => Pure.pure ()) s Q :=
    h.bind fun a b s' hfits => pure hfits
  rwa [bind_pure] at hrun

/-- A result made of the last one. -/
theorem bindPure {f : α → γ} {R : γ → β → Bench → Prop}
    (h : Lockstep p p' s fun a b s' => R (f a) b s') :
    Lockstep (p >>= fun a => Pure.pure (f a)) p' s R := by
  have hrun : Lockstep (p >>= fun a => Pure.pure (f a)) (p' >>= Pure.pure) s R :=
    h.bind fun a b s' hfits => pure hfits
  rwa [bind_pure] at hrun

/-- Both look where they stand. -/
theorem here {q : Cursor → Parser γ} {q' : Bench → Assembler δ}
    (h : Lockstep (q s.cursor) (q' s) s R) :
    Lockstep (MonadState.get >>= q) (MonadState.get >>= q') s R :=
  h

/-- Both move. -/
theorem move {q : PUnit → Parser γ} {q' : PUnit → Assembler δ} (s' : Bench)
    (hkeeps : s.Keeps s') (h : Lockstep (q ⟨⟩) (q' ⟨⟩) s' R) :
    Lockstep (MonadStateOf.set s'.cursor >>= q) (MonadStateOf.set s' >>= q') s R := by
  refine bind (Q := fun _ _ s₁ => s₁ = s') (.ok hkeeps rfl rfl) ?_
  rintro _ _ _ rfl
  exact h

theorem ite {c : Prop} [Decidable c] {p q : Parser α} {p' q' : Assembler β}
    (hthen : c → Lockstep p p' s Q) (helse : ¬c → Lockstep q q' s Q) :
    Lockstep (if c then p else q) (if c then p' else q') s Q := by
  split
  · rename_i h
    exact hthen h
  · rename_i h
    exact helse h

/-- A step of the builder's side by itself, after which the other parser
knows what it knew. -/
theorem alone (hrun : p'.run s = .ok b s') (hkeeps : s.Keeps s') (hcursor : s.cursor = s'.cursor)
    (h : Lockstep r (q' b) s' R) : Lockstep r (p' >>= q') s R := by
  refine bind (p := Pure.pure ()) (q := fun _ => r) (Q := fun _ b₁ s₁ => b₁ = b ∧ s₁ = s') ?_ ?_
  · rw [Lockstep, hrun]
    exact .ok hkeeps hcursor ⟨rfl, rfl⟩
  · rintro _ _ _ ⟨rfl, rfl⟩
    exact h

/-! #### Looking ahead -/

theorem run_glance (hp : p.run s.cursor = .ok a s.cursor) :
    (Assembler.glance p).run s = .ok a s := by
  simp only [EStateM.run, Assembler.glance] at *
  rw [hp]

/-- A look ahead, which moves neither. -/
theorem look {q' : α → Assembler δ} (hp : p.run s.cursor = .ok a s.cursor)
    (h : Lockstep (q a) (q' a) s R) : Lockstep (p >>= q) (Assembler.glance p >>= q') s R := by
  refine bind (Q := fun a₁ b s' => a₁ = a ∧ b = a ∧ s' = s) ?_ ?_
  · rw [Lockstep, run_glance hp, hp]
    exact .ok (.refl s) rfl ⟨rfl, rfl, rfl⟩
  · rintro _ _ _ ⟨rfl, rfl, rfl⟩
    exact h

/-- A look ahead by which both branch, each by itself. -/
theorem fork {q' : α → Assembler δ} (hp : p.run s.cursor = .ok a s.cursor)
    (h : ∀ r', q' a = r' → Lockstep (q a) r' s R) :
    Lockstep (p >>= q) (Assembler.glance p >>= q') s R :=
  look hp (h _ rfl)

/-- A look ahead for the builder's side alone. -/
theorem glimpse {q' : α → Assembler δ} (hp : p.run s.cursor = .ok a s.cursor)
    (h : Lockstep r (q' a) s R) : Lockstep r (Assembler.glance p >>= q') s R :=
  alone (run_glance hp) (.refl s) rfl h

/-- Both complain of the next token, and nothing comes after it. -/
theorem unexpectedBind {what : Expectation} {q' : β → Assembler δ} :
    Lockstep (Parser.unexpected what) (Assembler.unexpected what >>= q') s R := by
  have hrun := Parser.run_unexpected_eq γ what s.cursor
  have hrun' := Parser.run_unexpected_eq β what s.cursor
  simp only [Lockstep, EStateM.run, Assembler.unexpected, Bind.bind, EStateM.bind,
    Assembler.glance] at hrun hrun' ⊢
  rw [hrun, hrun']
  exact .wrong (.refl s) rfl

/-- Both complain of the next token. -/
theorem unexpected {what : Expectation} :
    Lockstep (Parser.unexpected what) (Assembler.unexpected what) s Q := by
  have h : Lockstep (Parser.unexpected what) (Assembler.unexpected what >>= Pure.pure) s Q :=
    unexpectedBind
  rwa [bind_pure] at h

/-! #### Nodes -/

/-- A step of the builder by itself, after which there are as many records as
before. -/
theorem step {step : Builder → Except Fault (β × Builder)} {built : Builder}
    (hstep : step s.builder = .ok (b, built))
    (hcount : built.arena.length = s.builder.arena.length) (halike : s.builder.Alike built)
    (h : Lockstep r (q' b) (s.withBuilder built) R) :
    Lockstep r (Assembler.build step >>= q') s R := by
  have hrun : (Assembler.build step).run s = .ok b (s.withBuilder built) := by
    simp only [EStateM.run, Assembler.build]
    rw [hstep]
  have hcursor : s.cursor = (s.withBuilder built).cursor := by
    simp [Bench.cursor, hcount, halike.text, halike.strayComments]
  exact alone hrun ⟨halike.text, halike.errors⟩ hcursor h

/-- A node is opened at a place. -/
theorem startPlaced {q' : Unit → Assembler δ} {kind : Kind} {place : Nat}
    (h : Lockstep r (q' ()) (s.opening kind place) R) :
    Lockstep r (Assembler.startPlaced kind place >>= q') s R :=
  step rfl rfl ⟨rfl, rfl, rfl⟩ h

/-- A node is opened in front of the next token. -/
theorem start {q' : Unit → Assembler δ} {kind : Kind}
    (h : ∀ place, Lockstep r (q' ()) (s.opening kind place) R) :
    Lockstep r (Assembler.start kind >>= q') s R := by
  rw [Assembler.start, bind_assoc]
  exact glimpse rfl (startPlaced (h _))

/-- A checkpoint is taken. -/
theorem checkpoint {q' : Checkpoint → Assembler δ} (h : Lockstep r (q' s.builder.checkpoint) s R) :
    Lockstep r (Assembler.checkpoint >>= q') s R :=
  step rfl rfl ⟨rfl, rfl, rfl⟩ h

/-- A node is opened around what was made since a checkpoint. -/
theorem startAt {q' : Unit → Assembler δ} {kind : Kind} {made : List Node} (hs : s₀.Ready)
    (hgone : s₀.Gone s made)
    (h : ∀ place built, (s₀.opening kind place).Gone (s.withBuilder built) made →
      Lockstep r (q' ()) (s.withBuilder built) R) :
    Lockstep r (Assembler.startAt s₀.builder.checkpoint kind >>= q') s R := by
  obtain ⟨place, built, hstart, hgrows, harena, halike⟩ := hgone.grows.startNodeAt hs kind
  have hstep : (s.builder.startNodeAt s₀.builder.checkpoint kind).map (fun b => ((), b)) =
      .ok ((), built) := by
    rw [hstart]
    rfl
  have hready : (s.withBuilder built).Ready := by
    simp [Bench.Ready, hgrows.opened, Builder.startNode]
  exact step hstep (by rw [harena]) halike (h place built ⟨hgrows, hready⟩)

/-- The kind of a node is looked up. -/
theorem kindOf {q' : Kind → Assembler δ} {n : Node} (hn : s.builder.arena.Has n)
    (h : Lockstep r (q' n.kind) s R) : Lockstep r (Assembler.kindOf n.id >>= q') s R := by
  have hstep : (s.builder.kindOf n.id).map (fun kind => (kind, s.builder)) =
      .ok (n.kind, s.builder) := by
    rw [Builder.kindOf_eq hn]
    rfl
  exact step hstep rfl ⟨rfl, rfl, rfl⟩ h

/-- The last node gets another kind. -/
theorem retag {n : Node} (hgone : s₀.Gone s [n]) (kind : Kind) :
    Lockstep (Pure.pure { n with kind }) (Assembler.retag n.id kind) s fun n' _ s' =>
      s₀.Gone s' [n'] ∧ s'.rest = s.rest := by
  obtain ⟨built, hretag, hgrows, hlength, halike⟩ := hgone.grows.retag kind
  have hopened : built.opened = s.builder.opened := hgrows.opened.trans hgone.grows.opened.symm
  have hready : (s.withBuilder built).Ready := by
    rw [Bench.Ready, hopened]
    exact hgone.ready
  have hrun : (Assembler.retag n.id kind).run s = .ok () (s.withBuilder built) := by
    simp only [EStateM.run, Assembler.retag, Assembler.build]
    rw [hretag]
    rfl
  rw [Lockstep, hrun]
  refine .ok ⟨halike.text, halike.errors⟩ ?_ ⟨⟨hgrows, hready⟩, rfl⟩
  simp [Bench.cursor, hlength, halike.text, halike.strayComments]

/-- The open node is finished around what was made in it. -/
theorem finishAt {kind : Kind} {place position : Nat} {made nodes : List Node}
    (hgrows : (b₀.startNode kind place).Grows s.builder made) (hnodes : nodes = made)
    (hplace : made = [] → position = place) :
    Lockstep (Parser.finishAt position kind nodes) Assembler.finish s fun n id s' =>
      id = n.id ∧ b₀.Grows s'.builder [n] ∧ s'.rest = s.rest ∧
        s'.builder.arena.length = n.id + 1 := by
  obtain ⟨built, hfinish, hgrows', hlength, halike⟩ := hgrows.finishNode
  have hnode : Node.around s.builder.arena.length kind position nodes =
      Node.around s.builder.arena.length kind place made := by
    subst hnodes
    by_cases hmade : nodes = []
    · rw [hplace hmade]
    · simp [Node.around, List.head?_eq_some_head hmade, List.getLast?_eq_some_getLast hmade]
  have hrun : (Parser.finishAt position kind nodes).run s.cursor =
      .ok (Node.around s.builder.arena.length kind position nodes)
        { s.cursor with made := s.builder.arena.length + 1 } := rfl
  have hrun' : Assembler.finish.run s =
      .ok s.builder.arena.length (s.withBuilder built) := by
    simp only [EStateM.run, Assembler.finish, Assembler.build]
    rw [hfinish]
  rw [Lockstep, hrun, hrun', hnode]
  refine .ok ⟨halike.text, halike.errors⟩ ?_ ⟨rfl, hgrows', rfl, hlength⟩
  simp [Bench.cursor, hlength, halike.text, halike.strayComments]

/-- A leaf. -/
theorem leaf (hs : s.Ready) (kind : Kind) (t : Token) :
    Lockstep (Parser.leaf kind t) (Assembler.leaf kind t) s fun n id s' =>
      id = n.id ∧ s.Gone s' [n] ∧ s'.rest = s.rest := by
  have hgrows := s.builder.grows_leaf kind t.start t.stop
  refine .ok ⟨rfl, rfl⟩ ?_ ⟨rfl, .of_grows hgrows hs, rfl⟩
  simp [Bench.cursor]

/-! #### Tokens -/

/-- The comments and the token that are taken when a token is next. -/
theorem span_of_upcoming {t : Token} {rest : List Token} (hnext : Cursor.upcoming 0 rest = some t) :
    ∃ passed later, rest.span Token.isComment = (passed, t :: later) ∧
      later.length < rest.length ∧ ∀ m, Cursor.upcoming m later = Cursor.upcoming (m + 1) rest := by
  induction rest with
  | nil => simp [Cursor.upcoming] at hnext
  | cons p rest ih =>
      rw [List.span_eq_takeWhile_dropWhile] at ih ⊢
      by_cases hp : p.isComment
      · simp only [Cursor.upcoming, hp, if_true] at hnext ⊢
        obtain ⟨passed, later, hspan, hlength, hahead⟩ := ih hnext
        simp only [Prod.mk.injEq] at hspan
        refine ⟨p :: passed, later, ?_, by simp only [List.length_cons]; omega, hahead⟩
        simp [hp, hspan]
      · simp only [Cursor.upcoming, hp] at hnext ⊢
        obtain rfl : p = t := by simpa using hnext
        exact ⟨[], rest, by simp [hp], by simp, by simp⟩

/-- Comments passed over become stray. -/
theorem foldl_strayComment (passed : List Token) (b : Builder) :
    passed.foldl (fun b p => b.strayComment p.start p.stop) b =
      { b with strayComments := b.strayComments ++ passed.map Token.range } := by
  induction passed generalizing b with
  | nil => simp
  | cons p passed ih =>
      rw [List.foldl_cons, ih]
      simp [Builder.strayComment, Token.range]

/-- The next token is taken, without a leaf for it. -/
theorem advance (hs : s.Ready) {t : Token} (hnext : Cursor.upcoming 0 s.rest = some t) :
    Lockstep Parser.advance Assembler.advance s fun t₁ t₂ s' =>
      t₁ = t ∧ t₂ = t ∧ s.Gone s' [] ∧ s'.rest.length < s.rest.length ∧
        ∀ m, Cursor.upcoming m s'.rest = Cursor.upcoming (m + 1) s.rest := by
  obtain ⟨passed, later, hspan, hlength, hahead⟩ := span_of_upcoming hnext
  have hcursor : s.cursor.rest.span Token.isComment = (passed, t :: later) := hspan
  refine here ?_
  simp only [hspan, hcursor, foldl_strayComment]
  let s' : Bench := ⟨later, t.stop, { s.builder with
    strayComments := s.builder.strayComments ++ passed.map Token.range }⟩
  have hgone : s.Gone s' [] := .of_grows ((Builder.Grows.refl _).of_eq rfl rfl) hs
  exact move s' ⟨rfl, rfl⟩ (pure ⟨rfl, rfl, hgone, hlength, hahead⟩)

end Lockstep

end LuauTidy
