import LuauTidy.Proofs.Links

/-!
# Sessions with a builder

A driver may make any calls in any order, and use a checkpoint long after it was
taken, when another node is open at the same depth.  Then the new node adopts
other children than those that came since the checkpoint, but it still takes
them from the open node.  So at every moment each number that was given out is
in exactly one place: among the children of a record, among the children of an
open node, or with the nodes that were made while no node was open.  Every call
preserves this, and sealing finds the records linked.

* `Builder.Call`, `Session`, `Session.run` — calls of a driver, one after the
  other;
* `Builder.Accounts` — where the numbers are; `Accounts.add`, `startNodeAt`,
  `finishNode`, … — what each step does to it;
* `Session.Accounts.step`, `Session.Accounts.run` — a call, and a whole session;
* `Session.SealsLinked`, `Session.sealsLinked_of_run` — what sealing finds at the
  end of a session.
-/

namespace LuauTidy

/-! ### Calls -/

/-- A call of a driver. -/
inductive Builder.Call
  | leaf (kind : Kind) (start stop : Nat)
  | startNode (kind : Kind) (position : Nat)
  | checkpoint
  /-- The checkpoint is one of those taken so far, by the order they were taken
  in. -/
  | startNodeAt (taken : Nat) (kind : Kind)
  | finishNode
  | retag (id : Nat) (kind : Kind)
  | error (e : SyntaxError)
  | strayComment (start stop : Nat)
  deriving DecidableEq, Repr

/-- A builder with what its driver remembers. -/
structure Session where
  builder : Builder
  /-- The checkpoints taken so far. -/
  checkpoints : List Checkpoint
  /-- The nodes made while no node was open. -/
  loose : List Nat

namespace Session

/-- A session over a text. -/
def start (text : Text) : Session := ⟨.new text, [], []⟩

/-- A node was made. -/
def note (s : Session) (made : Nat × Builder) : Session where
  builder := made.2
  checkpoints := s.checkpoints
  loose := if made.2.opened = [] then s.loose ++ [made.1] else s.loose

/-- A call made. -/
def step (s : Session) : Builder.Call → Except Fault Session
  | .leaf kind start stop => .ok (s.note (s.builder.leaf kind start stop))
  | .startNode kind position => .ok { s with builder := s.builder.startNode kind position }
  | .checkpoint => .ok { s with checkpoints := s.checkpoints ++ [s.builder.checkpoint] }
  | .startNodeAt taken kind =>
    match s.checkpoints[taken]? with
    | none => .error .outOfRange
    | some c => (s.builder.startNodeAt c kind).map fun builder => { s with builder }
  | .finishNode => s.builder.finishNode.map s.note
  | .retag id kind => (s.builder.retag id kind).map fun builder => { s with builder }
  | .error e => .ok { s with builder := s.builder.error e }
  | .strayComment start stop => .ok { s with builder := s.builder.strayComment start stop }

/-- Calls made one after the other. -/
def run (s : Session) (calls : List Builder.Call) : Except Fault Session := calls.foldlM step s

end Session

/-! ### Where the numbers are -/

namespace Builder

/-- Each number is in one place, children stand in the order in which they were
made, and records come after their children. -/
structure Accounts (b : Builder) (loose : List Nat) : Prop where
  places : (b.arena.flatMap Record.children ++
    (b.opened.flatMap OpenNode.children ++ loose)).Perm (List.range b.arena.length)
  rising : ∀ r ∈ b.arena, r.children.Pairwise (· < ·)
  risingOpened : ∀ o ∈ b.opened, o.children.Pairwise (· < ·)
  below : b.arena.Ordered

variable {b b' : Builder} {loose : List Nat}

theorem accounts_new (text : Text) : (new text).Accounts [] where
  places := .refl _
  rising := by simp [new]
  risingOpened := by simp [new]
  below := by simp [new, Arena.Ordered]

/-- A number that is in some place was given out. -/
theorem Accounts.lt (h : b.Accounts loose) {id : Nat}
    (hid : id ∈ b.opened.flatMap OpenNode.children ++ loose) : id < b.arena.length := by
  rw [← List.mem_range, ← h.places.mem_iff]
  exact List.mem_append_right _ hid

/-- A record may be changed in all but its children. -/
theorem Accounts.set (h : b.Accounts loose) {id : Nat} {r r' : Record}
    (hr : b.arena[id]? = some r) (hchildren : r'.children = r.children) :
    Accounts { b with arena := b.arena.set id r' } loose := by
  have hmap : (b.arena.set id r').map Record.children = b.arena.map Record.children := by
    obtain ⟨hid, rfl⟩ := List.getElem?_eq_some_iff.mp hr
    rw [List.map_set, hchildren, ← List.getElem_map Record.children (h := by simpa using hid)]
    exact List.set_getElem_self _
  refine ⟨?_, ?_, h.risingOpened, ?_⟩
  · rw [List.flatMap_def, hmap, List.length_set, ← List.flatMap_def]
    exact h.places
  · rw [← List.forall_mem_map (P := List.Pairwise (· < ·)), hmap, List.forall_mem_map]
    exact h.rising
  · apply h.below.set
    rw [hchildren]
    exact h.below id r hr

/-- A record takes its children out of the hands of nobody, and is in the hands
of the open node if there is one. -/
theorem Accounts.add {r : Record} (h : b.Accounts (loose ++ r.children))
    (hrising : r.children.Pairwise (· < ·)) :
    (b.add r).2.Accounts (if (b.add r).2.opened = [] then loose ++ [(b.add r).1] else loose) := by
  have hbelow : Arena.Ordered (b.arena ++ [r]) := by
    intro i r' hr' c hc
    rw [List.getElem?_append] at hr'
    split at hr'
    · exact h.below i r' hr' c hc
    · rw [List.getElem?_singleton] at hr'
      split at hr'
      · cases hr'
        have := h.lt (List.mem_append_right _ (List.mem_append_right _ hc))
        omega
      · cases hr'
  have hrisingArena : ∀ r' ∈ b.arena ++ [r], r'.children.Pairwise (· < ·) := by
    rw [List.forall_mem_append, List.forall_mem_singleton]
    exact ⟨h.rising, hrising⟩
  -- Counted number by number, what the record takes is what nobody had.
  have hcount (c : Nat) := h.places.count_eq c
  simp only [List.count_append] at hcount
  cases hopened : b.opened with
  | nil =>
      rw [if_pos (by simp [Builder.add, hopened])]
      refine ⟨?_, hrisingArena, by simp [Builder.add, hopened], hbelow⟩
      simp only [Builder.add, hopened, List.flatMap_append, List.flatMap_singleton,
        List.length_append, List.length_singleton, List.range_succ]
      rw [List.perm_iff_count]
      intro c
      have hc := hcount c
      simp only [hopened, List.count_append] at hc ⊢
      omega
  | cons top outer =>
      rw [if_neg (by simp [Builder.add, hopened])]
      refine ⟨?_, hrisingArena, ?_, hbelow⟩
      · simp only [Builder.add, hopened, List.flatMap_append, List.flatMap_cons, List.flatMap_nil,
          List.append_nil, List.length_append, List.length_singleton, List.range_succ]
        rw [List.perm_iff_count]
        intro c
        have hc := hcount c
        simp only [hopened, List.flatMap_cons, List.count_append] at hc ⊢
        omega
      · have hrisingOpened := h.risingOpened
        rw [hopened, List.forall_mem_cons] at hrisingOpened
        simp only [Builder.add, hopened, List.forall_mem_cons]
        refine ⟨?_, hrisingOpened.2⟩
        rw [List.pairwise_append]
        refine ⟨hrisingOpened.1, List.pairwise_singleton _ _, ?_⟩
        intro c hc d hd
        rw [List.mem_singleton.mp hd]
        apply h.lt
        simp [hopened, hc]

theorem Accounts.leaf (h : b.Accounts loose) (kind : Kind) (start stop : Nat) :
    (b.leaf kind start stop).2.Accounts
      (if (b.leaf kind start stop).2.opened = [] then loose ++ [(b.leaf kind start stop).1]
        else loose) := by
  apply Accounts.add
  · simpa using h
  · exact List.Pairwise.nil

theorem Accounts.startNode (h : b.Accounts loose) (kind : Kind) (position : Nat) :
    (b.startNode kind position).Accounts loose where
  places := by simpa [Builder.startNode] using h.places
  rising := h.rising
  risingOpened := by
    rw [Builder.startNode, List.forall_mem_cons]
    exact ⟨List.Pairwise.nil, h.risingOpened⟩
  below := h.below

/-- The new node takes from the open one what stands behind a place, whichever
place that is. -/
theorem Accounts.startNodeAt (h : b.Accounts loose) {c : Checkpoint} {kind : Kind}
    (hstart : b.startNodeAt c kind = .ok b') : b'.Accounts loose := by
  unfold Builder.startNodeAt at hstart
  split at hstart
  · cases hstart
  split at hstart
  · cases hstart
  rename_i top outer hopened
  split at hstart
  · cases hstart
  rw [Except.ok.injEq] at hstart
  rw [← hstart]
  have hrisingOpened := h.risingOpened
  rw [hopened, List.forall_mem_cons] at hrisingOpened
  refine ⟨?_, h.rising, ?_, h.below⟩
  · have hplaces := h.places
    rw [hopened, List.flatMap_cons] at hplaces
    refine List.Perm.trans ?_ hplaces
    rw [List.flatMap_cons, List.flatMap_cons, ← List.append_assoc (top.children.drop c.length)]
    refine ((List.perm_append_comm.append_right _).append_right _).append_left _ |>.trans ?_
    rw [List.take_append_drop]
  · rw [List.forall_mem_cons, List.forall_mem_cons]
    exact ⟨hrisingOpened.1.drop, hrisingOpened.1.take, hrisingOpened.2⟩

/-- A finished node has its children from the open node, which is no more. -/
theorem Accounts.finishNode (h : b.Accounts loose) {made : Nat × Builder}
    (hfinish : b.finishNode = .ok made) :
    made.2.Accounts (if made.2.opened = [] then loose ++ [made.1] else loose) := by
  unfold Builder.finishNode at hfinish
  split at hfinish
  · cases hfinish
  rename_i top outer hopened
  rw [Except.ok.injEq] at hfinish
  rw [← hfinish]
  have hrisingOpened := h.risingOpened
  rw [hopened, List.forall_mem_cons] at hrisingOpened
  apply Accounts.add
  · refine ⟨?_, h.rising, hrisingOpened.2, h.below⟩
    have hplaces := h.places
    rw [hopened, List.flatMap_cons, List.append_assoc] at hplaces
    refine List.Perm.trans (List.Perm.append_left _ ?_) hplaces
    rw [← List.append_assoc]
    exact List.perm_append_comm
  · exact hrisingOpened.1

theorem Accounts.retag (h : b.Accounts loose) {id : Nat} {kind : Kind}
    (hretag : b.retag id kind = .ok b') : b'.Accounts loose := by
  unfold Builder.retag at hretag
  split at hretag
  · cases hretag
  rename_i r hr
  rw [Except.ok.injEq] at hretag
  rw [← hretag]
  exact h.set hr rfl

/-- Sealing changes nothing but where the root stands. -/
theorem Accounts.sealed (h : b.Accounts loose) (hopened : b.opened = []) {root : Nat}
    (hroot : root < b.arena.length) :
    (b.sealed root).Linked ∧
      ∀ id, id ∈ loose ↔ id < (b.sealed root).length ∧ (b.sealed root).parent? id = none := by
  have hr := List.getElem?_eq_getElem hroot
  have hset := sealed_eq_set hr
  have hsealed : Accounts { b with arena := b.sealed root } loose := by
    rw [hset]
    exact h.set hr rfl
  generalize b.sealed root = a at hsealed ⊢
  have hplaces := hsealed.places
  simp only [hopened, List.flatMap_nil, List.nil_append] at hplaces
  have hnodup := hplaces.nodup_iff.mpr List.nodup_range
  constructor
  · exact Arena.linked_of_once hnodup.of_append_left hsealed.rising hsealed.below
  · intro id
    have hmem := hplaces.mem_iff (a := id)
    rw [List.mem_append, List.mem_range] at hmem
    rw [Arena.parent?_eq_none_iff, ← hmem]
    have happart := List.disjoint_of_nodup_append hnodup (a := id)
    tauto

end Builder

/-! ### Sessions -/

namespace Session

/-- What the builder of a session has given out. -/
def Accounts (s : Session) : Prop := s.builder.Accounts s.loose

variable {s s' : Session} {call : Builder.Call} {calls : List Builder.Call} {text : Text}
  {root : Nat}

/-- A call that a builder makes for a session is one that the builder can make. -/
theorem exists_of_map_eq_ok {α : Type} {result : Except Fault α} {f : α → Session}
    (h : result.map f = .ok s) : ∃ a, result = .ok a ∧ f a = s := by
  cases result with
  | error fault => cases h
  | ok a =>
      rw [Except.map, Except.ok.injEq] at h
      exact ⟨a, rfl, h⟩

/-- Every call keeps the accounts. -/
theorem Accounts.step (h : s.Accounts) (hstep : s.step call = .ok s') : s'.Accounts := by
  cases call with
  | leaf kind start stop =>
      cases hstep
      exact Builder.Accounts.leaf h kind start stop
  | startNode kind position =>
      cases hstep
      exact Builder.Accounts.startNode h kind position
  | checkpoint =>
      cases hstep
      exact h
  | startNodeAt taken kind =>
      simp only [Session.step] at hstep
      split at hstep
      · cases hstep
      · obtain ⟨builder, hbuilder, rfl⟩ := exists_of_map_eq_ok hstep
        exact Builder.Accounts.startNodeAt h hbuilder
  | finishNode =>
      obtain ⟨made, hmade, rfl⟩ := exists_of_map_eq_ok hstep
      exact Builder.Accounts.finishNode h hmade
  | retag id kind =>
      obtain ⟨builder, hbuilder, rfl⟩ := exists_of_map_eq_ok hstep
      exact Builder.Accounts.retag h hbuilder
  | error e =>
      cases hstep
      exact ⟨h.places, h.rising, h.risingOpened, h.below⟩
  | strayComment start stop =>
      cases hstep
      exact ⟨h.places, h.rising, h.risingOpened, h.below⟩

/-- So do all calls of a session. -/
theorem Accounts.run (h : s.Accounts) (hrun : s.run calls = .ok s') : s'.Accounts := by
  induction calls generalizing s with
  | nil =>
      cases hrun
      exact h
  | cons call calls ih =>
      rw [Session.run, List.foldlM_cons] at hrun
      cases hstep : s.step call with
      | error fault =>
          rw [hstep] at hrun
          cases hrun
      | ok next =>
          rw [hstep] at hrun
          exact ih (h.step hstep) hrun

/-- What sealing finds at the end of a session. -/
structure SealsLinked (s : Session) (root : Nat) : Prop where
  /-- The records are linked with their children and with no others. -/
  linked : (s.builder.sealed root).Linked
  /-- Those without a parent were made while no node was open. -/
  loose : ∀ id, id ∈ s.loose ↔
    id < (s.builder.sealed root).length ∧ (s.builder.sealed root).parent? id = none
  /-- There is a tree, and it shows the links of the records. -/
  tree : ∃ t, s.builder.toTree root = .ok t ∧ t.Shows (s.builder.sealed root) root

/-- Whatever a driver calls, in whatever order, and whichever node it makes the
root, sealing finds the records linked. -/
theorem sealsLinked_of_run (hrun : (start text).run calls = .ok s)
    (hopened : s.builder.opened = []) (hroot : root < s.builder.arena.length) :
    s.SealsLinked root := by
  have hstart : (start text).Accounts := Builder.accounts_new text
  obtain ⟨hlinked, hloose⟩ := Builder.Accounts.sealed (hstart.run hrun) hopened hroot
  exact ⟨hlinked, hloose, Builder.exists_toTree hopened hlinked hroot⟩

/-- Calls that use a checkpoint of one node in another one at the same depth, and
make a further leaf in the end. -/
def staleCalls : List Builder.Call :=
  [.startNode (.aux .chunk) 0, .startNode (.expr .var) 0, .leaf (.token .name) 0 1, .checkpoint,
    .finishNode, .startNode (.expr .binary) 2, .leaf (.token .doubleSlash) 2 4,
    .leaf (.token .name) 5 6, .startNodeAt 0 (.expr .var), .finishNode, .retag 4 (.expr .parens),
    .finishNode, .finishNode, .leaf (.token .semi) 6 6]

/-- The second leaf of the operation is adopted, and an inner node is sealed. -/
theorem sealsLinked_staleCalls :
    ∃ s, (start "a // b".toList).run staleCalls = .ok s ∧ s.builder.opened = [] ∧
      s.builder.arena.map Record.children = [[], [0], [], [], [3], [2, 4], [1, 5], []] ∧
      s.loose = [6, 7] ∧ s.SealsLinked 5 := by
  refine ⟨_, rfl, rfl, rfl, rfl, ?_⟩
  have hrun : (start "a // b".toList).run staleCalls = .ok _ := rfl
  exact sealsLinked_of_run hrun rfl (by decide)

end Session

end LuauTidy
