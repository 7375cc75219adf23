import LuauTidy.Proofs.StmtAssembling
import LuauTidy.Proofs.Scanning

/-!
# No fault in a parse

The productions that drive a builder go in lockstep with the grammar, from the
first token of a source to the tree.  So the builder is never asked for what it
cannot do, and every repetition ends before its bound is reached.  What else a
parse could fail at is to cut the source, and a scan cuts it between characters.

* `Builder.toTree_eq` — the tree that is sealed;
* `Assembly.lockstep_chunk`, `exists_assembled` — a whole source;
* `parse_faultless` — what all of this says about a parse.
-/

namespace LuauTidy

open Lockstep

/-! ### Sealing -/

/-- A builder whose last record stands for a node seals the tree of the node. -/
theorem Builder.toTree_eq {b : Builder} {n : Node} (hopened : b.opened = []) (hn : b.arena.Has n)
    (hordered : b.arena.Ordered) (hlast : b.arena.length = n.id + 1) :
    b.toTree n.id = .ok {
      source := b.text
      nodeCount := n.id + 1
      root := { n with start := 0, stop := b.text.byteLength }
      enclosing := none
      errors := b.errors
      strayComments := b.strayComments } := by
  let root : Node := { n with start := 0, stop := b.text.byteLength }
  obtain ⟨arena, hset⟩ : ∃ arena : Arena, arena =
      b.arena.set n.id ⟨n.kind, 0, b.text.byteLength, n.children.map Node.id⟩ := ⟨_, rfl⟩
  have hroot : arena.nodes[n.id]? = some root := by
    rw [hset]
    exact (hn.replace root rfl rfl).nodes
  have hlength : arena.length = n.id + 1 := by rw [hset, List.length_set, hlast]
  have hparent : arena.parent? n.id = none := by
    refine Arena.parent?_eq_none ?_ (Nat.le_of_eq hlength)
    rw [hset]
    exact hordered.set hn.ids_lt
  simp only [toTree, hn.record, hopened, ne_eq, not_true_eq_false, if_false, ← hset, hroot,
    hparent, hlength, Option.bind_none]
  rfl

namespace Assembly

variable {d : Descent} {d' : Deeper} {size : Nat}

/-- A whole source, read into a builder that has made nothing yet. -/
theorem lockstep_chunk (hd : d'.Follows d size) {s : Bench} (hsize : s.rest.length ≤ size)
    (hopened : s.builder.opened = []) (harena : s.builder.arena = []) :
    Lockstep (Grammar.chunk d) (chunk d') s fun n id s' =>
      id = n.id ∧ s'.builder.opened = [] ∧ s'.builder.arena.Has n ∧ s'.builder.arena.Ordered ∧
        s'.builder.arena.length = n.id + 1 := by
  refine .startPlaced ?_
  refine (Bench.Gone.first (assembles_blockItems hd hsize)).bind ?_
  rintro items _ s₁ ⟨h, t₁⟩
  refine .look rfl (.ite (fun _ => .unexpected) fun _ => ?_)
  refine (Lockstep.finishAt h.grows rfl fun _ => rfl).mono ?_
  rintro n _ s₂ ⟨rfl, hgrows, -, hlast⟩
  refine ⟨rfl, ?_, hgrows.has n List.mem_cons_self, hgrows.ordered ?_, hlast⟩
  · rw [hgrows.opened, hopened]
    rfl
  · intro i r hr
    simp [harena] at hr

end Assembly

/-- The parse into a builder makes the tree of the parse that makes its nodes
itself. -/
theorem exists_assembled (source : Text) : ∃ t, parse source = .ok t ∧ assemble source = .ok t := by
  have hends : Bench.Ends ⟨tokenize source, 0, .new source⟩ _
      ((Grammar.chunk (.ofDepth (tokenize source).length)).run
        (Cursor.start source (tokenize source)))
      ((Assembly.chunk (.ofDepth (tokenize source).length)).run
        ⟨tokenize source, 0, .new source⟩) :=
    Assembly.lockstep_chunk (Assembly.follows_ofDepth _) (Nat.le_refl _) rfl rfl
  simp only [parse, assemble]
  generalize (Grammar.chunk (.ofDepth (tokenize source).length)).run
    (Cursor.start source (tokenize source)) = r at hends ⊢
  generalize (Assembly.chunk (.ofDepth (tokenize source).length)).run
    ⟨tokenize source, 0, .new source⟩ = r' at hends ⊢
  cases hends with
  | @ok n _ s c keeps cursor fits =>
      obtain ⟨rfl, hopened, hn, hordered, hlast⟩ := fits
      have htext : s.builder.text = source := keeps.text
      have herrors : s.builder.errors = [] := keeps.errors
      refine ⟨_, rfl, ?_⟩
      simp only [Builder.toTree_eq hopened hn hordered hlast, cursor, Bench.cursor, htext,
        herrors, hlast]
  | @wrong complaint place s c keeps cursor =>
      have htext : s.builder.text = source := keeps.text
      have herrors : s.builder.errors = [] := keeps.errors
      refine ⟨_, rfl, ?_⟩
      simp only [Builder.abandon, cursor, Bench.cursor, htext, herrors, List.nil_append]

/-- A parse meets no fault, neither by itself nor with a builder.  It scans the
source to its end, stands between characters at every place, counts no more
braces than it has passed bytes, and cuts out tokens and the inside of long
brackets between characters. -/
theorem parse_faultless (source : Text) :
    (∃ t, parse source = .ok t ∧ assemble source = .ok t) ∧
      (∀ steps, source.length ≤ steps → Token.scanFrom steps [] 0 source = tokenize source) ∧
      (∀ n offset rest, Token.Passes source n offset rest →
        source.after? offset = some rest ∧ ∀ braces, Level.code braces ∈ n → braces ≤ offset) ∧
      (∀ t ∈ tokenize source, source.slice? t.start t.stop = some t.text) ∧
      ∀ before t level, source = before ++ t → Lexeme.longBracketLevel? t = some level →
        source.after? (before.byteLength + (level + 2)) = some (t.drop (level + 2)) := by
  refine ⟨exists_assembled source, ?_, ?_, ?_, ?_⟩
  · intro steps hsteps
    exact Token.scanFrom_steps hsteps (Nat.le_refl _)
  · intro n offset rest hpasses
    exact ⟨hpasses.after?, hpasses.braces_le⟩
  · intro t ht
    exact Token.Passes.start.slice? ht
  · intro before t level hsource hlevel
    exact Lexeme.after?_longBracket hsource hlevel

end LuauTidy
