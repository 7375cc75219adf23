import LuauTidy.Proofs.Cuts
import LuauTidy.Proofs.Journals

/-!
# Steps with and without a journal

A step that keeps a journal and the step that it tells of do the same to the
page.  What is known of the page is mostly that it has grown: it still begins
with what it began with before, and further lines are indented as much.  At the
start of a line a newline is at the end, which a comment may take back; so what
is kept there is kept before the newline.

* `Text.IsInked` — texts that begin with a character that is no blank;
* `Page.Keeps`, `Page.Opens`, `Page.StartsLine` — what is known of a page;
* `Note.IsInOrder` — what a note should say;
* `Layout.Meets` — a step by itself;
* `Records` — a step and the one that keeps a journal;
* `Records.bind`, `read`, `ownLines`, `shallower`, … — one rule for each step, and
  for each way to put steps together.
-/

namespace LuauTidy

/-! ### Ink -/

/-- A text that begins with a character that is no blank. -/
def Text.IsInked (t : Text) : Prop := ∃ c rest, t = c :: rest ∧ Lexeme.isBlank c = false

/-- A token of code begins with ink, since a blank would be no token. -/
theorem Takes.isInked {n m : Nesting} {text rest : Text} {cls : TokenClass}
    (h : Takes n text rest cls m) (hcls : cls.isPiece = false) : text.IsInked := by
  have hcode := h.notInLiteral hcls
  obtain ⟨c, tail, rfl, hnext⟩ := h.next_eq
  refine ⟨c, tail, rfl, ?_⟩
  cases hblank : Lexeme.isBlank c with
  | false => rfl
  | true => simp [Lexeme.next, hcode, Lexeme.inCode, hblank] at hnext

/-! ### Pages -/

namespace Page

/-- The page still begins with a text, which is kept last first, and indents
further lines by so many tabs. -/
structure Keeps (b : Text) (d : Nat) (p : Page) : Prop where
  kept : b <:+ p.reversed
  indent : p.indent = d

/-- Ink stands behind the text that the page begins with. -/
def Opens (b : Text) (d : Nat) (p : Page) : Prop :=
  ∃ c, Lexeme.isBlank c = false ∧ p.Keeps (c :: b) d

/-- The page has no text or ends in a newline, and it begins with a text also
without the newline. -/
structure StartsLine (b : Text) (d : Nat) (p : Page) : Prop where
  ended : ∀ c ∈ p.reversed.head?, c = '\n'
  kept : b <:+ p.reversed.tail
  indent : p.indent = d

variable {b r t : Text} {d : Nat} {p : Page} {c : Char}

@[simp] theorem append_reversed (p : Page) (t : Text) :
    (p.append t).reversed = t.reverse ++ p.reversed := by
  rw [append, List.reverseAux_eq]

theorem Keeps.weaken {b' : Text} (h : p.Keeps b d) (hb : b' <:+ b) : p.Keeps b' d :=
  ⟨hb.trans h.kept, h.indent⟩

theorem Keeps.append (h : p.Keeps b d) (t : Text) : (p.append t).Keeps b d := by
  refine ⟨?_, h.indent⟩
  rw [append_reversed]
  exact h.kept.trans (List.suffix_append _ _)

theorem Opens.keeps (h : p.Opens b d) : p.Keeps b d := by
  obtain ⟨c, -, hkeeps⟩ := h
  exact hkeeps.weaken (List.suffix_cons c b)

theorem StartsLine.keeps (h : p.StartsLine b d) : p.Keeps b d :=
  ⟨h.kept.trans (List.tail_suffix _), h.indent⟩

theorem StartsLine.weaken {b' : Text} (h : p.StartsLine b d) (hb : b' <:+ b) :
    p.StartsLine b' d :=
  ⟨h.ended, hb.trans h.kept, h.indent⟩

/-- What has been written since may be taken back. -/
theorem Keeps.truncate (h : p.Keeps b d) : p.truncate b.length = ⟨b, d⟩ := by
  obtain ⟨⟨since, hsince⟩, rfl⟩ := h
  have hlength : p.length - b.length = since.length := by simp [length, ← hsince]
  rw [Page.truncate, hlength, ← hsince, List.drop_left]

/-- A character may be put before what has been written since. -/
theorem Keeps.insert (h : p.Keeps b d) (c : Char) : (p.insert b.length c).Keeps b d := by
  obtain ⟨⟨since, hsince⟩, hindent⟩ := h
  have hlength : p.length - b.length = since.length := by simp [length, ← hsince]
  refine ⟨?_, hindent⟩
  rw [Page.insert, hlength, ← hsince, List.take_left, List.drop_left]
  exact (List.suffix_cons c b).trans (List.suffix_append _ _)

/-- Inked text opens what is behind it. -/
theorem opens_append (p : Page) (h : t.IsInked) : (p.append t).Opens p.reversed p.indent := by
  obtain ⟨c, rest, rfl, hc⟩ := h
  refine ⟨c, hc, ?_, rfl⟩
  rw [append_reversed, List.reverse_cons, List.append_assoc]
  exact List.suffix_append _ _

/-- Behind a newline a line starts. -/
theorem Keeps.startsLine (h : p.Keeps b d) (ht : t.getLast? = some '\n') :
    (p.append t).StartsLine b d := by
  obtain ⟨t, rfl⟩ := List.getLast?_eq_some_iff.mp ht
  refine ⟨?_, ?_, h.indent⟩
  · simp
  · simpa using h.kept.trans (List.suffix_append _ _)

/-- Behind ink a newline at the end is a new one. -/
theorem Keeps.startsLine_of_ended (h : p.Keeps (c :: b) d) (hc : Lexeme.isBlank c = false)
    (hend : p.endsWith '\n') : p.StartsLine (c :: b) d := by
  obtain ⟨hkept, hindent⟩ := h
  have hhead : p.reversed.head? = some '\n' := by simpa [endsWith] using hend
  obtain ⟨rest, hreversed⟩ := List.head?_eq_some_iff.mp hhead
  rw [hreversed] at hkept
  refine ⟨?_, ?_, hindent⟩
  · simp [hreversed]
  · rw [hreversed, List.tail_cons]
    rcases List.suffix_cons_iff.mp hkept with heq | hsuffix
    · obtain ⟨rfl, -⟩ := List.cons.inj heq
      cases hc
    · exact hsuffix

end Page

/-! ### Notes -/

/-- What a note should say: a statement starts a line, its first line is
indented by a tab for each block and broken table that it lies in, it ends its last
line, and the indentation is what it was before; and where a tab is taken back,
there is one. -/
def Note.IsInOrder (root : Node) : Note → Prop
  | .statement n around before after =>
    root.Encloses around n ∧ (before.text = [] ∨ before.text.getLast? = some '\n') ∧
      (∃ c rest, Lexeme.isBlank c = false ∧
        after.text = before.text ++ (List.replicate (Enclosure.levels around) '\t' ++ c :: rest)) ∧
      after.text.getLast? = some '\n' ∧ after.indent = before.indent
  | .dedent indent => 0 < indent

/-- A statement that opens behind its tabs, and after which a line starts. -/
theorem Note.isInOrder_statement {root n : Node} {around : List Enclosure} {r : Text} {d : Nat}
    {p : Page} (hencloses : root.Encloses around n) (hd : Enclosure.levels around = d)
    (hr : ∀ c ∈ r.head?, c = '\n') {c : Char} (hc : Lexeme.isBlank c = false)
    (h : p.StartsLine (c :: (List.replicate d '\t' ++ r)) d) :
    (Note.statement n around ⟨r, d⟩ p).IsInOrder root := by
  subst hd
  have hbefore : r = [] ∨ r.head? = some '\n' := by
    cases r with
    | nil => exact .inl rfl
    | cons e r => exact .inr (by simpa using hr)
  obtain ⟨more, hmore⟩ := h.keeps.kept
  have hhead : p.reversed.head? = some '\n' := by
    cases hhead : p.reversed.head? with
    | none => simp [← hmore] at hhead
    | some e => rw [h.ended e hhead]
  refine ⟨hencloses, ?_, ⟨c, more.reverse, hc, ?_⟩, ?_, h.indent⟩
  · simpa [Page.text] using hbefore
  · simp [Page.text, ← hmore]
  · simpa [Page.text] using hhead

/-! ### Steps by themselves -/

namespace Layout

variable {α β : Type} {s : Setting} {A A' : Page → Prop} {B B' : α → Page → Prop}
  {l : Layout α}

/-- A step that ends, if it ends, on a page as it should be. -/
def Meets (A : Page → Prop) (l : Layout α) (B : α → Page → Prop) : Prop :=
  ∀ p, A p → ∀ a q, l.run p = .ok (a, q) → B a q

theorem Meets.bind {k : α → Layout β} {C : β → Page → Prop} (h : Meets A l B)
    (hk : ∀ a, Meets (B a) (k a) C) : Meets A (l >>= k) C := by
  intro p hp c q hrun
  rw [StateT.run_bind] at hrun
  cases hl : l.run p with
  | error e =>
      rw [hl] at hrun
      cases hrun
  | ok result =>
      rw [hl] at hrun
      exact hk _ _ (h p hp _ _ hl) _ _ hrun

theorem Meets.pure {a : α} (h : ∀ p, A p → B a p) : Meets A (pure a : Layout α) B := by
  intro p hp a' q hrun
  cases hrun
  exact h p hp

theorem Meets.mono (h : Meets A l B) (hA : ∀ p, A' p → A p) (hB : ∀ a p, B a p → B' a p) :
    Meets A' l B' :=
  fun p hp a q hrun => hB a q (h p (hA p hp) a q hrun)

theorem Meets.modify {f : Page → Page} {B : Unit → Page → Prop} (h : ∀ p, A p → B () (f p)) :
    Meets A (modify f : Layout Unit) B := by
  intro p hp a q hrun
  cases hrun
  exact h p hp

theorem Meets.broken {cause : Fault} : Meets A (broken cause : Layout α) B := by
  intro p _ a q hrun
  cases hrun

/-- The text that a node has in the source. -/
theorem Meets.sourceText {start stop : Nat} :
    Meets A (sourceText s start stop) fun text p =>
      A p ∧ s.source.slice? start stop = some text := by
  intro p hp text q hrun
  rw [Layout.sourceText] at hrun
  cases hslice : s.source.slice? start stop with
  | none =>
      rw [hslice] at hrun
      cases hrun
  | some part =>
      rw [hslice] at hrun
      cases hrun
      exact ⟨hp, rfl⟩

theorem Meets.sameLine {start stop : Nat} : Meets A (sameLine s start stop) fun _ => A :=
  Meets.sourceText.bind fun _ => .pure fun _ hp => hp.1

variable {b r : Text} {d : Nat}

theorem Meets.put (t : Text) : Meets (Page.Keeps b d) (Layout.put t) fun _ => Page.Keeps b d :=
  .modify fun _ hp => hp.append t

theorem Meets.putLine {t : Text} (ht : t.getLast? = some '\n') :
    Meets (Page.Keeps b d) (Layout.put t) fun _ => Page.StartsLine b d :=
  .modify fun _ hp => hp.startsLine ht

theorem Meets.putInk {t : Text} (ht : t.IsInked) :
    Meets (· = ⟨r, d⟩) (Layout.put t) fun _ => Page.Opens r d := by
  refine .modify fun p hp => ?_
  subst hp
  exact Page.opens_append ⟨r, d⟩ ht

/-- Text that begins with ink and ends its line. -/
theorem Meets.putInkLine {t : Text} (ht : t.IsInked) (hend : t.getLast? = some '\n') :
    Meets (· = ⟨r, d⟩) (Layout.put t) fun _ p =>
      ∃ c, Lexeme.isBlank c = false ∧ p.StartsLine (c :: r) d := by
  refine .modify fun p hp => ?_
  subst hp
  obtain ⟨c, hc, hkeeps⟩ := Page.opens_append ⟨r, d⟩ ht
  obtain ⟨before, rfl⟩ := List.getLast?_eq_some_iff.mp hend
  exact ⟨c, hc, hkeeps.startsLine_of_ended hc (by simp [Page.endsWith])⟩

theorem Meets.newline : Meets (Page.Keeps b d) Layout.newline fun _ => Page.StartsLine b d :=
  .putLine rfl

/-- Behind ink, a newline ends the line. -/
theorem Meets.newlineBehind :
    Meets (Page.Opens r d) Layout.newline fun _ p =>
      ∃ c, Lexeme.isBlank c = false ∧ p.StartsLine (c :: r) d := by
  intro p hp a q hrun
  obtain ⟨c, hc, hkeeps⟩ := hp
  exact ⟨c, hc, Meets.newline p hkeeps a q hrun⟩

theorem Meets.copy {n : Node} :
    Meets (Page.Keeps b d) (Layout.copy s n) fun _ => Page.Keeps b d :=
  Meets.sourceText.bind fun text => (Meets.put text).mono (fun _ hp => hp.1) fun _ _ hq => hq

theorem Meets.copyInk {n : Node}
    (h : ∀ text, s.source.slice? n.start n.stop = some text → text.IsInked) :
    Meets (· = ⟨r, d⟩) (Layout.copy s n) fun _ => Page.Opens r d := by
  refine Meets.sourceText.bind fun text p hp => ?_
  exact Meets.putInk (h text hp.2) p hp.1

theorem Meets.copyAll (nodes : List Node) :
    Meets (Page.Keeps b d) (Layout.copyAll s nodes) fun _ => Page.Keeps b d := by
  induction nodes with
  | nil => exact .pure fun _ hp => hp
  | cons n rest ih => exact Meets.copy.bind fun _ => ih

theorem Meets.copyParameters (first : Bool) (nodes : List Node) :
    Meets (Page.Keeps b d) (Layout.copyParameters s first nodes) fun _ => Page.Keeps b d := by
  induction nodes generalizing first with
  | nil => exact .pure fun _ hp => hp
  | cons n rest ih =>
      rw [Layout.copyParameters]
      have hrest : Meets (Page.Keeps b d) (do Layout.copy s n; Layout.copyParameters s false rest)
          fun _ => Page.Keeps b d := Meets.copy.bind fun _ => ih false
      split
      · exact ih first
      · split
        · exact (Meets.put _).bind fun _ => hrest
        · exact hrest

/-- Behind its tabs a line has no ink yet. -/
theorem Meets.tabsAt :
    Meets (· = ⟨r, d⟩) Layout.tabs fun _ => (· = ⟨List.replicate d '\t' ++ r, d⟩) := by
  intro p hp a q hrun
  subst hp
  cases hrun
  simp [Page.append, List.reverseAux_eq]

theorem Meets.tabs : Meets (Page.Keeps b d) Layout.tabs fun _ => Page.Keeps b d := by
  intro p hp a q hrun
  cases hrun
  exact hp.append _

/-- What comes after a look at the page may rely on it. -/
theorem Meets.read {k : Page → Layout α} (hk : ∀ p, A p → Meets (· = p) (k p) B) :
    Meets A (get >>= k) B := by
  intro p hp a q hrun
  exact hk p hp p rfl a q hrun

/-- Behind ink, a line is ended unless it is already. -/
theorem Meets.endLine :
    Meets (Page.Opens r d) Layout.endLine fun _ p =>
      ∃ c, Lexeme.isBlank c = false ∧ p.StartsLine (c :: r) d := by
  refine .read fun p hp => ?_
  obtain ⟨c, hc, hkeeps⟩ := hp
  cases hend : p.endsWith '\n' with
  | true =>
      refine .pure fun q hq => ⟨c, hc, ?_⟩
      subst hq
      exact hkeeps.startsLine_of_ended hc hend
  | false =>
      refine .modify fun q hq => ⟨c, hc, ?_⟩
      subst hq
      exact hkeeps.startsLine rfl

/-- A newline that is taken back leaves what is kept before it. -/
theorem Meets.rejoinLine :
    Meets (Page.StartsLine b d) Layout.rejoinLine fun _ => Page.Keeps b d := by
  refine .read fun p hp => ?_
  cases hend : p.endsWith '\n' with
  | true =>
      refine .modify fun q hq => ?_
      subst hq
      exact ⟨hp.kept, hp.indent⟩
  | false =>
      refine .pure fun q hq => ?_
      subst hq
      exact hp.keeps

theorem Meets.trailingComment {n : Node} :
    Meets (Page.StartsLine b d) (Layout.trailingComment s n) fun _ => Page.StartsLine b d :=
  Meets.rejoinLine.bind fun _ => (Meets.put _).bind fun _ => Meets.copy.bind fun _ => .newline

theorem Meets.ownLineComment {n : Node} :
    Meets (Page.Keeps b d) (Layout.ownLineComment s n) fun _ => Page.StartsLine b d :=
  Meets.tabs.bind fun _ => Meets.copy.bind fun _ => .newline

end Layout

/-! ### Steps with a journal -/

/-- A step ends on a page as it should be, if it ends, and the one that keeps a
journal does so too, with the same page and with notes that are in order. -/
def Records (root : Node) {α : Type} (A : Page → Prop) (l : Layout α) (w : Journaled α)
    (B : α → Page → Prop) : Prop :=
  ∀ p, A p → ∀ a q, l.run p = .ok (a, q) →
    B a q ∧ ∀ notes, ∃ new, (w.run notes).run p = .ok ((a, notes ++ new), q) ∧
      ∀ note ∈ new, note.IsInOrder root

namespace Records

open Layout (Meets)

variable {root : Node} {α β : Type} {A A' : Page → Prop} {B B' : α → Page → Prop}
  {l : Layout α} {w : Journaled α} {k : α → Layout β} {v : α → Journaled β} {C : β → Page → Prop}

theorem mono (h : Records root A l w B) (hA : ∀ p, A' p → A p) (hB : ∀ a p, B a p → B' a p) :
    Records root A' l w B' := by
  intro p hp a q hrun
  obtain ⟨hq, hw⟩ := h p (hA p hp) a q hrun
  exact ⟨hB a q hq, hw⟩

/-- A step that the journal says nothing of. -/
theorem lift (h : Meets A l B) : Records root A l (liftM l) B := by
  intro p hp a q hrun
  refine ⟨h p hp a q hrun, fun notes => ⟨[], ?_, by simp⟩⟩
  rw [List.append_nil]
  have hlift : ((liftM l : Journaled α).run notes).run p =
      (l.run p).bind fun r => .ok ((r.1, notes), r.2) := rfl
  rw [hlift, hrun]
  rfl

/-- One thing after the other. -/
theorem bind (h : Records root A l w B) (hk : ∀ a, Records root (B a) (k a) (v a) C) :
    Records root A (l >>= k) (w >>= v) C := by
  intro p hp c r hrun
  rw [StateT.run_bind] at hrun
  cases hl : l.run p with
  | error e =>
      rw [hl] at hrun
      cases hrun
  | ok result =>
      obtain ⟨a, q⟩ := result
      rw [hl] at hrun
      obtain ⟨hq, hw⟩ := h p hp a q hl
      obtain ⟨hr, hv⟩ := hk a q hq c r hrun
      refine ⟨hr, fun notes => ?_⟩
      obtain ⟨new, hnew, horder⟩ := hw notes
      obtain ⟨later, hlater, horder'⟩ := hv (notes ++ new)
      refine ⟨new ++ later, ?_, List.forall_mem_append.mpr ⟨horder, horder'⟩⟩
      rw [StateT.run_bind, StateT.run_bind, hnew, ← List.append_assoc, ← hlater]
      rfl

theorem pure {a : α} (h : ∀ p, A p → B a p) : Records root A (pure a : Layout α) (pure a) B := by
  intro p hp a' q hrun
  cases hrun
  exact ⟨h p hp, fun notes => ⟨[], by rw [List.append_nil]; rfl, by simp⟩⟩

theorem ite {c : Prop} [Decidable c] {l l' : Layout α} {w w' : Journaled α}
    (hthen : c → Records root A l w B) (helse : ¬c → Records root A l' w' B) :
    Records root A (if c then l else l') (if c then w else w') B := by
  by_cases h : c
  · rw [if_pos h, if_pos h]
    exact hthen h
  · rw [if_neg h, if_neg h]
    exact helse h

/-- What is known of every page with a property. -/
theorem exactly (h : ∀ p, A p → Records root (· = p) l w B) : Records root A l w B :=
  fun p hp => h p hp p rfl

/-- What is known of pages with one property or another. -/
theorem ofExists {ι : Type} {P : ι → Prop} {A : ι → Page → Prop}
    (h : ∀ i, P i → Records root (A i) l w B) : Records root (fun p => ∃ i, P i ∧ A i p) l w B := by
  intro p hp
  obtain ⟨i, hi, hp⟩ := hp
  exact h i hi p hp

/-- What comes after a look at the page may rely on it. -/
theorem read {k : Page → Layout α} {v : Page → Journaled α}
    (h : ∀ p, A p → Records root (· = p) (k p) (v p) B) :
    Records root A (get >>= k) (Journaled.page >>= v) B := by
  intro p hp a q hrun
  exact h p hp p rfl a q hrun

/-- A look at the page, whatever it shows. -/
theorem look {k : Page → Layout α} {v : Page → Journaled α}
    (h : ∀ p, Records root A (k p) (v p) B) :
    Records root A (get >>= k) (Journaled.page >>= v) B :=
  read fun p hp => (h p).mono (fun _ hq => hq ▸ hp) fun _ _ hq => hq

/-- The tab that is taken back is noted. -/
theorem shallower {d : Nat} {A : Page → Prop} {B : Unit → Page → Prop}
    (hA : ∀ p, A p → p.indent = d + 1) (hB : ∀ p, A p → B () { p with indent := d }) :
    Records root A Layout.shallower Journaled.shallower B := by
  intro p hp a q hrun
  cases hrun
  have hindent := hA p hp
  have hpage : p.indent - 1 = d := by omega
  refine ⟨by simpa [hpage] using hB p hp, fun notes => ⟨[.dedent p.indent], rfl, ?_⟩⟩
  simp [Note.IsInOrder, hindent]

/-- A statement that is noted. -/
theorem ownLines {n : Node} {around : List Enclosure} {p : Page} {l : Layout Unit}
    {w : Journaled Unit} {B : Unit → Page → Prop} (h : Records root (· = p) l w B)
    (horder : ∀ q, B () q → (Note.statement n around p q).IsInOrder root) :
    Records root (· = p) l (Journaled.ownLines n around w) B := by
  intro p' hp' a q hrun
  subst hp'
  obtain ⟨hq, hw⟩ := h p' rfl a q hrun
  refine ⟨hq, fun notes => ?_⟩
  obtain ⟨new, hnew, hall⟩ := hw notes
  refine ⟨new ++ [.statement n around p' q], ?_, ?_⟩
  · have hnoted : ((Journaled.ownLines n around w).run notes).run p' =
        ((w.run notes).run p').bind fun r =>
          .ok (((), r.1.2 ++ [.statement n around p' r.2]), r.2) := rfl
    rw [hnoted, hnew, ← List.append_assoc]
    rfl
  · rw [List.forall_mem_append, List.forall_mem_singleton]
    exact ⟨hall, horder q hq⟩

end Records

end LuauTidy
