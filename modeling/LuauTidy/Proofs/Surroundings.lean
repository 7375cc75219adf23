import LuauTidy.Proofs.Phrases

/-!
# What stands behind a phrase

A phrase may ask for what stands behind it: an operand for a token that is no
operator, a name or call for one that is no suffix.  Phrases that end with a
token of their own do not ask for anything.  So a phrase can be set before
another token, as long as the token answers the questions of the phrase in the
same way.

* `Symbol.bears`, `Symbol.AllTurn` — rows with a token of their own, and rows that
  can be set before another token;
* `Derives.before` — rows set before another token;
* `Derives.closed_before`, `Derives.expr_before` — phrases that end with a token,
  and expressions;
* `Derives.loosened`, `Derives.tightened` — expressions with another limit.
-/

namespace LuauTidy

/-! ### Rows before another token -/

section Rows

variable {phrases : Nonterminal → Bool} {symbols : List Symbol} {f : Forest} {next next' : Ahead}

/-- What is asked for has a token of its own, which is no comment. -/
def Symbol.bears (phrases : Nonterminal → Bool) : Symbol → Bool
  | leaf kind _ => kind != .stmt .comment
  | sub n => phrases n
  | _ => false

/-- What is asked for at the end of a row can be set before `next'` instead of
`next`. -/
def Symbol.Turns (phrases : Nonterminal → Bool) (next next' : Ahead) : Symbol → Prop
  | look fits => fits next → fits next'
  | sub n => phrases n
  | _ => True

/-- A row can be set before `next'` instead of `next`: each of its symbols stands
before another token of the row, or can itself be set there. -/
def Symbol.AllTurn (phrases : Nonterminal → Bool) (next next' : Ahead) : List Symbol → Prop
  | [] => True
  | s :: symbols =>
    (symbols.any (Symbol.bears phrases) ∨
      symbols.all Symbol.isLook ∧ s.Turns phrases next next') ∧ AllTurn phrases next next' symbols

/-- Some phrases have tokens of their own by every production. -/
def Nonterminal.Bear (phrases : Nonterminal → Bool) : Prop :=
  ∀ {n kind parts}, Production n kind parts → phrases n → parts.any (Symbol.bears phrases)

/-- What stands ahead of a row with a token of its own is in the row. -/
theorem Derives.ahead_of_bears (hbear : Nonterminal.Bear phrases) (h : Derives symbols f next)
    (hproper : ∀ s ∈ symbols, s.Proper) (hbears : symbols.any (Symbol.bears phrases))
    (next' : Ahead) : f.ahead next' = f.ahead next := by
  induction h generalizing next' with
  | nil => cases hbears
  | @leaf kind fits passed w later symbols next comments right fitting tail ih =>
      rw [List.forall_mem_cons] at hproper
      cases hw : w.isComment with
      | false => simp only [Forest.ahead, hw, Bool.false_eq_true, if_false]
      | true =>
          -- a comment is followed by another token of the row
          have hleaf : LeafFits kind w.toToken := hproper.1 _ fitting
          have hkind : kind = .stmt .comment := by
            by_contra hne
            rw [hleaf.not_comment hne] at hw
            cases hw
          have hlater : symbols.any (Symbol.bears phrases) := by
            simpa [hkind, Symbol.bears] using hbears
          simp only [Forest.ahead, hw, if_true, ih hproper.2 hlater next']
  | skip comments fitting tail ih => rfl
  | look fitting tail ih =>
      rw [List.forall_mem_cons] at hproper
      exact ih hproper.2 hbears next'
  | @flat n parts symbols f later next rule inside tail ihInside ih =>
      rw [List.forall_mem_cons] at hproper
      rw [Forest.ahead_append, Forest.ahead_append]
      rcases Bool.or_eq_true_iff.mp hbears with hphrase | hlater
      · exact ihInside rule.proper (hbear rule hphrase) _
      · rw [ih hproper.2 hlater next']
  | @node n kind parts symbols inner later next rule inside tail ihInside ih =>
      rw [List.forall_mem_cons] at hproper
      rcases Bool.or_eq_true_iff.mp hbears with hphrase | hlater
      · exact ihInside rule.proper (hbear rule hphrase) _
      · rw [Forest.ahead, Forest.ahead, ih hproper.2 hlater next']

/-- A row can be set before another token if its phrases can. -/
theorem Derives.before (hbear : Nonterminal.Bear phrases)
    (hrule : ∀ {n kind parts}, Production n kind parts → phrases n →
      Symbol.AllTurn phrases next next' parts)
    (h : Derives symbols f next) (hproper : ∀ s ∈ symbols, s.Proper)
    (hturn : Symbol.AllTurn phrases next next' symbols) : Derives symbols f next' := by
  generalize hz : next = z at h
  induction h with
  | nil => exact .nil next'
  | leaf comments right fitting tail ih =>
      rw [List.forall_mem_cons] at hproper
      exact .leaf comments right fitting (ih hproper.2 hturn.2 hz)
  | skip comments fitting tail ih =>
      rw [List.forall_mem_cons] at hproper
      exact .skip comments fitting (ih hproper.2 hturn.2 hz)
  | @look fits f symbols _ fitting tail ih =>
      subst hz
      rw [List.forall_mem_cons] at hproper
      obtain ⟨hhere, hlater⟩ := hturn
      rcases hhere with hbears | ⟨hlooks, hfits⟩
      · rw [← tail.ahead_of_bears hbear hproper.2 hbears next'] at fitting
        exact .look fitting (ih hproper.2 hlater rfl)
      · obtain rfl := tail.nil_of_looks hlooks
        exact .look (hfits fitting) (ih hproper.2 hlater rfl)
  | @flat n parts symbols f later _ rule inside tail ihInside ih =>
      subst hz
      rw [List.forall_mem_cons] at hproper
      obtain ⟨hhere, hlater⟩ := hturn
      rcases hhere with hbears | ⟨hlooks, hphrase⟩
      · rw [← tail.ahead_of_bears hbear hproper.2 hbears next'] at inside
        exact .flat rule inside (ih hproper.2 hlater rfl)
      · obtain rfl := tail.nil_of_looks hlooks
        exact .flat rule (ihInside rule.proper (hrule rule hphrase) rfl)
          (ih hproper.2 hlater rfl)
  | @node n kind parts symbols inner later _ rule inside tail ihInside ih =>
      subst hz
      rw [List.forall_mem_cons] at hproper
      obtain ⟨hhere, hlater⟩ := hturn
      rcases hhere with hbears | ⟨hlooks, hphrase⟩
      · rw [← tail.ahead_of_bears hbear hproper.2 hbears next'] at inside
        exact .node rule inside (ih hproper.2 hlater rfl)
      · obtain rfl := tail.nil_of_looks hlooks
        exact .node rule (ihInside rule.proper (hrule rule hphrase) rfl)
          (ih hproper.2 hlater rfl)

end Rows

/-! ### Phrases before another token -/

/-- Phrases that end with a token of their own. -/
def Nonterminal.isClosed : Nonterminal → Bool
  | .chain | .variable | .callParts | .arguments | .table | .functionBody | .pieces | .interpolated
  | .name => true
  | _ => false

/-- Phrases that an expression ends with. -/
def Nonterminal.isValue : Nonterminal → Bool
  | .operand _ | .climb _ | .simple | .suffixed => true
  | n => n.isClosed

section Phrases

variable {n : Nonterminal} {f : Forest} {next next' : Ahead} {kind : Option Kind}
  {parts : List Symbol}

theorem Production.isClosed_bears : Nonterminal.Bear Nonterminal.isClosed := by
  intro n kind parts rule hn
  cases rule <;> first
    | exact absurd hn Bool.false_ne_true
    | rfl

theorem Production.isClosed_turns (rule : Production n kind parts) (hn : n.isClosed) :
    Symbol.AllTurn Nonterminal.isClosed next next' parts := by
  cases rule <;> first
    | exact absurd hn Bool.false_ne_true
    | simp [Symbol.AllTurn, Symbol.Turns, Symbol.bears, Symbol.mark, Symbol.literal,
        Nonterminal.isClosed, Symbol.isLook]

/-- A phrase that ends with a token of its own stands before any token. -/
theorem Derives.closed_before (h : Derives [.sub n] f next) (hn : n.isClosed) (next' : Ahead) :
    Derives [.sub n] f next' := by
  apply h.before Production.isClosed_bears (fun rule hn => rule.isClosed_turns hn) (by simp)
  simp [Symbol.AllTurn, Symbol.Turns, hn]

theorem Production.isValue_bears : Nonterminal.Bear Nonterminal.isValue := by
  intro n kind parts rule hn
  cases rule <;> first
    | exact absurd hn Bool.false_ne_true
    | rfl

theorem Production.isValue_turns
    (hoperand : ∀ limit, EndsOperand limit next → EndsOperand limit next')
    (hchain : EndsChain next → EndsChain next') (rule : Production n kind parts) (hn : n.isValue) :
    Symbol.AllTurn Nonterminal.isValue next next' parts := by
  cases rule with
  | operand limit => exact ⟨.inr ⟨rfl, rfl⟩, .inr ⟨rfl, hoperand limit⟩, trivial⟩
  | suffixed => exact ⟨.inr ⟨rfl, rfl⟩, .inr ⟨rfl, hchain⟩, trivial⟩
  | _ => first
    | exact absurd hn Bool.false_ne_true
    | simp [Symbol.AllTurn, Symbol.Turns, Symbol.bears, Symbol.mark, Symbol.literal,
        Nonterminal.isValue, Nonterminal.isClosed, Symbol.isLook]

/-- An expression stands before any token that is no operator and no suffix as far
as the one behind it is none. -/
theorem Derives.expr_before (h : Derives [.sub n] f next) (hn : n.isValue)
    (hoperand : ∀ limit, EndsOperand limit next → EndsOperand limit next')
    (hchain : EndsChain next → EndsChain next') : Derives [.sub n] f next' := by
  apply h.before Production.isValue_bears (Production.isValue_turns hoperand hchain) (by simp)
  simp [Symbol.AllTurn, Symbol.Turns, hn]

/-- An expression that keeps to a limit keeps to every lower one. -/
theorem Derives.loosened {low high : Nat} (h : Derives [.sub (.climb high)] f next)
    (hle : low ≤ high) : Derives [.sub (.climb low)] f next := by
  have hall := h.phrase_induction
    (M := fun n f next => n = .climb high → Derives [.sub (.climb low)] f next) ?_ ?_
  · exact hall rfl
  · intro n parts f next rule inside holds hn
    subst hn
    cases rule
    exact .ofFlat (.plain low) inside
  · intro n kind parts f next rule inside holds hn
    subst hn
    cases rule with
    | unary _ op unary => exact .ofNode (.unary low op unary) inside
    | binary _ op left right powers tighter =>
        obtain ⟨g, later, rfl, -, hg, passed, w, behind, rfl, hpassed, hright, hw, hbehind⟩ := holds
        obtain ⟨value, _, rfl, hvalue, -, rfl⟩ := hbehind
        rw [Forest.append_nil]
        have hrow : Derives [.mark op, .sub (.operand right)] (.leaf (.token op) passed w value)
            next := .leaf hpassed hright hw (by simpa [Forest.ahead] using hvalue)
        rw [Forest.append_nil] at hg
        exact .ofNode (.binary low op left right powers (by omega)) ((hg rfl).append hrow)

/-- An expression that is no binary operation keeps to every limit. -/
theorem Derives.tightened {low : Nat} (h : Derives [.sub (.climb low)] f next)
    (hf : ∀ inner, f ≠ .node (.expr .binary) inner .nil) (limit : Nat) :
    Derives [.sub (.climb limit)] f next := by
  obtain ⟨parts, rule, inside⟩ | ⟨kind, parts, inner, rfl, rule, inside⟩ := h.phrase_cases
  · cases rule
    exact .ofFlat (.plain limit) inside
  · cases rule with
    | unary _ op unary => exact .ofNode (.unary limit op unary) inside
    | binary => exact absurd rfl (hf inner)

end Phrases

end LuauTidy
