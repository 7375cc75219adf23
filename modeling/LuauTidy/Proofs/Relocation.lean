import LuauTidy.Proofs.Contexts
import LuauTidy.Proofs.Interpolation
import LuauTidy.Proofs.Neighbours

/-!
# Words read elsewhere

The scanner reads a token by the text from there on and by the stack of open
strings.  The classes of tokens say what becomes of the stack, so the same
words are read from any stack that lets their classes through.  A phrase of the
grammar closes whatever it opens: it is let through by every stack of the kind
that it is read with, and leaves it as it was.  So a phrase that was read inside
of an interpolation is read in the same way on its own.

* `Nesting.admits`, `Nesting.run` — the classes that a stack lets through;
* `Spells.run`, `Spells.elsewhere` — words read from another stack;
* `Symbol.stands` — the stacks that a row of symbols can be read with;
* `Derives.run`, `Derives.relocated` — phrases keep the stack.
-/

namespace LuauTidy

/-! ### Stacks and classes -/

namespace Nesting

/-- A stack lets a token of a class through. -/
def admits (n : Nesting) : TokenClass → Bool
  | .token .interpContent | .token .interpBraceOpen | .token .interpEnd => n.inLiteral
  | .token .interpBraceClose => n.closesInterpolation
  | .token .rbrace => !n.inLiteral && !n.closesInterpolation
  | _ => !n.inLiteral

/-- The stack behind a token of a class. -/
def turn (n : Nesting) : TokenClass → Nesting
  | .token .interpStart => n.openString
  | .token .interpBraceOpen => n.enterCode
  | .token .interpEnd => n.leaveString
  | .token .lbrace => n.openBrace
  | .token .rbrace | .token .interpBraceClose => n.closeBrace
  | _ => n

/-- The stack behind tokens of some classes, if all of them are let through. -/
def run (n : Nesting) : List TokenClass → Option Nesting
  | [] => some n
  | cls :: later => if n.admits cls then (n.turn cls).run later else none

variable {n m : Nesting} {cls : TokenClass} {row later : List TokenClass}

theorem run_cons : n.run (cls :: later) = some m ↔
    n.admits cls ∧ (n.turn cls).run later = some m := by
  rw [run]
  split
  · rename_i h
    simp [h]
  · rename_i h
    simp [h]

theorem run_append : n.run (row ++ later) = some m ↔
    ∃ middle, n.run row = some middle ∧ middle.run later = some m := by
  induction row generalizing n with
  | nil => simp [run]
  | cons cls row ih =>
      rw [List.cons_append, run_cons, ih]
      simp only [run_cons]
      constructor
      · intro h
        obtain ⟨hcls, middle, hrow, hlater⟩ := h
        exact ⟨middle, ⟨hcls, hrow⟩, hlater⟩
      · intro h
        obtain ⟨middle, ⟨hcls, hrow⟩, hlater⟩ := h
        exact ⟨hcls, middle, hrow, hlater⟩

/-- An interpolation is closed from code. -/
theorem closesInterpolation_code (h : n.closesInterpolation) : n.inLiteral = false := by
  unfold closesInterpolation at h
  split at h
  · rfl
  · cases h

/-- Whether a class is let through in code or in the literal part of a string
depends on the class alone. -/
theorem admits_inLiteral (h : n.admits cls) (h' : m.admits cls) : n.inLiteral = m.inLiteral := by
  unfold admits at h h'
  split at h
  · exact Eq.trans h h'.symm
  · exact Eq.trans h h'.symm
  · exact Eq.trans h h'.symm
  · exact Eq.trans (closesInterpolation_code h) (closesInterpolation_code h').symm
  · simp only [Bool.and_eq_true, Bool.not_eq_true'] at h h'
    exact Eq.trans h.1 h'.1.symm
  · simp only [Bool.not_eq_true'] at h
    split at h'
    all_goals simp_all

/-- Plain tokens are let through in code, and change nothing. -/
theorem admits_plain (n : Nesting) (h : cls.isPlain) : n.admits cls = !n.inLiteral := by
  unfold admits
  split
  all_goals first
    | rfl
    | cases h

theorem turn_plain (n : Nesting) (h : cls.isPlain) : n.turn cls = n := by
  unfold turn
  split
  all_goals first
    | rfl
    | cases h

/-- Opened braces are closed again. -/
theorem closeBrace_openBrace (h : n.inLiteral = false) : n.openBrace.closeBrace = n := by
  rcases n with _ | ⟨_ | braces, outer⟩
  · rfl
  · cases h
  · rfl

theorem openBrace_code (h : n.inLiteral = false) :
    n.openBrace.inLiteral = false ∧ n.openBrace.closesInterpolation = false := by
  rcases n with _ | ⟨_ | braces, outer⟩
  · exact ⟨rfl, rfl⟩
  · cases h
  · exact ⟨rfl, rfl⟩

/-- An interpolation is entered from the literal part of a string, and left to
it. -/
theorem enterCode_literal (h : n.inLiteral) : n.enterCode.inLiteral = false ∧
    n.enterCode.closesInterpolation ∧ n.enterCode.closeBrace = n := by
  rcases n with _ | ⟨_ | braces, outer⟩
  · cases h
  · exact ⟨rfl, rfl, rfl⟩
  · cases h

end Nesting

/-! ### Words -/

section Words

variable {n m n' m' : Nesting} {text rest : Text} {cls : TokenClass} {ws vs : List Word}

/-- A token that is taken is let through. -/
theorem Takes.admits (h : Takes n text rest cls m) (hcls : ∀ cause, cls ≠ .error cause) :
    n.admits cls ∧ m = n.turn cls := by
  obtain ⟨c, tail, rfl, hnext⟩ := h.next_eq
  have hturns := Lexeme.next_turns n c (tail ++ rest)
  rw [hnext] at hturns
  cases hturns with
  | plain code plain =>
      rw [Nesting.admits_plain _ plain, Nesting.turn_plain _ plain]
      exact ⟨by simp [code], rfl⟩
  | openString code | openBrace code => exact ⟨by simp [Nesting.admits, code], rfl⟩
  | closeBrace code within => exact ⟨by simp [Nesting.admits, code, within], rfl⟩
  | leaveCode | enterCode | content | endString => exact ⟨rfl, rfl⟩
  | giveUp => exact absurd rfl (hcls _)

/-- A token of code is written in the same way, whatever strings are open. -/
theorem Code.elsewhere (h : Code n text rest cls m) (hadmits : n'.admits cls) :
    Code n' text rest cls (n'.turn cls) := by
  cases h with
  | @word text rest start all stop =>
      rw [Nesting.turn_plain _ (TokenClass.isPlain_wordClass text)]
      exact .word start all stop
  | number start length stop => exact .number start length stop
  | string isQuote closed => exact .string isQuote closed
  | interpStart => exact .interpStart
  | lbrace => exact .lbrace
  | rbrace =>
      by_cases hn : n.closesInterpolation
      · rw [if_pos hn] at hadmits ⊢
        have hcloses : n'.closesInterpolation := hadmits
        have h := @Code.rbrace n' rest
        rwa [if_pos hcloses] at h
      · rw [if_neg hn] at hadmits ⊢
        have hcloses : ¬n'.closesInterpolation := by
          simp only [Nesting.admits, Bool.and_eq_true, Bool.not_eq_true'] at hadmits
          simp [hadmits.2]
        have h := @Code.rbrace n' rest
        rwa [if_neg hcloses] at h
  | longComment bracket closed => exact .longComment bracket closed
  | lineComment bracket length => exact .lineComment bracket length
  | longString bracket closed => exact .longString bracket closed
  | vararg => exact .vararg
  | @symbol k rest number comment bracket vararg found =>
      have hmem : k ∈ TokenKind.symbols := List.mem_of_find?_eq_some found
      have hplain : (TokenClass.token k).isPlain := by
        revert hmem
        cases k <;> decide
      rw [Nesting.turn_plain _ hplain]
      exact .symbol number comment bracket vararg found

/-- A token is taken with every stack that lets it through. -/
theorem Takes.elsewhere (h : Takes n text rest cls m) (hcls : ∀ cause, cls ≠ .error cause)
    (hadmits : n'.admits cls) : Takes n' text rest cls (n'.turn cls) := by
  obtain ⟨hn, rfl⟩ := h.admits hcls
  have hsame : n.inLiteral = n'.inLiteral := Nesting.admits_inLiteral hn hadmits
  cases hliteral : n.inLiteral with
  | false => exact ((h.code hliteral hcls).elsewhere hadmits).takes (hsame ▸ hliteral)
  | true =>
      obtain ⟨c, tail, rfl, hnext⟩ := h.next_eq
      have hliteral' : n'.inLiteral := hsame ▸ hliteral
      simp only [Lexeme.next, hliteral, if_true, Lexeme.inLiteral] at hnext
      simp only [Takes, List.cons_append, Lexeme.read, Lexeme.next, hliteral', if_true,
        Lexeme.inLiteral, Option.some.injEq]
      split at hnext
      · rename_i hc
        obtain ⟨rfl, hlength, -⟩ : TokenClass.token .interpEnd = cls ∧ _ ∧ _ := by
          simpa using hnext
        simp [hc, Nesting.turn, hlength]
      split at hnext
      · rename_i hc hopen
        obtain ⟨rfl, hlength, -⟩ : TokenClass.token .interpBraceOpen = cls ∧ _ ∧ _ := by
          simpa using hnext
        simp [hc, hopen, Nesting.turn, hlength]
      split at hnext
      · obtain ⟨hcause, -⟩ : TokenClass.error .unterminatedInterpolation = cls ∧ _ := by
          simpa using hnext
        exact absurd hcause.symm (hcls _)
      · rename_i hc hopen _ length htail
        obtain ⟨rfl, hlength, -⟩ : TokenClass.token .interpContent = cls ∧ _ ∧ _ := by
          simpa using hnext
        simp [hc, hopen, htail, Nesting.turn, hlength]

/-- Words are let through one after the other. -/
theorem Spells.run (h : Spells n ws m rest) (hcls : ∀ w ∈ ws, ∀ cause, w.cls ≠ .error cause) :
    n.run (ws.map (·.cls)) = some m := by
  induction h with
  | nil => rfl
  | cons _ _ read _ ih =>
      rw [List.forall_mem_cons] at hcls
      obtain ⟨hadmits, rfl⟩ := Takes.admits read hcls.1
      rw [List.map_cons, Nesting.run_cons]
      exact ⟨hadmits, ih hcls.2⟩

/-- Words are read from every stack that lets them through. -/
theorem Spells.elsewhere (h : Spells n ws m rest)
    (hcls : ∀ w ∈ ws, ∀ cause, w.cls ≠ .error cause)
    (hrun : n'.run (ws.map (·.cls)) = some m') : Spells n' ws m' rest := by
  induction h generalizing n' with
  | nil =>
      obtain rfl := Option.some.inj hrun
      exact .nil _ _
  | cons blank inside read _ ih =>
      rw [List.forall_mem_cons] at hcls
      rw [List.map_cons, Nesting.run_cons] at hrun
      obtain ⟨hadmits, hlater⟩ := hrun
      have hsame := Nesting.admits_inLiteral (Takes.admits read hcls.1).1 hadmits
      apply Spells.cons blank
      · intro hliteral
        exact inside (hsame ▸ hliteral)
      · exact Takes.elsewhere read hcls.1 hadmits
      · exact ih hcls.2 hlater

/-- Words before words. -/
theorem Spells.append (h : Spells n ws m (Word.flat vs ++ rest)) (h' : Spells m vs m' rest) :
    Spells n (ws ++ vs) m' rest := by
  generalize hall : Word.flat vs ++ rest = all at h
  induction h with
  | nil => exact h'
  | cons blank inside read _ ih =>
      subst hall
      apply Spells.cons blank inside
      · simpa using read
      · exact ih h' rfl

/-- Words taken apart. -/
theorem Spells.split (h : Spells n (ws ++ vs) m' rest) :
    ∃ m, Spells n ws m (Word.flat vs ++ rest) ∧ Spells m vs m' rest := by
  induction ws generalizing n with
  | nil => exact ⟨n, .nil n _, h⟩
  | cons w ws ih =>
      cases h with
      | cons blank inside read tail =>
          obtain ⟨m, hws, hvs⟩ := ih tail
          exact ⟨m, .cons blank inside (by simpa using read) hws, hvs⟩

end Words

/-! ### Rows of symbols -/

/-- A stack with which a leaf of a kind can be read. -/
def Kind.stands (n : Nesting) : Kind → Bool
  | .token k => n.admits (.token k)
  | _ => !n.inLiteral

/-- The stack behind a leaf of a kind. -/
def Kind.turn (n : Nesting) : Kind → Nesting
  | .token k => n.turn (.token k)
  | _ => n

/-- A stack with which a phrase can be read: the pieces of a string in its
literal part, and everything else in code. -/
def Nonterminal.stands (n : Nesting) : Nonterminal → Bool
  | .pieces | .interpolated => n.inLiteral
  | .more _ item => !n.inLiteral && item.stands n
  | _ => !n.inLiteral

/-- The stack behind a phrase: the pieces of a string end it. -/
def Nonterminal.turn (n : Nesting) : Nonterminal → Nesting
  | .pieces => n.leaveString
  | _ => n

namespace Symbol

/-- A stack with which what is asked for can be read. -/
def standsHere (n : Nesting) : Symbol → Bool
  | leaf kind _ => kind.stands n
  | skip k => n.admits (.token k)
  | look _ => true
  | sub m => m.stands n

/-- The stack behind what is asked for. -/
def turnHere (n : Nesting) : Symbol → Nesting
  | leaf kind _ => kind.turn n
  | skip k => n.turn (.token k)
  | look _ => n
  | sub m => m.turn n

/-- A stack with which a row can be read. -/
def stands (n : Nesting) : List Symbol → Bool
  | [] => true
  | s :: symbols => s.standsHere n && stands (s.turnHere n) symbols

/-- The stack behind a row. -/
def turn (n : Nesting) : List Symbol → Nesting
  | [] => n
  | s :: symbols => turn (s.turnHere n) symbols

variable (n : Nesting)

@[simp] theorem stands_nil : stands n [] = true := rfl

@[simp] theorem stands_cons (s : Symbol) (symbols : List Symbol) :
    stands n (s :: symbols) = (s.standsHere n && stands (s.turnHere n) symbols) := rfl

@[simp] theorem turn_nil : turn n [] = n := rfl

@[simp] theorem turn_cons (s : Symbol) (symbols : List Symbol) :
    turn n (s :: symbols) = turn (s.turnHere n) symbols := rfl

@[simp] theorem standsHere_mark (k : TokenKind) :
    (mark k).standsHere n = n.admits (.token k) := rfl

@[simp] theorem turnHere_mark (k : TokenKind) : (mark k).turnHere n = n.turn (.token k) := rfl

@[simp] theorem standsHere_literal (k : ExprKind) : (literal k).standsHere n = !n.inLiteral := rfl

@[simp] theorem turnHere_literal (k : ExprKind) : (literal k).turnHere n = n := rfl

@[simp] theorem standsHere_comment : comment.standsHere n = !n.inLiteral := rfl

@[simp] theorem turnHere_comment : comment.turnHere n = n := rfl

@[simp] theorem standsHere_continueWord : continueWord.standsHere n = !n.inLiteral := rfl

@[simp] theorem turnHere_continueWord : continueWord.turnHere n = n := rfl

@[simp] theorem standsHere_skip (k : TokenKind) :
    (skip k).standsHere n = n.admits (.token k) := rfl

@[simp] theorem turnHere_skip (k : TokenKind) : (skip k).turnHere n = n.turn (.token k) := rfl

@[simp] theorem standsHere_look (fits : Ahead → Prop) : (look fits).standsHere n = true := rfl

@[simp] theorem turnHere_look (fits : Ahead → Prop) : (look fits).turnHere n = n := rfl

@[simp] theorem standsHere_sub (m : Nonterminal) : (sub m).standsHere n = m.stands n := rfl

@[simp] theorem turnHere_sub (m : Nonterminal) : (sub m).turnHere n = m.turn n := rfl

end Symbol

/-- A leaf stands with a stack that lets its token through. -/
theorem LeafFits.stands {kind : Kind} {t : Token} (h : LeafFits kind t) (n : Nesting) :
    kind.stands n = n.admits t.cls ∧ kind.turn n = n.turn t.cls := by
  rcases h with hkind | ⟨hcls, rfl⟩ | ⟨hcls, -, rfl⟩
  · cases hcls : t.cls with
    | token k =>
        rw [hcls] at hkind
        obtain rfl := Option.some.inj hkind
        exact ⟨rfl, rfl⟩
    | literal k =>
        rw [hcls] at hkind
        obtain rfl := Option.some.inj hkind
        exact ⟨rfl, rfl⟩
    | comment | error =>
        rw [hcls] at hkind
        cases hkind
  · rw [hcls]
    exact ⟨rfl, rfl⟩
  · rw [hcls]
    exact ⟨rfl, rfl⟩

/-- An operator is plain. -/
theorem TokenKind.isPlain_of_operator {k : TokenKind}
    (h : k.isUnary ∨ k.bindingPowers?.isSome ∨ k.isCompoundAssign) :
    (TokenClass.token k).isPlain := by
  cases k <;> first | rfl | simp [isUnary, bindingPowers?, isCompoundAssign] at h

/-- A phrase that stands in code leaves the stack as it is. -/
theorem Nonterminal.turn_of_code {n : Nesting} {item : Nonterminal} (hn : n.inLiteral = false)
    (h : item.stands n) : item.turn n = n := by
  cases item with
  | pieces =>
      rw [Nonterminal.stands, hn] at h
      cases h
  | _ => rfl

/-- What a production asks for can be read with every stack that its phrase can
be read with, and does to the stack what the phrase does. -/
theorem Production.standing {n : Nesting} {m : Nonterminal} {kind : Option Kind}
    {parts : List Symbol} (rule : Production m kind parts) (h : m.stands n) :
    Symbol.stands n parts ∧ Symbol.turn n parts = m.turn n := by
  by_cases hn : n.inLiteral
  · obtain ⟨hinside, hcloses, hback⟩ := Nesting.enterCode_literal hn
    cases rule with
    | content | interpolated | interpolatedExpr | interpolationEnd =>
        simp [Nonterminal.stands, Nonterminal.turn, Nesting.admits, Nesting.turn, hn, hinside,
          hcloses, hback]
    | _ => simp [Nonterminal.stands, hn] at h
  · have hn : n.inLiteral = false := eq_false_of_ne_true hn
    obtain ⟨hinside, hcloses⟩ := Nesting.openBrace_code hn
    have hback := Nesting.closeBrace_openBrace hn
    have hstring : n.openString.inLiteral ∧ n.openString.leaveString = n := ⟨rfl, rfl⟩
    have hplain : ∀ k, (TokenClass.token k).isPlain →
        n.admits (.token k) ∧ n.turn (.token k) = n := by
      intro k hk
      rw [Nesting.admits_plain n hk, hn]
      exact ⟨rfl, Nesting.turn_plain n hk⟩
    cases rule with
    | unary limit op unary =>
        have hop := hplain op (TokenKind.isPlain_of_operator (.inl unary))
        simp [Nonterminal.stands, Nonterminal.turn, hop, hn]
    | binary limit op left right powers =>
        have hop := hplain op (TokenKind.isPlain_of_operator (.inr (.inl (by simp [powers]))))
        simp [Nonterminal.stands, Nonterminal.turn, hop, hn]
    | compoundAssignment op compound =>
        have hop := hplain op (TokenKind.isPlain_of_operator (.inr (.inr compound)))
        simp [Nonterminal.stands, Nonterminal.turn, hop, hn]
    | more separator item separates =>
        have hitem : item.stands n := by
          simpa [Nonterminal.stands, hn] using h
        have hturn := Nonterminal.turn_of_code hn hitem
        have hmore : Nonterminal.turn n (.more separator item) = n := rfl
        have hseparator := hplain separator (by rcases separates with rfl | rfl <;> rfl)
        simp [Nonterminal.stands, hturn, hmore, hitem, hseparator, hn]
    | fieldList separator separates | fields separator separates =>
        have hseparator := hplain separator (by rcases separates with rfl | rfl <;> rfl)
        simp [Nonterminal.stands, Nonterminal.turn, hseparator, hn]
    | content | interpolated | interpolatedExpr | interpolationEnd =>
        rw [Nonterminal.stands, hn] at h
        cases h
    | _ =>
        simp [Nonterminal.stands, Nonterminal.turn, Nesting.admits, Nesting.turn, hn, hinside,
          hcloses, hback, hstring]

/-- Comments before a token leave the stack as it is.  They stand in code, which
is where every stack stands that lets the same token through. -/
theorem Nesting.run_comments {passed : List Word} (hpassed : ∀ p ∈ passed, p.isComment)
    {cls : TokenClass} {later : List TokenClass} {n last : Nesting} (hn : n.admits cls)
    (hrun : n.run (passed.map (·.cls) ++ cls :: later) = some last) :
    (n.turn cls).run later = some last ∧
      ∀ m : Nesting, m.admits cls → ∀ {last'}, (m.turn cls).run later = some last' →
        m.run (passed.map (·.cls) ++ cls :: later) = some last' := by
  induction passed with
  | nil =>
      rw [List.map_nil, List.nil_append, run_cons] at hrun
      refine ⟨hrun.2, ?_⟩
      intro m hm last' hlater
      rw [List.map_nil, List.nil_append, run_cons]
      exact ⟨hm, hlater⟩
  | cons p passed ih =>
      rw [List.forall_mem_cons] at hpassed
      have hcomment : p.cls = .comment := by simpa [Token.isComment] using hpassed.1
      rw [List.map_cons, List.cons_append, run_cons, hcomment] at hrun
      obtain ⟨hcode, hrun⟩ := hrun
      obtain ⟨hlater, hothers⟩ := ih hpassed.2 hrun
      refine ⟨hlater, ?_⟩
      intro m hm last' hlater'
      have hcode' : m.admits .comment = n.admits .comment := by
        simp only [admits, admits_inLiteral hn hm]
      rw [List.map_cons, List.cons_append, run_cons, hcomment, hcode']
      exact ⟨hcode, hothers m hm hlater'⟩

/-- Tokens of some classes treat all stacks that symbols can be read with as the
symbols say, if one such stack lets them through. -/
def Symbol.Treats (symbols : List Symbol) (row : List TokenClass) : Prop :=
  ∀ ⦃n last : Nesting⦄, Symbol.stands n symbols → n.run row = some last →
    last = Symbol.turn n symbols ∧ ∀ n', Symbol.stands n' symbols →
      n'.run row = some (Symbol.turn n' symbols)

/-- A phrase before other tokens. -/
theorem Symbol.Treats.phrase {m : Nonterminal} {kind : Option Kind} {parts symbols : List Symbol}
    {row later : List TokenClass} (rule : Production m kind parts)
    (hparts : Symbol.Treats parts row) (hsymbols : Symbol.Treats symbols later) :
    Symbol.Treats (.sub m :: symbols) (row ++ later) := by
  intro n last hn hrun
  rw [Symbol.stands_cons, Bool.and_eq_true] at hn
  obtain ⟨middle, hinside, hlater⟩ := Nesting.run_append.mp hrun
  obtain ⟨hstands, hturn⟩ := rule.standing hn.1
  obtain ⟨rfl, hallInside⟩ := hparts hstands hinside
  rw [hturn] at hlater
  obtain ⟨hlast, hall⟩ := hsymbols hn.2 hlater
  refine ⟨hlast, ?_⟩
  intro n' hn'
  rw [Symbol.stands_cons, Bool.and_eq_true] at hn'
  obtain ⟨hstands', hturn'⟩ := rule.standing hn'.1
  rw [Nesting.run_append]
  exact ⟨_, hallInside n' hstands', hturn' ▸ hall _ hn'.2⟩

/-- A phrase that is let through by a stack which it can be read with is let
through by every such stack, and does to each what its symbols say. -/
theorem Derives.run {symbols : List Symbol} {f : Forest} {next : Ahead} (h : Derives symbols f next)
    (hproper : ∀ s ∈ symbols, s.Proper) : Symbol.Treats symbols (f.words.map (·.cls)) := by
  induction h with
  | nil =>
      intro n last _ hrun
      exact ⟨(Option.some.inj hrun).symm, fun n' _ => rfl⟩
  | @leaf kind fits passed w later symbols next comments right fitting tail ih =>
      intro n last hn hrun
      rw [List.forall_mem_cons] at hproper
      have hleaf : LeafFits kind w.toToken := hproper.1 _ fitting
      rw [Symbol.stands_cons, Bool.and_eq_true] at hn
      have hadmits : n.admits w.cls := (hleaf.stands n).1 ▸ hn.1
      rw [Forest.words, List.map_append, List.map_cons] at hrun ⊢
      obtain ⟨hlater, hothers⟩ := Nesting.run_comments comments hadmits hrun
      rw [← (hleaf.stands n).2] at hlater
      obtain ⟨hlast, hall⟩ := ih hproper.2 hn.2 hlater
      refine ⟨hlast, ?_⟩
      intro n' hn'
      rw [Symbol.stands_cons, Bool.and_eq_true] at hn'
      have hadmits' : n'.admits w.cls := (hleaf.stands n').1 ▸ hn'.1
      apply hothers n' hadmits'
      rw [← (hleaf.stands n').2]
      exact hall _ hn'.2
  | @skip k passed w later symbols next comments fitting tail ih =>
      intro n last hn hrun
      rw [List.forall_mem_cons] at hproper
      rw [Symbol.stands_cons, Bool.and_eq_true] at hn
      rw [Forest.words, List.map_append, List.map_cons, fitting] at hrun ⊢
      obtain ⟨hlater, hothers⟩ := Nesting.run_comments comments hn.1 hrun
      obtain ⟨hlast, hall⟩ := ih hproper.2 hn.2 hlater
      refine ⟨hlast, ?_⟩
      intro n' hn'
      rw [Symbol.stands_cons, Bool.and_eq_true] at hn'
      exact hothers n' hn'.1 (hall _ hn'.2)
  | look _ _ ih =>
      rw [List.forall_mem_cons] at hproper
      exact ih hproper.2
  | flat rule inside tail ihInside ih =>
      rw [List.forall_mem_cons] at hproper
      rw [Forest.words_append, List.map_append]
      exact Symbol.Treats.phrase rule (ihInside rule.proper) (ih hproper.2)
  | node rule inside tail ihInside ih =>
      rw [List.forall_mem_cons] at hproper
      rw [Forest.words, List.map_append]
      exact Symbol.Treats.phrase rule (ihInside rule.proper) (ih hproper.2)

/-- The words of a row that stands in code are read from every stack there, and leave
it as it was. -/
theorem Derives.anywhere {symbols : List Symbol} {f : Forest} {next : Ahead}
    (h : Derives symbols f next) (hproper : ∀ s ∈ symbols, s.Proper)
    (hstands : ∀ n : Nesting, n.inLiteral = false →
      Symbol.stands n symbols ∧ Symbol.turn n symbols = n) {n m : Nesting} {rest : Text}
    (hn : n.inLiteral = false) (hspells : Spells n f.words m rest) : m = n ∧
      ∀ n' : Nesting, n'.inLiteral = false → Spells n' f.words n' rest := by
  have hfit : f.Fit := h.fit hproper
  obtain ⟨hlast, hall⟩ := h.run hproper (hstands n hn).1 (hspells.run hfit.noError)
  refine ⟨hlast.trans (hstands n hn).2, ?_⟩
  intro n' hn'
  have hrun := hall n' (hstands n' hn').1
  rw [(hstands n' hn').2] at hrun
  exact hspells.elsewhere hfit.noError hrun

/-- A row that begins with an expression starts in code, since its first token does. -/
theorem Derives.inCode {symbols : List Symbol} {f : Forest} {next : Ahead}
    (h : Derives symbols f next) (hproper : ∀ s ∈ symbols, s.Proper)
    (hfirst : Symbol.firstIs Nonterminal.isExpr Kind.beginsExpr symbols) {n m : Nesting}
    {rest : Text} (hspells : Spells n f.words m rest) : n.inLiteral = false := by
  obtain ⟨kind, w, hw, hkind⟩ := h.firstLeaf Production.firstIs_expr hfirst
  obtain ⟨⟨passed, later, hsplit, hpassed⟩, hleaf, -⟩ :=
    Forest.head_of_firstLeaf (h.fit hproper) hw 0 0
  rw [hsplit] at hspells
  cases passed with
  | nil =>
      cases hspells with
      | cons _ _ read _ => exact Takes.notInLiteral read (Kind.isPiece_of_beginsExpr hkind hleaf)
  | cons p passed =>
      have hcomment : p.cls = .comment := by
        simpa [Token.isComment] using hpassed p List.mem_cons_self
      cases hspells with
      | cons _ _ read _ => exact Takes.notInLiteral read (by rw [hcomment]; rfl)

/-- The words of a row that begins with an expression are read from every stack in
code, and leave it as it was. -/
theorem Derives.relocated_row {symbols : List Symbol} {f : Forest} {next : Ahead}
    (h : Derives symbols f next) (hproper : ∀ s ∈ symbols, s.Proper)
    (hfirst : Symbol.firstIs Nonterminal.isExpr Kind.beginsExpr symbols)
    (hstands : ∀ n : Nesting, n.inLiteral = false →
      Symbol.stands n symbols ∧ Symbol.turn n symbols = n) {t : SyntaxTree} {a b : List Word}
    (hamong : Word.Among t a f.words b) :
    ∃ rest, ∀ n : Nesting, n.inLiteral = false → Spells n f.words n rest := by
  obtain ⟨gap, hspells, -⟩ := hamong.spells
  obtain ⟨n, -, hbehind⟩ := hspells.split
  obtain ⟨last, hwords, -⟩ := hbehind.split
  exact ⟨_, (h.anywhere hproper hstands (h.inCode hproper hfirst hwords) hwords).2⟩

/-- An expression stands in code and leaves the stack as it was. -/
theorem Nonterminal.stands_expr {m : Nonterminal} (hm : m.isExpr) (n : Nesting)
    (hn : n.inLiteral = false) : Symbol.stands n [.sub m] ∧ Symbol.turn n [.sub m] = n := by
  cases m <;> first
    | exact absurd hm Bool.false_ne_true
    | simp [Nonterminal.stands, Nonterminal.turn, hn]

/-- The words of an expression are read from every stack in code, and leave it
as it was. -/
theorem Derives.relocated {m : Nonterminal} {f : Forest} {next : Ahead}
    (h : Derives [.sub m] f next) (hm : m.isExpr) {t : SyntaxTree} {a b : List Word}
    (hamong : Word.Among t a f.words b) :
    ∃ rest, ∀ n : Nesting, n.inLiteral = false → Spells n f.words n rest :=
  h.relocated_row (by simp) hm (Nonterminal.stands_expr hm) hamong

end LuauTidy
