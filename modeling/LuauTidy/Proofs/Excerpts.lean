import LuauTidy.Proofs.Contents
import LuauTidy.Proofs.Passes
import LuauTidy.Proofs.Relocation

/-!
# Excerpts

An expression of a source can be set elsewhere: its text, from its first token
to its last, is read in code as the same words with the same content, whatever
strings were open around it and whatever follows it that parts tokens.

* `Takes.resumed`, `Spells.resumed` — another text behind words;
* `Forest.led` — a row behind other blanks, without the comments before it;
* `Forest.LeadsWith` — the words of an expression behind other blanks;
* `Excerpt`, `Derives.excerpt` — an expression taken out of its source;
* `Node.Built`, `Parsed.built` — the nodes of a tree and their words.
-/

namespace LuauTidy

open Lexeme

/-! ### Another text behind words -/

section Words

variable {n m last : Nesting} {text rest a r r' : Text} {cls : TokenClass} {ws : List Word}

/-- A token with which an expression can end. -/
def TokenClass.endsExpr (cls : TokenClass) : Bool := cls.leafKind?.any Kind.endsExpr

/-- What is taken in the literal part of a string. -/
theorem Takes.literal (h : Takes n text rest cls m) (hn : n.inLiteral)
    (hcls : ∀ cause, cls ≠ .error cause) :
    (text = ['`'] ∧ cls = .token .interpEnd) ∨ (text = ['{'] ∧ cls = .token .interpBraceOpen) ∨
      (literalTail (text ++ rest) = (text.length, false) ∧ cls = .token .interpContent) := by
  obtain ⟨c, tail, rfl, hnext⟩ := h.next_eq
  simp only [next, hn, if_true, inLiteral] at hnext
  split at hnext
  · rename_i hc
    simp only [Lexeme.mk.injEq, Option.some.injEq, List.length_cons] at hnext
    obtain ⟨hclass, hlength, -⟩ := hnext
    obtain rfl : tail = [] := List.length_eq_zero_iff.mp (by omega)
    exact .inl ⟨by rw [beq_iff_eq.mp hc], hclass.symm⟩
  split at hnext
  · rename_i hc
    simp only [Lexeme.mk.injEq, Option.some.injEq, List.length_cons] at hnext
    obtain ⟨hclass, hlength, -⟩ := hnext
    obtain rfl : tail = [] := List.length_eq_zero_iff.mp (by omega)
    exact .inr (.inl ⟨by rw [beq_iff_eq.mp hc], hclass.symm⟩)
  split at hnext
  · simp only [Lexeme.mk.injEq, Option.some.injEq] at hnext
    exact absurd hnext.1.symm (hcls _)
  · rename_i length htail
    simp only [Lexeme.mk.injEq, Option.some.injEq] at hnext
    obtain ⟨hclass, hlength, -⟩ := hnext
    exact .inr (.inr ⟨by rw [List.cons_append, htail, hlength], hclass.symm⟩)

/-- A point that is taken by itself stands before no other. -/
theorem Takes.point_stops (h : Takes n ['.'] r cls m) (hcls : ∀ cause, cls ≠ .error cause) :
    Text.startsWith (· == '.') r = false := by
  cases hn : n.inLiteral with
  | true =>
      rcases h.literal hn hcls with ⟨htext, -⟩ | ⟨htext, -⟩ | ⟨htail, -⟩
      · cases htext
      · cases htext
      · cases r with
        | nil => rfl
        | cons c r =>
            cases hc : c == '.' with
            | false => exact hc
            | true =>
                rw [beq_iff_eq.mp hc] at htail
                simp [literalTail] at htail
  | false =>
      generalize htext : ['.'] = text at h
      cases h.code hn hcls with
      | number start length stop =>
          subst htext
          cases r with
          | nil => rfl
          | cons c r =>
              have hdigit : c.isDigit := start
              cases hc : c == '.' with
              | false => exact hc
              | true =>
                  rw [beq_iff_eq.mp hc] at hdigit
                  cases hdigit
      | @symbol k rest number comment bracket vararg found =>
          have hk : k ∈ TokenKind.symbols := List.mem_of_find?_eq_some found
          have hdot : ∀ k ∈ TokenKind.symbols, k.grammarName.toList = ['.'] → k = .dot := by
            decide
          obtain rfl := hdot k hk htext.symm
          exact TokenKind.symbol_stops (c := '.') hk (j := .concat) (by decide) rfl found
      | @longString level text rest bracket closed =>
          subst htext
          cases bracket
      | @word text rest start all stop =>
          subst htext
          cases start
      | string isQuote =>
          cases htext
          exact absurd isQuote (by decide)
      | _ => cases htext

/-- A token is taken again if what follows it goes on with the same text, and
then with one that parts tokens. -/
theorem Takes.resumed (h : Takes n text (a ++ r) cls m) (hcls : ∀ cause, cls ≠ .error cause)
    (hr' : r'.Parts) (hpoint : a = ['.'] → Text.startsWith (· == '.') r = false)
    (hcomment : cls = .comment → a.all isBlank = false)
    (hlast : a = [] → cls.endsExpr) : Takes n text (a ++ r') cls m := by
  cases hn : n.inLiteral with
  | false =>
      have hslash : a = [] → cls = .token .slash → Text.startsWith (· == '/') r' = false := by
        intro ha hclass
        have hends := hlast ha
        rw [hclass] at hends
        cases hends
      exact ((h.code hn hcls).resumed hr' hpoint hcomment hslash).takes hn
  | true =>
      obtain ⟨c, tail, htext, hnext⟩ := h.next_eq
      have hturn : m = n.turn cls := (h.admits hcls).2
      rcases h.literal hn hcls with ⟨rfl, rfl⟩ | ⟨rfl, rfl⟩ | ⟨htail, rfl⟩
      · rw [hturn]
        simp [Takes, Lexeme.read, next, hn, inLiteral, Nesting.turn]
      · rw [hturn]
        simp [Takes, Lexeme.read, next, hn, inLiteral, Nesting.turn]
      · cases a with
        | nil => cases hlast rfl
        | cons d a =>
            have hagain := literalTail_append htail (a ++ r')
            subst htext
            rw [hturn]
            have hplain : (c == '`') = false ∧ (c == '{') = false := by
              simp only [next, hn, if_true, inLiteral] at hnext
              constructor
              · cases hc : c == '`' with
                | false => rfl
                | true => simp [hc] at hnext
              · cases hc : c == '{' with
                | false => rfl
                | true =>
                    rw [beq_iff_eq.mp hc] at hnext
                    simp at hnext
            simp only [List.cons_append] at hagain
            simp [Takes, Lexeme.read, next, hn, inLiteral, hplain, hagain, Nesting.turn]

/-- A token with which an expression ends shows. -/
theorem Takes.visible (h : Takes n text rest cls m) (hends : cls.endsExpr) :
    text.all isBlank = false := by
  obtain ⟨c, tail, rfl, hnext⟩ := h.next_eq
  cases hc : isBlank c with
  | false => simp [hc]
  | true =>
      cases hn : n.inLiteral with
      | false =>
          rw [next_blank hn hc] at hnext
          simp at hnext
      | true =>
          have hcls : ∀ cause, cls ≠ .error cause := by
            rintro cause rfl
            cases hends
          rcases h.literal hn hcls with ⟨htext, -⟩ | ⟨-, rfl⟩ | ⟨-, rfl⟩
          · rw [htext]
            decide
          · cases hends
          · cases hends

/-- Words that end with a token which shows do so too. -/
theorem Spells.visible (h : Spells n ws last rest) (hne : ws ≠ [])
    (hends : ∀ w, ws.getLast? = some w → w.cls.endsExpr) :
    (Word.flat ws).all isBlank = false := by
  induction h with
  | nil => exact absurd rfl hne
  | @cons n middle last w later rest blank inside read tail ih =>
      rw [Word.flat_cons, List.all_append, List.all_append]
      cases later with
      | nil => simp [Takes.visible read (hends w rfl)]
      | cons v later =>
          have hlater := ih (List.cons_ne_nil _ _) (by simpa using hends)
          rw [hlater, Bool.and_false, Bool.and_false]

/-- A point that is all of some words is one of them, and stands before no other. -/
theorem Spells.point_stops (h : Spells n ws last r) (hcls : ∀ w ∈ ws, ∀ cause, w.cls ≠ .error cause)
    (hpoint : Word.flat ws = ['.']) : Text.startsWith (· == '.') r = false := by
  cases h with
  | nil => cases hpoint
  | @cons _ _ _ w later _ blank inside read tail =>
      have hw : ∀ cause, w.cls ≠ .error cause := hcls w List.mem_cons_self
      obtain ⟨c, text, htext⟩ := List.exists_cons_of_ne_nil (Takes.ne_nil read)
      rw [Word.flat_cons] at hpoint
      have hlength := congrArg List.length hpoint
      simp only [List.length_append, htext, List.length_cons, List.length_nil] at hlength
      have hgap : w.gap = [] := List.length_eq_zero_iff.mp (by omega)
      have hrest : Word.flat later = [] := List.length_eq_zero_iff.mp (by omega)
      have hpointed : w.text = ['.'] := by simpa [hgap, hrest] using hpoint
      rw [hpointed, hrest] at read
      exact Takes.point_stops read hw

/-- Words of an expression are read again before any text that parts tokens. -/
theorem Spells.resumed (h : Spells n ws last r) (hcls : ∀ w ∈ ws, ∀ cause, w.cls ≠ .error cause)
    (hends : ∀ w, ws.getLast? = some w → w.cls.endsExpr) (hr' : r'.Parts) :
    Spells n ws last r' := by
  induction h with
  | nil => exact .nil _ _
  | @cons n middle last w later r blank inside read tail ih =>
      rw [List.forall_mem_cons] at hcls
      have hlater : later ≠ [] → ∀ w, later.getLast? = some w → w.cls.endsExpr := by
        intro hne v hv
        apply hends v
        rw [List.getLast?_cons, hv]
        rfl
      have hshows : later ≠ [] → (Word.flat later).all isBlank = false := fun hne =>
        tail.visible hne (hlater hne)
      have hagain : Takes n w.text (Word.flat later ++ r') w.cls middle := by
        apply Takes.resumed read hcls.1 hr'
        · intro hpoint
          exact tail.point_stops hcls.2 hpoint
        · intro hcomment
          apply hshows
          rintro rfl
          have hw := hends w rfl
          rw [hcomment] at hw
          cases hw
        · intro hnil
          cases later with
          | nil => exact hends w rfl
          | cons v later =>
              have hno := hshows (List.cons_ne_nil _ _)
              rw [hnil] at hno
              cases hno
      apply Spells.cons blank inside hagain
      cases later with
      | nil =>
          cases tail
          exact .nil _ _
      | cons v later => exact ih hcls.2 (hlater (List.cons_ne_nil _ _))

end Words

/-! ### Rows behind other blanks -/

namespace Forest

/-- The row with other blanks before its first token, and without the comments
there. -/
def led (gap : Text) : Forest → Forest
  | nil => nil
  | leaf kind _ word later => leaf kind [] { word with gap } later
  | skipped _ word later => skipped [] { word with gap } later
  | node kind inner later => node kind (inner.led gap) later

variable (gap : Text)

theorem led_append {f : Forest} {l : Kind × Word} (h : f.firstLeaf = some l) (g : Forest) :
    (f ++ g).led gap = f.led gap ++ g := by
  cases f with
  | nil => cases h
  | leaf | skipped | node => rfl

@[simp] theorem contents_led (f : Forest) : (f.led gap).contents = f.contents := by
  induction f with
  | nil | leaf | skipped => rfl
  | node kind inner later ihInner => simp only [led, contents, ihInner]

/-- The words of a row that begins with a leaf, and those behind other blanks. -/
theorem words_led {f : Forest} (hfit : f.Fit) {kind : Kind} {w : Word}
    (h : f.firstLeaf = some (kind, w)) :
    ∃ passed rest, (f.words = passed ++ w :: rest ∧
      ∀ gap, (f.led gap).words = { w with gap } :: rest) ∧ ∀ p ∈ passed, p.isComment := by
  induction f with
  | nil => cases h
  | leaf kind' passed word later =>
      simp only [firstLeaf, Option.some.injEq, Prod.mk.injEq] at h
      obtain ⟨-, rfl⟩ := h
      exact ⟨passed, later.words, ⟨rfl, fun _ => rfl⟩, hfit.1⟩
  | skipped => cases h
  | node kind' inner later ihInner =>
      obtain ⟨passed, rest, ⟨hwords, hled⟩, hpassed⟩ := ihInner hfit.1 h
      refine ⟨passed, rest ++ later.words, ⟨?_, ?_⟩, hpassed⟩
      · rw [words, hwords, List.append_assoc, List.cons_append]
      · intro gap
        rw [led, words, hled, List.cons_append]

theorem firstLeaf_led {f : Forest} {kind : Kind} {w : Word} (h : f.firstLeaf = some (kind, w)) :
    (f.led gap).firstLeaf = some (kind, { w with gap }) := by
  induction f with
  | nil | skipped => cases h
  | leaf kind' passed word later =>
      simp only [firstLeaf, Option.some.injEq, Prod.mk.injEq] at h
      obtain ⟨rfl, rfl⟩ := h
      rfl
  | node kind' inner later ihInner => exact ihInner h

/-- No comment stands ahead of a row behind blanks. -/
theorem ahead_led {f : Forest} {kind : Kind} {w : Word} (h : f.firstLeaf = some (kind, w))
    (hw : w.isComment = false) (next : Ahead) : ((f.led gap).ahead next).comment = false := by
  induction f generalizing next with
  | nil | skipped => cases h
  | leaf kind' passed word later =>
      simp only [firstLeaf, Option.some.injEq, Prod.mk.injEq] at h
      obtain ⟨-, rfl⟩ := h
      have hword : Token.isComment ({ word with gap } : Word).toToken = false := hw
      rw [led, ahead, hword]
      rfl
  | node kind' inner later ihInner => exact ihInner h _

/-- The leaf with which a row ends fits its token. -/
theorem fits_of_lastLeaf {f : Forest} (hfit : f.Fit) {kind : Kind} {w : Word}
    (h : f.lastLeaf = some (kind, w)) : LeafFits kind w.toToken := by
  induction f with
  | nil => cases h
  | leaf kind' passed word later ih =>
      rw [lastLeaf] at h
      split at h
      · obtain ⟨rfl, rfl⟩ := Prod.mk.inj (Option.some.inj h)
        exact hfit.2.1
      · exact ih hfit.2.2 h
  | skipped passed word later ih => exact ih hfit.2.2 h
  | node kind' inner later ihInner ih =>
      rw [lastLeaf] at h
      split at h
      · exact ihInner hfit.1 h
      · exact ih hfit.2 h

end Forest

/-- A row that begins with an expression matches behind other blanks. -/
theorem Derives.led {symbols : List Symbol} {f : Forest} {next : Ahead}
    (h : Derives symbols f next)
    (hfirst : Symbol.firstIs Nonterminal.isExpr Kind.beginsExpr symbols) (gap : Text) :
    Derives symbols (f.led gap) next := by
  induction h with
  | nil | skip | look => cases hfirst
  | leaf comments right fitting tail => exact .leaf (by simp) (fun _ => rfl) fitting tail
  | @flat n parts symbols f later next rule inside tail ihInside =>
      have hparts := rule.firstIs_expr hfirst
      obtain ⟨kind, w, hw, -⟩ := inside.firstLeaf Production.firstIs_expr hparts
      rw [Forest.led_append gap hw]
      exact .flat rule (ihInside hparts) tail
  | node rule inside tail ihInside =>
      exact .node rule (ihInside (rule.firstIs_expr hfirst)) tail

/-! ### Expressions taken out of their source -/

/-- The first character of a token with which an expression begins makes no
longer symbol of a slash before it. -/
theorem Code.opensExpr {n m : Nesting} {text rest : Text} {cls : TokenClass}
    (h : Code n text rest cls m) (hcls : cls.leafKind?.any Kind.beginsExpr) :
    ∃ c later, text = c :: later ∧ c ≠ '/' ∧ c ≠ '=' := by
  have hstart : ∀ {p : Char → Bool} {t : Text}, Text.startsWith p t → p '/' = false →
      p '=' = false → ∃ c later, t = c :: later ∧ c ≠ '/' ∧ c ≠ '=' := by
    intro p t ht hslash hequals
    cases t with
    | nil => cases ht
    | cons c later =>
        refine ⟨c, later, rfl, ?_, ?_⟩
        · rintro rfl
          exact absurd ht (by simp [Text.startsWith, hslash])
        · rintro rfl
          exact absurd ht (by simp [Text.startsWith, hequals])
  cases h with
  | word start => exact hstart start (by decide) (by decide)
  | number start length =>
      obtain ⟨c, later, rfl⟩ := List.exists_cons_of_ne_nil (Code.number_ne_nil start length)
      refine ⟨c, later, rfl, ?_, ?_⟩
      · rintro rfl
        cases later <;> cases start
      · rintro rfl
        cases later <;> cases start
  | @string quote tail rest isQuote =>
      refine ⟨quote, tail, rfl, ?_, ?_⟩
      · rintro rfl
        cases isQuote
      · rintro rfl
        cases isQuote
  | interpStart | lbrace | rbrace => exact ⟨_, _, rfl, by decide, by decide⟩
  | longComment | lineComment => cases hcls
  | @longString level text rest bracket closed =>
      have hle := level_le_of_longBracketLength? closed
      obtain ⟨c, later, rfl⟩ := List.exists_cons_of_ne_nil
        (List.ne_nil_of_length_pos (l := text) (by omega))
      obtain ⟨tail, htail⟩ := starts_of_longBracketLevel? bracket
      obtain ⟨rfl, -⟩ := List.cons.inj htail
      exact ⟨_, _, rfl, by decide, by decide⟩
  | vararg => exact ⟨_, _, rfl, by decide, by decide⟩
  | @symbol k rest number comment bracket vararg found =>
      have hk : k ∈ TokenKind.symbols := List.mem_of_find?_eq_some found
      have hall : ∀ k ∈ TokenKind.symbols, (Kind.token k).beginsExpr →
          Text.startsWith (fun c => c != '/' && c != '=') k.grammarName.toList := by decide
      exact hstart (hall k hk hcls) (by decide) (by decide)

/-- The words of a row begin behind a gap, with one that is no comment. -/
def Forest.OpensBehind (gap : Text) (f : Forest) : Prop :=
  ∃ w, f.words.head? = some w ∧ w.gap = gap ∧ w.isComment = false

/-- A row that stands for an expression of a text by itself, behind any blanks:
it is read from the text, whatever follows that parts tokens. -/
structure Excerpt (m : Nonterminal) (next : Ahead) (text : Text) (content : Content)
    (row : Text → Forest) : Prop where
  derives (gap : Text) : Derives [.sub m] (row gap) next
  spells {gap : Text} (blank : gap.all isBlank) {rest : Text} (parts : rest.Parts) :
    Spells [] (row gap).words [] rest
  flat_eq (gap : Text) : Word.flat (row gap).words = gap ++ text
  contents_eq (gap : Text) : (row gap).contents = [content]
  bare (gap : Text) (next : Ahead) : ((row gap).ahead next).comment = false
  leads (gap : Text) : (row gap).OpensBehind gap
  opens : ∃ c later, text = c :: later ∧ c ≠ '/' ∧ c ≠ '='

/-- Comments before words leave the stack as it is. -/
theorem Spells.behind_comments {n last : Nesting} {passed ws : List Word} {rest : Text}
    (h : Spells n (passed ++ ws) last rest) (hpassed : ∀ p ∈ passed, p.isComment) :
    Spells n ws last rest := by
  induction passed with
  | nil => exact h
  | cons p passed ih =>
      rw [List.forall_mem_cons] at hpassed
      have hcls : p.cls = .comment := by simpa [Token.isComment] using hpassed.1
      cases h with
      | cons _ _ read tail =>
          rw [hcls] at read
          obtain ⟨-, rfl⟩ := Takes.admits read (by simp)
          exact ih tail hpassed.2

/-- The class of a leaf that an expression begins with, or ends with. -/
theorem LeafFits.any_leafKind {kind : Kind} {t : Token} (h : LeafFits kind t) {p : Kind → Bool}
    (hkind : p kind) (hcomment : p (.stmt .comment) = false)
    (hcontinue : p (.token .kwContinue) = false) : t.cls.leafKind?.any p := by
  rcases h with h | ⟨-, rfl⟩ | ⟨-, -, rfl⟩
  · rw [h]
    exact hkind
  · rw [hcomment] at hkind
    cases hkind
  · rw [hcontinue] at hkind
    cases hkind

/-- The words of an expression behind other blanks, without the comments before
it: they begin and end as expressions do, and they are read in code. -/
structure Forest.LeadsWith (f : Forest) (w : Word) (later : List Word) : Prop where
  words_led (gap : Text) : (f.led gap).words = { w with gap } :: later
  body_eq : Word.body f.words = w.text ++ Word.flat later
  bare (gap : Text) (next : Ahead) : ((f.led gap).ahead next).comment = false
  begins : w.cls.leafKind?.any Kind.beginsExpr
  spells : ∃ rest, Spells [] (w :: later) [] rest
  noError : ∀ u ∈ w :: later, ∀ cause, u.cls ≠ .error cause
  ends : ∀ u, (w :: later).getLast? = some u → u.cls.endsExpr

/-- The first word of a row that begins and ends as expressions do, and those behind
it. -/
theorem Derives.leadsWith_row {symbols : List Symbol} {f : Forest} {next : Ahead}
    (h : Derives symbols f next) (hproper : ∀ s ∈ symbols, s.Proper)
    (hfirst : Symbol.firstIs Nonterminal.isExpr Kind.beginsExpr symbols)
    (hlast : ∃ kind w, f.lastLeaf = some (kind, w) ∧ kind.endsExpr)
    (hstands : ∀ n : Nesting, n.inLiteral = false →
      Symbol.stands n symbols ∧ Symbol.turn n symbols = n) {t : SyntaxTree} {a b : List Word}
    (hamong : Word.Among t a f.words b) : ∃ w later, f.LeadsWith w later := by
  have hfit : f.Fit := h.fit hproper
  obtain ⟨rest, hspells⟩ := h.relocated_row hproper hfirst hstands hamong
  obtain ⟨kind, w, hw, hkind⟩ := h.firstLeaf Production.firstIs_expr hfirst
  obtain ⟨kind', v, hv, hkind'⟩ := hlast
  have hleaf : LeafFits kind w.toToken := (Forest.head_of_firstLeaf hfit hw 0 0).2.1
  obtain ⟨⟨init, hinit⟩, -⟩ := Forest.last_of_lastLeaf hv 0 0
  have hbegins : w.cls.leafKind?.any Kind.beginsExpr := hleaf.any_leafKind hkind rfl rfl
  have hcloses : v.cls.endsExpr := (Forest.fits_of_lastLeaf hfit hv).any_leafKind hkind' rfl rfl
  have hcomment : w.isComment = false := by
    rw [Bool.eq_false_iff]
    intro hw
    have hclass : w.cls = .comment := by simpa [Token.isComment] using hw
    rw [hclass] at hbegins
    cases hbegins
  obtain ⟨passed, later, ⟨hwords, hled⟩, hpassed⟩ := Forest.words_led hfit hw
  have hread := hspells [] rfl
  rw [hwords] at hread hinit
  refine ⟨w, later, hled, ?_, fun gap => f.ahead_led gap hw hcomment, hbegins,
    ⟨rest, hread.behind_comments hpassed⟩, ?_, ?_⟩
  · rw [hwords, Word.body_of_comments hpassed hcomment]
  · intro u hu
    apply hfit.noError u
    rw [hwords]
    exact List.mem_append_right passed hu
  · intro u hu
    have hlast := congrArg List.getLast? hinit
    rw [List.getLast?_append, hu, List.getLast?_concat] at hlast
    obtain rfl : u = v := Option.some.inj hlast
    exact hcloses

/-- The first word of an expression and those behind it. -/
theorem Derives.exists_leadsWith {m : Nonterminal} {f : Forest} {next : Ahead}
    (h : Derives [.sub m] f next) (hexpr : m.isExpr) (hends : m.endsExpr) {t : SyntaxTree}
    {a b : List Word} (hamong : Word.Among t a f.words b) : ∃ w later, f.LeadsWith w later :=
  h.leadsWith_row (by simp) hexpr (h.lastLeaf Production.lastIs_expr hends)
    (Nonterminal.stands_expr hexpr) hamong

/-- A whole expression begins and ends as expressions do. -/
theorem Nonterminal.edges_of_isWholeExpr {m : Nonterminal} (hm : m.isWholeExpr) :
    m.isExpr ∧ m.endsExpr := by
  cases m <;> first
    | exact absurd hm Bool.false_ne_true
    | exact ⟨rfl, rfl⟩

/-- An expression of a source taken out of it. -/
theorem Derives.excerpt {m : Nonterminal} {f : Forest} {next : Ahead} (h : Derives [.sub m] f next)
    (hm : m.isWholeExpr) {t : SyntaxTree} {a b : List Word} (hamong : Word.Among t a f.words b)
    {content : Content} (hcontent : f.contents = [content]) :
    Excerpt m next (Word.body f.words) content (fun gap => f.led gap) := by
  obtain ⟨hexpr, hends⟩ := Nonterminal.edges_of_isWholeExpr hm
  obtain ⟨w, later, hleads⟩ := h.exists_leadsWith hexpr hends hamong
  obtain ⟨_, hread⟩ := hleads.spells
  refine ⟨h.led hexpr, ?_, ?_, ?_, hleads.bare, ?_, ?_⟩
  · intro gap blank rest parts
    have hagain : Spells [] (w :: later) [] rest := hread.resumed hleads.noError hleads.ends parts
    rw [hleads.words_led]
    cases hagain with
    | cons _ _ read tail => exact .cons blank (by simp [Nesting.inLiteral]) read tail
  · intro gap
    rw [hleads.words_led, hleads.body_eq, Word.flat_cons]
  · intro gap
    rw [f.contents_led gap, hcontent]
  · intro gap
    refine ⟨_, by rw [hleads.words_led, List.head?_cons], rfl, Bool.eq_false_iff.mpr fun hcomment => ?_⟩
    have hcls : w.cls = .comment := by simpa [Token.isComment] using hcomment
    have hbegins := hleads.begins
    rw [hcls] at hbegins
    cases hbegins
  · cases hread with
    | cons _ _ read tail =>
        have hcode := Takes.code read rfl (hleads.noError w List.mem_cons_self)
        obtain ⟨c, text, htext, hslash, hequals⟩ := hcode.opensExpr hleads.begins
        exact ⟨c, text ++ Word.flat later, by rw [hleads.body_eq, htext, List.cons_append], hslash,
          hequals⟩

/-! ### The nodes of a tree -/

/-- A node that a production builds from words of a source. -/
inductive Node.Built (t : SyntaxTree) (node : Node) : Prop
  | intro {n : Nonterminal} {kind : Kind} {parts : List Symbol} {inner : Forest} {next : Ahead}
      {ws vs : List Word} {made lastEnd : Nat} (rule : Production n (some kind) parts)
      (inside : Derives parts inner next) (among : Word.Among t ws inner.words vs)
      (kind_eq : node.kind = kind) (children_eq : node.children = inner.nodes made lastEnd)

/-- Every node of a row is a leaf or built by a production. -/
theorem Forest.built {t : SyntaxTree} {f : Forest} {next : Ahead} (hruled : f.Ruled next)
    {ws vs : List Word} (hamong : Word.Among t ws f.words vs) (parent : Node)
    (previous : Option Node) (made lastEnd : Nat) :
    ∀ v ∈ visitsOfAll parent previous (f.nodes made lastEnd),
      v.node.children = [] ∨ v.node.Built t := by
  induction f generalizing next ws vs parent previous made lastEnd with
  | nil => simp [nodes, visitsOfAll]
  | leaf kind passed w later ih =>
      intro v hv
      simp only [nodes, visitsOfAll, Node.visits, List.cons_append, List.nil_append,
        List.mem_cons] at hv
      rcases hv with rfl | hv
      · exact .inl rfl
      · exact ih hruled hamong.tail _ _ _ _ v hv
  | skipped passed w later ih => exact ih hruled hamong.tail parent previous made w.stop
  | node kind inner later ihInner ih =>
      obtain ⟨⟨n, parts, rule, inside⟩, hlater⟩ := hruled
      rw [words] at hamong
      intro v hv
      simp only [nodes, visitsOfAll, Node.around, Node.visits, List.mem_append, List.mem_cons] at hv
      rcases hv with (rfl | hv) | hv
      · exact .inr (.intro rule inside hamong.left rfl rfl)
      · exact ihInner inside.ruled hamong.left _ _ _ _ v hv
      · exact ih hlater hamong.right _ _ _ _ v hv

/-- Every node of a tree is a leaf or built by a production. -/
theorem Parsed.built {source : Text} {t : SyntaxTree} {inner : Forest} {gap : Text}
    (h : Parsed source t inner gap) : ∀ v ∈ t.visits, v.node.children = [] ∨ v.node.Built t := by
  intro v hv
  have hroot : t.visits = ⟨t.root, t.rootVisit.parent, t.rootVisit.previous⟩ ::
      visitsOfAll t.root none (inner.nodes 0 0) := by
    rw [SyntaxTree.visits, h.root_eq]
    rfl
  rw [hroot, List.mem_cons] at hv
  rcases hv with rfl | hv
  · rw [h.root_eq]
    exact .inr (.intro .chunk h.derives h.among rfl rfl)
  · exact Forest.built h.derives.ruled h.among _ _ _ _ v hv

end LuauTidy
