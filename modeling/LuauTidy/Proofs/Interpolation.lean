import LuauTidy.Proofs.Scanning
import LuauTidy.Proofs.Tokens

/-!
# How interpolated strings nest

The scanner knows the strings that are open from a stack, and of each
interpolation only how many braces of its code are open.  Here it is said what
a row of tokens looks like that such a stack lets through: strings between
their backquotes, interpolations between their braces inside the literal part
of a string, and in the code of an interpolation every brace with its partner.
The stack at a place of a scan is then exactly what the tokens before the place
leave open.

* `Nesting.Turns` — what a lexeme of each class does to the stack;
* `Nested` — the rows of tokens that leave nothing open;
* `Leaves` — the rows of tokens that leave a stack open;
* `Token.Reaches` — the places of a scan with the tokens before them;
* `tokenize_nests` — the stack is what the tokens leave open, and tokens
  without an error leave nothing open.
-/

namespace LuauTidy

/-! ### One lexeme -/

/-- A class of tokens that neither opens nor closes a string, an interpolation
or braces, and is no part of a string. -/
def TokenClass.isPlain : TokenClass → Bool
  | .token .interpStart | .token .interpContent | .token .interpEnd => false
  | .token .interpBraceOpen | .token .interpBraceClose => false
  | .token .lbrace | .token .rbrace => false
  | .error .unterminatedInterpolation => false
  | _ => true

/-- A keyword is plain, and so is a name. -/
theorem TokenClass.isPlain_wordClass (word : Text) : (Lexeme.wordClass word).isPlain := by
  unfold Lexeme.wordClass
  repeat' split
  · rfl
  · rfl
  · rfl
  · cases hword : TokenKind.keyword? word with
    | none => rfl
    | some k =>
        have hmem : k ∈ TokenKind.keywords := List.mem_of_find?_eq_some hword
        revert hmem
        cases k <;> decide

/-- A symbol is plain: the scanner looks for braces before it looks for
symbols. -/
theorem TokenClass.isPlain_symbol (n : Nesting) (t : Text) :
    ∃ cls, (Lexeme.symbol n t).cls = some cls ∧ cls.isPlain := by
  unfold Lexeme.symbol
  split
  · exact ⟨_, rfl, rfl⟩
  · split
    · rename_i k hfound
      have hmem := List.mem_of_find?_eq_some hfound
      refine ⟨_, rfl, ?_⟩
      revert hmem
      cases k <;> decide
    · exact ⟨_, rfl, rfl⟩

/-- What a lexeme of a class makes of a stack of open strings, and before which
stacks the class occurs at all. -/
inductive Nesting.Turns : Nesting → Option TokenClass → Nesting → Prop
  | blank {n : Nesting} (code : n.inLiteral = false) : Turns n none n
  | plain {n : Nesting} {cls : TokenClass} (code : n.inLiteral = false) (plain : cls.isPlain) :
      Turns n (some cls) n
  | openString {n : Nesting} (code : n.inLiteral = false) :
      Turns n (some (.token .interpStart)) (.literal :: n)
  | openBrace {n : Nesting} (code : n.inLiteral = false) :
      Turns n (some (.token .lbrace)) n.openBrace
  | closeBrace {n : Nesting} (code : n.inLiteral = false)
      (within : n.closesInterpolation = false) : Turns n (some (.token .rbrace)) n.closeBrace
  | leaveCode {outer : Nesting} :
      Turns (.code 0 :: outer) (some (.token .interpBraceClose)) (.literal :: outer)
  | enterCode {outer : Nesting} :
      Turns (.literal :: outer) (some (.token .interpBraceOpen)) (.code 0 :: outer)
  | content {outer : Nesting} :
      Turns (.literal :: outer) (some (.token .interpContent)) (.literal :: outer)
  | endString {outer : Nesting} : Turns (.literal :: outer) (some (.token .interpEnd)) outer
  | giveUp {outer : Nesting} :
      Turns (.literal :: outer) (some (.error .unterminatedInterpolation)) outer

namespace Lexeme

/-- What the scanner takes in code. -/
theorem inCode_turns {n : Nesting} (hn : n.inLiteral = false) (c : Char) (rest : Text) :
    n.Turns (inCode n c rest).cls (inCode n c rest).nesting := by
  unfold inCode
  split
  · exact .blank hn
  split
  · exact .plain hn (TokenClass.isPlain_wordClass _)
  split
  · rw [number_nesting]
    unfold number
    dsimp only
    split
    · split
      · exact .plain hn rfl
      · exact .plain hn rfl
    · exact .plain hn rfl
  split
  · refine .plain hn ?_
    split <;> rfl
  split
  · exact .openString hn
  split
  · exact .openBrace hn
  split
  · by_cases hcloses : n.closesInterpolation
    · rw [if_pos hcloses]
      unfold Nesting.closesInterpolation at hcloses
      split at hcloses
      · exact .leaveCode
      · cases hcloses
    · rw [if_neg hcloses]
      exact .closeBrace hn (eq_false_of_ne_true hcloses)
  split
  · rw [comment_nesting]
    unfold comment
    split
    · split
      · exact .plain hn rfl
      · exact .plain hn rfl
    · exact .plain hn rfl
  split
  · rw [longString_nesting]
    unfold longString
    split
    · exact .plain hn rfl
    · exact .plain hn rfl
  · obtain ⟨cls, hcls, hplain⟩ := TokenClass.isPlain_symbol n (c :: rest)
    rw [symbol_nesting, hcls]
    exact .plain hn hplain

/-- What the scanner takes in the literal part of a string. -/
theorem inLiteral_turns (outer : Nesting) (c : Char) (rest : Text) :
    Nesting.Turns (.literal :: outer) (inLiteral (.literal :: outer) c rest).cls
      (inLiteral (.literal :: outer) c rest).nesting := by
  unfold inLiteral
  split
  · exact .endString
  split
  · exact .enterCode
  split
  · exact .giveUp
  · exact .content

/-- What the scanner takes, and what that makes of the open strings. -/
theorem next_turns (n : Nesting) (c : Char) (rest : Text) :
    n.Turns (next n c rest).cls (next n c rest).nesting := by
  unfold next
  split
  · rename_i hn
    unfold Nesting.inLiteral at hn
    split at hn
    · exact inLiteral_turns _ c rest
    · cases hn
  · rename_i hn
    exact inCode_turns (eq_false_of_ne_true hn) c rest

end Lexeme

/-! ### Rows of tokens -/

/-- Where a row of tokens stands: outside of all strings, in the code of an
interpolation or in the literal part of a string. -/
inductive Region
  | source | code | literal
  deriving DecidableEq, Repr

/-- A row of tokens that leaves nothing open.  Outside of all strings braces
stand as they like; in code each has its partner. -/
inductive Nested : Region → List TokenClass → Prop
  | nil (r : Region) : Nested r []
  | plain {r : Region} {cls : TokenClass} {row : List TokenClass} (code : r ≠ .literal)
      (plain : cls.isPlain) (later : Nested r row) : Nested r (cls :: row)
  | brace {k : TokenKind} {row : List TokenClass} (isBrace : k = .lbrace ∨ k = .rbrace)
      (later : Nested .source row) : Nested .source (.token k :: row)
  | braces {inner row : List TokenClass} (inside : Nested .code inner)
      (later : Nested .code row) :
      Nested .code (.token .lbrace :: (inner ++ .token .rbrace :: row))
  /-- A string goes to its backquote, or to the error with which it is given
  up. -/
  | string {r : Region} {stop : TokenClass} {inner row : List TokenClass} (code : r ≠ .literal)
      (stops : stop = .token .interpEnd ∨ stop = .error .unterminatedInterpolation)
      (inside : Nested .literal inner) (later : Nested r row) :
      Nested r (.token .interpStart :: (inner ++ stop :: row))
  | content {row : List TokenClass} (later : Nested .literal row) :
      Nested .literal (.token .interpContent :: row)
  | interpolation {inner row : List TokenClass} (inside : Nested .code inner)
      (later : Nested .literal row) :
      Nested .literal (.token .interpBraceOpen :: (inner ++ .token .interpBraceClose :: row))

/-- A row of code that leaves a number of braces open, and nothing else. -/
inductive Unclosed : Nat → List TokenClass → Prop
  | closed {row : List TokenClass} (h : Nested .code row) : Unclosed 0 row
  | opened {braces : Nat} {row inner : List TokenClass} (outside : Unclosed braces row)
      (inside : Nested .code inner) : Unclosed (braces + 1) (row ++ .token .lbrace :: inner)

/-- A row of tokens that leaves exactly these strings open, each of them in its
literal part or with that many braces open in the code of an interpolation. -/
inductive Leaves : Nesting → List TokenClass → Prop
  | source {row : List TokenClass} (h : Nested .source row) : Leaves [] row
  | literal {outer : Nesting} {row inner : List TokenClass} (outside : Leaves outer row)
      (code : outer.inLiteral = false) (inside : Nested .literal inner) :
      Leaves (.literal :: outer) (row ++ .token .interpStart :: inner)
  | code {outer : Nesting} {braces : Nat} {row before inner : List TokenClass}
      (outside : Leaves outer row) (code : outer.inLiteral = false)
      (literal : Nested .literal before) (inside : Unclosed braces inner) :
      Leaves (.code braces :: outer)
        (row ++ .token .interpStart :: (before ++ .token .interpBraceOpen :: inner))

namespace Nested

variable {r : Region} {row later : List TokenClass}

/-- Rows of one region go on with one another. -/
theorem append (h : Nested r row) (hlater : Nested r later) : Nested r (row ++ later) := by
  induction h with
  | nil => exact hlater
  | plain code plain _ ih => exact .plain code plain (ih hlater)
  | brace isBrace _ ih => exact .brace isBrace (ih hlater)
  | braces inside _ _ ih =>
      rw [List.cons_append, List.append_assoc, List.cons_append]
      exact .braces inside (ih hlater)
  | string code stops inside _ _ ih =>
      rw [List.cons_append, List.append_assoc, List.cons_append]
      exact .string code stops inside (ih hlater)
  | content _ ih => exact .content (ih hlater)
  | interpolation inside _ _ ih =>
      rw [List.cons_append, List.append_assoc, List.cons_append]
      exact .interpolation inside (ih hlater)

/-- Outside of all strings, code may stand as well. -/
theorem toSource (h : Nested r row) (hr : r ≠ .literal) : Nested .source row := by
  induction h with
  | nil => exact .nil .source
  | plain _ plain _ ih => exact .plain (by decide) plain (ih hr)
  | brace isBrace later => exact .brace isBrace later
  | braces _ _ ihinside ih =>
      have hinside := ihinside (by decide)
      exact .brace (.inl rfl) (hinside.append (.brace (.inr rfl) (ih hr)))
  | string _ stops inside _ _ ih => exact .string (by decide) stops inside (ih hr)
  | content | interpolation => exact absurd rfl hr

/-- Code that is in no braces. -/
theorem single {cls : TokenClass} (hcls : cls.isPlain) : Nested .code [cls] :=
  .plain (by decide) hcls (.nil .code)

end Nested

/-- Code that stands behind open braces leaves them open. -/
theorem Unclosed.append {braces : Nat} {row later : List TokenClass} (h : Unclosed braces row)
    (hlater : Nested .code later) : Unclosed braces (row ++ later) := by
  cases h with
  | closed h => exact .closed (h.append hlater)
  | opened outside inside =>
      rw [List.append_assoc, List.cons_append]
      exact .opened outside (inside.append hlater)

/-- A closing brace in braces closes the last that was opened. -/
theorem Unclosed.closeBrace {braces : Nat} {row : List TokenClass}
    (h : Unclosed (braces + 1) row) : Unclosed braces (row ++ [.token .rbrace]) := by
  cases h with
  | opened outside inside =>
      rw [List.append_assoc, List.cons_append]
      exact outside.append (.braces inside (.nil .code))

namespace Leaves

variable {n outer : Nesting} {row later : List TokenClass}

/-- Code goes on where code stands. -/
theorem append (h : Leaves n row) (hn : n.inLiteral = false) (hlater : Nested .code later) :
    Leaves n (row ++ later) := by
  cases h with
  | source h => exact .source (h.append (hlater.toSource (by decide)))
  | literal => cases hn
  | code outside code literal inside =>
      rw [List.append_assoc, List.cons_append, List.append_assoc, List.cons_append]
      exact .code outside code literal (inside.append hlater)

/-- What the literal part of a string was opened behind. -/
theorem exists_literal (h : Leaves (.literal :: outer) row) :
    ∃ before inner, row = before ++ .token .interpStart :: inner ∧ Leaves outer before ∧
      outer.inLiteral = false ∧ Nested .literal inner := by
  cases h with
  | literal outside code inside => exact ⟨_, _, rfl, outside, code, inside⟩

/-- The literal part of a string goes on. -/
theorem append_literal (h : Leaves (.literal :: outer) row) (hlater : Nested .literal later) :
    Leaves (.literal :: outer) (row ++ later) := by
  obtain ⟨before, inner, rfl, outside, code, inside⟩ := h.exists_literal
  rw [List.append_assoc, List.cons_append]
  exact .literal outside code (inside.append hlater)

/-- A string is left at its backquote, or given up. -/
theorem leaveString (h : Leaves (.literal :: outer) row) {stop : TokenClass}
    (hstop : stop = .token .interpEnd ∨ stop = .error .unterminatedInterpolation) :
    Leaves outer (row ++ [stop]) := by
  obtain ⟨before, inner, rfl, outside, code, inside⟩ := h.exists_literal
  rw [List.append_assoc, List.cons_append]
  exact outside.append code (.string (by decide) hstop inside (.nil .code))

/-- The literal part of a string is left for code. -/
theorem enterCode (h : Leaves (.literal :: outer) row) :
    Leaves (.code 0 :: outer) (row ++ [.token .interpBraceOpen]) := by
  obtain ⟨before, inner, rfl, outside, code, inside⟩ := h.exists_literal
  rw [List.append_assoc, List.cons_append]
  exact .code outside code inside (.closed (.nil .code))

/-- Code is left for the literal part around it. -/
theorem leaveCode (h : Leaves (.code 0 :: outer) row) :
    Leaves (.literal :: outer) (row ++ [.token .interpBraceClose]) := by
  cases h with
  | code outside code literal inside =>
      cases inside with
      | closed inside =>
          rw [List.append_assoc, List.cons_append, List.append_assoc, List.cons_append]
          exact .literal outside code (literal.append (.interpolation inside (.nil .literal)))

/-- A brace is opened in code. -/
theorem openBrace (h : Leaves n row) (hn : n.inLiteral = false) :
    Leaves n.openBrace (row ++ [.token .lbrace]) := by
  cases h with
  | source h => exact .source (h.append (.brace (.inl rfl) (.nil .source)))
  | literal => cases hn
  | code outside code literal inside =>
      rw [List.append_assoc, List.cons_append, List.append_assoc, List.cons_append]
      exact .code outside code literal (.opened inside (.nil .code))

/-- A brace is closed in code that it does not end. -/
theorem closeBrace (h : Leaves n row) (hn : n.inLiteral = false)
    (hwithin : n.closesInterpolation = false) :
    Leaves n.closeBrace (row ++ [.token .rbrace]) := by
  cases h with
  | source h => exact .source (h.append (.brace (.inr rfl) (.nil .source)))
  | literal => cases hn
  | @code _ braces _ _ _ outside code literal inside =>
      cases braces with
      | zero => cases hwithin
      | succ braces =>
          rw [List.append_assoc, List.cons_append, List.append_assoc, List.cons_append]
          exact .code outside code literal inside.closeBrace

/-- A lexeme turns what is left open before it into what is left open after
it. -/
theorem turn {m : Nesting} {cls : Option TokenClass} (h : Leaves n row)
    (hturns : n.Turns cls m) : Leaves m (row ++ cls.toList) := by
  cases hturns with
  | blank => simpa using h
  | plain code plain => exact h.append code (.single plain)
  | openString code => exact .literal h code (.nil .literal)
  | openBrace code => exact h.openBrace code
  | closeBrace code within => exact h.closeBrace code within
  | leaveCode => exact h.leaveCode
  | enterCode => exact h.enterCode
  | content => exact h.append_literal (.content (.nil .literal))
  | endString => exact h.leaveString (.inl rfl)
  | giveUp => exact h.leaveString (.inr rfl)

/-- Around the innermost open string there is code only. -/
theorem outer_code (h : Leaves n row) : ∀ level ∈ n.tail, level ≠ .literal := by
  have hcode : ∀ {outer : Nesting} {row : List TokenClass}, Leaves outer row →
      outer.inLiteral = false → ∀ level ∈ outer, level ≠ .literal := by
    intro outer row h
    induction h with
    | source => simp
    | literal => intro hn; cases hn
    | code _ code _ _ ih =>
        intro _ level hlevel
        rcases List.mem_cons.mp hlevel with rfl | hlevel
        · simp
        · exact ih code level hlevel
  cases h with
  | source => simp
  | literal outside code => exact hcode outside code
  | code outside code => exact hcode outside code

end Leaves

/-! ### The scan -/

namespace Token

/-- The tokens that a lexeme is: one, or none for a blank. -/
def ofLexeme (lexeme : Lexeme) (offset : Nat) (t : Text) : List Token :=
  (lexeme.cls.map fun cls => ⟨cls, offset, t.take lexeme.length⟩).toList

/-- The places of a scan, with the tokens before them. -/
inductive Reaches (source : Text) : (before : List Token) → Nesting → (offset : Nat) →
    (rest : Text) → Prop
  | start : Reaches source [] [] 0 source
  | step {before : List Token} {n : Nesting} {offset : Nat} {c : Char} {rest : Text}
      (h : Reaches source before n offset (c :: rest)) :
      Reaches source (before ++ ofLexeme (Lexeme.next n c rest) offset (c :: rest))
        (Lexeme.next n c rest).nesting
        (offset + Text.byteLength ((c :: rest).take (Lexeme.next n c rest).length))
        ((c :: rest).drop (Lexeme.next n c rest).length)

theorem ofLexeme_cls (lexeme : Lexeme) (offset : Nat) (t : Text) :
    (ofLexeme lexeme offset t).map Token.cls = lexeme.cls.toList := by
  cases h : lexeme.cls <;> simp [ofLexeme, h]

/-- A step of a scan takes a lexeme and goes on behind it. -/
theorem scanFrom_step (n : Nesting) (offset : Nat) (c : Char) (rest : Text) :
    scanFrom (c :: rest).length n offset (c :: rest) =
      ofLexeme (Lexeme.next n c rest) offset (c :: rest) ++
        scanFrom ((c :: rest).drop (Lexeme.next n c rest).length).length
          (Lexeme.next n c rest).nesting
          (offset + Text.byteLength ((c :: rest).take (Lexeme.next n c rest).length))
          ((c :: rest).drop (Lexeme.next n c rest).length) := by
  have hpos := (Lexeme.next_length n c rest).1
  have hle : ((c :: rest).drop (Lexeme.next n c rest).length).length ≤ rest.length := by
    simp only [List.length_drop, List.length_cons]
    omega
  rw [List.length_cons, scanFrom, scanFrom_steps hle (Nat.le_refl _)]
  split
  · rename_i cls hcls
    simp [ofLexeme, hcls]
  · rename_i hcls
    simp [ofLexeme, hcls]

namespace Reaches

variable {source rest : Text} {before : List Token} {n : Nesting} {offset : Nat}

/-- The places of a scan are the same without the tokens. -/
theorem passes (h : Reaches source before n offset rest) : Passes source n offset rest := by
  induction h with
  | start => exact .start
  | step _ ih => exact ih.step

/-- The tokens before a place and those behind it are the tokens of the
source. -/
theorem tokenize_eq (h : Reaches source before n offset rest) :
    tokenize source = before ++ scanFrom rest.length n offset rest := by
  induction h with
  | start => rfl
  | @step before n offset c rest _ ih => rw [ih, scanFrom_step, List.append_assoc]

/-- The open strings are those that the tokens before a place leave open. -/
theorem leaves (h : Reaches source before n offset rest) :
    Leaves n (before.map Token.cls) := by
  induction h with
  | start => exact .source (.nil .source)
  | @step before n offset c rest _ ih =>
      rw [List.map_append, ofLexeme_cls]
      exact ih.turn (Lexeme.next_turns n c rest)

/-- A scan goes on to the end of the source. -/
theorem exists_end (h : Reaches source before n offset rest) :
    ∃ before n offset, Reaches source before n offset [] := by
  induction hlength : rest.length using Nat.strongRecOn generalizing before n offset rest with
  | ind length ih =>
      cases rest with
      | nil => exact ⟨before, n, offset, h⟩
      | cons c rest =>
          have hpos := (Lexeme.next_length n c rest).1
          refine ih _ ?_ h.step rfl
          simp only [← hlength, List.length_drop, List.length_cons]
          omega

/-- No more braces are open than the source has bytes. -/
theorem braces_le (h : Reaches source before n offset rest) :
    ∀ braces, Level.code braces ∈ n → braces ≤ source.byteLength := by
  intro braces hbraces
  obtain ⟨text, hsource, hoffset⟩ := h.passes.exists_before
  have hle := h.passes.braces_le braces hbraces
  have hbytes : source.byteLength = text.byteLength + Text.byteLength rest := by
    rw [hsource, Text.byteLength_append]
  omega

end Reaches

end Token

/-- Tokens without an error leave nothing open: at the end of a source that is
inside of a string there is one. -/
theorem nested_of_no_error {source : Text}
    (h : ∀ t ∈ tokenize source, ∀ cause, t.cls ≠ .error cause) :
    Nested .source ((tokenize source).map Token.cls) := by
  have hstart : Token.Reaches source [] [] 0 source := .start
  obtain ⟨before, n, offset, hend⟩ := hstart.exists_end
  have htokens : tokenize source = before ++ if n.isEmpty then [] else [Token.endInside offset] :=
    hend.tokenize_eq
  have hleaves := hend.leaves
  cases hn : n with
  | nil =>
      subst hn
      rw [htokens]
      cases hleaves with
      | source hnested => simpa using hnested
  | cons level outer =>
      have hmem : Token.endInside offset ∈ tokenize source := by simp [htokens, hn]
      exact absurd rfl (h _ hmem .unterminatedInterpolation)

/-- **Interpolated strings nest.**  At every place of a scan the open strings
are those that the tokens before it leave open, with as many open braces in the
code of each interpolation as the scanner has counted; all but the innermost of
them are in such code, and no count is above the length of the source.  The
tokens of a source without an error among them leave nothing open. -/
theorem tokenize_nests (source : Text) :
    (∀ before n offset rest, Token.Reaches source before n offset rest →
      tokenize source = before ++ Token.scanFrom rest.length n offset rest ∧
      Leaves n (before.map Token.cls) ∧
      (∀ level ∈ n.tail, level ≠ .literal) ∧
      ∀ braces, Level.code braces ∈ n → braces ≤ source.byteLength) ∧
    ((∀ t ∈ tokenize source, ∀ cause, t.cls ≠ .error cause) →
      Nested .source ((tokenize source).map Token.cls)) := by
  constructor
  · intro before n offset rest h
    exact ⟨h.tokenize_eq, h.leaves, h.leaves.outer_code, h.braces_le⟩
  · intro h
    exact nested_of_no_error h

/-- A string in the braces of a table that is in the code of a string. -/
def stringWithinTable : Text :=
  ['`', '{', '{', '`', '{', 'x', '}', '`', '}', '}', '`']

/-- Behind the second brace of the inner string, both strings are in code, and
the outer one has the table's brace open. -/
theorem tokenize_nests_within_table :
    (∃ before, Token.Reaches stringWithinTable before [.code 0, .code 1] 5
        ['x', '}', '`', '}', '}', '`'] ∧
      Leaves [.code 0, .code 1] (before.map Token.cls)) ∧
    Nested .source ((tokenize stringWithinTable).map Token.cls) := by
  have hstart : Token.Reaches stringWithinTable [] [] 0
      ('`' :: ['{', '{', '`', '{', 'x', '}', '`', '}', '}', '`']) := .start
  have houter : Token.Reaches stringWithinTable _ [.literal] 1
      ('{' :: ['{', '`', '{', 'x', '}', '`', '}', '}', '`']) := hstart.step
  have hcode : Token.Reaches stringWithinTable _ [.code 0] 2
      ('{' :: ['`', '{', 'x', '}', '`', '}', '}', '`']) := houter.step
  have htable : Token.Reaches stringWithinTable _ [.code 1] 3
      ('`' :: ['{', 'x', '}', '`', '}', '}', '`']) := hcode.step
  have hinner : Token.Reaches stringWithinTable _ [.literal, .code 1] 4
      ('{' :: ['x', '}', '`', '}', '}', '`']) := htable.step
  have hreaches : Token.Reaches stringWithinTable _ [.code 0, .code 1] 5
      ['x', '}', '`', '}', '}', '`'] := hinner.step
  have hclasses : (tokenize stringWithinTable).map Token.cls =
      [.token .interpStart, .token .interpBraceOpen, .token .lbrace, .token .interpStart,
        .token .interpBraceOpen, .token .name, .token .interpBraceClose, .token .interpEnd,
        .token .rbrace, .token .interpBraceClose, .token .interpEnd] := by decide +kernel
  have hnoError : ∀ t ∈ tokenize stringWithinTable, ∀ cause, t.cls ≠ .error cause := by
    intro t ht cause hcause
    have hmem : TokenClass.error cause ∈ (tokenize stringWithinTable).map Token.cls :=
      List.mem_map.mpr ⟨t, ht, hcause⟩
    simp [hclasses] at hmem
  have hnests := tokenize_nests stringWithinTable
  exact ⟨⟨_, hreaches, (hnests.1 _ _ _ _ hreaches).2.1⟩, hnests.2 hnoError⟩

end LuauTidy
