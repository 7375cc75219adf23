import LuauTidy.Grammar.Complaint
import LuauTidy.Token.Basic
import LuauTidy.Tree.Basic

/-!
# The cursor

A parser reads the tokens of a source from left to right and makes nodes on
the way.  The cursor is what it knows: the tokens ahead, where the last one
ended, the comments it had to pass over, and how many nodes it has made, which
numbers the next one.  A comment is passed over when a token behind it is
taken; where comments have a place, they are taken first and become leaves.

A parser fails with a complaint about the source.  It also may fail with a
fault, which would be a mistake of the grammar and not of the source.

* `Cursor`, `Failure`, `Parser` — what a parser works on;
* `Parser.peek`, `nth`, `at`, `bump`, `expect`, `eat`, `comments` — tokens;
* `Parser.finish`, `finishAt` — nodes;
* `Parser.many`, `Parser.chain` — repetition.
-/

namespace LuauTidy

/-- Where a parse stands. -/
structure Cursor where
  /-- The tokens ahead, comments among them. -/
  rest : List Token
  /-- Where the last token taken ended. -/
  lastEnd : Nat
  /-- The ranges of the comments passed over. -/
  strayComments : List (Nat × Nat)
  /-- The number of nodes made. -/
  made : Nat
  /-- Where the source ends. -/
  sourceEnd : Nat
  deriving Repr

/-- Why a parser stopped. -/
inductive Failure
  | wrong (complaint : Complaint) (offset : Nat)
  | fault (cause : Fault)
  deriving DecidableEq, Repr

/-- A parser: it moves the cursor and has a result, or stops with a failure
at the cursor that it had reached. -/
abbrev Parser := EStateM Failure Cursor

/-- The token `n` places ahead, comments not counted. -/
def Cursor.upcoming : (n : Nat) → List Token → Option Token
  | _, [] => none
  | n, t :: rest =>
    if t.isComment then upcoming n rest
    else match n with
      | 0 => some t
      | n + 1 => upcoming n rest

namespace Parser

/-! ### Looking ahead -/

/-- The token `n` places ahead, comments not counted. -/
def nth (n : Nat) : Parser (Option Token) := do return Cursor.upcoming n (← get).rest

/-- The next token that is no comment. -/
def peek : Parser (Option Token) := nth 0

/-- The kind of a token that is a keyword, symbol, name or piece. -/
def kind? : Option Token → Option TokenKind
  | some ⟨.token k, _, _⟩ => some k
  | _ => none

/-- What the next token is. -/
def peekClass : Parser (Option TokenClass) := do return (← peek).map Token.cls

/-- The kind of the next token, unless it is a literal or an error. -/
def peekKind : Parser (Option TokenKind) := do return kind? (← peek)

/-- The next token is of a kind. -/
def isAt (k : TokenKind) : Parser Bool := do return (← peekKind) == some k

/-- The next token is of a kind and no comment stands before it. -/
def isRightAt (k : TokenKind) : Parser Bool := do return kind? (← get).rest.head? == some k

/-- The offset of the next token, or of the end. -/
def offset : Parser Nat := do
  let next ← peek
  return (next.map Token.start).getD (← get).sourceEnd

/-! ### Failing -/

/-- Stops with a complaint about the next token. -/
def unexpected (what : Expectation) : Parser α := do
  let place ← offset
  match ← peek with
  | none => throw (.wrong (.expected what .endOfFile) place)
  | some t => match t.cls with
    | .error cause => throw (.wrong (.lexical cause) place)
    | _ => throw (.wrong (.expected what (.text t.text)) place)

/-- Stops with a fault. -/
def broken (cause : Fault) : Parser α := throw (.fault cause)

/-! ### Making nodes -/

/-- A node with the next number. -/
def make (kind : Kind) (start stop : Nat) (children : List Node) : Parser Node := do
  let c ← get
  set { c with made := c.made + 1 }
  return ⟨c.made, kind, start, stop, children⟩

/-- The leaf of a token. -/
def leaf (kind : Kind) (t : Token) : Parser Node := make kind t.start t.stop []

/-- The node around some children; without children it stands at a place. -/
def finishAt (position : Nat) (kind : Kind) (children : List Node) : Parser Node :=
  make kind ((children.head?.map Node.start).getD position)
    ((children.getLast?.map Node.stop).getD position) children

/-- The node around some children. -/
def finish (kind : Kind) (children : List Node) : Parser Node := finishAt 0 kind children

/-! ### Taking tokens -/

/-- Takes the next token and passes over the comments before it. -/
def advance : Parser Token := do
  let c ← get
  let (passed, ahead) := c.rest.span Token.isComment
  match ahead with
  | [] => broken .noTokenLeft
  | t :: rest =>
    set { c with
      rest
      lastEnd := t.stop
      strayComments := c.strayComments ++ passed.map Token.range }
    return t

/-- Takes the next token as a leaf of a kind. -/
def bumpAs (kind : Kind) : Parser Node := do leaf kind (← advance)

/-- Takes the next token as a leaf of its own kind. -/
def bump : Parser Node := do
  let t ← advance
  match t.cls with
  | .token k => leaf (.token k) t
  | .literal k => leaf (.expr k) t
  | .comment => broken .notALeaf
  | .error _ => broken .notALeaf

/-- Takes the next token if it is of a kind. -/
def eat (k : TokenKind) : Parser (Option Node) := do
  if ← isAt k then return some (← bump) else return none

/-- Takes the next token, which has to be of a kind. -/
def expect (k : TokenKind) : Parser Node := do
  if ← isAt k then bump else unexpected (.token k)

/-- Takes the next token, which has to be a name. -/
def expectName : Parser Node := do
  if ← isAt .name then bump else unexpected .name

/-- Takes the comments that stand right ahead as leaves. -/
def comments : Parser (List Node) := do
  let c ← get
  let (here, rest) := c.rest.span Token.isComment
  set { c with rest }
  here.mapM (leaf (.stmt .comment))

/-! ### Repetition -/

/-- Repeats a step that yields nodes and says whether to go on. -/
def manyFrom (step : Parser (List Node × Bool)) : (bound : Nat) → Parser (List Node)
  | 0 => broken .noProgress
  | bound + 1 => do
    let (nodes, more) ← step
    if more then return nodes ++ (← manyFrom step bound) else return nodes

/-- Repeats a step that yields nodes and says whether to go on.  A step that
goes on takes a token, so the tokens ahead bound the repetition. -/
def many (step : Parser (List Node × Bool)) : Parser (List Node) := do
  manyFrom step ((← get).rest.length + 1)

/-- Repeats a step that wraps the node made so far, until it declines. -/
def chainFrom (step : Node → Parser (Option Node)) : (bound : Nat) → Node → Parser Node
  | 0, _ => broken .noProgress
  | bound + 1, node => do
    match ← step node with
    | some wrapped => chainFrom step bound wrapped
    | none => return node

/-- Repeats a step that wraps the node made so far, until it declines.  A step
that wraps takes a token, so the tokens ahead bound the repetition. -/
def chain (step : Node → Parser (Option Node)) (node : Node) : Parser Node := do
  chainFrom step ((← get).rest.length + 1) node

/-- Items between separators of a kind, with the separators. -/
def separatedBy (separator : TokenKind) (item : Parser Node) : Parser (List Node) := do
  let first ← item
  let later ← many do
    match ← eat separator with
    | some mark => return ([mark, ← item], true)
    | none => return ([], false)
  return first :: later

end Parser

end LuauTidy
