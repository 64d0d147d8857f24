/-
# The state of a parse

A `Parser` holds the tokens that are still to be read and the tree that has been built from those
already read.  A `Parse α` is an activity that reads tokens and adds nodes; it yields an `α` or
fails with an error, and what it has read and added stays read and added when it fails.

* the end of the tokens looks like a token of kind `eof` (`peek`) and cannot be read past
  (`advance`);
* loops and nestings are bounded by the number of tokens still to be read (`limit`): every turn and
  every level reads one at least, so the bound is never met;
* `synchronize` skips the rest of a statement that failed, and `itemsUntilEnd` and
  `itemsUntilBrace` read item after item and go on after a failure in this way.

Spans and the size of the text are taken as they are; what becomes of them in 32 bits is in
`Recast.Narrow`.
-/
import Recast.Error
import Recast.Token.Lexer
import Recast.Tree.Basic

namespace Recast

/-- The tokens still to be read, and what has been made of those already read. -/
structure Parser where
  /-- The tokens still to be read, without the end of the text. -/
  tokens : List Token
  /-- The place of the end of the text. -/
  endSpan : Span
  /-- The place of the token read last. -/
  lastSpan : Span
  /-- The number of bytes of the text. -/
  textSize : Nat
  tree : SyntaxTree
  errors : List ParseError

namespace Parser

/-- The parser at the start of some tokens that were read from a text of so many bytes.  The lexical
errors are recorded, and their characters are skipped. -/
def ofLexed (lexed : List Token × List LexError) (textSize : Nat) : Parser :=
  let (tokens, errors) := lexed
  let endSpan := (tokens.getLast?.map Token.span).getD default
  let tokens := tokens.filter fun t => t.kind ≠ .error ∧ t.kind ≠ .eof
  { tokens := tokens
    endSpan := endSpan
    lastSpan := (tokens.head?.map Token.span).getD endSpan
    textSize := textSize
    tree := .empty
    errors := errors.map .ofLexError }

/-- The parser at the start of a text. -/
def ofText (text : String) : Parser := ofLexed (tokenize text) (Text.byteSize text.toList)

/-- The next token; the end of the text if there is none. -/
def peek (p : Parser) : Token := p.tokens.headD ⟨.eof, "", p.endSpan⟩

end Parser

/-- Reading tokens and building nodes, with failures. -/
abbrev Parse := ExceptT ParseError (StateM Parser)

namespace Parse

/-! ## 1. Single tokens -/

/-- The next token, which is not read. -/
def peek : Parse Token := do pure (← get).peek

/-- Whether the next token is of a kind. -/
def check (kind : TokenKind) : Parse Bool := do pure ((← peek).kind = kind)

/-- Whether there are no more tokens. -/
def atEnd : Parse Bool := do pure (← get).tokens.isEmpty

/-- Read the next token; at the end of the text nothing is read. -/
def advance : Parse Token := do
  let p ← get
  match p.tokens with
  | [] => pure p.peek
  | token :: tokens =>
    set { p with tokens := tokens, lastSpan := token.span }
    pure token

/-- Read the next token if it is of a kind. -/
def eat (kind : TokenKind) : Parse Bool := do
  if ← check kind then
    let _ ← advance
    pure true
  else pure false

/-- Read a token of a kind, or fail. -/
def expect (kind : TokenKind) : Parse Token := do
  let token ← peek
  if token.kind = kind then advance
  else if token.kind = .eof then
    throw ⟨.unexpectedEof, token.span,
      "expected " ++ kind.description ++ ", found end of file"⟩
  else throw (.ofExpectedToken token.span kind.description token.kind.description)

/-- Read an identifier, or fail. -/
def ident : Parse Ident := do
  let token ← peek
  if token.kind = .identifier then
    let _ ← advance
    pure ⟨token.lexeme, token.span⟩
  else
    throw ⟨.expectedIdentifier, token.span,
      "expected identifier, found " ++ token.kind.description⟩

/-! ## 2. Nodes -/

/-- The span from a first one through the token read last. -/
def spanFrom (start : Span) : Parse Span := do pure (start.merge (← get).lastSpan)

/-- Add a node. -/
def alloc (c : Construct) (span : Span) : Parse NodeId :=
  modifyGet fun p =>
    let (id, tree) := p.tree.alloc c span
    (id, { p with tree := tree })

/-- The span of a node. -/
def spanOf (id : NodeId) : Parse Span := do pure ((← get).tree.spanOf id)

/-! ## 3. Bounds and sequences -/

/-- A number of turns or levels that reading the tokens still to be read cannot exceed. -/
def limit : Parse Nat := do pure ((← get).tokens.length + 1)

/-- The failure at a bound.  It does not arise, because each turn and level reads a token. -/
def exhausted {α : Type} : Parse α := do
  let token ← peek
  throw ⟨.unexpectedToken, token.span, "unexpected " ++ token.kind.description⟩

/-- At most so many items with commas between them. -/
def separatedTo {α : Type} (item : Parse α) : Nat → Parse (List α)
  | 0 => exhausted
  | turns + 1 => do
    let a ← item
    if ← eat .comma then
      let more ← separatedTo item turns
      pure (a :: more)
    else pure [a]

/-- One item or more, with commas between them. -/
def separated {α : Type} (item : Parse α) : Parse (List α) := do separatedTo item (← limit)

/-! ## 4. Recovery -/

/-- Record an error. -/
def record (e : ParseError) : Parse Unit := modify fun p => { p with errors := p.errors ++ [e] }

/-- Run an activity and keep its failure as a result. -/
def attempt {α : Type} (x : Parse α) : Parse (Except ParseError α) :=
  fun p =>
    let (result, p) := x p
    (.ok result, p)

/-- Skip tokens up to and with the next semicolon, or up to the next closing brace. -/
def skipStatement : List Token → Span → List Token × Span
  | [], last => ([], last)
  | token :: tokens, last =>
    if token.kind = .semicolon then (tokens, token.span)
    else if token.kind = .rightBrace then (token :: tokens, last)
    else skipStatement tokens token.span

/-- After a failure, skip the rest of the statement.  If nothing has been read since there were
`before` tokens, one is skipped in any case. -/
def synchronize (before : Nat) : Parse Unit := do
  if (← get).tokens.length = before then
    let _ ← advance
  modify fun p =>
    let (tokens, last) := skipStatement p.tokens p.lastSpan
    { p with tokens := tokens, lastSpan := last }

/-- Read at most so many items, up to the end of the text or, if `braced`, up to a closing brace.
An item that fails is recorded as an error and skipped. -/
def itemsTo (braced : Bool) (item : Parse NodeId) : Nat → Parse (List NodeId)
  | 0 => pure []
  | turns + 1 => do
    let closed ← if braced then check .rightBrace else pure false
    if closed || (← atEnd) then pure []
    else
      let before := (← get).tokens.length
      match ← attempt item with
      | .ok id =>
        let more ← itemsTo braced item turns
        pure (id :: more)
      | .error e =>
        record e
        synchronize before
        itemsTo braced item turns

/-- Read items up to a closing brace or the end of the text. -/
def itemsUntilBrace (item : Parse NodeId) : Parse (List NodeId) := do
  itemsTo true item (← limit)

/-- Read items up to the end of the text. -/
def itemsUntilEnd (item : Parse NodeId) : Parse (List NodeId) := do
  itemsTo false item (← limit)

end Parse

end Recast
