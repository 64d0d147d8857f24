/-
# The lexer with places of 32 bits

A text is read by a cursor that counts all its bytes.  The places that the program hands out are
narrower: the offset, the length, the line and the column of a span take 32 bits each.  This is the
lexer at these widths.

* an offset is cut to its lowest 32 bits (`cut`), and so are the bytes since the start of the line,
  from which the column is made; nothing is reported;
* sums and differences are checked: where one leaves the 32 bits there is no result (`none`).  A
  build without such checks goes on with what is cut to 32 bits instead, so the two agree wherever
  there is a result;
* the spelling of a token is taken out of the text again, from the offset that was handed out for
  its start up to the cursor (`Text.slice?`).  There is no result if that offset falls inside a
  character.
-/
import Recast.Token.Lexer

namespace Recast

/-- The characters from one byte offset up to another, if both fall between characters. -/
def Text.slice? (cs : List Char) (start stop : Nat) : Option (List Char) := do
  let (upTo, _) ← splitAtByte? cs stop
  let (_, part) ← splitAtByte? upTo start
  pure part

namespace Narrow

/-! ## 1. Places -/

/-- How many numbers there are of 32 bits. -/
def size : Nat := UInt32.size

/-- The lowest 32 bits of a number. -/
def cut (n : Nat) : Nat := n % size

/-- Whether a text has so few bytes that the offset, the line and the column of its end are numbers
of 32 bits, whatever it consists of. -/
def Small (text : String) : Prop := Text.byteSize text.toList + 1 < size

instance (text : String) : Decidable (Small text) := inferInstanceAs (Decidable (_ < _))

/-- Whether a place has a line and a column: no line feed has taken the line out of the 32 bits, and
one can be added to the bytes since the start of the line, as they were cut. -/
def Placed (line col : Nat) : Prop := line < size ∧ cut (col - 1) + 1 < size

instance (line col : Nat) : Decidable (Placed line col) := inferInstanceAs (Decidable (_ ∧ _))

/-- A span as it is handed out. -/
def span? (s : Span) : Option Span :=
  if Placed s.line s.col ∧ cut s.offset ≤ cut s.stop then
    some ⟨cut s.offset, cut s.stop - cut s.offset, s.line, cut (s.col - 1) + 1⟩
  else none

/-- A token of a text as it is handed out. -/
def token? (text : List Char) (t : Token) : Option Token := do
  let span ← span? t.span
  let lexeme ← Text.slice? text span.offset t.span.stop
  pure ⟨t.kind, String.ofList lexeme, span⟩

/-- A lexical error as it is handed out. -/
def lexError? (e : LexError) : Option LexError := (span? e.span).map fun span => { e with span := span }

/-! ## 2. Reading -/

/-- The positions of the comments among what `Scan.skipTrivia` skips.  The lexer asks for the line
and the column of a comment as it does for those of a token. -/
def commentStarts : Nat → Position → List Char → List Position
  | 0, _, _ => []
  | limit + 1, pos, cs =>
    let (blank, rest) := Scan.blanks cs
    let start := pos.after blank
    match rest with
    | '/' :: '/' :: _ =>
      start :: commentStarts limit (start.after (rest.takeWhile (· ≠ '\n')))
        (rest.dropWhile (· ≠ '\n'))
    | '/' :: '*' :: body =>
      match Scan.blockComment? body with
      | some (comment, after) =>
        start :: commentStarts limit (start.after ('/' :: '*' :: comment)) after
      | none => []
    | _ => []

/-- Read one token of a text. -/
def nextToken? (text : List Char) (l : Lexer) : Option (Token × Lexer) :=
  if ∀ start ∈ commentStarts l.rest.length l.position l.rest, Placed start.line start.col then
    (token? text l.nextToken.1).map fun token => (token, l.nextToken.2)
  else none

/-- Read at most `limit` tokens, up to and with the end of the text. -/
def readAll? (text : List Char) : Nat → Lexer → Option (List Token × Lexer)
  | 0, l => some ([], l)
  | limit + 1, l => do
    let (token, l) ← nextToken? text l
    if token.kind = .eof then pure ([token], l)
    else
      let (tokens, l) ← readAll? text limit l
      pure (token :: tokens, l)

/-- The tokens of a text and its lexical errors. -/
def tokenize (text : String) : Option (List Token × List LexError) := do
  let (tokens, l) ← readAll? text.toList (text.toList.length + 1) (Lexer.ofText text)
  let errors ← l.errors.mapM lexError?
  pure (tokens, errors)

end Narrow

end Recast
