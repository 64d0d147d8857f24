/-
# The lexer

A `Lexer` stands at a position of a text.  Each call of `nextToken` skips what stands between
tokens and reads one token; the token at the end of the text is of kind `eof` and can be read again
and again.  Characters that form no token are recorded as an error and make a token of kind
`error`.

`tokenize` reads a text to its end: the tokens with the final `eof`, and the errors in the order of
the text.
-/
import Recast.Token.Scan

namespace Recast

/-- A place in a text, with the errors found before it. -/
structure Lexer where
  rest : List Char
  position : Position
  errors : List LexError
  /-- Whether the end of the text has been read. -/
  finished : Bool

namespace Lexer

/-- The lexer at the start of a text. -/
def ofText (text : String) : Lexer := ⟨text.toList, .start, [], false⟩

/-- Read one token. -/
def nextToken (l : Lexer) : Token × Lexer :=
  let (skipped, rest) := Scan.trivia l.rest
  let start := l.position.after skipped
  match rest with
  | [] => (⟨.eof, "", .between start start⟩, { l with rest := [], position := start, finished := true })
  | c :: cs =>
    let scanned := Scan.token c cs
    let stop := start.after scanned.lexeme
    let span := Span.between start stop
    let lexeme := String.ofList scanned.lexeme
    match scanned.result with
    | .ok kind => (⟨kind, lexeme, span⟩, { l with rest := scanned.rest, position := stop })
    | .error cause =>
      (⟨.error, lexeme, span⟩,
        { l with rest := scanned.rest, position := stop, errors := l.errors ++ [⟨cause, span⟩] })

/-- Read one token, or none at the end of the text. -/
def next? (l : Lexer) : Option Token × Lexer :=
  if l.finished then (none, l)
  else
    let (token, l) := l.nextToken
    (if token.kind = .eof then none else some token, l)

/-- The errors found so far; they are not reported again. -/
def takeErrors (l : Lexer) : List LexError × Lexer := (l.errors, { l with errors := [] })

/-- Whether an error was found and not yet taken. -/
def hasErrors (l : Lexer) : Bool := !l.errors.isEmpty

/-- Read at most `limit` tokens, up to and with the end of the text. -/
def readAll : Nat → Lexer → List Token × Lexer
  | 0, l => ([], l)
  | limit + 1, l =>
    let (token, l) := l.nextToken
    if token.kind = .eof then ([token], l)
    else
      let (tokens, l) := readAll limit l
      (token :: tokens, l)

end Lexer

/-- The tokens of a text and its lexical errors.  Every token but the last takes a character at
least, so the length of the text bounds their number. -/
def tokenize (text : String) : List Token × List LexError :=
  let (tokens, l) := Lexer.readAll (text.toList.length + 1) (Lexer.ofText text)
  (tokens, l.errors)

end Recast
