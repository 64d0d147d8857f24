/-
# Reading literals

The value of a literal token.  Underscores in a number only group its digits.  An integer has to
fit into 64 bits with a sign, and a string may use the six escapes of `Text.escaped?`.
-/
import Recast.Error
import Recast.Token.Basic
import Recast.Tree.Literal

namespace Recast

namespace Literal

/-- The greatest integer that a literal can have. -/
def maxInt : Nat := 0x7fffffffffffffff

/-- The characters of a number without the underscores. -/
def ungrouped (lexeme : String) : List Char := lexeme.toList.filter (· ≠ '_')

/-- Text without the letters at its end that are among `letters`. -/
def dropSuffix (letters : List Char) (cs : List Char) : List Char :=
  (cs.reverse.dropWhile letters.contains).reverse

/-- Read a natural number in range. -/
def readInt? (digits : List Char) : Option Int :=
  if digits.isEmpty ∨ ¬ digits.all Char.isDigit then none
  else
    let n := Binary64.digitsValue digits
    if n ≤ maxInt then some n else none

/-- The characters between the quotes of a string literal. -/
def stringContents (lexeme : String) : List Char := lexeme.toList.tail.dropLast

/-- The value of a literal token. -/
def ofToken (token : Token) : Except ParseError Literal :=
  let invalid (detail : String) : ParseError :=
    ⟨.invalidLiteral, token.span, detail ++ ": " ++ token.lexeme⟩
  let digits := ungrouped token.lexeme
  match token.kind with
  | .intLiteral =>
    match readInt? digits with
    | some v => .ok (.int v)
    | none => .error (invalid "integer out of range")
  | .longLiteral =>
    match readInt? (dropSuffix ['L', 'l'] digits) with
    | some v => .ok (.long v)
    | none => .error (invalid "long out of range")
  | .floatLiteral =>
    match Binary64.read? (dropSuffix ['f', 'F'] digits) with
    | some v => .ok (.float v)
    | none => .error (invalid "invalid float")
  | .doubleLiteral =>
    match Binary64.read? digits with
    | some v => .ok (.double v)
    | none => .error (invalid "invalid double")
  | .stringLiteral =>
    match Text.unescape (stringContents token.lexeme) with
    | .ok cs => .ok (.string (String.ofList cs))
    | .error c =>
      .error ⟨.invalidLiteral, token.span,
        "unknown escape sequence '\\" ++ String.singleton c ++ "'"⟩
  | _ => .error (invalid "not a literal")

end Literal

end Recast
