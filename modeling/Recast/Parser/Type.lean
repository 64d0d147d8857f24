/-
# Parsing types

A type is an identifier, an optional list of types between angle brackets, and pairs of square
brackets: `IDENTIFIER ('<' TYPE (',' TYPE)* '>')? ('[' ']')*`.

* `Parse.type` reads a type;
* `TypeScan.type?` only looks whether a type stands at the front of a list of tokens, and what
  follows it.  On it rest the two decisions that need to look ahead: whether a function
  (`isFunctionDecl`) or a local variable (`isVarDecl`) is declared here.
-/
import Recast.Parser.Basic

namespace Recast

/-! ## 1. Looking ahead -/

namespace TypeScan

/-- The number of pairs of square brackets at the front of a list of tokens. -/
def bracketPairs : List Token → Nat
  | a :: b :: tokens =>
    if a.kind = .leftBracket ∧ b.kind = .rightBracket then bracketPairs tokens + 1 else 0
  | _ => 0

/-- What follows the pairs of square brackets at the front of a list of tokens. -/
def afterBrackets : List Token → List Token
  | a :: b :: tokens =>
    if a.kind = .leftBracket ∧ b.kind = .rightBracket then afterBrackets tokens
    else a :: b :: tokens
  | tokens => tokens

/-- What follows at most so many types with commas between them. -/
def separated? (type? : List Token → Option (List Token)) : Nat → List Token → Option (List Token)
  | 0, _ => none
  | turns + 1, tokens =>
    match type? tokens with
    | none => none
    | some (c :: rest) => if c.kind = .comma then separated? type? turns rest else some (c :: rest)
    | some [] => some []

/-- What follows the arguments of a type after their opening bracket. -/
def arguments? (type? : List Token → Option (List Token)) (tokens : List Token) :
    Option (List Token) :=
  match separated? type? (tokens.length + 1) tokens with
  | some (c :: rest) => if c.kind = .greater then some rest else none
  | _ => none

/-- What follows a type whose arguments are nested at most so deep. -/
def typeTo? : Nat → List Token → Option (List Token)
  | 0, _ => none
  | _ + 1, [] => none
  | depth + 1, t :: tokens =>
    if t.kind ≠ .identifier then none
    else
      match tokens with
      | c :: rest =>
        if c.kind = .less then (arguments? (typeTo? depth) rest).map afterBrackets
        else some (afterBrackets tokens)
      | [] => some []

/-- What follows the type at the front of a list of tokens, if there is one. -/
def type? (tokens : List Token) : Option (List Token) := typeTo? (tokens.length + 1) tokens

/-- Whether a type, an identifier and an opening parenthesis stand here. -/
def isFunctionDecl (tokens : List Token) : Bool :=
  match type? tokens with
  | some (name :: next :: _) => name.kind = .identifier && next.kind = .leftParen
  | _ => false

/-- Whether a type and an identifier stand here, with an equals sign, a comma or a semicolon after
them. -/
def isVarDecl (tokens : List Token) : Bool :=
  match type? tokens with
  | some (name :: next :: _) =>
    name.kind = .identifier &&
      (next.kind = .equal || next.kind = .comma || next.kind = .semicolon)
  | _ => false

end TypeScan

/-! ## 2. Reading -/

namespace Parse

/-- Read so many pairs of square brackets. -/
def brackets : Nat → Parse Unit
  | 0 => pure ()
  | pairs + 1 => do
    let _ ← advance
    let _ ← advance
    brackets pairs

/-- The greatest array rank that a type can have; further brackets do not count. -/
def maxRank : Nat := 255

/-- Read a type, given how to read its arguments. -/
def typeWith (argument : Parse WrittenType) : Parse WrittenType := do
  let token ← peek
  if token.kind ≠ .identifier then
    throw (.ofExpectedType token.span token.kind.description)
  let _ ← advance
  let args ←
    if ← eat .less then
      let args ← separated argument
      let _ ← expect .greater
      pure args
    else pure []
  let pairs := TypeScan.bracketPairs (← get).tokens
  brackets pairs
  pure ⟨token.lexeme, args, min pairs maxRank, ← spanFrom token.span⟩

/-- Read a type whose arguments are nested at most so deep. -/
def typeTo : Nat → Parse WrittenType
  | 0 => exhausted
  | depth + 1 => typeWith (typeTo depth)

/-- Read a type. -/
def type : Parse WrittenType := do typeTo (← limit)

/-- Whether a function is declared here. -/
def isFunctionDecl : Parse Bool := do pure (TypeScan.isFunctionDecl (← get).tokens)

/-- Whether a local variable is declared here. -/
def isVarDecl : Parse Bool := do pure (TypeScan.isVarDecl (← get).tokens)

end Parse

end Recast
