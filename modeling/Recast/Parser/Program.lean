/-
# Parsing programs

A program is a sequence of classes, functions and statements.

* `parseLenient` reads a whole text and returns the tree of everything that could be read, with all
  errors: those of the lexer first, then those of the parser in the order in which they were met;
* `parse` returns the tree only if there are no errors.
-/
import Recast.Parser.Statement

namespace Recast

namespace Parse

/-! ## 1. Functions -/

/-- Read a parameter: a type and a name. -/
def param : Parse Param := do
  let declared ← type
  let name ← ident
  pure ⟨declared, name⟩

/-- Read `type name(params) { body }`. -/
def function : Parse NodeId := do
  let returnType ← type
  let name ← ident
  let _ ← expect .leftParen
  let params ← if ← check .rightParen then pure [] else separated param
  let _ ← expect .rightParen
  let body ← block
  alloc (.function returnType name params body) (← spanFrom returnType.span)

/-! ## 2. Classes -/

/-- Whether the next token is an identifier with this spelling. -/
def checkWord (word : String) : Parse Bool := do
  let token ← peek
  pure (token.kind = .identifier && token.lexeme = word)

/-- Read at most so many accessors `get;` and `set;`, and report whether there was a `set`. -/
def accessorsTo : Nat → Parse Bool
  | 0 => exhausted
  | turns + 1 => do
    if ← check .rightBrace then pure false
    else
      let isSet ← checkWord "set"
      if isSet || (← checkWord "get") then
        let _ ← advance
        let _ ← expect .semicolon
        let more ← accessorsTo turns
        pure (isSet || more)
      else
        let token ← peek
        throw (.ofExpectedToken token.span "'get' or 'set'" token.kind.description)

/-- Read `{ get; set; }` and report whether there is a `set`. -/
def accessors : Parse Bool := do
  let _ ← expect .leftBrace
  let hasSetter ← accessorsTo (← limit)
  let _ ← expect .rightBrace
  pure hasSetter

/-- Read a member of a class: a method, a property or a field. -/
def classMember : Parse NodeId := do
  if ← isFunctionDecl then function
  else
    let declared ← type
    let name ← ident
    if ← check .leftBrace then
      let hasSetter ← accessors
      alloc (.property declared name hasSetter) (← spanFrom declared.span)
    else
      let init ← initializer
      let _ ← expect .semicolon
      alloc (.field declared name init) (← spanFrom declared.span)

/-- Read `class name { members }`. -/
def classDecl : Parse NodeId := do
  let start := (← expect .classWord).span
  let name ← ident
  let _ ← expect .leftBrace
  let members ← itemsUntilBrace classMember
  let _ ← expect .rightBrace
  alloc (.classDecl name members) (← spanFrom start)

/-! ## 3. Programs -/

/-- Read a class, a function or a statement. -/
def item : Parse NodeId := do
  if ← check .classWord then classDecl
  else if ← isFunctionDecl then function
  else statement

/-- Read a whole program; its node becomes the root and covers the whole text. -/
def program : Parse Unit := do
  let items ← itemsUntilEnd item
  let root ← alloc (.unit items) ⟨0, (← get).textSize, 1, 1⟩
  modify fun p => { p with tree := { p.tree with root := root } }

end Parse

/-- The tree of everything in a text that can be read, and all errors. -/
def parseLenient (text : String) : SyntaxTree × List ParseError :=
  let (_, p) := Parse.program (Parser.ofText text)
  (p.tree, p.errors)

/-- The tree of a text without errors, or the errors. -/
def parse (text : String) : Except (List ParseError) SyntaxTree :=
  let (tree, errors) := parseLenient text
  if errors.isEmpty then .ok tree else .error errors

end Recast
