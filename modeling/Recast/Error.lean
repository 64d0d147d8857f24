/-
# Causes of failure

Each layer of the library has its own type of failures, one constructor for each cause, and one
function that words them:

* `LexError` and `ParseError` are found in a text; parsing collects them and goes on;
* `SemanticError` is a question about types or names that has no answer;
* `MappingError` is a conversion that an engine cannot write;
* `TreeError` is an edit of a tree that does not fit the tree;
* `FixError` is what ends the search for a fix: one of the last three, or a cancellation.

Only a semantic failure is recoverable: it concerns one diagnostic, and the others can still be
fixed (`FixError.isRecoverable`).
-/
import Recast.Span
import Recast.Text.Lines

namespace Recast

/-! ## 1. Failures in a text -/

/-- Why characters form no token. -/
inductive LexCause where
  /-- The character starts no token. -/
  | unexpectedChar (ch : Char)
  /-- A string literal is not closed on its line. -/
  | unterminatedString
  /-- A block comment is never closed. -/
  | unterminatedComment
  /-- A number has a malformed end. -/
  | invalidNumber (detail : String)
  deriving DecidableEq

/-- The name of a cause, for hosts that tell causes apart by name. -/
def LexCause.name : LexCause → String
  | unexpectedChar _ => "UnexpectedChar"
  | unterminatedString => "UnterminatedString"
  | unterminatedComment => "UnterminatedComment"
  | invalidNumber _ => "InvalidNumber"

/-- Characters that form no token: which ones, and why. -/
structure LexError where
  cause : LexCause
  span : Span
  deriving DecidableEq

/-- The wording of a lexical error, with its place. -/
def LexError.message (e : LexError) : String :=
  match e.cause with
  | .unexpectedChar ch => "unexpected character '" ++ String.singleton ch ++ "' at " ++ e.span.text
  | .unterminatedString => "unterminated string at " ++ e.span.text
  | .unterminatedComment => "unterminated comment at " ++ e.span.text
  | .invalidNumber detail => "invalid number at " ++ e.span.text ++ ": " ++ detail

/-- What the parser was looking for when it failed. -/
inductive ParseErrorKind where
  | expectedToken
  | unexpectedToken
  | unexpectedEof
  | expectedExpression
  | expectedType
  | expectedStatement
  | expectedDeclaration
  | expectedIdentifier
  /-- The left side of an assignment is neither a name nor a member. -/
  | invalidAssignmentTarget
  | invalidLiteral
  /-- Carried over from a `LexError`. -/
  | lexerError
  deriving DecidableEq

namespace ParseErrorKind

/-- All kinds of parse errors. -/
def all : List ParseErrorKind :=
  [expectedToken, unexpectedToken, unexpectedEof, expectedExpression, expectedType,
    expectedStatement, expectedDeclaration, expectedIdentifier, invalidAssignmentTarget,
    invalidLiteral, lexerError]

/-- The name of a kind, for hosts that tell kinds apart by name. -/
def name : ParseErrorKind → String
  | expectedToken => "ExpectedToken"
  | unexpectedToken => "UnexpectedToken"
  | unexpectedEof => "UnexpectedEof"
  | expectedExpression => "ExpectedExpression"
  | expectedType => "ExpectedType"
  | expectedStatement => "ExpectedStatement"
  | expectedDeclaration => "ExpectedDeclaration"
  | expectedIdentifier => "ExpectedIdentifier"
  | invalidAssignmentTarget => "InvalidAssignmentTarget"
  | invalidLiteral => "InvalidLiteral"
  | lexerError => "LexerError"

/-- The wording of a kind of parse error. -/
def text : ParseErrorKind → String
  | expectedToken => "expected token"
  | unexpectedToken => "unexpected token"
  | unexpectedEof => "unexpected end of file"
  | expectedExpression => "expected expression"
  | expectedType => "expected type"
  | expectedStatement => "expected statement"
  | expectedDeclaration => "expected declaration"
  | expectedIdentifier => "expected identifier"
  | invalidAssignmentTarget => "invalid assignment target"
  | invalidLiteral => "invalid literal"
  | lexerError => "lexer error"

end ParseErrorKind

/-- One error of a parse. -/
structure ParseError where
  kind : ParseErrorKind
  span : Span
  message : String
  deriving DecidableEq

namespace ParseError

/-- Another token stands where `expected` was required. -/
def ofExpectedToken (span : Span) (expected found : String) : ParseError :=
  ⟨.expectedToken, span, "expected " ++ expected ++ ", found " ++ found⟩

/-- Something else stands where an expression was required. -/
def ofExpectedExpression (span : Span) (found : String) : ParseError :=
  ⟨.expectedExpression, span, "expected expression, found " ++ found⟩

/-- Something else stands where a type was required. -/
def ofExpectedType (span : Span) (found : String) : ParseError :=
  ⟨.expectedType, span, "expected type, found " ++ found⟩

/-- The parse error that reports a lexical error. -/
def ofLexError (e : LexError) : ParseError := ⟨.lexerError, e.span, e.message⟩

/-- The wording of a parse error, with its place. -/
def text (e : ParseError) : String :=
  e.kind.text ++ " at " ++ e.span.text ++ ": " ++ e.message

/-- The error followed by the line of the source that it stands on and a marker under its span.
The marker is left out when the source has no such line. -/
def render (e : ParseError) (source : String) : String :=
  let column := max e.span.col 1
  let head := "Error at " ++ toString e.span.line ++ ":" ++ toString column ++ ": " ++
    e.kind.text ++ "\n" ++ (if e.message.isEmpty then "" else "  " ++ e.message ++ "\n")
  match (Text.lines source.toList)[e.span.line - 1]? with
  | none => head
  | some line =>
    head ++ "  |\n" ++ Text.padLeft 3 (toString e.span.line) ++ " | " ++ String.ofList line ++ "\n" ++
      "  | " ++ String.ofList (List.replicate (column - 1) ' ') ++ "^" ++
      String.ofList (List.replicate (max e.span.len 1 - 1) '~') ++ "\n"

/-- The wording of all errors of a parse, one to a line. -/
def textOfAll (errors : List ParseError) : String :=
  "\n".intercalate (errors.map text)

end ParseError

/-! ## 2. Failures of questions, conversions and edits -/

/-- A question about types or names without an answer. -/
inductive SemanticError where
  /-- No symbol of this name is visible. -/
  | unresolvedName (name : String) (span : Span)
  /-- The type has no member of this name. -/
  | unknownMember (type : String) (member : String) (span : Span)
  /-- The type is neither built in nor declared. -/
  | unknownType (name : String) (span : Span)
  /-- The node has no type, for it is not an expression. -/
  | notAnExpression (span : Span)
  /-- A statement that returns stands outside every function. -/
  | noEnclosingFunction (span : Span)
  /-- A local of this name is already declared in the scope. -/
  | redeclared (name : String) (span : Span)
  /-- A value is yielded by a function whose type has no elements. -/
  | notASequence (found : String) (span : Span)
  deriving DecidableEq

/-- The name of a semantic error, for hosts that tell causes apart by name. -/
def SemanticError.name : SemanticError → String
  | unresolvedName .. => "UnresolvedName"
  | unknownMember .. => "UnknownMember"
  | unknownType .. => "UnknownType"
  | notAnExpression _ => "NotAnExpression"
  | noEnclosingFunction _ => "NoEnclosingFunction"
  | redeclared .. => "Redeclared"
  | notASequence .. => "NotASequence"

/-- The wording of a semantic error. -/
def SemanticError.message : SemanticError → String
  | unresolvedName name span => "unresolved name '" ++ name ++ "' at " ++ span.text
  | unknownMember type member span =>
    "type '" ++ type ++ "' has no member '" ++ member ++ "' at " ++ span.text
  | unknownType name span => "unknown type '" ++ name ++ "' at " ++ span.text
  | notAnExpression span => "node at " ++ span.text ++ " is not an expression"
  | noEnclosingFunction span => "no enclosing function for statement at " ++ span.text
  | redeclared name span =>
    "local '" ++ name ++ "' at " ++ span.text ++ " is already declared in this scope"
  | notASequence found span =>
    "'yield return' at " ++ span.text ++ " requires a sequence return type, found '" ++ found ++ "'"

/-- A conversion that an engine cannot write. -/
inductive MappingError where
  /-- The engine knows no conversion between the types. -/
  | unsupported (source target : String)
  /-- The engine failed for another reason. -/
  | failed (reason : String)
  deriving DecidableEq

/-- The name of a mapping error, for hosts that tell causes apart by name. -/
def MappingError.name : MappingError → String
  | unsupported .. => "Unsupported"
  | failed _ => "Failed"

/-- The wording of a mapping error. -/
def MappingError.message : MappingError → String
  | unsupported source target => "no mapping from '" ++ source ++ "' to '" ++ target ++ "'"
  | failed reason => "mapping failed: " ++ reason

/-- An edit that does not fit the tree; nodes are named by their place in the tree. -/
inductive TreeError where
  /-- The node does not belong to the program. -/
  | detached (node : Nat)
  /-- The parent does not hold the child in any slot. -/
  | slotNotFound (parent child : Nat)
  /-- The node is not a statement. -/
  | notAStatement (node : Nat)
  /-- A statement would be replaced by nothing. -/
  | emptyReplacement (node : Nat)
  deriving DecidableEq

/-- The name of a tree error, for hosts that tell causes apart by name. -/
def TreeError.name : TreeError → String
  | detached _ => "Detached"
  | slotNotFound .. => "SlotNotFound"
  | notAStatement _ => "NotAStatement"
  | emptyReplacement _ => "EmptyReplacement"

/-- The wording of a tree error. -/
def TreeError.message : TreeError → String
  | detached node => "node #" ++ toString node ++ " is not attached to the tree"
  | slotNotFound parent child =>
    "node #" ++ toString child ++ " not found among the children of #" ++ toString parent
  | notAStatement node => "node #" ++ toString node ++ " is not a statement"
  | emptyReplacement node =>
    "replacement for node #" ++ toString node ++ " contains no statements"

/-! ## 3. Failures of a fix -/

/-- What ends the search for a fix. -/
inductive FixError where
  | semantic (cause : SemanticError)
  | mapping (cause : MappingError)
  | tree (cause : TreeError)
  /-- The caller asked to stop. -/
  | cancelled
  deriving DecidableEq

namespace FixError

/-- The name of a failed search: its layer and the name of its cause. -/
def name : FixError → String
  | semantic cause => "Semantic." ++ cause.name
  | mapping cause => "Mapping." ++ cause.name
  | tree cause => "Tree." ++ cause.name
  | cancelled => "Cancelled"

/-- The wording of a failed search: that of its cause. -/
def message : FixError → String
  | semantic cause => cause.message
  | mapping cause => cause.message
  | tree cause => cause.message
  | cancelled => "operation cancelled"

/-- Whether the failure concerns only the diagnostic at hand. -/
def isRecoverable : FixError → Bool
  | semantic _ => true
  | _ => false

end FixError

end Recast
