/-
# Tokens

A `Token` is a piece of a text with its kind and place.  The names of built-in types and the words
`var`, `get` and `set` are identifiers like any other; only the fourteen words of `keyword?` are
reserved.  Characters that form no token make one of kind `error`, so that nothing of the text is
lost, and the end of the text makes one of kind `eof`.
-/
import Recast.Span
import Recast.Text.Quoted

namespace Recast

/-- The kinds of tokens. -/
inductive TokenKind where
  | intLiteral
  | longLiteral
  | floatLiteral
  | doubleLiteral
  | stringLiteral
  | identifier
  | classWord
  | returnWord
  | yieldWord
  | ifWord
  | elseWord
  | whileWord
  | doWord
  | breakWord
  | continueWord
  | newWord
  | castWord
  | trueWord
  | falseWord
  | nullWord
  | plus
  | minus
  | star
  | slash
  | percent
  | equal
  | plusEqual
  | minusEqual
  | starEqual
  | slashEqual
  | equalEqual
  | bangEqual
  | less
  | lessEqual
  | greater
  | greaterEqual
  | ampAmp
  | pipePipe
  | bang
  | leftParen
  | rightParen
  | leftBrace
  | rightBrace
  | leftBracket
  | rightBracket
  | semicolon
  | comma
  | dot
  | eof
  | error
  deriving DecidableEq

namespace TokenKind

/-! ## 1. Classes of kinds -/

/-- The reserved words. -/
def isKeyword : TokenKind → Bool
  | classWord | returnWord | yieldWord | ifWord | elseWord | whileWord | doWord | breakWord
  | continueWord | newWord | castWord | trueWord | falseWord | nullWord => true
  | _ => false

/-- The literals with a spelling of their own. -/
def isLiteral : TokenKind → Bool
  | intLiteral | longLiteral | floatLiteral | doubleLiteral | stringLiteral => true
  | _ => false

/-- The assignment operators. -/
def isAssignment : TokenKind → Bool
  | equal | plusEqual | minusEqual | starEqual | slashEqual => true
  | _ => false

/-- The class of a kind, empty for operators, delimiters and the rest. -/
def className (k : TokenKind) : String :=
  if k.isKeyword then "keyword"
  else if k.isLiteral then "literal"
  else if k.isAssignment then "assignment"
  else ""

/-- The kind of a reserved word. -/
def keyword? (word : String) : Option TokenKind :=
  if word = "class" then some classWord
  else if word = "return" then some returnWord
  else if word = "yield" then some yieldWord
  else if word = "if" then some ifWord
  else if word = "else" then some elseWord
  else if word = "while" then some whileWord
  else if word = "do" then some doWord
  else if word = "break" then some breakWord
  else if word = "continue" then some continueWord
  else if word = "new" then some newWord
  else if word = "cast" then some castWord
  else if word = "true" then some trueWord
  else if word = "false" then some falseWord
  else if word = "null" then some nullWord
  else none

/-! ## 2. Words for kinds -/

/-- The kind as an error message calls it. -/
def description : TokenKind → String
  | intLiteral => "integer literal"
  | longLiteral => "long literal"
  | floatLiteral => "float literal"
  | doubleLiteral => "double literal"
  | stringLiteral => "string literal"
  | identifier => "identifier"
  | classWord => "'class'"
  | returnWord => "'return'"
  | yieldWord => "'yield'"
  | ifWord => "'if'"
  | elseWord => "'else'"
  | whileWord => "'while'"
  | doWord => "'do'"
  | breakWord => "'break'"
  | continueWord => "'continue'"
  | newWord => "'new'"
  | castWord => "'cast'"
  | trueWord => "'true'"
  | falseWord => "'false'"
  | nullWord => "'null'"
  | plus => "'+'"
  | minus => "'-'"
  | star => "'*'"
  | slash => "'/'"
  | percent => "'%'"
  | equal => "'='"
  | plusEqual => "'+='"
  | minusEqual => "'-='"
  | starEqual => "'*='"
  | slashEqual => "'/='"
  | equalEqual => "'=='"
  | bangEqual => "'!='"
  | less => "'<'"
  | lessEqual => "'<='"
  | greater => "'>'"
  | greaterEqual => "'>='"
  | ampAmp => "'&&'"
  | pipePipe => "'||'"
  | bang => "'!'"
  | leftParen => "'('"
  | rightParen => "')'"
  | leftBrace => "'\x7b'"
  | rightBrace => "'\x7d'"
  | leftBracket => "'['"
  | rightBracket => "']'"
  | semicolon => "';'"
  | comma => "','"
  | dot => "'.'"
  | eof => "end of file"
  | error => "error"

/-- The kind as it is shown to a developer. -/
def name : TokenKind → String
  | intLiteral => "IntLiteral"
  | longLiteral => "LongLiteral"
  | floatLiteral => "FloatLiteral"
  | doubleLiteral => "DoubleLiteral"
  | stringLiteral => "StringLiteral"
  | identifier => "Identifier"
  | classWord => "Class"
  | returnWord => "Return"
  | yieldWord => "Yield"
  | ifWord => "If"
  | elseWord => "Else"
  | whileWord => "While"
  | doWord => "Do"
  | breakWord => "Break"
  | continueWord => "Continue"
  | newWord => "New"
  | castWord => "Cast"
  | trueWord => "True"
  | falseWord => "False"
  | nullWord => "Null"
  | plus => "Plus"
  | minus => "Minus"
  | star => "Star"
  | slash => "Slash"
  | percent => "Percent"
  | equal => "Equal"
  | plusEqual => "PlusEqual"
  | minusEqual => "MinusEqual"
  | starEqual => "StarEqual"
  | slashEqual => "SlashEqual"
  | equalEqual => "EqualEqual"
  | bangEqual => "BangEqual"
  | less => "Less"
  | lessEqual => "LessEqual"
  | greater => "Greater"
  | greaterEqual => "GreaterEqual"
  | ampAmp => "AmpAmp"
  | pipePipe => "PipePipe"
  | bang => "Bang"
  | leftParen => "LeftParen"
  | rightParen => "RightParen"
  | leftBrace => "LeftBrace"
  | rightBrace => "RightBrace"
  | leftBracket => "LeftBracket"
  | rightBracket => "RightBracket"
  | semicolon => "Semicolon"
  | comma => "Comma"
  | dot => "Dot"
  | eof => "Eof"
  | error => "Error"

end TokenKind

/-- A piece of a text with its kind and place. -/
structure Token where
  kind : TokenKind
  lexeme : String
  span : Span
  deriving DecidableEq

/-- The token as it is shown to a developer: `Kind("lexeme" @ place)`. -/
def Token.detail (t : Token) : String :=
  t.kind.name ++ "(" ++ Text.inspect t.lexeme ++ " @ " ++ t.span.detail ++ ")"

end Recast
