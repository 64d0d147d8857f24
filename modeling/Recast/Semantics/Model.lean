/-
# Semantic models

A fix asks two questions about an expression: what type it has and what type its context expects,
and what kind of symbol a name stands for.  A `SemanticModel` answers them.
-/
import Recast.Error
import Recast.Tree.Construct

namespace Recast

/-- What a name stands for. -/
inductive SymbolKind where
  | localVar
  | parameter
  | field
  | property
  | method
  | function
  | classType
  deriving DecidableEq

namespace SymbolKind

/-- All kinds of symbols. -/
def all : List SymbolKind := [localVar, parameter, field, property, method, function, classType]

/-- The word for a kind of symbol. -/
def text : SymbolKind → String
  | localVar => "local"
  | parameter => "parameter"
  | field => "field"
  | property => "property"
  | method => "method"
  | function => "function"
  | classType => "class"

def isProperty (k : SymbolKind) : Bool := k = property

/-- Whether the symbol is storage that can be written in place. -/
def isVariable : SymbolKind → Bool
  | localVar | parameter | field => true
  | _ => false

end SymbolKind

/-- The type of an expression, and the type that its context expects.  They are the same where the
context expects nothing in particular. -/
structure TypeInfo where
  type : DataType
  converted : DataType

/-- Answers about the expressions of one tree. -/
structure SemanticModel where
  /-- The types of an expression. -/
  typeInfo : NodeId → Except SemanticError TypeInfo
  /-- The symbol that a name or a member stands for. -/
  symbolKind : NodeId → Option SymbolKind

end Recast
