/-
# Mapping engines

A mapping engine writes the statements that do a conversion.  It is given a request and may add
nodes to the tree; what it returns is meant to replace the statement of the request.

`castEngine` writes `cast<T>(value)` into a statement of the same shape.  It converts between
numeric types and from `null` to anything that is not numeric, offers nothing for other types, and
refuses a conversion to `void`.
-/
import Recast.Fix.Request
import Recast.Tree.Build

namespace Recast

/-- Writes the statements that do a conversion, or fails. -/
abbrev MappingEngine := MappingRequest → ExceptT MappingError Build (List NodeId)

/-- Whether a cast converts from one type to another. -/
def canCast (source target : DataType) : Bool :=
  (source.isNumeric && target.isNumeric) || (source.isNull && !target.isNumeric)

/-- The name that a declaration of one variable declares. -/
def SyntaxTree.declaredName? (t : SyntaxTree) (id : NodeId) : Option String :=
  match t.construct? id with
  | some (.localDecl _ [var]) => some var.name.name
  | _ => none

/-- The statement of a request with a converted value in it. -/
def convertedStmt (r : MappingRequest) (converted : NodeId) :
    ExceptT MappingError Build NodeId := do
  match r.shape with
  | .assignment =>
    match r.destination with
    | none => throw (.failed "assignment request without a destination")
    | some destination =>
      let target ← Build.copy destination
      let assign ← Build.assign target converted
      Build.exprStmt assign
  | .returned => Build.returnStmt (some converted)
  | .yielded => Build.yieldStmt converted
  | .declaration =>
    match (← getThe SyntaxTree).declaredName? r.stmt with
    | none => throw (.failed "declaration request without a single declarator")
    | some name => Build.localDecl r.destinationType name converted

/-- The engine that casts the value. -/
def castEngine : MappingEngine := fun r => do
  if r.destinationType.isVoid then
    throw (.unsupported r.sourceType.text r.destinationType.text)
  else if !canCast r.sourceType r.destinationType then pure []
  else
    let source ← Build.copy r.source
    let converted ← Build.cast r.destinationType source
    let stmt ← convertedStmt r converted
    pure [stmt]

end Recast
