/-
# Mapping requests

A `MappingRequest` says what is to be converted: from which type to which, in which statement.  It
is gathered from a convertible statement by asking a semantic model (`gather`): an assignment
converts from the type of the value to the type of the target, the other shapes convert from the
type of the value to the type that its context expects.

`FixM` is the activity of searching a fix.  It counts the questions to the model, the calls of the
mapping engine and what the engine returned, and before each question it looks whether the caller
has asked to stop.
-/
import Recast.Cancellation
import Recast.Fix.Convertible
import Recast.Semantics.Model

namespace Recast

/-! ## 1. Requests -/

/-- What an engine has to convert. -/
structure MappingRequest where
  sourceType : DataType
  destinationType : DataType
  /-- The expression whose value is to be converted. -/
  source : NodeId
  /-- What is assigned to, in an assignment. -/
  destination : Option NodeId
  /-- The statement that is to be replaced. -/
  stmt : NodeId
  shape : Shape
  /-- The destination is a variable that exists and can be written in place. -/
  targetExists : Bool
  /-- The statement produces an element of a lazy sequence. -/
  lazySequence : Bool

/-- The two flags of a request as the bits of a number. -/
def MappingRequest.flags (r : MappingRequest) : Nat :=
  r.targetExists.toNat + 2 * r.lazySequence.toNat

/-! ## 2. The search for a fix -/

/-- What has been done in a search so far. -/
structure Activity where
  /-- Questions to the semantic model. -/
  queries : Nat
  /-- Calls of the mapping engine. -/
  requests : Nat
  /-- What the last call of the engine returned. -/
  produced : List NodeId
  deriving DecidableEq

/-- Nothing done yet. -/
def Activity.start : Activity := ⟨0, 0, []⟩

/-- Searching a fix, with failures.  What has been done is known also after a failure. -/
abbrev FixM := ExceptT FixError (StateM Activity)

namespace FixM

/-- Fail if the caller has asked to stop. -/
def check (point : CancelPoint) : FixM Unit := do
  if point.reached (← get).queries then throw .cancelled

/-- Ask the model a question. -/
def ask {α : Type} (answer : α) : FixM α := do
  modify fun a => { a with queries := a.queries + 1 }
  pure answer

/-- The types of an expression, unless the caller has asked to stop. -/
def typeInfo (model : SemanticModel) (point : CancelPoint) (id : NodeId) : FixM TypeInfo := do
  check point
  match ← ask (model.typeInfo id) with
  | .ok info => pure info
  | .error e => throw (.semantic e)

end FixM

/-- Whether the target of an assignment is a name alone, which may exist as a variable. -/
def SyntaxTree.isName (t : SyntaxTree) (id : NodeId) : Bool :=
  match t.construct? id with
  | some (.ident _) => true
  | _ => false

/-- Whether the target of an assignment exists as a variable that can be written in place: it is a
name alone, and that of a local variable, a parameter or a field. -/
def canWriteInPlace (t : SyntaxTree) (model : SemanticModel) (target : NodeId) : Bool :=
  t.isName target && (model.symbolKind target).any SymbolKind.isVariable

/-- Gather the types and flags for a convertible statement. -/
def MappingRequest.gather (t : SyntaxTree) (model : SemanticModel) (point : CancelPoint) (c : Convertible) :
    FixM MappingRequest := do
  let request (source destination : DataType) (targetExists lazySequence : Bool) : MappingRequest :=
    ⟨source, destination, c.source, c.target?, c.stmt, c.shape, targetExists, lazySequence⟩
  match c with
  | .assignment _ target value =>
    let source ← FixM.typeInfo model point value
    let destination ← FixM.typeInfo model point target
    FixM.check point
    let found ← if t.isName target then FixM.ask (canWriteInPlace t model target) else pure false
    pure (request source.type destination.type found false)
  | .returned _ value =>
    let info ← FixM.typeInfo model point value
    pure (request info.type info.converted false false)
  | .yielded _ value =>
    let info ← FixM.typeInfo model point value
    pure (request info.type info.converted false true)
  | .declaration _ init =>
    let info ← FixM.typeInfo model point init
    pure (request info.type info.converted true false)

end Recast
