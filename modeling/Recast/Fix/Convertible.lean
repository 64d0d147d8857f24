/-
# Convertible statements

Four shapes of statements hold one value that may have to be converted: an assignment with `=`, a
`return` with a value, a `yield return`, and a declaration of one variable with an initializer.

* `convertible?` tells whether a node is such a statement;
* `convertibleAt?` finds the innermost such statement around an offset.
-/
import Recast.Tree.Basic

namespace Recast

/-- The shapes of convertible statements. -/
inductive Shape where
  | assignment
  | returned
  | yielded
  | declaration
  deriving DecidableEq

/-- The word for a shape. -/
def Shape.text : Shape → String
  | assignment => "assignment"
  | returned => "return"
  | yielded => "yield return"
  | declaration => "local declaration"

/-- A statement with one value that may have to be converted. -/
inductive Convertible where
  /-- `target = value;` -/
  | assignment (stmt target value : NodeId)
  /-- `return value;` -/
  | returned (stmt value : NodeId)
  /-- `yield return value;` -/
  | yielded (stmt value : NodeId)
  /-- `type name = init;` -/
  | declaration (stmt init : NodeId)
  deriving DecidableEq

namespace Convertible

/-- The statement itself. -/
def stmt : Convertible → NodeId
  | assignment stmt _ _ | returned stmt _ | yielded stmt _ | declaration stmt _ => stmt

/-- The expression whose value is to be converted. -/
def source : Convertible → NodeId
  | assignment _ _ value | returned _ value | yielded _ value | declaration _ value => value

/-- What is assigned to, in an assignment. -/
def target? : Convertible → Option NodeId
  | assignment _ target _ => some target
  | _ => none

def shape : Convertible → Shape
  | assignment .. => .assignment
  | returned .. => .returned
  | yielded .. => .yielded
  | declaration .. => .declaration

end Convertible

namespace SyntaxTree

/-- The convertible statement that a node is, if it is one.  Compound assignments, returns without
a value and declarations of several variables are not. -/
def convertible? (t : SyntaxTree) (id : NodeId) : Option Convertible :=
  match t.construct? id with
  | some (.exprStmt e) =>
    match t.construct? e with
    | some (.assign .set target value) => some (.assignment id target value)
    | _ => none
  | some (.returnStmt (some value)) => some (.returned id value)
  | some (.yieldStmt value) => some (.yielded id value)
  | some (.localDecl _ [⟨_, some init⟩]) => some (.declaration id init)
  | _ => none

/-- The first convertible statement on the way from a node up. -/
def convertibleAround? (t : SyntaxTree) (id : NodeId) : Option Convertible :=
  (id :: t.ancestors id).findSome? t.convertible?

/-- The innermost convertible statement around an offset. -/
def convertibleAt? (t : SyntaxTree) (offset : Nat) : Option Convertible :=
  (t.nodeAt? offset).bind t.convertibleAround?

end SyntaxTree

end Recast
