/-
# Declarations of a program

The classes with their members, and the functions, that a program declares at its top level.  Of
several declarations of one name the last one counts: the tables hold it in front.
-/
import Recast.Semantics.Model
import Recast.Tree.Basic

namespace Recast

/-- A member of a class. -/
structure ClassMember where
  kind : SymbolKind
  node : NodeId
  deriving DecidableEq

/-- The classes and functions of a program, the last declared in front. -/
structure Declarations where
  classes : List (String × List (String × ClassMember))
  functions : List (String × NodeId)
  deriving DecidableEq

namespace Declarations

/-- The name of a member with what it is, if the node is a member. -/
def memberOf? (t : SyntaxTree) (id : NodeId) : Option (String × ClassMember) :=
  match t.construct? id with
  | some (.field _ name _) => some (name.name, ⟨.field, id⟩)
  | some (.property _ name _) => some (name.name, ⟨.property, id⟩)
  | some (.function _ name _ _) => some (name.name, ⟨.method, id⟩)
  | _ => none

/-- Add the declaration that a top-level item makes. -/
def add (t : SyntaxTree) (d : Declarations) (item : NodeId) : Declarations :=
  match t.construct? item with
  | some (.classDecl name members) =>
    { d with classes := (name.name, (members.filterMap (memberOf? t)).reverse) :: d.classes }
  | some (.function _ name _ _) => { d with functions := (name.name, item) :: d.functions }
  | _ => d

/-- The declarations of a program. -/
def ofTree (t : SyntaxTree) : Declarations := (t.children t.root).foldl (add t) ⟨[], []⟩

/-- Whether a class of this name is declared. -/
def hasClass (d : Declarations) (name : String) : Bool := (d.classes.lookup name).isSome

/-- The function of this name. -/
def function? (d : Declarations) (name : String) : Option NodeId := d.functions.lookup name

/-- A member of a class, both by name. -/
def member? (d : Declarations) (className name : String) : Option ClassMember :=
  (d.classes.lookup className).bind (·.lookup name)

end Declarations

end Recast
