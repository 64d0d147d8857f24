/-
# Local scopes

A `Scope` says which local variables and parameters are visible at a point of a program.  Scopes
nest: `enter` opens one and `leave` closes it again.  A name may be declared once in each scope and
hides the same name of the scopes around it until its scope is left.

The variables that are visible are kept in one table; those that are hidden are kept aside with the
depth of the scope that hides them, the one hidden last in front.  Depths are counted without a bound
here, and in 32 bits in `Recast.Narrow`.
-/
import Recast.Error
import Recast.Tree.Construct

namespace Recast

/-- Where a local name was introduced. -/
inductive Binding where
  /-- The declarator with an index of a local declaration. -/
  | declared (decl : NodeId) (index : Nat)
  /-- The parameter with an index of a function. -/
  | parameter (function : NodeId) (index : Nat)
  deriving DecidableEq

/-- A visible variable or parameter. -/
structure LocalVar where
  name : String
  binding : Binding
  /-- The depth of the scope that declares it. -/
  depth : Nat
  span : Span
  deriving DecidableEq

/-- The names that are visible at a point of a program. -/
structure Scope where
  /-- The visible variables, at most one for each name. -/
  visible : List LocalVar
  /-- The hidden variables, each with the depth of the scope that hides it. -/
  hidden : List (Nat × LocalVar)
  /-- The number of open scopes around the current one. -/
  depth : Nat
  deriving DecidableEq

namespace Scope

/-- The outermost scope, without names. -/
def empty : Scope := ⟨[], [], 0⟩

/-- The variable that a name stands for. -/
def get? (s : Scope) (name : String) : Option LocalVar := s.visible.find? fun v => v.name = name

/-- Whether a name is declared in the current scope itself. -/
def isDeclaredHere (s : Scope) (name : String) : Bool := (s.get? name).any fun v => v.depth = s.depth

/-- Put a variable into the table in place of one of the same name. -/
def put (vars : List LocalVar) (v : LocalVar) : List LocalVar :=
  v :: vars.filter fun w => w.name ≠ v.name

/-- Declare a name in the current scope.  A name that is already declared there stays as it is. -/
def declare (s : Scope) (name : String) (binding : Binding) (span : Span) :
    Except SemanticError Scope :=
  let var : LocalVar := ⟨name, binding, s.depth, span⟩
  match s.get? name with
  | none => .ok { s with visible := put s.visible var }
  | some old =>
    if old.depth = s.depth then .error (.redeclared name span)
    else .ok { s with visible := put s.visible var, hidden := (s.depth, old) :: s.hidden }

/-- Open a scope in the current one. -/
def enter (s : Scope) : Scope := { s with depth := s.depth + 1 }

/-- Put back the variables that were hidden by the scope at a depth. -/
def restore (depth : Nat) : List LocalVar → List (Nat × LocalVar) →
    List LocalVar × List (Nat × LocalVar)
  | vars, [] => (vars, [])
  | vars, (hider, old) :: hidden =>
    if hider = depth then restore depth (put vars old) hidden else (vars, (hider, old) :: hidden)

/-- Leave the current scope: its names are gone, and those it hid are back.  The outermost scope
loses its names and stays open. -/
def leave (s : Scope) : Scope :=
  let (visible, hidden) :=
    restore s.depth (s.visible.filter fun v => v.depth < s.depth) s.hidden
  ⟨visible, hidden, s.depth - 1⟩

end Scope

end Recast
