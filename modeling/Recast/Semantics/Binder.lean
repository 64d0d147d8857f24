/-
# Binding names

Every name in an expression that stands for a local variable or a parameter is bound to its
declaration.  The walk goes through the program in the order of its statements with the scope of the
names that are visible:

* a block opens a scope, and so does every branch and loop body, be it a block or not;
* the initializer of a variable is bound before the variable is declared;
* each function has a scope of its own with its parameters, the initializer of a field has none,
  and the statements at the top level share one.

A name that is declared twice in one scope is recorded as an error; the first declaration stays.
-/
import Recast.Semantics.Scope
import Recast.Tree.Basic

namespace Recast

/-- The names bound so far, the last one in front, and the errors, the first one in front. -/
structure Binder where
  scope : Scope
  bindings : List (NodeId × Binding)
  errors : List SemanticError
  deriving DecidableEq

namespace Binder

/-- Nothing bound yet. -/
def empty : Binder := ⟨.empty, [], []⟩

/-- Open a scope. -/
def enter (b : Binder) : Binder := { b with scope := b.scope.enter }

/-- Close a scope. -/
def leave (b : Binder) : Binder := { b with scope := b.scope.leave }

/-- Declare a name, or record that it is declared already. -/
def declare (b : Binder) (name : Ident) (binding : Binding) : Binder :=
  match b.scope.declare name.name binding name.span with
  | .ok scope => { b with scope := scope }
  | .error e => { b with errors := b.errors ++ [e] }

/-- Bind a name in an expression, if it is visible as a local name. -/
def use (b : Binder) (id : NodeId) (name : String) : Binder :=
  match b.scope.get? name with
  | some var => { b with bindings := (id, var.binding) :: b.bindings }
  | none => b

/-! ## 1. Expressions -/

/-- Bind the names of an expression whose parts are nested at most so deep. -/
def exprTo (t : SyntaxTree) : Nat → NodeId → Binder → Binder
  | 0, _, b => b
  | depth + 1, id, b =>
    match t.construct? id with
    | some (.ident name) => b.use id name.name
    | some c => c.children.foldl (fun b child => exprTo t depth child b) b
    | none => b

/-- Bind the names of an expression. -/
def expr (t : SyntaxTree) (id : NodeId) (b : Binder) : Binder := exprTo t t.size id b

/-- Bind the names of an expression, if there is one. -/
def expr? (t : SyntaxTree) (id : Option NodeId) (b : Binder) : Binder :=
  match id with
  | some id => expr t id b
  | none => b

/-! ## 2. Statements -/

/-- Bind and declare the variables of a declaration, from the one with an index on. -/
def declarators (t : SyntaxTree) (decl : NodeId) : Nat → List Declarator → Binder → Binder
  | _, [], b => b
  | index, var :: vars, b =>
    declarators t decl (index + 1) vars
      ((expr? t var.init b).declare var.name (.declared decl index))

/-- Bind the names of a statement whose statements are nested at most so deep. -/
def stmtTo (t : SyntaxTree) : Nat → NodeId → Binder → Binder
  | 0, _, b => b
  | depth + 1, id, b =>
    let nested (id : NodeId) (b : Binder) : Binder := (stmtTo t depth id b.enter).leave
    match t.construct? id with
    | some (.block stmts) => (stmts.foldl (fun b s => stmtTo t depth s b) b.enter).leave
    | some (.localDecl _ vars) => declarators t id 0 vars b
    | some (.exprStmt e) => expr t e b
    | some (.yieldStmt value) => expr t value b
    | some (.returnStmt value) => expr? t value b
    | some (.ifStmt condition thenBranch none) => nested thenBranch (expr t condition b)
    | some (.ifStmt condition thenBranch (some elseBranch)) =>
      nested elseBranch (nested thenBranch (expr t condition b))
    | some (.whileStmt condition body) => nested body (expr t condition b)
    | some (.doStmt body condition) => nested body (expr t condition b)
    | _ => b

/-- Bind the names of a statement. -/
def stmt (t : SyntaxTree) (id : NodeId) (b : Binder) : Binder := stmtTo t t.size id b

/-! ## 3. Declarations -/

/-- Do something in a scope of its own, and return to the scope before. -/
def isolated (f : Binder → Binder) (b : Binder) : Binder :=
  { f { b with scope := .empty } with scope := b.scope }

/-- Declare the parameters of a function, from the one with an index on. -/
def params (function : NodeId) : Nat → List Param → Binder → Binder
  | _, [], b => b
  | index, p :: ps, b =>
    params function (index + 1) ps (b.declare p.name (.parameter function index))

/-- Bind the names of a function. -/
def function (t : SyntaxTree) (id : NodeId) (ps : List Param) (body : NodeId) : Binder → Binder :=
  isolated fun b => stmt t body (params id 0 ps b)

/-- Bind the names of a member of a class. -/
def classMember (t : SyntaxTree) (b : Binder) (id : NodeId) : Binder :=
  match t.construct? id with
  | some (.function _ _ ps body) => function t id ps body b
  | some (.field _ _ (some init)) => isolated (expr t init) b
  | _ => b

/-- Bind the names of a top-level item. -/
def item (t : SyntaxTree) (b : Binder) (id : NodeId) : Binder :=
  match t.construct? id with
  | some (.classDecl _ members) => members.foldl (classMember t) b
  | some (.function _ _ ps body) => function t id ps body b
  | _ => stmt t id b

/-- Bind the names of a program. -/
def ofTree (t : SyntaxTree) : Binder := (t.children t.root).foldl (item t) empty

end Binder

end Recast
