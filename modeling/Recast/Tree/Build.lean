/-
# Building nodes

`Build` is the activity of adding nodes to a tree.  The nodes have no place in a text, and none of
them is part of the program until an edit puts it there.  Types are given as resolved types and are
written without a place.
-/
import Recast.Tree.Basic

namespace Recast

/-- Adding nodes to a tree. -/
abbrev Build := StateM SyntaxTree

namespace Build

/-- Add a node that has no place in the text. -/
def node (c : Construct) : Build NodeId := fun t => t.alloc c default

/-- Copy a node and what is below it, at most `limit` nodes deep; the children come before their
parent. -/
def copyTo : Nat → NodeId → Build NodeId
  | 0, id => pure id
  | limit + 1, id => do
    match (← get).construct? id with
    | none => pure id
    | some c =>
      let copies ← c.children.mapM (copyTo limit)
      node (c.withChildren copies)

/-- Copy a node with everything below it. -/
def copy (id : NodeId) : Build NodeId := do copyTo (← get).size id

/-! ## 1. Expressions -/

def literal (value : Literal) : Build NodeId := node (.literal value)

def ident (name : String) : Build NodeId := node (.ident (.synthetic name))

/-- `object.name` -/
def member (object : NodeId) (name : String) : Build NodeId :=
  node (.member object (.synthetic name))

/-- `callee(args)` -/
def call (callee : NodeId) (args : List NodeId) : Build NodeId := node (.call callee args)

/-- `new type(args)` -/
def newObject (type : DataType) (args : List NodeId) : Build NodeId :=
  node (.newObject (.ofDataType type) args)

/-- `cast<type>(expr)` -/
def cast (type : DataType) (expr : NodeId) : Build NodeId := node (.cast (.ofDataType type) expr)

/-- `target = value` -/
def assign (target value : NodeId) : Build NodeId := node (.assign .set target value)

/-! ## 2. Statements -/

/-- `expr;` -/
def exprStmt (expr : NodeId) : Build NodeId := node (.exprStmt expr)

/-- `type name = init;` -/
def localDecl (type : DataType) (name : String) (init : NodeId) : Build NodeId :=
  node (.localDecl (.ofDataType type) [⟨.synthetic name, some init⟩])

/-- `return value;` -/
def returnStmt (value : Option NodeId) : Build NodeId := node (.returnStmt value)

/-- `yield return value;` -/
def yieldStmt (value : NodeId) : Build NodeId := node (.yieldStmt value)

/-- `{ stmts }` -/
def block (stmts : List NodeId) : Build NodeId := node (.block stmts)

end Build

end Recast
