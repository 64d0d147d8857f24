/-
# Edits of a tree

An edit puts nodes that are already in the table into the program.

* `SyntaxTree.replaceChild` puts one node into the slot of another;
* `SyntaxTree.splice` puts several into the place of one in a statement list;
* `SyntaxTree.replaceStatement` does the one or the other, whichever fits the place of a statement:
  in a statement list it splices, and where only one statement can stand, as the branch of an `if`
  or the body of a loop, it wraps the new statements in a block.  Only statements are put in, and
  there has to be at least one.
-/
import Recast.Tree.Basic

namespace Recast

namespace SyntaxTree

/-- Put `new` into the slot of `parent` that holds `old`, the first one if there are several. -/
def replaceChild (t : SyntaxTree) (parent old new : NodeId) : Except TreeError SyntaxTree :=
  match t.construct? parent with
  | none => .error (.slotNotFound parent old)
  | some c =>
    if old ∈ c.children then
      let t := t.setConstruct parent (c.withChildren (c.children.replace old new))
      .ok ((t.setParent none old).setParent (some parent) new)
    else .error (.slotNotFound parent old)

/-- A list with its first `old` replaced by other elements. -/
def spliceFirst (old : NodeId) (news : List NodeId) : List NodeId → List NodeId
  | [] => []
  | id :: ids => if id = old then news ++ ids else id :: spliceFirst old news ids

/-- Replace `old` in the statement list of `parent` by other nodes, in order. -/
def splice (t : SyntaxTree) (parent old : NodeId) (news : List NodeId) :
    Except TreeError SyntaxTree :=
  match (t.construct? parent).bind fun c => c.statements?.map (c, ·) with
  | none => .error (.slotNotFound parent old)
  | some (c, stmts) =>
    if old ∈ stmts then
      let t := t.setConstruct parent (c.withStatements (spliceFirst old news stmts))
      .ok ((t.setParent none old).adopt parent news)
    else .error (.slotNotFound parent old)

end SyntaxTree

/-- Where the replacement of a statement was put. -/
inductive Placement where
  /-- So many statements are now in the statement list of the parent. -/
  | spliced (parent : NodeId) (count : Nat)
  /-- A new block took the place of the statement. -/
  | wrapped (block : NodeId)
  deriving DecidableEq

namespace SyntaxTree

/-- Replace a statement of the program by others, in order; what is not a statement is left out.
The outcome comes with the tree as it is afterwards, also if the edit fails. -/
def replaceStatement (t : SyntaxTree) (old : NodeId) (news : List NodeId) :
    Except TreeError Placement × SyntaxTree :=
  if !t.isStatement old then (.error (.notAStatement old), t)
  else match t.parent? old with
    | none => (.error (.detached old), t)
    | some parent =>
      if !t.isAttached old then (.error (.detached old), t)
      else
        let stmts := news.filter t.isStatement
        if stmts.isEmpty then (.error (.emptyReplacement old), t)
        else if t.isBlock parent then
          match t.splice parent old stmts with
          | .ok t => (.ok (.spliced parent stmts.length), t)
          | .error e => (.error e, t)
        else
          let (block, t) := t.alloc (.block stmts) default
          match t.replaceChild parent old block with
          | .ok t => (.ok (.wrapped block), t)
          | .error e => (.error e, t)

end SyntaxTree

end Recast
