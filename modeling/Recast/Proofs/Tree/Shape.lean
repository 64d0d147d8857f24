/-
# The shape of a tree

Two trees have the same shape if they differ only in the places of their parts in a text and in the
numbers of their nodes: from the root down, they have the same constructs with the same names,
operators, literals, types and flags, and the same children in the same order.

* `Construct.outline` wipes the places and node numbers out of one construct;
* `SameShape t u as bs`: the trees at the nodes `as` of `t` and at the nodes `bs` of `u` have the same
  shapes, one by one.
-/
import Recast.Proofs.Tree.Forest

namespace Recast

/-! ## 1. Constructs without places -/

/-- A name without its place. -/
def Ident.unplaced (i : Ident) : Ident := .synthetic i.name

namespace WrittenType

mutual

/-- A written type without its places. -/
def unplaced : WrittenType → WrittenType
  | ⟨name, args, rank, _⟩ => ⟨name, unplacedAll args, rank, default⟩

/-- Written types without their places. -/
def unplacedAll : List WrittenType → List WrittenType
  | [] => []
  | t :: ts => unplaced t :: unplacedAll ts

end

end WrittenType

/-- A parameter without its places. -/
def Param.unplaced (p : Param) : Param := ⟨p.type.unplaced, p.name.unplaced⟩

/-- A construct without its places and with every node number wiped out. -/
def Construct.outline : Construct → Construct
  | unit items => unit (items.map fun _ => 0)
  | classDecl name members => classDecl name.unplaced (members.map fun _ => 0)
  | field type name init => field type.unplaced name.unplaced (init.map fun _ => 0)
  | property type name hasSetter => property type.unplaced name.unplaced hasSetter
  | function returnType name params _ =>
    function returnType.unplaced name.unplaced (params.map Param.unplaced) 0
  | block stmts => block (stmts.map fun _ => 0)
  | exprStmt _ => exprStmt 0
  | localDecl type vars =>
    localDecl type.unplaced (vars.map fun v => ⟨v.name.unplaced, v.init.map fun _ => 0⟩)
  | returnStmt value => returnStmt (value.map fun _ => 0)
  | yieldStmt _ => yieldStmt 0
  | ifStmt _ _ elseBranch => ifStmt 0 0 (elseBranch.map fun _ => 0)
  | whileStmt _ _ => whileStmt 0 0
  | doStmt _ _ => doStmt 0 0
  | breakStmt => breakStmt
  | continueStmt => continueStmt
  | emptyStmt => emptyStmt
  | literal value => literal value
  | ident name => ident name.unplaced
  | member _ name => member 0 name.unplaced
  | call _ args => call 0 (args.map fun _ => 0)
  | newObject type args => newObject type.unplaced (args.map fun _ => 0)
  | cast type _ => cast type.unplaced 0
  | assign op _ _ => assign op 0 0
  | binary op _ _ => binary op 0 0
  | unary op _ => unary op 0
  | paren _ => paren 0

/-! ## 2. Trees of the same shape -/

/-- The trees at the nodes of two lists have the same shapes, one by one. -/
inductive SameShape (t u : SyntaxTree) : List NodeId → List NodeId → Prop
  | nil : SameShape t u [] []
  | cons {a b : NodeId} {as bs : List NodeId} {c d : Construct} : t.construct? a = some c →
      u.construct? b = some d → c.outline = d.outline → SameShape t u c.children d.children →
      SameShape t u as bs → SameShape t u (a :: as) (b :: bs)

namespace SameShape

variable {t t' u u' : SyntaxTree} {as bs as' bs' : List NodeId}

/-- One tree of the same shape as another. -/
theorem node {a b : NodeId} {c d : Construct} (hc : t.construct? a = some c)
    (hd : u.construct? b = some d) (ho : c.outline = d.outline)
    (hk : SameShape t u c.children d.children) : SameShape t u [a] [b] :=
  .cons hc hd ho hk .nil

theorem append (h : SameShape t u as bs) (h' : SameShape t u as' bs') :
    SameShape t u (as ++ as') (bs ++ bs') := by
  induction h with
  | nil => exact h'
  | cons hc hd ho hk _ _ ih => exact .cons hc hd ho hk ih

theorem length_eq (h : SameShape t u as bs) : as.length = bs.length := by
  induction h with
  | nil => rfl
  | cons _ _ _ _ _ _ ih => rw [List.length_cons, List.length_cons, ih]

/-- Equally many children look the same in an outline. -/
theorem map_zero_eq (h : SameShape t u as bs) :
    as.map (fun _ => (0 : NodeId)) = bs.map fun _ => (0 : NodeId) := by
  rw [List.map_const', List.map_const', h.length_eq]

/-- Growth of a table changes no shape. -/
theorem mono (h : SameShape t u as bs) (ht : t.Extends t') (hu : u.Extends u') :
    SameShape t' u' as bs := by
  induction h with
  | nil => exact .nil
  | cons hc hd ho _ _ ih₁ ih₂ =>
    exact .cons (ht.construct?_eq_some hc) (hu.construct?_eq_some hd) ho ih₁ ih₂

/-- Two trees of the same shape as a third have the same shape. -/
theorem join {v : SyntaxTree} {cs : List NodeId} (h : SameShape t u as bs)
    (h' : SameShape t v as cs) : SameShape u v bs cs := by
  induction h generalizing cs with
  | nil =>
    cases h'
    exact .nil
  | cons hc hd ho _ _ ih₁ ih₂ =>
    cases h' with
    | cons hc' hd' ho' hk' hs' =>
      rw [hc] at hc'
      cases hc'
      exact .cons hd hd' (ho.symm.trans ho') (ih₁ hk') (ih₂ hs')

/-- The construct at the front of two lists. -/
theorem exists_outline {a b : NodeId} (h : SameShape t u (a :: as) (b :: bs)) {c : Construct}
    (hc : t.construct? a = some c) :
    ∃ d, u.construct? b = some d ∧ c.outline = d.outline := by
  cases h with
  | cons hc' hd ho _ _ =>
    rw [hc] at hc'
    cases hc'
    exact ⟨_, hd, ho⟩

end SameShape

end Recast
