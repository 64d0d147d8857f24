/-
# Syntax trees

A `SyntaxTree` is a growing table of nodes with a root.  A node has a construct, a span and a link
to its parent; it is named by its place in the table, its `NodeId`.  Nodes that are not, or no
longer, part of the program stay in the table, detached.

* `SyntaxTree.alloc` adds a node and makes it the parent of its children;
* `SyntaxTree.ancestors` follows the parent links upward, and on it rest the questions whether a
  node is part of the program (`isAttached`) and which function or class encloses it;
* `SyntaxTree.nodeAt?` goes down from the root to the innermost node that covers an offset.

A walk along links visits no node twice in a tree without cycles, so the number of nodes bounds it.
The table itself has no bound; `Recast.Narrow` has one for the ids of 32 bits.
-/
import Recast.Error
import Recast.Tree.Construct

namespace Recast

/-- A node of a tree. -/
structure Node where
  construct : Construct
  span : Span
  parent : Option NodeId
  deriving DecidableEq

/-- A table of nodes with a root. -/
structure SyntaxTree where
  nodes : Array Node
  root : NodeId
  deriving DecidableEq

namespace SyntaxTree

/-! ## 1. Nodes -/

/-- A table without nodes. -/
def empty : SyntaxTree := ⟨#[], 0⟩

/-- The number of nodes, attached or not. -/
def size (t : SyntaxTree) : Nat := t.nodes.size

/-- The construct of a node. -/
def construct? (t : SyntaxTree) (id : NodeId) : Option Construct := t.nodes[id]?.map Node.construct

/-- The span of a node. -/
def spanOf (t : SyntaxTree) (id : NodeId) : Span := (t.nodes[id]?.map Node.span).getD default

/-- The parent of a node. -/
def parent? (t : SyntaxTree) (id : NodeId) : Option NodeId := t.nodes[id]?.bind Node.parent

/-- The children of a node, in the order of the source text. -/
def children (t : SyntaxTree) (id : NodeId) : List NodeId :=
  ((t.construct? id).map Construct.children).getD []

def isStatement (t : SyntaxTree) (id : NodeId) : Bool := (t.construct? id).any Construct.isStatement

def isExpression (t : SyntaxTree) (id : NodeId) : Bool :=
  (t.construct? id).any Construct.isExpression

def isBlock (t : SyntaxTree) (id : NodeId) : Bool := (t.construct? id).any Construct.isBlock

/-! ## 2. Growth -/

/-- Change the parent link of a node. -/
def setParent (t : SyntaxTree) (parent : Option NodeId) (id : NodeId) : SyntaxTree :=
  { t with nodes := t.nodes.modify id fun n => { n with parent := parent } }

@[simp]
theorem size_setParent (t : SyntaxTree) (parent : Option NodeId) (id : NodeId) :
    (t.setParent parent id).size = t.size := by
  simp [size, setParent]

@[simp]
theorem construct?_setParent (t : SyntaxTree) (parent : Option NodeId) (id other : NodeId) :
    (t.setParent parent id).construct? other = t.construct? other := by
  simp only [construct?, setParent, Array.getElem?_modify]
  split <;> cases t.nodes[other]? <;> rfl

/-- Only the link of the node itself changes. -/
theorem parent?_setParent (t : SyntaxTree) (parent : Option NodeId) (id other : NodeId) :
    (t.setParent parent id).parent? other =
      if id = other ∧ other < t.size then parent else t.parent? other := by
  simp only [parent?, setParent, Array.getElem?_modify, size]
  by_cases h : other < t.nodes.size
  · by_cases he : id = other <;> simp [h, he]
  · simp [h]

/-- Make a node the parent of others. -/
def adopt (t : SyntaxTree) (parent : NodeId) (ids : List NodeId) : SyntaxTree :=
  ids.foldl (fun t id => t.setParent (some parent) id) t

@[simp]
theorem size_adopt (parent : NodeId) : ∀ (ids : List NodeId) (t : SyntaxTree),
    (t.adopt parent ids).size = t.size
  | [], _ => rfl
  | id :: ids, t => (size_adopt parent ids _).trans (size_setParent t _ id)

@[simp]
theorem construct?_adopt (parent : NodeId) (other : NodeId) :
    ∀ (ids : List NodeId) (t : SyntaxTree),
    (t.adopt parent ids).construct? other = t.construct? other
  | [], _ => rfl
  | id :: ids, t =>
    (construct?_adopt parent other ids _).trans (construct?_setParent t _ id other)

/-- Exactly the adopted nodes have a new parent. -/
theorem parent?_adopt (parent : NodeId) (other : NodeId) :
    ∀ (ids : List NodeId) (t : SyntaxTree), (t.adopt parent ids).parent? other =
      if other ∈ ids ∧ other < t.size then some parent else t.parent? other
  | [], t => by simp [adopt]
  | id :: ids, t => by
    have ih := parent?_adopt parent other ids (t.setParent (some parent) id)
    rw [size_setParent, parent?_setParent] at ih
    simp only [adopt, List.foldl_cons] at ih ⊢
    rw [ih]
    by_cases he : id = other
    · subst he
      by_cases hs : id < t.size <;> simp [hs]
    · simp [he, Ne.symm he]

/-- Change the construct of a node. -/
def setConstruct (t : SyntaxTree) (id : NodeId) (c : Construct) : SyntaxTree :=
  { t with nodes := t.nodes.modify id fun n => { n with construct := c } }

/-- Add a node without a parent; it becomes the parent of its children. -/
def alloc (t : SyntaxTree) (c : Construct) (span : Span) : NodeId × SyntaxTree :=
  let id := t.size
  let t := t.adopt id c.children
  (id, { t with nodes := t.nodes.push ⟨c, span, none⟩ })

@[simp]
theorem alloc_fst (t : SyntaxTree) (c : Construct) (span : Span) :
    (t.alloc c span).1 = t.size := rfl

@[simp]
theorem size_alloc (t : SyntaxTree) (c : Construct) (span : Span) :
    (t.alloc c span).2.size = t.size + 1 := by
  have := size_adopt t.size c.children t
  simp only [size] at this
  simp [alloc, size, this]

/-- **Adding a node keeps the constructs of all others.** -/
theorem construct?_alloc (t : SyntaxTree) (c : Construct) (span : Span) (id : NodeId) :
    (t.alloc c span).2.construct? id = if id = t.size then some c else t.construct? id := by
  have hs := size_adopt t.size c.children t
  have hc := construct?_adopt t.size id c.children t
  simp only [size, construct?] at hs hc
  simp only [alloc, construct?, size, Array.getElem?_push, hs]
  by_cases h : id = t.nodes.size
  · simp [h]
  · simp [h, hc]

/-- **Adding a node changes the parent of its children only.** -/
theorem parent?_alloc (t : SyntaxTree) (c : Construct) (span : Span) (id : NodeId) :
    (t.alloc c span).2.parent? id =
      if id ∈ c.children ∧ id < t.size then some t.size else t.parent? id := by
  have hs := size_adopt t.size c.children t
  have hp := parent?_adopt t.size id c.children t
  simp only [size, parent?] at hs hp
  simp only [alloc, parent?, size, Array.getElem?_push, hs]
  split
  · rename_i h
    subst h
    simp
  · exact hp

/-- The tree of the empty program. -/
def new : SyntaxTree :=
  let (root, t) := empty.alloc (.unit []) default
  { t with root := root }

/-! ## 3. Walks -/

/-- The first `limit` nodes on the way from a node up, the node itself not counted. -/
def climb (t : SyntaxTree) : Nat → NodeId → List NodeId
  | 0, _ => []
  | limit + 1, id =>
    match t.parent? id with
    | none => []
    | some parent => parent :: climb t limit parent

/-- The parent of a node, its parent, and so on. -/
def ancestors (t : SyntaxTree) (id : NodeId) : List NodeId := t.climb t.size id

/-- Whether the links upward from a node lead to the root. -/
def isAttached (t : SyntaxTree) (id : NodeId) : Bool := id = t.root || t.root ∈ t.ancestors id

/-- The innermost function around a node. -/
def enclosingFunction? (t : SyntaxTree) (id : NodeId) : Option NodeId :=
  (t.ancestors id).find? fun a => (t.construct? a).any Construct.isFunction

/-- The innermost class around a node. -/
def enclosingClass? (t : SyntaxTree) (id : NodeId) : Option NodeId :=
  (t.ancestors id).find? fun a => (t.construct? a).any Construct.isClass

/-- Go down at most `limit` steps, each time to the first child that covers an offset. -/
def descend (t : SyntaxTree) (offset : Nat) : Nat → NodeId → NodeId
  | 0, id => id
  | limit + 1, id =>
    match (t.children id).find? fun c => (t.spanOf c).contains offset with
    | none => id
    | some c => descend t offset limit c

/-- The innermost node of the program that covers an offset. -/
def nodeAt? (t : SyntaxTree) (offset : Nat) : Option NodeId :=
  if (t.spanOf t.root).contains offset then some (t.descend offset t.size t.root) else none

/-! ## 4. Comparison -/

/-- Whether two nodes are the same, literals being compared by value. -/
def sameNode (a b : Node) : Bool :=
  a.construct.same b.construct && a.span = b.span && a.parent = b.parent

/-- Whether two trees have the same nodes in the same places and the same root. -/
def same (a b : SyntaxTree) : Bool :=
  a.root = b.root && a.size = b.size && (a.nodes.zip b.nodes).all fun (m, n) => sameNode m n

end SyntaxTree

end Recast
