/-
# Constructs of the language

A `Construct` is one construct of the language: a declaration, a statement or an expression.  Its
parts that are constructs themselves are held by their `NodeId`, their place in a tree.

* `Construct.children` lists those parts in the order of the source text;
* `Construct.withChildren` puts other nodes into the same slots, in the same order.

The two undo each other (`children_withChildren`, `withChildren_children`).
-/
import Recast.Tree.Literal
import Recast.Types.Written

namespace Recast

/-- The place of a node in its tree. -/
abbrev NodeId := Nat

/-- A name with its place. -/
structure Ident where
  name : String
  span : Span
  deriving DecidableEq

/-- A name that is not in the text. -/
def Ident.synthetic (name : String) : Ident := ⟨name, default⟩

/-! ## 1. Operators -/

/-- The binary operators, the loosest first. -/
inductive BinaryOp where
  | or
  | and
  | eq
  | ne
  | lt
  | le
  | gt
  | ge
  | add
  | sub
  | mul
  | div
  | rem
  deriving DecidableEq

namespace BinaryOp

/-- All binary operators, the loosest first. -/
def all : List BinaryOp := [or, and, eq, ne, lt, le, gt, ge, add, sub, mul, div, rem]

/-- How tightly an operator binds its operands. -/
def precedence : BinaryOp → Nat
  | or => 1
  | and => 2
  | eq | ne => 3
  | lt | le | gt | ge => 4
  | add | sub => 5
  | mul | div | rem => 6

/-- Whether the result is a truth value, whatever the operands are. -/
def isBoolean (op : BinaryOp) : Bool := op.precedence ≤ 4

/-- The operator as it is written. -/
def text : BinaryOp → String
  | or => "||"
  | and => "&&"
  | eq => "=="
  | ne => "!="
  | lt => "<"
  | le => "<="
  | gt => ">"
  | ge => ">="
  | add => "+"
  | sub => "-"
  | mul => "*"
  | div => "/"
  | rem => "%"

end BinaryOp

/-- The operators before an operand. -/
inductive UnaryOp where
  | neg
  | not
  deriving DecidableEq

/-- The operator as it is written. -/
def UnaryOp.text : UnaryOp → String
  | neg => "-"
  | not => "!"

/-- The assignment operators. -/
inductive AssignOp where
  | set
  | add
  | sub
  | mul
  | div
  deriving DecidableEq

/-- The operator as it is written. -/
def AssignOp.text : AssignOp → String
  | set => "="
  | add => "+="
  | sub => "-="
  | mul => "*="
  | div => "/="

/-! ## 2. Constructs -/

/-- A parameter of a function. -/
structure Param where
  type : WrittenType
  name : Ident
  deriving DecidableEq

/-- One variable of a local declaration, with its initializer. -/
structure Declarator where
  name : Ident
  init : Option NodeId
  deriving DecidableEq

/-- A construct of the language, over the nodes of its parts. -/
inductive Construct where
  /-- A whole program: classes, functions and statements. -/
  | unit (items : List NodeId)
  /-- `class name { members }` -/
  | classDecl (name : Ident) (members : List NodeId)
  /-- `type name = init;` in a class -/
  | field (type : WrittenType) (name : Ident) (init : Option NodeId)
  /-- `type name { get; set; }` -/
  | property (type : WrittenType) (name : Ident) (hasSetter : Bool)
  /-- `returnType name(params) { body }` -/
  | function (returnType : WrittenType) (name : Ident) (params : List Param) (body : NodeId)
  /-- `{ stmts }` -/
  | block (stmts : List NodeId)
  /-- `expr;` -/
  | exprStmt (expr : NodeId)
  /-- `type a = x, b;` -/
  | localDecl (type : WrittenType) (vars : List Declarator)
  /-- `return value;` -/
  | returnStmt (value : Option NodeId)
  /-- `yield return value;` -/
  | yieldStmt (value : NodeId)
  /-- `if (condition) thenBranch else elseBranch` -/
  | ifStmt (condition thenBranch : NodeId) (elseBranch : Option NodeId)
  /-- `while (condition) body` -/
  | whileStmt (condition body : NodeId)
  /-- `do body while (condition);` -/
  | doStmt (body condition : NodeId)
  | breakStmt
  | continueStmt
  /-- `;` -/
  | emptyStmt
  | literal (value : Literal)
  /-- A name alone. -/
  | ident (name : Ident)
  /-- `object.name` -/
  | member (object : NodeId) (name : Ident)
  /-- `callee(args)` -/
  | call (callee : NodeId) (args : List NodeId)
  /-- `new type(args)` -/
  | newObject (type : WrittenType) (args : List NodeId)
  /-- `cast<type>(expr)` -/
  | cast (type : WrittenType) (expr : NodeId)
  /-- `target op value` -/
  | assign (op : AssignOp) (target value : NodeId)
  | binary (op : BinaryOp) (lhs rhs : NodeId)
  | unary (op : UnaryOp) (operand : NodeId)
  /-- `(inner)` -/
  | paren (inner : NodeId)
  deriving DecidableEq

namespace Construct

/-! ## 3. Slots -/

/-- The nodes of the parts, in the order of the source text. -/
def children : Construct → List NodeId
  | unit items => items
  | classDecl _ members => members
  | field _ _ init => init.toList
  | function _ _ _ body => [body]
  | block stmts => stmts
  | exprStmt expr => [expr]
  | localDecl _ vars => vars.filterMap Declarator.init
  | returnStmt value => value.toList
  | yieldStmt value => [value]
  | ifStmt condition thenBranch elseBranch => condition :: thenBranch :: elseBranch.toList
  | whileStmt condition body => [condition, body]
  | doStmt body condition => [body, condition]
  | member object _ => [object]
  | call callee args => callee :: args
  | newObject _ args => args
  | cast _ expr => [expr]
  | assign _ target value => [target, value]
  | binary _ lhs rhs => [lhs, rhs]
  | unary _ operand => [operand]
  | paren inner => [inner]
  | property .. | breakStmt | continueStmt | emptyStmt | literal _ | ident _ => []

/-- Put new nodes into a list of slots, as far as there are any. -/
def refill : List NodeId → List NodeId → List NodeId
  | _ :: olds, new :: news => new :: refill olds news
  | olds, _ => olds

@[simp]
theorem length_refill : ∀ (olds news : List NodeId), (refill olds news).length = olds.length
  | [], _ => by simp [refill]
  | _ :: _, [] => by simp [refill]
  | _ :: olds, _ :: news => by simp [refill, length_refill olds news]

/-- As many new nodes as slots take all the slots. -/
theorem refill_of_length_eq : ∀ {olds news : List NodeId}, news.length = olds.length →
    refill olds news = news
  | [], [], _ => rfl
  | _ :: olds, _ :: news, h => by
    simp only [List.length_cons, Nat.add_right_cancel_iff] at h
    simp [refill, refill_of_length_eq h]

/-- Put new nodes into the initializers of declarators, as far as there are any. -/
def refillInits : List Declarator → List NodeId → List Declarator
  | [], _ => []
  | var :: vars, news =>
    match var.init, news with
    | some _, new :: news => { var with init := some new } :: refillInits vars news
    | _, news => var :: refillInits vars news

/-- As many new nodes as initializers become the initializers. -/
theorem filterMap_refillInits : ∀ {vars : List Declarator} {news : List NodeId},
    news.length = (vars.filterMap Declarator.init).length →
    (refillInits vars news).filterMap Declarator.init = news
  | [], news, h => by
    cases news with
    | nil => rfl
    | cons _ _ => simp at h
  | ⟨name, none⟩ :: vars, news, h => by
    simp only [List.filterMap_cons] at h
    simp [refillInits, filterMap_refillInits h]
  | ⟨name, some old⟩ :: vars, [], h => by simp at h
  | ⟨name, some old⟩ :: vars, new :: news, h => by
    simp only [List.filterMap_cons, List.length_cons, Nat.add_right_cancel_iff] at h
    simp [refillInits, filterMap_refillInits h]

theorem refillInits_self : ∀ vars : List Declarator,
    refillInits vars (vars.filterMap Declarator.init) = vars
  | [] => rfl
  | ⟨_, none⟩ :: vars => by simp [refillInits, refillInits_self vars]
  | ⟨_, some _⟩ :: vars => by simp [refillInits, refillInits_self vars]

/-- Put new nodes into the slots, in the order of `children`.  Slots beyond the end of the list
keep what they hold. -/
def withChildren (c : Construct) (news : List NodeId) : Construct :=
  match c with
  | unit items => unit (refill items news)
  | classDecl name members => classDecl name (refill members news)
  | field type name init => field type name (init.map news.headD)
  | function returnType name params body => function returnType name params (news.headD body)
  | block stmts => block (refill stmts news)
  | exprStmt expr => exprStmt (news.headD expr)
  | localDecl type vars => localDecl type (refillInits vars news)
  | returnStmt value => returnStmt (value.map news.headD)
  | yieldStmt value => yieldStmt (news.headD value)
  | ifStmt condition thenBranch elseBranch =>
    ifStmt (news.headD condition) (news.tail.headD thenBranch)
      (elseBranch.map news.tail.tail.headD)
  | whileStmt condition body => whileStmt (news.headD condition) (news.tail.headD body)
  | doStmt body condition => doStmt (news.headD body) (news.tail.headD condition)
  | member object name => member (news.headD object) name
  | call callee args => call (news.headD callee) (refill args news.tail)
  | newObject type args => newObject type (refill args news)
  | cast type expr => cast type (news.headD expr)
  | assign op target value => assign op (news.headD target) (news.tail.headD value)
  | binary op lhs rhs => binary op (news.headD lhs) (news.tail.headD rhs)
  | unary op operand => unary op (news.headD operand)
  | paren inner => paren (news.headD inner)
  | property .. | breakStmt | continueStmt | emptyStmt | literal _ | ident _ => c

/-- **As many new nodes as slots become the children.** -/
theorem children_withChildren {c : Construct} {news : List NodeId}
    (h : news.length = c.children.length) : (c.withChildren news).children = news := by
  cases c with
  | unit _ | classDecl _ _ | block _ | newObject _ _ => exact refill_of_length_eq h
  | localDecl _ _ => exact filterMap_refillInits h
  | call _ _ =>
    match news, h with
    | new :: news, h => exact congrArg (new :: ·) (refill_of_length_eq (Nat.succ.inj h))
  | field _ _ init | returnStmt init =>
    match init, news, h with
    | none, [], _ => rfl
    | some _, [_], _ => rfl
  | ifStmt _ _ elseBranch =>
    match elseBranch, news, h with
    | none, [_, _], _ => rfl
    | some _, [_, _, _], _ => rfl
  | whileStmt _ _ | doStmt _ _ | assign _ _ _ | binary _ _ _ =>
    match news, h with
    | [_, _], _ => rfl
  | function _ _ _ _ | exprStmt _ | yieldStmt _ | member _ _ | cast _ _ | unary _ _ | paren _ =>
    match news, h with
    | [_], _ => rfl
  | property _ _ _ | breakStmt | continueStmt | emptyStmt | literal _ | ident _ =>
    match news, h with
    | [], _ => rfl

/-- **Putting the children back changes nothing.** -/
theorem withChildren_children (c : Construct) : c.withChildren c.children = c := by
  cases c with
  | field _ _ init | returnStmt init => cases init <;> rfl
  | ifStmt _ _ elseBranch => cases elseBranch <;> rfl
  | _ => simp [withChildren, children, refill_of_length_eq, refillInits_self]

/-- The statement list of a block or of a program. -/
def statements? : Construct → Option (List NodeId)
  | block stmts => some stmts
  | unit items => some items
  | _ => none

/-- A block or a program with another statement list. -/
def withStatements (c : Construct) (stmts : List NodeId) : Construct :=
  match c with
  | block _ => block stmts
  | unit _ => unit stmts
  | c => c

/-! ## 4. Classes of constructs -/

def isStatement : Construct → Bool
  | block _ | exprStmt _ | localDecl .. | returnStmt _ | yieldStmt _ | ifStmt .. | whileStmt ..
  | doStmt .. | breakStmt | continueStmt | emptyStmt => true
  | _ => false

def isExpression : Construct → Bool
  | literal _ | ident _ | member .. | call .. | newObject .. | cast .. | assign .. | binary ..
  | unary .. | paren _ => true
  | _ => false

/-- Whether statements can be spliced in: a block or a whole program. -/
def isBlock (c : Construct) : Bool := c.statements?.isSome

def isFunction : Construct → Bool
  | function .. => true
  | _ => false

def isClass : Construct → Bool
  | classDecl .. => true
  | _ => false

/-- The construct as messages call it. -/
def name : Construct → String
  | unit _ => "compilation unit"
  | classDecl .. => "class"
  | field .. => "field"
  | property .. => "property"
  | function .. => "function"
  | block _ => "block"
  | exprStmt _ => "expression statement"
  | localDecl .. => "local declaration"
  | returnStmt _ => "return"
  | yieldStmt _ => "yield return"
  | ifStmt .. => "if"
  | whileStmt .. => "while"
  | doStmt .. => "do-while"
  | breakStmt => "break"
  | continueStmt => "continue"
  | emptyStmt => "empty statement"
  | literal _ => "literal"
  | ident _ => "identifier"
  | member .. => "member access"
  | call .. => "call"
  | newObject .. => "object creation"
  | cast .. => "cast"
  | assign .. => "assignment"
  | binary .. => "binary expression"
  | unary .. => "unary expression"
  | paren _ => "parenthesized expression"

/-- Whether two constructs are the same, literals being compared by value. -/
def same : Construct → Construct → Bool
  | literal a, literal b => a.same b
  | a, b => a = b

end Construct

end Recast
