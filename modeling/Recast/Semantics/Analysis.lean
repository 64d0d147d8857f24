/-
# Types of expressions

An `Analysis` knows the declarations and the bound names of a program and computes types from them.

* `resolveType` reads a written type and refuses names that are neither built in nor declared; only
  the library types have arguments;
* `typeOf` is the type of an expression.  A variable declared with `var` has the type of its
  initializer, which stands before every use of the variable, so the search comes to an end within
  as many steps as there are nodes;
* `expectedType?` is the type that the context of an expression asks for;
* `model` answers the questions of a fix.
-/
import Recast.Semantics.Binder
import Recast.Semantics.Declarations

namespace Recast

/-- A program with its declarations and bound names. -/
structure Analysis where
  tree : SyntaxTree
  declarations : Declarations
  bindings : List (NodeId × Binding)
  errors : List SemanticError
  deriving DecidableEq

namespace Analysis

/-- The analysis of a program. -/
def ofTree (t : SyntaxTree) : Analysis :=
  let binder := Binder.ofTree t
  ⟨t, .ofTree t, binder.bindings, binder.errors⟩

/-- The declaration that a name is bound to. -/
def binding? (a : Analysis) (id : NodeId) : Option Binding := a.bindings.lookup id

/-! ## 1. Written types -/

/-- The built-in types without arguments. -/
def builtinTypes : List String := ["void", "bool", "int", "long", "float", "double", "string"]

/-- The library types, which take arguments. -/
def libraryTypes : List String := ["IEnumerable", "IEnumerator", "List"]

/-- Whether a type of this name exists, with arguments or without. -/
def isKnown (a : Analysis) (name : String) (hasArgs : Bool) : Bool :=
  if hasArgs then libraryTypes.contains name
  else builtinTypes.contains name || a.declarations.hasClass name

mutual

/-- The first unknown type in a written type, from the outside in. -/
def unknown? (a : Analysis) : WrittenType → Option WrittenType
  | ⟨name, args, rank, span⟩ =>
    if a.isKnown name (!args.isEmpty) then unknownAmong? a args else some ⟨name, args, rank, span⟩

/-- The first unknown type in a list of written types. -/
def unknownAmong? (a : Analysis) : List WrittenType → Option WrittenType
  | [] => none
  | t :: ts => (unknown? a t).or (unknownAmong? a ts)

end

/-- The type that is written, if every name in it exists. -/
def resolveType (a : Analysis) (t : WrittenType) : Except SemanticError DataType :=
  match a.unknown? t with
  | none => .ok t.toDataType
  | some u => .error (.unknownType u.text u.span)

/-! ## 2. Members -/

/-- A member of a type that is a declared class. -/
def classMember? (a : Analysis) (type : DataType) (name : String) : Option ClassMember :=
  if type.isArray || !type.args.isEmpty then none else a.declarations.member? type.name name

/-- A member of the class around a node. -/
def enclosingMember? (a : Analysis) (id : NodeId) (name : String) : Option ClassMember :=
  match (a.tree.enclosingClass? id).bind a.tree.construct? with
  | some (.classDecl className _) => a.declarations.member? className.name name
  | _ => none

/-- Whether a type has this built-in property: the length of an array or a string, or the count of
a list. -/
def hasLengthProperty (type : DataType) (name : String) : Bool :=
  (name = "Length" && (type.isArray || type.name = "string")) ||
    (name = "Count" && !type.isArray && type.name = "List")

/-- The type of a field or property; a method has none. -/
def memberValueType (a : Analysis) (m : ClassMember) (span : Span) : Except SemanticError DataType :=
  match a.tree.construct? m.node with
  | some (.field type _ _) => a.resolveType type
  | some (.property type _ _) => a.resolveType type
  | _ => .error (.notAnExpression span)

/-- The type of a member of a value. -/
def memberType (a : Analysis) (type : DataType) (name : Ident) : Except SemanticError DataType :=
  match a.classMember? type name.name with
  | some m => a.memberValueType m name.span
  | none =>
    if hasLengthProperty type name.name then .ok .int
    else .error (.unknownMember type.text name.name name.span)

/-! ## 3. Types of expressions -/

/-- The type of a binary operator's result.  Adding to a string gives a string; any other
arithmetic has the wider of two numeric types, or else the type of its left operand. -/
def binaryType (op : BinaryOp) (lhs rhs : DataType) : DataType :=
  if op.isBoolean then .bool
  else if op = .add ∧ (lhs.name = "string" ∨ rhs.name = "string") then .string
  else (lhs.promote? rhs).getD lhs

/-- The type of a literal. -/
def literalType : Literal → DataType
  | .int _ => .int
  | .long _ => .long
  | .float _ => .float
  | .double _ => .double
  | .string _ => .string
  | .bool _ => .bool
  | .null => .null

/-- The type of a local variable or parameter, given the types of expressions. -/
def bindingTypeWith (a : Analysis) (typeOf : NodeId → Except SemanticError DataType) :
    Binding → Except SemanticError DataType
  | .declared decl index =>
    match a.tree.construct? decl with
    | some (.localDecl type vars) =>
      if !type.isVar then a.resolveType type
      else match vars[index]?.bind Declarator.init with
        | some init => typeOf init
        | none => .error (.unknownType type.name type.span)
    | _ => .error (.notAnExpression (a.tree.spanOf decl))
  | .parameter function index =>
    match a.tree.construct? function with
    | some (.function _ _ params _) =>
      match params[index]? with
      | some p => a.resolveType p.type
      | none => .error (.notAnExpression (a.tree.spanOf function))
    | _ => .error (.notAnExpression (a.tree.spanOf function))

/-- The type of a name: a local name comes before a member of the class around it, and that before
a class.  A function is not a value. -/
def identTypeWith (a : Analysis) (typeOf : NodeId → Except SemanticError DataType) (id : NodeId)
    (name : String) : Except SemanticError DataType :=
  let span := a.tree.spanOf id
  match a.binding? id with
  | some binding => a.bindingTypeWith typeOf binding
  | none =>
    match a.enclosingMember? id name with
    | some m => a.memberValueType m span
    | none =>
      if (a.declarations.function? name).isSome then .error (.notAnExpression span)
      else if a.declarations.hasClass name then .ok (.named name)
      else .error (.unresolvedName name span)

/-- The function or method that is called by a callee, given the types of expressions. -/
def calleeWith (a : Analysis) (typeOf : NodeId → Except SemanticError DataType)
    (callee : NodeId) : Except SemanticError NodeId :=
  match a.tree.construct? callee with
  | some (.ident name) =>
    match a.enclosingMember? callee name.name with
    | some ⟨.method, node⟩ => .ok node
    | _ =>
      match a.declarations.function? name.name with
      | some node => .ok node
      | none => .error (.unresolvedName name.name name.span)
  | some (.member object name) => do
    let type ← typeOf object
    match a.classMember? type name.name with
    | some ⟨.method, node⟩ => .ok node
    | _ => .error (.unknownMember type.text name.name name.span)
  | _ => .error (.notAnExpression (a.tree.spanOf callee))

/-- The type of an expression, given the types of other expressions. -/
def typeOfWith (a : Analysis) (typeOf : NodeId → Except SemanticError DataType) (id : NodeId) :
    Except SemanticError DataType :=
  let untyped := Except.error (.notAnExpression (a.tree.spanOf id))
  match a.tree.construct? id with
  | some (.literal value) => .ok (literalType value)
  | some (.ident name) => a.identTypeWith typeOf id name.name
  | some (.member object name) => do
    let type ← typeOf object
    a.memberType type name
  | some (.call callee _) => do
    let function ← a.calleeWith typeOf callee
    match a.tree.construct? function with
    | some (.function returnType _ _ _) => a.resolveType returnType
    | _ => untyped
  | some (.newObject type _) => a.resolveType type
  | some (.cast type _) => a.resolveType type
  | some (.assign _ target _) => typeOf target
  | some (.binary op lhs rhs) => do
    let lhs ← typeOf lhs
    let rhs ← typeOf rhs
    pure (binaryType op lhs rhs)
  | some (.unary .not _) => .ok .bool
  | some (.unary .neg operand) => typeOf operand
  | some (.paren inner) => typeOf inner
  | _ => untyped

/-- The type of an expression, found in at most so many steps. -/
def typeOfTo (a : Analysis) : Nat → NodeId → Except SemanticError DataType
  | 0, id => .error (.notAnExpression (a.tree.spanOf id))
  | steps + 1, id => a.typeOfWith (typeOfTo a steps) id

/-- The type of an expression. -/
def typeOf (a : Analysis) (id : NodeId) : Except SemanticError DataType :=
  a.typeOfTo a.tree.size id

/-! ## 4. Types that are expected -/

/-- The return type of the function around a statement. -/
def enclosingReturnType (a : Analysis) (stmt : NodeId) : Except SemanticError DataType :=
  match (a.tree.enclosingFunction? stmt).bind a.tree.construct? with
  | some (.function returnType _ _ _) => a.resolveType returnType
  | _ => .error (.noEnclosingFunction (a.tree.spanOf stmt))

/-- The type of the parameter that an argument is passed to, if there is such a parameter. -/
def argumentType? (a : Analysis) (callee : NodeId) (args : List NodeId) (id : NodeId) :
    Except SemanticError (Option DataType) :=
  match args.findIdx? (· = id) with
  | none => .ok none
  | some index => do
    let function ← a.calleeWith a.typeOf callee
    match a.tree.construct? function with
    | some (.function _ _ params _) =>
      match params[index]? with
      | some p => some <$> a.resolveType p.type
      | none => .ok none
    | _ => .ok none

/-- The type that the context of an expression expects, if it expects one. -/
def expectedType? (a : Analysis) (id : NodeId) : Except SemanticError (Option DataType) :=
  match a.tree.parent? id with
  | none => .ok none
  | some parent =>
    match a.tree.construct? parent with
    | some (.localDecl type _) => if type.isVar then .ok none else some <$> a.resolveType type
    | some (.field type _ _) => some <$> a.resolveType type
    | some (.returnStmt _) => some <$> a.enclosingReturnType parent
    | some (.yieldStmt _) => do
      let type ← a.enclosingReturnType parent
      match type.element? with
      | some element => pure (some element)
      | none => .error (.notASequence type.text (a.tree.spanOf parent))
    | some (.assign _ target value) =>
      if value = id then some <$> a.typeOf target else .ok none
    | some (.call callee args) => a.argumentType? callee args id
    | _ => .ok none

/-! ## 5. The model -/

/-- The type of an expression with the type that its context expects. -/
def typeInfo (a : Analysis) (id : NodeId) : Except SemanticError TypeInfo := do
  let type ← a.typeOf id
  let expected ← a.expectedType? id
  pure ⟨type, expected.getD type⟩

/-- What a name or a member stands for. -/
def symbolKind (a : Analysis) (id : NodeId) : Option SymbolKind :=
  match a.tree.construct? id with
  | some (.ident name) =>
    match a.binding? id with
    | some (.declared ..) => some .localVar
    | some (.parameter ..) => some .parameter
    | none =>
      match a.enclosingMember? id name.name with
      | some m => some m.kind
      | none =>
        if (a.declarations.function? name.name).isSome then some .function
        else if a.declarations.hasClass name.name then some .classType
        else none
  | some (.member object name) =>
    match a.typeOf object with
    | .error _ => none
    | .ok type =>
      match a.classMember? type name.name with
      | some m => some m.kind
      | none => if hasLengthProperty type name.name then some .property else none
  | _ => none

/-- The answers of the analysis to a fix. -/
def model (a : Analysis) : SemanticModel := ⟨a.typeInfo, a.symbolKind⟩

end Analysis

end Recast
