/-
# Parsing expressions

Expressions are read by binding powers: `Parse.expr m` reads an operand and then every operator
whose left binding power is at least `m`, each with its right operand.

* members and calls bind most tightly, then the operators before an operand, then the binary
  operators by their precedence, then assignment;
* a binary operator is left associative: its right power is one more than its left power.  An
  assignment is right associative, and its target has to be a name or a member.
-/
import Recast.Parser.Literal
import Recast.Parser.Type

namespace Recast

/-! ## 1. Binding powers -/

namespace BindingPower

/-- The power of member access and calls. -/
def postfixPower : Nat := 17

/-- The power with which an operator before an operand takes it. -/
def unaryPower : Nat := 15

/-- The left power of an assignment. -/
def assignLeft : Nat := 2

/-- The right power of an assignment. -/
def assignRight : Nat := 1

/-- The left power of a binary operator. -/
def left (op : BinaryOp) : Nat := 2 * op.precedence + 1

/-- The right power of a binary operator. -/
def right (op : BinaryOp) : Nat := 2 * op.precedence + 2

end BindingPower

namespace TokenKind

/-- The binary operator that a token stands for. -/
def binaryOp? : TokenKind → Option BinaryOp
  | pipePipe => some .or
  | ampAmp => some .and
  | equalEqual => some .eq
  | bangEqual => some .ne
  | less => some .lt
  | lessEqual => some .le
  | greater => some .gt
  | greaterEqual => some .ge
  | plus => some .add
  | minus => some .sub
  | star => some .mul
  | slash => some .div
  | percent => some .rem
  | _ => none

/-- The assignment operator that a token stands for. -/
def assignOp? : TokenKind → Option AssignOp
  | equal => some .set
  | plusEqual => some .add
  | minusEqual => some .sub
  | starEqual => some .mul
  | slashEqual => some .div
  | _ => none

end TokenKind

/-- Whether a construct can be assigned to. -/
def Construct.isAssignable : Construct → Bool
  | ident _ | member .. => true
  | _ => false

namespace Parse

/-! ## 2. Operands -/

/-- Read a list of arguments between parentheses. -/
def argumentsWith (expr : Nat → Parse NodeId) : Parse (List NodeId) := do
  let _ ← expect .leftParen
  let args ← if ← check .rightParen then pure [] else separated (expr 0)
  let _ ← expect .rightParen
  pure args

/-- Read `cast<type>(expr)`. -/
def castWith (expr : Nat → Parse NodeId) : Parse NodeId := do
  let start := (← expect .castWord).span
  let _ ← expect .less
  let target ← type
  let _ ← expect .greater
  let _ ← expect .leftParen
  let inner ← expr 0
  let _ ← expect .rightParen
  alloc (.cast target inner) (← spanFrom start)

/-- Read what an expression starts with: a literal, a name, an operator before an operand, a
parenthesis, `new` or `cast`. -/
def operandWith (expr : Nat → Parse NodeId) : Parse NodeId := do
  let token ← peek
  match token.kind with
  | .intLiteral | .longLiteral | .floatLiteral | .doubleLiteral | .stringLiteral =>
    let _ ← advance
    match Literal.ofToken token with
    | .ok value => alloc (.literal value) token.span
    | .error e => throw e
  | .trueWord =>
    let _ ← advance
    alloc (.literal (.bool true)) token.span
  | .falseWord =>
    let _ ← advance
    alloc (.literal (.bool false)) token.span
  | .nullWord =>
    let _ ← advance
    alloc (.literal .null) token.span
  | .minus =>
    let _ ← advance
    let operand ← expr BindingPower.unaryPower
    alloc (.unary .neg operand) (token.span.merge (← spanOf operand))
  | .bang =>
    let _ ← advance
    let operand ← expr BindingPower.unaryPower
    alloc (.unary .not operand) (token.span.merge (← spanOf operand))
  | .leftParen =>
    let _ ← advance
    let inner ← expr 0
    let _ ← expect .rightParen
    alloc (.paren inner) (← spanFrom token.span)
  | .newWord =>
    let _ ← advance
    let target ← type
    let args ← argumentsWith expr
    alloc (.newObject target args) (← spanFrom token.span)
  | .castWord => castWith expr
  | .identifier =>
    let _ ← advance
    alloc (.ident ⟨token.lexeme, token.span⟩) token.span
  | .eof => throw ⟨.unexpectedEof, token.span, "expected expression, found end of file"⟩
  | kind => throw (.ofExpectedExpression token.span kind.description)

/-! ## 3. Operators -/

/-- Read `.name` after an object. -/
def memberAfter (object : NodeId) : Parse NodeId := do
  let _ ← advance
  let name ← ident
  alloc (.member object name) ((← spanOf object).merge name.span)

/-- Read the arguments of a call after the callee. -/
def callAfter (expr : Nat → Parse NodeId) (callee : NodeId) : Parse NodeId := do
  let args ← argumentsWith expr
  alloc (.call callee args) (← spanFrom (← spanOf callee))

/-- Read an assignment operator and the value after the target. -/
def assignAfter (expr : Nat → Parse NodeId) (op : AssignOp) (target : NodeId) : Parse NodeId := do
  let token ← advance
  match (← get).tree.construct? target with
  | some c =>
    if !c.isAssignable then
      throw ⟨.invalidAssignmentTarget, token.span, "cannot assign to " ++ c.name⟩
  | none => pure ()
  let value ← expr BindingPower.assignRight
  alloc (.assign op target value) ((← spanOf target).merge (← spanOf value))

/-- Read a binary operator and its right operand after the left one. -/
def binaryAfter (expr : Nat → Parse NodeId) (op : BinaryOp) (lhs : NodeId) : Parse NodeId := do
  let _ ← advance
  let rhs ← expr (BindingPower.right op)
  alloc (.binary op lhs rhs) ((← spanOf lhs).merge (← spanOf rhs))

/-- The activity that reads one more operator after an operand, if the next token is one and binds
at least as tightly as `power`. -/
def operatorAfter? (expr : Nat → Parse NodeId) (power : Nat) (kind : TokenKind) (lhs : NodeId) :
    Option (Parse NodeId) :=
  if kind = .dot then
    if BindingPower.postfixPower < power then none else some (memberAfter lhs)
  else if kind = .leftParen then
    if BindingPower.postfixPower < power then none else some (callAfter expr lhs)
  else match kind.assignOp? with
    | some op => if BindingPower.assignLeft < power then none else some (assignAfter expr op lhs)
    | none =>
      match kind.binaryOp? with
      | some op => if BindingPower.left op < power then none else some (binaryAfter expr op lhs)
      | none => none

/-- Read at most so many operators after an operand. -/
def operatorsTo (expr : Nat → Parse NodeId) (power : Nat) : Nat → NodeId → Parse NodeId
  | 0, _ => exhausted
  | turns + 1, lhs => do
    match operatorAfter? expr power (← peek).kind lhs with
    | none => pure lhs
    | some operator =>
      let lhs ← operator
      operatorsTo expr power turns lhs

/-- Read an expression whose parts are nested at most so deep. -/
def exprTo : Nat → Nat → Parse NodeId
  | 0, _ => exhausted
  | depth + 1, power => do
    let lhs ← operandWith (exprTo depth)
    operatorsTo (exprTo depth) power (← limit) lhs

/-- Read an expression whose operators bind at least as tightly as `power`. -/
def expr (power : Nat) : Parse NodeId := do exprTo (← limit) power

end Parse

end Recast
