/-
# Parsing statements

A statement is told by its first token: a brace opens a block, a keyword a control or jump
statement, and a lone semicolon is the empty statement.  Anything else is a local declaration if a
type, a name and one of `=`, `,`, `;` stand there, and an expression statement otherwise.

An `else` belongs to the nearest `if`.  In a block, a statement that fails is recorded and skipped.
-/
import Recast.Parser.Expr

namespace Recast.Parse

/-! ## 1. Simple statements -/

/-- Read `expr;`. -/
def exprStmt : Parse NodeId := do
  let start := (← peek).span
  let e ← expr 0
  let _ ← expect .semicolon
  alloc (.exprStmt e) (← spanFrom start)

/-- Read `= expr` if it is there. -/
def initializer : Parse (Option NodeId) := do
  if ← eat .equal then
    let e ← expr 0
    pure (some e)
  else pure none

/-- Read a name with an optional initializer. -/
def declarator : Parse Declarator := do
  let name ← ident
  let init ← initializer
  pure ⟨name, init⟩

/-- Read `type a = x, b;`. -/
def localDecl : Parse NodeId := do
  let declared ← type
  let vars ← separated declarator
  let _ ← expect .semicolon
  alloc (.localDecl declared vars) (← spanFrom declared.span)

/-- Read `return;` or `return expr;`. -/
def returnStmt : Parse NodeId := do
  let start := (← expect .returnWord).span
  let value ←
    if ← check .semicolon then pure none
    else do
      let e ← expr 0
      pure (some e)
  let _ ← expect .semicolon
  alloc (.returnStmt value) (← spanFrom start)

/-- Read `yield return expr;`. -/
def yieldStmt : Parse NodeId := do
  let start := (← expect .yieldWord).span
  let _ ← expect .returnWord
  let value ← expr 0
  let _ ← expect .semicolon
  alloc (.yieldStmt value) (← spanFrom start)

/-- Read `break;` or `continue;`. -/
def jumpStmt (c : Construct) : Parse NodeId := do
  let token ← advance
  let _ ← expect .semicolon
  alloc c (← spanFrom token.span)

/-- Read `;`. -/
def emptyStmt : Parse NodeId := do
  let token ← advance
  alloc .emptyStmt token.span

/-! ## 2. Statements with statements in them -/

/-- Read `{ stmts }`, given how to read a statement. -/
def blockWith (stmt : Parse NodeId) : Parse NodeId := do
  let start := (← expect .leftBrace).span
  let stmts ← itemsUntilBrace stmt
  let _ ← expect .rightBrace
  alloc (.block stmts) (← spanFrom start)

/-- Read `(expr)`. -/
def condition : Parse NodeId := do
  let _ ← expect .leftParen
  let e ← expr 0
  let _ ← expect .rightParen
  pure e

/-- Read `if (condition) stmt else stmt`. -/
def ifWith (stmt : Parse NodeId) : Parse NodeId := do
  let start := (← expect .ifWord).span
  let test ← condition
  let thenBranch ← stmt
  let elseBranch ←
    if ← eat .elseWord then
      let s ← stmt
      pure (some s)
    else pure none
  alloc (.ifStmt test thenBranch elseBranch) (← spanFrom start)

/-- Read `while (condition) stmt`. -/
def whileWith (stmt : Parse NodeId) : Parse NodeId := do
  let start := (← expect .whileWord).span
  let test ← condition
  let body ← stmt
  alloc (.whileStmt test body) (← spanFrom start)

/-- Read `do stmt while (condition);`. -/
def doWith (stmt : Parse NodeId) : Parse NodeId := do
  let start := (← expect .doWord).span
  let body ← stmt
  let _ ← expect .whileWord
  let test ← condition
  let _ ← expect .semicolon
  alloc (.doStmt body test) (← spanFrom start)

/-- Read a statement, given how to read the statements in it. -/
def statementWith (stmt : Parse NodeId) : Parse NodeId := do
  match (← peek).kind with
  | .leftBrace => blockWith stmt
  | .ifWord => ifWith stmt
  | .whileWord => whileWith stmt
  | .doWord => doWith stmt
  | .returnWord => returnStmt
  | .yieldWord => yieldStmt
  | .breakWord => jumpStmt .breakStmt
  | .continueWord => jumpStmt .continueStmt
  | .semicolon => emptyStmt
  | _ => if ← isVarDecl then localDecl else exprStmt

/-- Read a statement whose statements are nested at most so deep. -/
def statementTo : Nat → Parse NodeId
  | 0 => exhausted
  | depth + 1 => statementWith (statementTo depth)

/-- Read a statement. -/
def statement : Parse NodeId := do statementTo (← limit)

/-- Read a block. -/
def block : Parse NodeId := blockWith statement

end Recast.Parse
