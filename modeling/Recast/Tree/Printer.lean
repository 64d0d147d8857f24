/-
# Printing a tree

The text of a tree has one statement to a line and four blanks for each level of nesting.

* an expression is written without added parentheses, with one blank around a binary operator
  (`exprText`);
* a statement or declaration fills its own lines (`lines`); a block opens on the line of the
  construct that it belongs to, and any other branch or body goes on the next line, one level
  deeper (`branchText`);
* a node in a place where its construct cannot be written is shown as a comment with its name.
-/
import Recast.Text.Blank
import Recast.Text.Join
import Recast.Tree.Basic

namespace Recast

namespace Printer

/-- Four blanks for each level. -/
def indent (depth : Nat) : String := String.ofList (List.replicate (4 * depth) ' ')

/-- A construct that cannot be written where it stands. -/
def misplaced (c : Construct) : String := "/* " ++ c.name ++ " */"

/-- The parameter list of a function, without its parentheses. -/
def paramsText (params : List Param) : String :=
  Text.join ", " (params.map fun p => p.type.text ++ " " ++ p.name.name)

/-- A declarator, given the text of expressions. -/
def declaratorText (expr : NodeId → String) (var : Declarator) : String :=
  match var.init with
  | none => var.name.name
  | some init => var.name.name ++ " = " ++ expr init

/-- The text of an expression whose parts are at most `limit` nodes deep. -/
def exprText (t : SyntaxTree) : Nat → NodeId → String
  | 0, _ => ""
  | limit + 1, id =>
    let sub := exprText t limit
    let args (ids : List NodeId) := "(" ++ Text.join ", " (ids.map sub) ++ ")"
    match t.construct? id with
    | none => ""
    | some (.literal value) => value.text
    | some (.ident name) => name.name
    | some (.member object name) => sub object ++ "." ++ name.name
    | some (.call callee ids) => sub callee ++ args ids
    | some (.newObject type ids) => "new " ++ type.text ++ args ids
    | some (.cast type expr) => "cast<" ++ type.text ++ ">(" ++ sub expr ++ ")"
    | some (.assign op target value) => sub target ++ " " ++ op.text ++ " " ++ sub value
    | some (.binary op lhs rhs) => sub lhs ++ " " ++ op.text ++ " " ++ sub rhs
    | some (.unary op operand) => op.text ++ sub operand
    | some (.paren inner) => "(" ++ sub inner ++ ")"
    | some c => misplaced c

/-- Statements between braces, given how a statement fills its lines at a level. -/
def bracedText (line : Nat → NodeId → String) (depth : Nat) (stmts : List NodeId) : String :=
  if stmts.isEmpty then "\x7b \x7d"
  else "\x7b\n" ++ Text.concat (stmts.map (line (depth + 1))) ++ indent depth ++ "\x7d"

/-- Whether a node is written between braces where a statement stands. -/
def isBraced (t : SyntaxTree) (id : NodeId) : Bool :=
  match t.construct? id with
  | some (.block _) => true
  | _ => false

/-- The branch of an `if` or the body of a loop, given the two ways to write a statement. -/
def branchText (t : SyntaxTree) (line inline : Nat → NodeId → String) (depth : Nat)
    (id : NodeId) : String :=
  if isBraced t id then " " ++ bracedText line depth (t.children id)
  else "\n" ++ indent (depth + 1) ++ inline (depth + 1) id

mutual

/-- A declaration or statement on its own lines, or an expression as it stands. -/
def lines (t : SyntaxTree) : Nat → Nat → NodeId → String
  | 0, _, _ => ""
  | limit + 1, depth, id =>
    let expr := exprText t t.size
    match t.construct? id with
    | none => ""
    | some (.unit items) => Text.concat (items.map (lines t limit depth))
    | some (.classDecl name members) =>
      indent depth ++ "class " ++ name.name ++ " \x7b\n" ++
        Text.concat (members.map (lines t limit (depth + 1))) ++ indent depth ++ "\x7d\n"
    | some (.field type name init) =>
      indent depth ++ type.text ++ " " ++ declaratorText expr ⟨name, init⟩ ++ ";\n"
    | some (.property type name hasSetter) =>
      indent depth ++ type.text ++ " " ++ name.name ++
        (if hasSetter then " \x7b get; set; \x7d\n" else " \x7b get; \x7d\n")
    | some (.function returnType name params body) =>
      indent depth ++ returnType.text ++ " " ++ name.name ++ "(" ++ paramsText params ++ ") " ++
        bracedText (lines t limit) depth (t.children body) ++ "\n"
    | some c =>
      if c.isExpression then expr id
      else indent depth ++ inline t limit depth id ++ "\n"

/-- A statement from where it starts on its line to its last character. -/
def inline (t : SyntaxTree) : Nat → Nat → NodeId → String
  | 0, _, _ => ""
  | limit + 1, depth, id =>
    let expr := exprText t t.size
    let branch := branchText t (lines t limit) (inline t limit) depth
    let otherwise (id : NodeId) : String := if isBraced t id then " " else "\n" ++ indent depth
    match t.construct? id with
    | none => ""
    | some (.block stmts) => bracedText (lines t limit) depth stmts
    | some (.exprStmt e) => expr e ++ ";"
    | some (.localDecl type vars) =>
      type.text ++ " " ++ Text.join ", " (vars.map (declaratorText expr)) ++ ";"
    | some (.returnStmt none) => "return;"
    | some (.returnStmt (some value)) => "return " ++ expr value ++ ";"
    | some (.yieldStmt value) => "yield return " ++ expr value ++ ";"
    | some (.ifStmt condition thenBranch none) =>
      "if (" ++ expr condition ++ ")" ++ branch thenBranch
    | some (.ifStmt condition thenBranch (some elseBranch)) =>
      "if (" ++ expr condition ++ ")" ++ branch thenBranch ++ otherwise thenBranch ++ "else" ++
        branch elseBranch
    | some (.whileStmt condition body) => "while (" ++ expr condition ++ ")" ++ branch body
    | some (.doStmt body condition) =>
      "do" ++ branch body ++ otherwise body ++ "while (" ++ expr condition ++ ");"
    | some .breakStmt => "break;"
    | some .continueStmt => "continue;"
    | some .emptyStmt => ";"
    | some c => misplaced c

end

end Printer

namespace SyntaxTree

/-- The limit of a walk down that meets each node at most twice. -/
def printLimit (t : SyntaxTree) : Nat := 2 * t.size

/-- The text of the whole program. -/
def print (t : SyntaxTree) : String := Printer.lines t t.printLimit 0 t.root

/-- The text of one node with everything below it, without blanks at its end. -/
def printNode (t : SyntaxTree) (id : NodeId) : String :=
  String.ofList (Text.trimEnd (Printer.lines t t.printLimit 0 id).toList)

end SyntaxTree

end Recast
