import ExprMachine.Ast.Basic
import ExprMachine.Text.Layout

/-!
# The canonical text of a tree

Every operation is in parentheses, blocks and objects have a space inside their braces, and every
list has a comma and a space between neighbours. The text reads back as the tree it was written
from. Two of its rules are there for that alone:

* a space stands in front of every closing brace, so that two of them never meet and read as `}}`;
* an expression that another statement follows is closed by a `;`, since the next statement may
  start with `(`, `[` or `-` and would be read as part of it.
-/

namespace ExprMachine

/-- What closes a statement that another one follows. -/
def Stmt.terminator : Stmt → String
  | .expression .. => ";"
  | .binding .. | .exit .. | .block .. => ""

mutual

/-- The canonical text of an expression. -/
def Expr.render : Expr → String
  | .identifier id => id.name
  | .integer _ digits _ => digits
  | .string _ value => "\"" ++ value ++ "\""
  | .bool _ value => if value then "true" else "false"
  | .array _ elements => "[" ++ Text.commaSeparated (renderExprs elements) ++ "]"
  | .object _ [] => "\x7b\x7b \x7d\x7d"
  | .object _ (pair :: pairs) =>
    "\x7b\x7b " ++ Text.commaSeparated (renderPairs (pair :: pairs)) ++ " \x7d\x7d"
  | .unary _ op right => "(" ++ op.symbol ++ right.render ++ ")"
  | .binary _ op left right =>
    "(" ++ left.render ++ " " ++ op.symbol ++ " " ++ right.render ++ ")"
  | .branch _ condition consequence none =>
    "if (" ++ condition.render ++ ") " ++ consequence.render
  | .branch _ condition consequence (some alternative) =>
    "if (" ++ condition.render ++ ") " ++ consequence.render ++ " else " ++ alternative.render
  | .loop _ condition body => "for (" ++ condition.render ++ ") " ++ body.render
  | .function _ params body =>
    "fn(" ++ Text.commaSeparated (params.map (·.name)) ++ ") " ++ body.render
  | .call _ callee arguments =>
    callee.render ++ "(" ++ Text.commaSeparated (renderExprs arguments) ++ ")"
  | .index _ left index => "(" ++ left.render ++ "[" ++ index.render ++ "])"

/-- The canonical text of a block. -/
def Block.render : Block → String
  | ⟨_, []⟩ => "\x7b \x7d"
  | ⟨_, stmt :: stmts⟩ => "\x7b " ++ " ".intercalate (renderStmts (stmt :: stmts)) ++ " \x7d"

/-- The canonical text of a statement that nothing follows. -/
def Stmt.render : Stmt → String
  | .binding _ name value => "let " ++ name.name ++ " = " ++ value.render ++ ";"
  | .exit _ none => "return;"
  | .exit _ (some value) => "return " ++ value.render ++ ";"
  | .expression _ value => value.render
  | .block body => body.render

/-- The canonical texts of expressions. -/
def renderExprs : List Expr → List String
  | [] => []
  | expr :: exprs => expr.render :: renderExprs exprs

/-- The canonical texts of an object's pairs. -/
def renderPairs : List (Expr × Expr) → List String
  | [] => []
  | (key, value) :: pairs => (key.render ++ ": " ++ value.render) :: renderPairs pairs

/-- The canonical texts of statements that follow each other. -/
def renderStmts : List Stmt → List String
  | [] => []
  | [stmt] => [stmt.render]
  | stmt :: next :: stmts => (stmt.render ++ stmt.terminator) :: renderStmts (next :: stmts)

end

/-- The canonical text of a program. -/
def Program.render (program : Program) : String := " ".intercalate (renderStmts program.statements)

end ExprMachine
