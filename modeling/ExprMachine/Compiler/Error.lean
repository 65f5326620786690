import ExprMachine.Ast.Basic
import ExprMachine.Bytecode.Package

/-!
# What cannot be compiled

Only arithmetic on numbers has instructions. Every other node is refused with its kind and a hint,
and so is a number that finds the pool of constants full.
-/

namespace ExprMachine

/-- Why compiling was given up. -/
inductive CompileError where
  /-- There are no instructions for such a node. -/
  | unhandledNode (kind : String) (hint : Option String)
  /-- The pool has as many constants as two bytes can number. -/
  | tooManyConstants
deriving DecidableEq, Repr

namespace CompileError

/-- What is said about the error. -/
def message : CompileError → String
  | unhandledNode kind hint =>
    "cannot compile '" ++ kind ++ "' node" ++ (hint.map ("\n  hint: " ++ ·)).getD ""
  | tooManyConstants =>
    "too many constants: the pool holds at most " ++ toString Package.maxConstants ++ " entries"

/-- What the hint for an expression says. -/
def expressionHint : Expr → String
  | .binary .. => "only the arithmetic operators + - * / are supported by the bytecode compiler"
  | .identifier .. => "variables are not supported by the bytecode compiler"
  | .call .. | .function .. => "functions are not supported by the bytecode compiler"
  | .branch .. | .loop .. => "control flow is not supported by the bytecode compiler"
  | .integer .. | .string .. | .bool .. | .array .. | .object .. | .unary .. | .index .. =>
    "this may be a language feature not yet supported by the bytecode compiler"

/-- The error for an expression without instructions. -/
def ofExpr (e : Expr) : CompileError := unhandledNode e.kindName (some (expressionHint e))

/-- The error for a statement without instructions. -/
def ofStmt (s : Stmt) : CompileError :=
  unhandledNode s.kindName
    (some "only expression statements are supported by the bytecode compiler")

end CompileError

end ExprMachine
