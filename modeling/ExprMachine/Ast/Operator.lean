import ExprMachine.Arithmetic
import ExprMachine.Token.Kind

/-!
# Operators of the language

The operators before an operand and between two operands, how they are written, and which tokens
spell them. Between operands stand the arithmetic operators, which the machine has instructions
for, and the comparisons, which it has none for.
-/

namespace ExprMachine

/-- The operators before an operand. -/
inductive UnaryOp where
  | not | negate
deriving DecidableEq, Repr

/-- The operators that compare two operands. -/
inductive CompareOp where
  | equal | notEqual | less | greater
deriving DecidableEq, Repr

/-- The operators between two operands. -/
inductive BinaryOp where
  | arith (op : ArithOp)
  | compare (op : CompareOp)
deriving DecidableEq, Repr

namespace UnaryOp

/-- How the operator is written. -/
def symbol : UnaryOp → String
  | not => "!"
  | negate => "-"

/-- The operator that a token spells in front of an operand. -/
def ofKind? : Token.Kind → Option UnaryOp
  | .bang => some not
  | .minus => some negate
  | _ => none

end UnaryOp

namespace CompareOp

/-- How the operator is written. -/
def symbol : CompareOp → String
  | equal => "=="
  | notEqual => "!="
  | less => "<"
  | greater => ">"

end CompareOp

namespace BinaryOp

/-- How the operator is written. -/
def symbol : BinaryOp → String
  | arith op => op.symbol
  | compare op => op.symbol

/-- The operator that a token spells between two operands. -/
def ofKind? : Token.Kind → Option BinaryOp
  | .plus => some (arith .add)
  | .minus => some (arith .sub)
  | .asterisk => some (arith .mul)
  | .slash => some (arith .div)
  | .equal => some (compare .equal)
  | .notEqual => some (compare .notEqual)
  | .less => some (compare .less)
  | .greater => some (compare .greater)
  | _ => none

end BinaryOp

end ExprMachine
