import ExprMachine.Bytecode.Opcode
import ExprMachine.Value.Basic

/-!
# How a run can fail

A run ends at the first fault. A fault names what it takes to find the reason: the instruction's
offset where the code itself is at fault, the operands or their types where the values are.
-/

namespace ExprMachine

/-- Why a run ended early. -/
inductive Fault where
  | stackOverflow (capacity : Nat)
  | stackUnderflow
  /-- The operands have different types. -/
  | typeMismatch (left : String) (op : ArithOp) (right : String)
  /-- The operands have one type, but not a number's. -/
  | unsupportedOperands (left : String) (op : ArithOp) (right : String)
  | unknownOpcode (byte : UInt8) (ip : Nat)
  | truncatedOperand (op : Opcode) (ip : Nat)
  | constantOutOfRange (index poolSize : Nat)
  | arithmetic (error : ArithError)
  /-- The run has used up its steps. -/
  | stepLimit (limit : Nat)
deriving DecidableEq, Repr

/-- What is said about a failed operation. -/
def ArithError.message : ArithError → String
  | divisionByZero => "division by zero"
  | overflow left op right =>
    "integer overflow: " ++ toString left.toInt ++ " " ++ op.symbol ++ " " ++ toString right.toInt

/-- What is said about a fault. -/
def Fault.message : Fault → String
  | stackOverflow capacity => "stack overflow (capacity " ++ toString capacity ++ ")"
  | stackUnderflow => "stack underflow"
  | typeMismatch left op right => "type mismatch: " ++ left ++ " " ++ op.symbol ++ " " ++ right
  | unsupportedOperands left op right =>
    "unsupported operand types for " ++ op.symbol ++ ": " ++ left ++ " and " ++ right
  | unknownOpcode byte ip => Opcode.unknownText byte ++ " at ip=" ++ toString ip
  | truncatedOperand op ip => "truncated operand for " ++ op.name ++ " at ip=" ++ toString ip
  | constantOutOfRange index poolSize =>
    "constant index " ++ toString index ++ " out of range (pool has " ++ toString poolSize
      ++ " entries)"
  | arithmetic error => error.message
  | stepLimit limit => "execution step limit exceeded (" ++ toString limit ++ ")"

end ExprMachine
