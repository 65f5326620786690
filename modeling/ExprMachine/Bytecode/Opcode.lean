import ExprMachine.Arithmetic
import ExprMachine.Bytecode.Operand

/-!
# Opcodes

An instruction begins with one byte that says what it does. One opcode pushes a constant and has an
operand of two bytes, the constant's number; the others compute a number from the two on top of the
stack and have none.
-/

namespace ExprMachine

/-- What an instruction does. -/
inductive Opcode where
  /-- Pushes the constant that the operand numbers. -/
  | constant
  /-- Pops the right and then the left operand and pushes the result. -/
  | arith (op : ArithOp)
deriving DecidableEq, Repr

namespace Opcode

/-- Every opcode, in the order of their bytes. -/
def all : List Opcode := constant :: ArithOp.all.map arith

/-- The byte of an opcode. -/
def byte : Opcode → UInt8
  | constant => 0
  | arith .add => 1
  | arith .sub => 2
  | arith .mul => 3
  | arith .div => 4

/-- The opcode of a byte. -/
def ofByte? (b : UInt8) : Option Opcode := all.find? fun op => op.byte == b

/-- The name of an opcode in listings and reports. -/
def name : Opcode → String
  | constant => "OpConstant"
  | arith .add => "OpAdd"
  | arith .sub => "OpSub"
  | arith .mul => "OpMul"
  | arith .div => "OpDiv"

/-- The widths in bytes of the operands. -/
def operandWidths : Opcode → List Nat
  | constant => [2]
  | arith _ => []

/-- The number of bytes of the operands. -/
def operandLength (op : Opcode) : Nat := Operand.length op.operandWidths

/-- How many values the instruction takes from the stack and how many it leaves there. -/
def stackEffect : Opcode → Nat × Nat
  | constant => (0, 1)
  | arith _ => (2, 1)

/-- What is said of a byte that is no opcode's. -/
def unknownText (b : UInt8) : String := "unknown opcode " ++ toString b.toNat

theorem mem_all (op : Opcode) : op ∈ all := by
  rcases op with _ | _ | _ <;> decide

theorem name_injective {op op' : Opcode} (h : op.name = op'.name) : op = op' := by
  have htable : ∀ op ∈ all, ∀ op' ∈ all, op.name = op'.name → op = op' := by decide
  exact htable op op.mem_all op' op'.mem_all h

theorem ofByte?_byte (op : Opcode) : ofByte? op.byte = some op := by
  rcases op with _ | _ | _ <;> decide

theorem byte_of_ofByte? {b : UInt8} {op : Opcode} (h : ofByte? b = some op) : op.byte = b := by
  simpa using List.find?_some h

end Opcode

end ExprMachine
