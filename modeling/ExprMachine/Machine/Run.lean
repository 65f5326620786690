import ExprMachine.Bytecode.Package
import ExprMachine.Machine.Fault
import ExprMachine.Machine.Stack

/-!
# Running a package

A run starts with no live values at the beginning of the code and goes on until the code ends or an
instruction fails. Each instruction counts as a step, the one that fails too, and a run that would
take more steps than it may fails in front of the instruction, before the instruction is looked at.
A failed run leaves the stack as the failing instruction left it: what it had popped is gone.
-/

namespace ExprMachine

/-- What a run may use. -/
structure Limits where
  /-- The capacity of the stack. -/
  stackSize : Nat := 2048
  /-- The most instructions a run may take, if there is a limit. -/
  maxSteps : Option Nat := none

/-- How a run ended: the stack it left, and the fault if it failed. -/
structure RunEnd where
  stack : OperandStack
  fault : Option Fault

namespace Machine

/-- The result of an operation on two values. Numbers only have one. -/
def compute (op : ArithOp) (left right : Value) : Except Fault Value :=
  match left, right with
  | .int a, .int b =>
    match op.apply a b with
    | .ok n => .ok (.int n)
    | .error e => .error (.arithmetic e)
  | _, _ =>
    if left.typeName = right.typeName then
      .error (.unsupportedOperands left.typeName op right.typeName)
    else .error (.typeMismatch left.typeName op right.typeName)

/-- Pushes a value, if there is room. -/
def push (stack : OperandStack) (value : Value) : RunEnd :=
  if room : stack.top < stack.capacity then ⟨stack.push value room, none⟩
  else ⟨stack, some (.stackOverflow stack.capacity)⟩

/-- Pops the right and then the left operand and pushes the result. -/
def arithmetic (op : ArithOp) (stack : OperandStack) : RunEnd :=
  match stack.pop? with
  | none => ⟨stack, some .stackUnderflow⟩
  | some (right, stack) =>
    match stack.pop? with
    | none => ⟨stack, some .stackUnderflow⟩
    | some (left, stack) =>
      match compute op left right with
      | .error fault => ⟨stack, some fault⟩
      | .ok value => push stack value

/-- What one instruction does. -/
def perform (constants : Array Value) (i : Instruction) (stack : OperandStack) : RunEnd :=
  match i with
  | .arith op => arithmetic op stack
  | .constant index =>
    if h : index < constants.size then push stack constants[index]
    else ⟨stack, some (.constantOutOfRange index constants.size)⟩

/-- The fault of a run that has taken `steps` instructions and is about to take another. -/
def spent (limit : Option Nat) (steps : Nat) : Option Fault :=
  match limit with
  | some limit => if limit ≤ steps then some (.stepLimit limit) else none
  | none => none

/-- Runs code that starts at `ip`, after `steps` instructions. -/
def exec (constants : Array Value) (limit : Option Nat) (steps ip : Nat) (code : List UInt8)
    (stack : OperandStack) : RunEnd :=
  match _ : Instruction.fetch code with
  | .ending => ⟨stack, none⟩
  | .unknown byte _ => ⟨stack, some ((spent limit steps).getD (.unknownOpcode byte ip))⟩
  | .truncated op => ⟨stack, some ((spent limit steps).getD (.truncatedOperand op ip))⟩
  | .complete i rest =>
    match spent limit steps with
    | some fault => ⟨stack, some fault⟩
    | none =>
      match perform constants i stack with
      | ⟨stack, some fault⟩ => ⟨stack, some fault⟩
      | ⟨stack, none⟩ => exec constants limit (steps + 1) (ip + i.size) rest stack
termination_by code.length
decreasing_by exact Instruction.length_rest_lt ‹_›

end Machine

/-- Runs a package on a stack, whatever an earlier run has left there. -/
def Package.run (package : Package) (maxSteps : Option Nat) (stack : OperandStack) : RunEnd :=
  Machine.exec package.constants maxSteps 0 0 package.code.toList stack.clear

end ExprMachine
