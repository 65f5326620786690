import ExprMachine.Bytecode.Package

/-!
# Checking a package before it runs

There are no jumps, so one walk along the code sees every instruction as often as the machine does:
once. The walk keeps the height of the stack instead of the stack. It refuses code that cannot be
read to its end, a constant that does not exist, and a height below zero or above the capacity.
What depends on the values themselves it leaves to the machine.
-/

namespace ExprMachine

/-- Why a package is refused. All but the capacity and the pool's size is about the instruction at
offset `ip`. -/
inductive CheckError where
  | unknownOpcode (byte : UInt8) (ip : Nat)
  | truncatedOperands (op : Opcode) (ip : Nat)
  | constantOutOfRange (index ip poolSize : Nat)
  | underflow (op : Opcode) (ip : Nat)
  | overflow (op : Opcode) (ip capacity : Nat)
deriving DecidableEq, Repr

/-- What is said about a refused package. -/
def CheckError.message : CheckError → String
  | unknownOpcode byte ip => Opcode.unknownText byte ++ " at ip=" ++ toString ip
  | truncatedOperands op ip => "truncated operands for " ++ op.name ++ " at ip=" ++ toString ip
  | constantOutOfRange index ip poolSize =>
    "constant index " ++ toString index ++ " out of range at ip=" ++ toString ip
      ++ " (pool has " ++ toString poolSize ++ " entries)"
  | underflow op ip =>
    "stack underflow at ip=" ++ toString ip ++ ", op=" ++ op.name ++ ", needed "
      ++ toString op.stackEffect.1 ++ " items"
  | overflow op ip capacity =>
    "stack overflow at ip=" ++ toString ip ++ ", op=" ++ op.name ++ ", capacity "
      ++ toString capacity

namespace Check

/-- The height behind the instruction at `ip`, when it is `height` in front of it. -/
def step (poolSize capacity ip height : Nat) (i : Instruction) : Except CheckError Nat :=
  let (pops, pushes) := i.opcode.stackEffect
  let settle : Except CheckError Nat :=
    if height < pops then .error (.underflow i.opcode ip)
    else
      let after := height - pops + pushes
      if capacity < after then .error (.overflow i.opcode ip capacity) else .ok after
  match i with
  | .constant index =>
    if poolSize ≤ index then .error (.constantOutOfRange index ip poolSize) else settle
  | .arith _ => settle

/-- The height at the end of code that starts at `ip` with a stack of `height` values. -/
def walk (poolSize capacity ip height : Nat) (code : List UInt8) : Except CheckError Nat :=
  match _ : Instruction.fetch code with
  | .ending => .ok height
  | .unknown byte _ => .error (.unknownOpcode byte ip)
  | .truncated op => .error (.truncatedOperands op ip)
  | .complete i rest =>
    match step poolSize capacity ip height i with
    | .error e => .error e
    | .ok after => walk poolSize capacity (ip + i.size) after rest
termination_by code.length
decreasing_by exact Instruction.length_rest_lt ‹_›

end Check

/-- The height of the stack that a package ends with on a stack of the given capacity, or why it is
refused. -/
def Package.check (package : Package) (capacity : Nat) : Except CheckError Nat :=
  Check.walk package.constants.size capacity 0 0 package.code.toList

end ExprMachine
