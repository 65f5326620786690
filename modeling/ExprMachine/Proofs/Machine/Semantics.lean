import ExprMachine.Proofs.Machine.Pile

/-!
# What running a package means

A run told without the machine. A configuration is an offset in the code and a list of values, and
relations say which instruction stands at an offset, what an instruction does to the list, how far a
run gets and how it ends. There are no slots here and no pointer into them, nothing is cut off the
code, and an operation has the result that it has on integers or none.

The relations follow the text of the rules, one constructor for each way to go on or to fail. The
module after this one proves that the machine decides them.
-/

namespace ExprMachine.Semantics

/-! ## Operations -/

/-- `Yields op left right value`: the operation has a result, and that is the one on integers. A
quotient is cut off toward zero. -/
inductive Yields : ArithOp → Value → Value → Value → Prop where
  | add {a b n : Int64} : n.toInt = a.toInt + b.toInt → Yields .add (.int a) (.int b) (.int n)
  | sub {a b n : Int64} : n.toInt = a.toInt - b.toInt → Yields .sub (.int a) (.int b) (.int n)
  | mul {a b n : Int64} : n.toInt = a.toInt * b.toInt → Yields .mul (.int a) (.int b) (.int n)
  | div {a b n : Int64} : b ≠ 0 → n.toInt = a.toInt.tdiv b.toInt →
      Yields .div (.int a) (.int b) (.int n)

/-- No word holds the integer. -/
def NoWord (n : Int) : Prop := ∀ w : Int64, w.toInt ≠ n

/-- `Refuses op left right fault`: the operation has no result, for this reason. -/
inductive Refuses : ArithOp → Value → Value → Fault → Prop where
  | add {a b : Int64} : NoWord (a.toInt + b.toInt) →
      Refuses .add (.int a) (.int b) (.arithmetic (.overflow a .add b))
  | sub {a b : Int64} : NoWord (a.toInt - b.toInt) →
      Refuses .sub (.int a) (.int b) (.arithmetic (.overflow a .sub b))
  | mul {a b : Int64} : NoWord (a.toInt * b.toInt) →
      Refuses .mul (.int a) (.int b) (.arithmetic (.overflow a .mul b))
  | div {a b : Int64} : b ≠ 0 → NoWord (a.toInt.tdiv b.toInt) →
      Refuses .div (.int a) (.int b) (.arithmetic (.overflow a .div b))
  | zero (a : Int64) : Refuses .div (.int a) (.int 0) (.arithmetic .divisionByZero)
  | types {op : ArithOp} {left right : Value} : left.typeName ≠ right.typeName →
      Refuses op left right (.typeMismatch left.typeName op right.typeName)
  | noNumbers {op : ArithOp} {left right : Value} : left.typeName = right.typeName →
      (∀ n, left ≠ .int n) →
      Refuses op left right (.unsupportedOperands left.typeName op right.typeName)

/-! ## Instructions -/

section Instruction

variable (capacity : Nat) (constants : Array Value)

/-- `Takes i before after`: the instruction turns the values before it, the top first, into those
after it. -/
inductive Takes : Instruction → Pile → Pile → Prop where
  | constant {index : Nat} {value : Value} {values : Pile} :
      constants[index]? = some value → values.length < capacity →
      Takes (.constant index) values (value :: values)
  | arith {op : ArithOp} {left right value : Value} {below : Pile} :
      Yields op left right value → Takes (.arith op) (right :: left :: below) (value :: below)

/-- `Fails i before after fault`: the instruction fails and leaves the values `after`, which are
those before it without the ones that it popped. -/
inductive Fails : Instruction → Pile → Pile → Fault → Prop where
  | noConstant {index : Nat} {values : Pile} :
      constants[index]? = none →
      Fails (.constant index) values values (.constantOutOfRange index constants.size)
  | noRoom {index : Nat} {value : Value} {values : Pile} :
      constants[index]? = some value → capacity ≤ values.length →
      Fails (.constant index) values values (.stackOverflow capacity)
  | noOperands {op : ArithOp} {values : Pile} :
      values.length < 2 → Fails (.arith op) values [] .stackUnderflow
  | noResult {op : ArithOp} {left right : Value} {below : Pile} {fault : Fault} :
      Refuses op left right fault → Fails (.arith op) (right :: left :: below) below fault

end Instruction

/-! ## Code -/

/-- `Stands code ip i next`: the bytes from `ip` up to `next` are the instruction `i`. A constant's
number has two bytes, the high one first. -/
inductive Stands (code : Array UInt8) (ip : Nat) : Instruction → Nat → Prop where
  | constant {hi lo : UInt8} :
      code[ip]? = some Opcode.constant.byte → code[ip + 1]? = some hi → code[ip + 2]? = some lo →
      Stands code ip (.constant (256 * hi.toNat + lo.toNat)) (ip + 3)
  | arith {op : ArithOp} : code[ip]? = some (Opcode.arith op).byte →
      Stands code ip (.arith op) (ip + 1)

/-- `Malformed code ip fault`: no instruction stands at `ip`, though the code goes on there. -/
inductive Malformed (code : Array UInt8) (ip : Nat) : Fault → Prop where
  | unknown {byte : UInt8} :
      code[ip]? = some byte → (∀ op : Opcode, op.byte ≠ byte) →
      Malformed code ip (.unknownOpcode byte ip)
  | truncated : code[ip]? = some Opcode.constant.byte → code[ip + 2]? = none →
      Malformed code ip (.truncatedOperand .constant ip)

/-! ## Runs -/

/-- Where a run is: the offset of the next instruction, and the values, the top first. -/
structure Config where
  ip : Nat
  values : Pile

/-- `Reaches package capacity n c`: a run that begins at the front of the code with no values is at
`c` after `n` instructions. -/
inductive Reaches (package : Package) (capacity : Nat) : Nat → Config → Prop where
  | start : Reaches package capacity 0 ⟨0, []⟩
  | step {n ip next : Nat} {i : Instruction} {before after : Pile} :
      Reaches package capacity n ⟨ip, before⟩ → Stands package.code ip i next →
      Takes capacity package.constants i before after →
      Reaches package capacity (n + 1) ⟨next, after⟩

/-- `Halts package limits values fault`: the run ends with these values, and with the fault if it
fails. The next instruction would be number `n + 1`, which the limit must allow. -/
inductive Halts (package : Package) (limits : Limits) : Pile → Option Fault → Prop where
  | finished {n ip : Nat} {values : Pile} :
      Reaches package limits.stackSize n ⟨ip, values⟩ → (∀ limit ∈ limits.maxSteps, n ≤ limit) →
      package.code.size ≤ ip → Halts package limits values none
  | spent {limit ip : Nat} {values : Pile} :
      Reaches package limits.stackSize limit ⟨ip, values⟩ → limits.maxSteps = some limit →
      ip < package.code.size → Halts package limits values (some (.stepLimit limit))
  | malformed {n ip : Nat} {values : Pile} {fault : Fault} :
      Reaches package limits.stackSize n ⟨ip, values⟩ → (∀ limit ∈ limits.maxSteps, n < limit) →
      Malformed package.code ip fault → Halts package limits values (some fault)
  | failed {n ip next : Nat} {i : Instruction} {before after : Pile} {fault : Fault} :
      Reaches package limits.stackSize n ⟨ip, before⟩ → (∀ limit ∈ limits.maxSteps, n < limit) →
      Stands package.code ip i next →
      Fails limits.stackSize package.constants i before after fault →
      Halts package limits after (some fault)

end ExprMachine.Semantics
