import ExprMachine.Bytecode.Package
import ExprMachine.Decimal.Fixed

/-!
# Statistics of a package

How often each opcode occurs among the instructions that can be read, in number and as a share of
them all. The most frequent comes first, and opcodes that are equally frequent are in order of their
names. Nobody needs the operands for that, so the count goes from one opcode to the next by the
length of what stands between them.
-/

namespace ExprMachine

/-- Every opcode in order of their names. -/
def Opcode.byName : List Opcode := [.arith .add, .constant, .arith .div, .arith .mul, .arith .sub]

/-- Counts an opcode once more. -/
def countOne (op : Opcode) (counts : List (Opcode × Nat)) : List (Opcode × Nat) :=
  counts.map fun entry => if entry.1 = op then (op, entry.2 + 1) else entry

/-- Counts the opcodes of code from `ip` to `size`, up to a byte that is none's or the first whose
operands would go beyond the end. -/
def countFrom (size ip : Nat) (code : List UInt8) (counts : List (Opcode × Nat)) :
    List (Opcode × Nat) :=
  match code with
  | [] => counts
  | b :: rest =>
    match Opcode.ofByte? b with
    | none => counts
    | some op =>
      let next := ip + 1 + op.operandLength
      if size < next then counts
      else countFrom size next (rest.drop op.operandLength) (countOne op counts)
termination_by code.length
decreasing_by
  rw [List.length_drop, List.length_cons]
  omega

/-- How often each opcode occurs in the code, in order of their names; those that do not are left
out. -/
def opcodeCounts (code : List UInt8) : List (Opcode × Nat) :=
  let counts := countFrom code.length 0 code (Opcode.byName.map fun op => (op, 0))
  counts.filter fun entry => entry.2 ≠ 0

namespace Package

/-- The number `count` as a percentage of `total`. -/
def share (count total : Nat) : Float := Float.ofNat count / Float.ofNat total * 100

/-- The line of one opcode. -/
def frequencyLine (total : Nat) (entry : Opcode × Nat) : String :=
  "  " ++ Text.padRight 14 entry.1.name ++ " " ++ Text.padLeft 4 (toString entry.2) ++ " ("
    ++ Text.padLeft 5 (Decimal.fixed 1 (share entry.2 total)) ++ "%)\n"

/-- The statistics of a package. -/
def statistics (package : Package) : String :=
  let counts := opcodeCounts package.code.toList
  let total := (counts.map (·.2)).foldl (· + ·) 0
  "=== BYTECODE STATISTICS ===\n\nBytes:      " ++ toString package.code.size
    ++ "\nConstants:  " ++ toString package.constants.size ++ "\n\nOp frequency:\n"
    ++ String.join ((counts.mergeSort fun a b => b.2 ≤ a.2).map (frequencyLine total))

end Package

end ExprMachine
