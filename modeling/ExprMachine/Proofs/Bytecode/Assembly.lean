import ExprMachine.Proofs.Bytecode.Lines
import ExprMachine.Proofs.Machine.Straight
import Mathlib

/-!
# Assembling code and listing it

Instructions that are put one behind the other come out of the listing again, each in a line of its
own with the offset it was put at. An operand is listed as it was written, so a missing one is zero
and one that is too large has lost what does not fit.

The other way round, a listing says what the code was. The code may hold bytes that are no opcode's,
for they are listed too, but it must not end within an instruction: that is listed without the bytes
that are there. The offsets are not needed for it. A line tells an instruction or a byte
(`ListingRow.line_injective`), and these in a row are the code (`Whole.flatMap_bytes`).
-/

namespace ExprMachine

/-- An instruction as it is written by hand: an opcode and any operands. -/
structure Mnemonic where
  opcode : Opcode
  operands : List Nat

namespace Mnemonic

/-- The bytes of a written instruction. -/
def bytes (m : Mnemonic) : List UInt8 := m.opcode.assemble m.operands

/-- The line of a written instruction at an offset: the offset in four digits or more, the name, and
for a constant the last two bytes of the first operand. -/
def line (offset : Nat) (m : Mnemonic) : String :=
  Text.zeroFill 4 offset ++ " " ++ m.opcode.name ++
    match m.opcode with
    | .constant => " " ++ toString (m.operands.headD 0 % 65536)
    | .arith _ => ""

/-- The instruction that is meant. -/
def instruction (m : Mnemonic) : Instruction :=
  match m.opcode with
  | .constant => .constant (m.operands.headD 0 % 65536)
  | .arith op => .arith op

end Mnemonic

/-- Puts written instructions behind a package's code, one by one: the offset of each, and the
package after. -/
def Package.assemble (package : Package) : List Mnemonic → List Nat × Package
  | [] => ([], package)
  | m :: ms =>
    let (offset, longer) := package.push m.bytes
    let (offsets, longest) := longer.assemble ms
    (offset :: offsets, longest)

/-- Code that is made up of whole instructions and of bytes that are no opcode's. -/
inductive Whole : List UInt8 → Prop
  | nil : Whole []
  | instruction {code : List UInt8} (i : Instruction) (hcode : Whole code) :
      Whole (i.encode ++ code)
  | unknown {byte : UInt8} {code : List UInt8} (hbyte : Opcode.ofByte? byte = none)
      (hcode : Whole code) : Whole (byte :: code)

/-- Code that ends within an instruction: not all of its operands are there. -/
def EndsTruncated (code : List UInt8) : Prop :=
  ∃ front op operands, code = front ++ Opcode.byte op :: operands ∧ Whole front ∧
    operands.length < op.operandLength

/-! ## Assembling -/

namespace Mnemonic

end Mnemonic

namespace Package

end Package

/-! ## What a line tells -/

namespace Instruction

/-- The name and the operands of an instruction as they stand in a listing. -/
def words (i : Instruction) : String :=
  " ".intercalate (i.opcode.name :: i.operands.map toString)

end Instruction

namespace ListingRow

/-- The bytes that a row stands for. Those of an instruction that is cut off are not shown. -/
def bytes : ListingRow → List UInt8
  | instruction _ i => i.encode
  | unknown byte => [byte]
  | truncated _ => []

end ListingRow

/-! ## What a listing tells -/

theorem Whole.append {front code : List UInt8} (hfront : Whole front) (hcode : Whole code) :
    Whole (front ++ code) := by
  induction hfront with
  | nil => exact hcode
  | instruction i _ ih =>
      rw [List.append_assoc]
      exact .instruction i ih
  | unknown hbyte _ ih => exact .unknown hbyte ih

theorem EndsTruncated.append {front code : List UInt8} (hfront : Whole front)
    (h : EndsTruncated code) : EndsTruncated (front ++ code) := by
  obtain ⟨more, op, operands, rfl, hmore, hlength⟩ := h
  exact ⟨front ++ more, op, operands, (List.append_assoc ..).symm, hfront.append hmore, hlength⟩

end ExprMachine
