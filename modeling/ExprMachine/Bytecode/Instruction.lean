import ExprMachine.Bytecode.Opcode
import ExprMachine.Bytecode.Operand

/-!
# Instructions

An instruction is an opcode with its operands. Code is a sequence of bytes without marks between
the instructions, so it can only be read from its beginning: `fetch` takes one instruction off the
front. It has three ways to fail to, and whoever walks along the code decides what to make of them.
-/

namespace ExprMachine

/-- An instruction. -/
inductive Instruction where
  | constant (index : Nat)
  | arith (op : ArithOp)
deriving DecidableEq, Repr

/-- What stands at the front of some code. -/
inductive Fetch where
  /-- The code ends here. -/
  | ending
  /-- The byte is no opcode's. -/
  | unknown (byte : UInt8) (rest : List UInt8)
  /-- The code ends within the operands. -/
  | truncated (op : Opcode)
  | complete (instruction : Instruction) (rest : List UInt8)
deriving DecidableEq, Repr

/-- An opcode and its operands as bytes. -/
def Opcode.assemble (op : Opcode) (operands : List Nat) : List UInt8 :=
  op.byte :: Operand.encodeAll op.operandWidths operands

namespace Instruction

/-- What an instruction does. -/
def opcode : Instruction → Opcode
  | constant _ => .constant
  | arith op => .arith op

/-- The operands of an instruction. -/
def operands : Instruction → List Nat
  | constant index => [index]
  | arith _ => []

/-- The number of bytes of an instruction. -/
def size (i : Instruction) : Nat := 1 + i.opcode.operandLength

/-- An instruction as bytes. -/
def encode (i : Instruction) : List UInt8 := i.opcode.assemble i.operands

/-- The instruction with an opcode and operands. A missing one is zero. -/
def ofOperands (op : Opcode) (operands : List Nat) : Instruction :=
  match op with
  | .constant => constant (operands.headD 0)
  | .arith op => arith op

/-- Takes one instruction off the front of the code. -/
def fetch : List UInt8 → Fetch
  | [] => .ending
  | b :: rest =>
    match Opcode.ofByte? b with
    | none => .unknown b rest
    | some op =>
      let (operands, read) := Operand.decodeAll op.operandWidths rest
      if read < op.operandLength then .truncated op
      else .complete (ofOperands op operands) (rest.drop read)

@[simp] theorem opcode_ofOperands (op : Opcode) (operands : List Nat) :
    (ofOperands op operands).opcode = op := by
  cases op <;> rfl

theorem fetch_unknown {b : UInt8} (h : Opcode.ofByte? b = none) (rest : List UInt8) :
    fetch (b :: rest) = .unknown b rest := by
  rw [fetch, h]

/-- An opcode begins an instruction if its operands' bytes are there, whatever they are. -/
theorem fetch_known {b : UInt8} {op : Opcode} (h : Opcode.ofByte? b = some op)
    (rest : List UInt8) :
    fetch (b :: rest) =
      if rest.length < op.operandLength then .truncated op
      else .complete (ofOperands op (Operand.decodeAll op.operandWidths rest).1)
        (rest.drop op.operandLength) := by
  have hle : (Operand.decodeAll op.operandWidths rest).2 ≤ op.operandLength :=
    Operand.decodeAll_le op.operandWidths rest
  have hlt : (Operand.decodeAll op.operandWidths rest).2 < op.operandLength ↔
      rest.length < op.operandLength := Operand.decodeAll_lt_iff
  rw [fetch, h]
  dsimp only
  by_cases hshort : rest.length < op.operandLength
  · rw [if_pos (hlt.mpr hshort), if_pos hshort]
  · have hread : (Operand.decodeAll op.operandWidths rest).2 = op.operandLength := by omega
    rw [if_neg (mt hlt.mp hshort), if_neg hshort, hread]

theorem fetch_arith {b : UInt8} {op : ArithOp} (h : Opcode.ofByte? b = some (.arith op))
    (rest : List UInt8) : fetch (b :: rest) = .complete (.arith op) rest := by
  rw [fetch_known h]
  exact if_neg (Nat.not_lt_zero _)

/-- The machine reads the constant's number itself, as the two bytes behind the opcode. -/
theorem fetch_constant {b : UInt8} (h : Opcode.ofByte? b = some .constant) (rest : List UInt8) :
    fetch (b :: rest) =
      match Operand.word? rest with
      | some index => .complete (.constant index) (rest.drop 2)
      | none => .truncated .constant := by
  rw [fetch, h]
  dsimp only [Opcode.operandWidths]
  rw [Operand.decodeAll_word]
  cases Operand.word? rest <;> rfl

/-- A complete instruction takes its bytes off the code. -/
theorem length_of_fetch_complete {code rest : List UInt8} {i : Instruction}
    (h : fetch code = .complete i rest) : code.length = i.size + rest.length := by
  cases code with
  | nil => cases h
  | cons b bytes =>
      rcases hop : Opcode.ofByte? b with _ | op
      · rw [fetch_unknown hop] at h
        cases h
      · rw [fetch_known hop] at h
        split at h
        · cases h
        · cases h
          rw [size, opcode_ofOperands, List.length_cons, List.length_drop]
          omega

theorem size_pos (i : Instruction) : 0 < i.size :=
  Nat.lt_of_lt_of_le Nat.zero_lt_one (Nat.le_add_right _ _)

theorem length_rest_lt {code rest : List UInt8} {i : Instruction}
    (h : fetch code = .complete i rest) : rest.length < code.length := by
  have hlen := length_of_fetch_complete h
  have hpos := i.size_pos
  omega

theorem length_rest_lt_of_unknown {code rest : List UInt8} {b : UInt8}
    (h : fetch code = .unknown b rest) : rest.length < code.length := by
  cases code with
  | nil => cases h
  | cons c bytes =>
      rcases hop : Opcode.ofByte? c with _ | op
      · rw [fetch_unknown hop] at h
        cases h
        exact Nat.lt_succ_self _
      · rw [fetch_known hop] at h
        split at h <;> cases h

/-- **Induction along the code**: on what stands at its front, with the hypothesis for what is left
behind an instruction or behind a byte that begins none. -/
theorem fetch_induction {motive : List UInt8 → Prop}
    (ending : ∀ code, fetch code = .ending → motive code)
    (unknown : ∀ code byte rest, fetch code = .unknown byte rest → motive rest → motive code)
    (truncated : ∀ code op, fetch code = .truncated op → motive code)
    (complete : ∀ code i rest, fetch code = .complete i rest → motive rest → motive code)
    (code : List UInt8) : motive code := by
  cases hfetch : fetch code with
  | ending => exact ending code hfetch
  | unknown byte rest =>
    have hlt := length_rest_lt_of_unknown hfetch
    exact unknown code byte rest hfetch (fetch_induction ending unknown truncated complete rest)
  | truncated op => exact truncated code op hfetch
  | complete i rest =>
    have hlt := length_rest_lt hfetch
    exact complete code i rest hfetch (fetch_induction ending unknown truncated complete rest)
termination_by code.length

/--
The instructions of the code with their offsets, up to the first byte that begins none. The code
starts at `ip`, and `seen` holds the instructions in front of it, the latest first.
-/
def decodeFrom (ip : Nat) (code : List UInt8) (seen : List (Nat × Instruction)) :
    List (Nat × Instruction) :=
  match _ : fetch code with
  | .complete i rest => decodeFrom (ip + i.size) rest ((ip, i) :: seen)
  | .ending | .unknown .. | .truncated _ => seen.reverse
termination_by code.length
decreasing_by exact length_rest_lt ‹_›

/-- The instructions of the code with their offsets, up to the first byte that begins none. -/
def decode (code : List UInt8) : List (Nat × Instruction) := decodeFrom 0 code []

end Instruction

end ExprMachine
