/-!
# Operands

Behind its opcode an instruction has operands of fixed widths. An operand of two bytes is a number
below 65536, high byte first; no other width holds a number, and its bytes are zero. A number that
is too large for its two bytes keeps its last two.
-/

namespace ExprMachine.Operand

/-- The number in two bytes, high byte first. -/
def word (hi lo : UInt8) : Nat := hi.toNat * 256 + lo.toNat

/-- The number in the first two bytes. -/
def word? : List UInt8 → Option Nat
  | hi :: lo :: _ => some (word hi lo)
  | _ => none

/-- An operand as bytes. -/
def encode (width n : Nat) : List UInt8 :=
  if width = 2 then [UInt8.ofNat (n / 256), UInt8.ofNat n] else List.replicate width 0

/-- The operands as bytes. Missing ones are zero and extra ones are left out. -/
def encodeAll : List Nat → List Nat → List UInt8
  | [], _ => []
  | width :: widths, operands =>
    encode width (operands.headD 0) ++ encodeAll widths operands.tail

/-- The operands that are complete, and how many bytes they take. -/
def decodeAll : List Nat → List UInt8 → List Nat × Nat
  | [], _ => ([], 0)
  | width :: widths, bytes =>
    if (bytes.take width).length < width then ([], 0)
    else
      let operand := if width = 2 then (word? bytes).getD 0 else 0
      let (operands, read) := decodeAll widths (bytes.drop width)
      (operand :: operands, width + read)

/-- An operand of two bytes is the number there, if both are. -/
theorem decodeAll_word (bytes : List UInt8) :
    decodeAll [2] bytes =
      match word? bytes with
      | some n => ([n], 2)
      | none => ([], 0) := by
  match bytes with
  | [] | [_] | _ :: _ :: _ => rfl

/-- The number of bytes of operands. -/
def length (widths : List Nat) : Nat := widths.foldl (· + ·) 0

theorem length_cons (width : Nat) (widths : List Nat) :
    length (width :: widths) = width + length widths := by
  rw [length, List.foldl_cons, Nat.add_comm, List.foldl_assoc]
  rfl

theorem decodeAll_le (widths : List Nat) (bytes : List UInt8) :
    (decodeAll widths bytes).2 ≤ length widths := by
  induction widths generalizing bytes with
  | nil => exact Nat.le_refl 0
  | cons width widths ih =>
      rw [decodeAll, length_cons]
      split
      · exact Nat.zero_le _
      · exact Nat.add_le_add_left (ih _) width

/-- Fewer bytes are taken than there should be if and only if there are not as many. -/
theorem decodeAll_lt_iff {widths : List Nat} {bytes : List UInt8} :
    (decodeAll widths bytes).2 < length widths ↔ bytes.length < length widths := by
  induction widths generalizing bytes with
  | nil => exact iff_of_false (Nat.not_lt_zero _) (Nat.not_lt_zero _)
  | cons width widths ih =>
      rw [decodeAll, length_cons, List.length_take]
      by_cases hshort : bytes.length < width
      · rw [if_pos (by omega)]
        dsimp only
        omega
      · rw [if_neg (by omega)]
        have hrest := @ih (bytes.drop width)
        rw [List.length_drop] at hrest
        dsimp only
        omega

end ExprMachine.Operand
