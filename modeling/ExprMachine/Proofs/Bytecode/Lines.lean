import ExprMachine.Proofs.Bytecode.Boundaries
import ExprMachine.Proofs.Text.Lines

/-!
# The lines of a listing

A listing is one text, and what it says is said line by line. Each row is a line of its own, as
nothing in a row is a newline: names are words and numbers are digits. A line that reports an error
begins with a word, the line of an instruction with the digits of its offset, so the two are told
apart by their beginning.
-/

namespace ExprMachine

/-- The line of an instruction: its offset in four digits or more, its name, and its operands. -/
def Instruction.line (offset : Nat) (i : Instruction) : String :=
  Text.zeroFill 4 offset ++ " " ++ " ".intercalate (i.opcode.name :: i.operands.map toString)

namespace ListingRow

/-- The row without the newline behind it. -/
def line : ListingRow → String
  | instruction offset i => i.line offset
  | unknown byte => "ERROR: " ++ Opcode.unknownText byte
  | truncated op => "ERROR: truncated operands for " ++ op.name

theorem line_unknown (byte : UInt8) :
    (unknown byte).line = "ERROR: " ++ Opcode.unknownText byte := rfl

theorem line_truncated (op : Opcode) :
    (truncated op).line = "ERROR: truncated operands for " ++ op.name := rfl

theorem render_eq (row : ListingRow) : row.render = row.line ++ "\n" := by
  cases row <;> rfl

/-- What the lines of errors begin with. -/
def errorWord : List Char := "ERROR: ".toList

end ListingRow

/-- The line reports an error. -/
def IsErrorLine (l : String) : Prop := ListingRow.errorWord <+: l.toList

instance (l : String) : Decidable (IsErrorLine l) :=
  inferInstanceAs (Decidable (ListingRow.errorWord <+: l.toList))

theorem newline_not_mem_name (op : Opcode) : '\n' ∉ op.name.toList := by
  rcases op with _ | _ | _ <;> decide

theorem newline_not_mem_toString (n : Nat) : '\n' ∉ (toString n).toList := by
  intro h
  exact absurd (Text.isDigit_of_mem_toString h) (by decide)

/-- An instruction takes one line. -/
theorem newline_not_mem_line (offset : Nat) (i : Instruction) :
    '\n' ∉ (i.line offset).toList := by
  have hoffset : '\n' ∉ (Text.zeroFill 4 offset).toList := by
    intro h
    exact absurd (Text.isDigit_of_mem_zeroFill h) (by decide)
  have hname := newline_not_mem_name i.opcode
  rw [Instruction.line, String.toList_append, String.toList_append, String.toList_intercalate]
  cases i with
  | constant index =>
      have hindex := newline_not_mem_toString index
      simpa [Instruction.operands, hoffset, hname] using hindex
  | arith op => simp [Instruction.operands, hoffset, hname]

/-- A row takes one line. -/
theorem ListingRow.newline_not_mem (row : ListingRow) : '\n' ∉ row.line.toList := by
  cases row with
  | instruction offset i => exact newline_not_mem_line offset i
  | unknown byte =>
      have hbyte := newline_not_mem_toString byte.toNat
      rw [line_unknown, String.toList_append, Opcode.unknownText, String.toList_append]
      simpa using hbyte
  | truncated op =>
      have hname := newline_not_mem_name op
      rw [line_truncated, String.toList_append]
      simpa using hname

/-- The line of an instruction begins with a digit. -/
theorem not_isErrorLine_line (offset : Nat) (i : Instruction) : ¬ IsErrorLine (i.line offset) := by
  intro herror
  rcases hdigits : (Text.zeroFill 4 offset).toList with _ | ⟨c, cs⟩
  · exact Text.zeroFill_ne_nil 4 offset hdigits
  · have hmem : c ∈ (Text.zeroFill 4 offset).toList := by
      rw [hdigits]
      exact List.mem_cons_self
    have hc : c.isDigit = true := Text.isDigit_of_mem_zeroFill hmem
    rw [IsErrorLine, Instruction.line, String.toList_append, String.toList_append, hdigits] at herror
    obtain ⟨rfl, -⟩ := List.cons_prefix_cons.mp herror
    exact absurd hc (by decide)

theorem ListingRow.isErrorLine_iff (row : ListingRow) : IsErrorLine row.line ↔ row.IsError := by
  cases row with
  | instruction offset i => exact iff_of_false (not_isErrorLine_line offset i) id
  | unknown byte =>
      refine iff_of_true ?_ trivial
      rw [IsErrorLine, line_unknown, String.toList_append]
      exact List.prefix_append _ _
  | truncated op =>
      refine iff_of_true ?_ trivial
      rw [IsErrorLine, line_truncated, String.toList_append]
      exact List.prefix_append_of_prefix (by decide)

/-- The lines of a listing are its rows. -/
theorem lines_disassemble (code : List UInt8) :
    Text.lines (disassemble code) = (ListingRow.ofCode code).map ListingRow.line := by
  have hrender : (ListingRow.ofCode code).map ListingRow.render =
      ((ListingRow.ofCode code).map ListingRow.line).map (· ++ "\n") := by
    rw [List.map_map]
    exact List.map_congr_left fun row _ => row.render_eq
  rw [disassemble, hrender]
  refine Text.lines_join fun l hl => ?_
  obtain ⟨row, -, rfl⟩ := List.mem_map.mp hl
  exact row.newline_not_mem

end ExprMachine
