import ExprMachine.Bytecode.Package
import ExprMachine.Text.Layout
import ExprMachine.Value.Inspect

/-!
# Listing a package

The listing of some code has one row per instruction with its offset. A byte that is no opcode's
gets a row of its own, and the listing goes on behind it; a row that says that operands are missing
is the last one.
-/

namespace ExprMachine

/-- A row of a listing. -/
inductive ListingRow where
  | instruction (offset : Nat) (i : Instruction)
  | unknown (byte : UInt8)
  | truncated (op : Opcode)
deriving DecidableEq, Repr

namespace ListingRow

/-- The row as a line. -/
def render : ListingRow → String
  | instruction offset i =>
    Text.zeroFill 4 offset ++ " " ++ " ".intercalate (i.opcode.name :: i.operands.map toString)
      ++ "\n"
  | unknown byte => "ERROR: " ++ Opcode.unknownText byte ++ "\n"
  | truncated op => "ERROR: truncated operands for " ++ op.name ++ "\n"

/-- The rows of code that starts at `ip`; `seen` holds the rows above, the latest first. -/
def ofCodeFrom (ip : Nat) (code : List UInt8) (seen : List ListingRow) : List ListingRow :=
  match _ : Instruction.fetch code with
  | .ending => seen.reverse
  | .unknown byte rest => ofCodeFrom (ip + 1) rest (.unknown byte :: seen)
  | .truncated op => (.truncated op :: seen).reverse
  | .complete i rest => ofCodeFrom (ip + i.size) rest (.instruction ip i :: seen)
termination_by code.length
decreasing_by
  · exact Instruction.length_rest_lt_of_unknown ‹_›
  · exact Instruction.length_rest_lt ‹_›

/-- The rows of some code. -/
def ofCode (code : List UInt8) : List ListingRow := ofCodeFrom 0 code []

end ListingRow

/-- The listing of some code. -/
def disassemble (code : List UInt8) : String :=
  String.join ((ListingRow.ofCode code).map ListingRow.render)

namespace Package

/-- The line of one constant. -/
def constantLine (index : Nat) (value : Value) : String :=
  "  " ++ Text.zeroFill 4 index ++ "  " ++ Text.padRight 8 value.typeName ++ " " ++ value.inspect
    ++ "\n"

/-- The listing of a package: its code, and its constants with their types. -/
def listing (package : Package) : String :=
  "=== BYTECODE PROGRAM ===\n\n" ++ disassemble package.code.toList ++ "\n=== CONSTANTS ("
    ++ toString package.constants.size ++ ") ===\n"
    ++ String.join (package.constants.toList.mapIdx constantLine) ++ "\n"

end Package

end ExprMachine
