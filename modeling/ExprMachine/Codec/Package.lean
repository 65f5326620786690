import ExprMachine.Bytecode.Package
import ExprMachine.Codec.Value

/-!
# Package files

A package is written as the length of its code, the code, the number of its constants, and the
constants. Whatever follows the package in a file is ignored.
-/

namespace ExprMachine

open Codec

/-- A package as bytes. It has no written form if a function is among its constants. -/
def Package.toBytes (package : Package) : Except EncodeError (List UInt8) := do
  let constants ← package.constants.toList.mapM encodeValue
  return encodeVarint package.code.size ++ package.code.toList
    ++ encodeVarint package.constants.size ++ constants.flatten

/-- Reads the package that some bytes begin with. -/
def Package.ofBytes (bytes : List UInt8) : Except DecodeError Package := do
  let ⟨codeLength, rest, _⟩ ← VarintSize.word64.decode bytes
  let ⟨code, rest, _⟩ ← readBytes codeLength rest
  let ⟨count, rest, _⟩ ← VarintSize.word64.decode rest
  let ⟨constants, _, _⟩ ← decodeItems (rest.length + 1) count rest (length_lt_succ rest) []
  return ⟨code.toArray, constants.toArray⟩

end ExprMachine
