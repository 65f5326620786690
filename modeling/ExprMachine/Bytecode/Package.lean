import ExprMachine.Bytecode.Instruction
import ExprMachine.Value.Basic

/-!
# Packages

A package is what is run: code, and the constants that the code refers to by number.
-/

namespace ExprMachine

/-- Code and its constants. -/
structure Package where
  code : Array UInt8
  constants : Array Value

namespace Package

/-- Nothing to run. -/
def empty : Package := ⟨#[], #[]⟩

/-- The most constants that two bytes can number. -/
def maxConstants : Nat := 65536

/-- The package with more code behind its own. -/
def append (package : Package) (bytes : List UInt8) : Package :=
  { package with code := package.code ++ bytes }

/-- Appends code: the offset where it begins, and the package after. -/
def push (package : Package) (bytes : List UInt8) : Nat × Package :=
  (package.code.size, package.append bytes)

end Package

end ExprMachine
