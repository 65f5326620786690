import ExprMachine.Bytecode.Check
import ExprMachine.Compiler.Basic
import ExprMachine.Machine.Run
import ExprMachine.Parser.Program

/-!
# From a text to its value

A text is read, compiled, checked and run, and the first stage that fails ends it. The value of a
program is what lies on top of the stack when it ends; a program without an expression has none.
-/

namespace ExprMachine

/-- The stage that failed, and why. -/
inductive EvalError where
  | parse (diagnostics : List Diagnostic)
  | compile (error : CompileError)
  | check (error : CheckError)
  | runtime (fault : Fault)
deriving DecidableEq, Repr

/-- What is said about a failed stage. -/
def EvalError.message : EvalError → String
  | parse diagnostics =>
    "parser errors:" ++ String.join (diagnostics.map ("\n\t" ++ ·.render))
  | compile error => "compile error: " ++ error.message
  | check error => "stack-check error: " ++ error.message
  | runtime fault => "runtime error: " ++ fault.message

/-- Reads a text, for which nothing may be reported. -/
def parseSource (source : String) : Except EvalError Program :=
  match Program.ofSource source with
  | .ok program => .ok program
  | .error diagnostics => .error (.parse diagnostics)

/-- The package of a program. -/
def compileProgram (program : Program) : Except EvalError Package :=
  match program.compile with
  | .ok package => .ok package
  | .error error => .error (.compile error)

/-- Checks and runs a package on a stack of its own. -/
def Package.eval (package : Package) (limits : Limits) : Except EvalError (Option Value) :=
  match package.check limits.stackSize with
  | .error error => .error (.check error)
  | .ok _ =>
    match package.run limits.maxSteps (.empty limits.stackSize) with
    | ⟨_, some fault⟩ => .error (.runtime fault)
    | ⟨stack, none⟩ => .ok stack.peek?

/-- Reads, compiles, checks and runs a text. -/
def evalSource (source : String) (limits : Limits) : Except EvalError (Option Value) := do
  let program ← parseSource source
  let package ← compileProgram program
  package.eval limits

end ExprMachine
