import ExprMachine.Compiler.Error

/-!
# From trees to packages

Compiling appends to a package, in one pass over the tree: a number becomes a new constant and the
instruction that pushes it, an operation is its left operand, its right operand, and the instruction
that computes it. Blocks are compiled statement by statement. The first node that cannot be compiled
ends the pass, and the package keeps what was appended up to there. Constants are numbered in the
order of their instructions and never shared.
-/

namespace ExprMachine

/-- Where compiling has got to. -/
structure Compiled where
  /-- The package with everything appended so far. -/
  package : Package
  /-- Why compiling was given up, if it was. -/
  error : Option CompileError

namespace Compiled

/-- Nothing was given up. -/
def done (package : Package) : Compiled := ⟨package, none⟩

/-- Compiling was given up with this package. -/
def failed (package : Package) (error : CompileError) : Compiled := ⟨package, some error⟩

end Compiled

namespace Package

/-- Appends one instruction. -/
def emit (package : Package) (i : Instruction) : Package := package.append i.encode

/-- Appends a constant and the instruction that pushes it, if the pool has room. -/
def compileConstant (package : Package) (value : Int64) : Compiled :=
  if maxConstants ≤ package.constants.size then .failed package .tooManyConstants
  else
    let index := package.constants.size
    .done ({ package with constants := package.constants.push (.int value) }.emit (.constant index))

/-- Appends the code of an expression. -/
def compileExpr (package : Package) : Expr → Compiled
  | .integer _ _ value => package.compileConstant value
  | .binary _ (.arith op) left right =>
    match package.compileExpr left with
    | ⟨package, some e⟩ => .failed package e
    | ⟨package, none⟩ =>
      match package.compileExpr right with
      | ⟨package, some e⟩ => .failed package e
      | ⟨package, none⟩ => .done (package.emit (.arith op))
  | e => .failed package (.ofExpr e)

mutual

/-- Appends the code of a statement. -/
def compileStmt (package : Package) : Stmt → Compiled
  | .expression _ value => package.compileExpr value
  | .block body => package.compileBlock body
  | stmt => .failed package (.ofStmt stmt)

/-- Appends the code of a block. -/
def compileBlock (package : Package) : Block → Compiled
  | ⟨_, stmts⟩ => package.compileStmts stmts

/-- Appends the code of statements that follow each other. -/
def compileStmts (package : Package) : List Stmt → Compiled
  | [] => .done package
  | stmt :: stmts =>
    match package.compileStmt stmt with
    | ⟨package, some e⟩ => .failed package e
    | ⟨package, none⟩ => package.compileStmts stmts

end

/-- Appends the code of a program. -/
def compile (package : Package) (program : Program) : Compiled :=
  package.compileStmts program.statements

end Package

/-- The package of a program on its own. -/
def Program.compile (program : Program) : Except CompileError Package :=
  match Package.empty.compile program with
  | ⟨_, some e⟩ => .error e
  | ⟨package, none⟩ => .ok package

end ExprMachine
