import ExprMachine.Compiler.Basic
import ExprMachine.Proofs.Machine.Straight

/-!
# What compiling appends

Compiling writes into a package that is already there. What it adds does not depend on what the
package holds, but for the number of the first new constant: the literals of the tree in order go to
the pool, and the tree in postfix order, each literal as the instruction that pushes it, goes to the
code.

A program's statements matter only through the expressions among them. `Program.expressions` takes
the blocks apart, and compiling a program that compiles is compiling those expressions in order.
-/

namespace ExprMachine

namespace Expr

/-- Literals and the arithmetic operators are all there is. -/
def IsArithmetic : Expr → Prop
  | .integer .. => True
  | .binary _ (.arith _) left right => left.IsArithmetic ∧ right.IsArithmetic
  | _ => False

/-- The literals from left to right. -/
def literals : Expr → List Int64
  | .integer _ _ value => [value]
  | .binary _ _ left right => left.literals ++ right.literals
  | _ => []

/-- The operands and then the operator, where the literals are the constants from number `base`
on. -/
def postfixFrom (base : Nat) : Expr → List Instruction
  | .integer .. => [.constant base]
  | .binary _ (.arith op) left right =>
    left.postfixFrom base ++ right.postfixFrom (base + left.literals.length) ++ [.arith op]
  | _ => []

/-- The postfix forms of expressions that follow each other. -/
def postfixAll (base : Nat) : List Expr → List Instruction
  | [] => []
  | e :: es => e.postfixFrom base ++ postfixAll (base + e.literals.length) es

end Expr

mutual

/-- The expressions among a statement's parts, the blocks taken apart. -/
def Stmt.expressions : Stmt → List Expr
  | .expression _ value => [value]
  | .block body => body.expressions
  | .binding .. | .exit .. => []

/-- The expressions among a block's statements. -/
def Block.expressions : Block → List Expr
  | ⟨_, stmts⟩ => expressionsOf stmts

/-- The expressions among statements, in order. -/
def expressionsOf : List Stmt → List Expr
  | [] => []
  | stmt :: stmts => stmt.expressions ++ expressionsOf stmts

end

/-- The expressions of a program that stand as statements, in order. -/
def Program.expressions (program : Program) : List Expr := expressionsOf program.statements

/-- Every instruction of a postfix form refers to one of the new constants. -/
theorem Expr.encodable_postfixFrom {e : Expr} {base : Nat} {i : Instruction}
    (h : base + e.literals.length ≤ 65536) (hi : i ∈ e.postfixFrom base) : i.Encodable := by
  induction e using IsArithmetic.induct generalizing base with
  | case1 pos digits value =>
      rw [postfixFrom] at hi
      obtain rfl := List.mem_singleton.mp hi
      exact Nat.lt_of_succ_le h
  | case2 pos op left right ihl ihr =>
      rw [literals, List.length_append] at h
      simp only [postfixFrom, List.mem_append, List.mem_singleton] at hi
      rcases hi with (hi | hi) | rfl
      · exact ihl (by omega) hi
      · exact ihr (by omega) hi
      · trivial
  | case3 e hliteral hoperation =>
      rw [postfixFrom] at hi
      · cases hi
      · exact hliteral
      · exact hoperation

theorem Expr.encodable_postfixAll {es : List Expr} {base : Nat} {i : Instruction}
    (h : base + (es.flatMap Expr.literals).length ≤ 65536) (hi : i ∈ postfixAll base es) :
    i.Encodable := by
  induction es generalizing base with
  | nil => cases hi
  | cons e es ih =>
      rw [List.flatMap_cons, List.length_append] at h
      rcases List.mem_append.mp hi with hi | hi
      · exact encodable_postfixFrom (by omega) hi
      · exact ih (by omega) hi

namespace Package

/-- Compiles expressions one after the other. -/
def compileExprs (package : Package) : List Expr → Compiled
  | [] => .done package
  | e :: es =>
    match package.compileExpr e with
    | ⟨package, some error⟩ => .failed package error
    | ⟨package, none⟩ => package.compileExprs es

/-- What compiling has done: `added` has been appended to the pool and `is` to the
code. -/
structure Appends (before after : Package) (added : List Int64) (is : List Instruction) : Prop where
  constants : after.constants.toList = before.constants.toList ++ added.map Value.int
  code : after.code.toList = before.code.toList ++ Instruction.encodeAll is
  /-- The pool did not grow too large to be numbered. -/
  bounded : added ≠ [] → after.constants.size ≤ maxConstants

variable {package middle after : Package}

theorem appends_refl (package : Package) : Appends package package [] [] :=
  ⟨(List.append_nil _).symm, (List.append_nil _).symm, fun h => absurd rfl h⟩

theorem appends_trans {xs ys : List Int64} {is js : List Instruction}
    (h1 : Appends package middle xs is) (h2 : Appends middle after ys js) :
    Appends package after (xs ++ ys) (is ++ js) := by
  refine ⟨?_, ?_, ?_⟩
  · rw [h2.constants, h1.constants, List.append_assoc, List.map_append]
  · rw [h2.code, h1.code, List.append_assoc, Instruction.encodeAll_append]
  · intro hne
    by_cases hys : ys = []
    · subst hys
      have hsize := congrArg List.length h2.constants
      simp only [List.map_nil, List.append_nil, Array.length_toList] at hsize
      rw [hsize]
      exact h1.bounded (by simpa using hne)
    · exact h2.bounded hys

theorem appends_emit (package : Package) (i : Instruction) :
    Appends package (package.emit i) [] [i] := by
  refine ⟨(List.append_nil _).symm, ?_, fun h => absurd rfl h⟩
  show (package.code ++ i.encode).toList = _
  rw [Array.toList_appendList, Instruction.encodeAll_cons, Instruction.encodeAll_nil,
    List.append_nil]

theorem size_of_appends {xs : List Int64} {is : List Instruction}
    (h : Appends package after xs is) :
    after.constants.size = package.constants.size + xs.length := by
  have hlen := congrArg List.length h.constants
  simpa using hlen

/-- A pool that began empty can be numbered. -/
theorem size_le_of_appends {xs : List Int64} {is : List Instruction}
    (h : Appends .empty after xs is) : after.constants.size ≤ maxConstants := by
  by_cases hnone : xs = []
  · have hsize : after.constants.size = 0 + xs.length := size_of_appends h
    rw [hsize, hnone]
    exact Nat.zero_le _
  · exact h.bounded hnone

/-- A number becomes a new constant and the instruction that pushes it. -/
theorem appends_of_compileConstant {value : Int64}
    (h : package.compileConstant value = ⟨after, none⟩) :
    Appends package after [value] [.constant package.constants.size] := by
  unfold compileConstant at h
  split at h
  · cases h
  · rename_i hroom
    obtain rfl := congrArg Compiled.package h
    have hpush : Appends package { package with constants := package.constants.push (.int value) }
        [value] [] := by
      refine ⟨?_, (List.append_nil _).symm, fun _ => ?_⟩
      · exact Array.toList_push
      · rw [Array.size_push]
        exact Nat.lt_of_not_le hroom
    exact appends_trans hpush (appends_emit _ _)

/-- **An expression that compiles** is arithmetic, and its literals and its postfix form are what is
appended. -/
theorem appends_of_compileExpr {e : Expr} (h : package.compileExpr e = ⟨after, none⟩) :
    e.IsArithmetic ∧ Appends package after e.literals (e.postfixFrom package.constants.size) := by
  fun_induction Package.compileExpr package e generalizing after with
  | case1 package pos digits value => exact ⟨trivial, appends_of_compileConstant h⟩
  | case2 => cases h
  | case3 => cases h
  | case4 package pos op left right left' hleft right' hright ihl ihr =>
      obtain ⟨hl, hleft⟩ := ihl hleft
      obtain ⟨hr, hright⟩ := ihr hright
      refine ⟨⟨hl, hr⟩, ?_⟩
      -- the constants of the right operand are numbered from behind those of the left one
      rw [size_of_appends hleft] at hright
      have hall := appends_trans (appends_trans hleft hright) (appends_emit right' (.arith op))
      rw [List.append_nil] at hall
      obtain rfl := congrArg Compiled.package h
      exact hall
  | case5 => cases h

theorem appends_of_compileExprs {es : List Expr} (h : package.compileExprs es = ⟨after, none⟩) :
    (∀ e ∈ es, e.IsArithmetic) ∧
      Appends package after (es.flatMap Expr.literals)
        (Expr.postfixAll package.constants.size es) := by
  induction es generalizing package with
  | nil =>
      obtain rfl := congrArg Compiled.package h
      exact ⟨fun e he => absurd he List.not_mem_nil, appends_refl package⟩
  | cons e es ih =>
      rw [compileExprs] at h
      rcases hone : package.compileExpr e with ⟨middle, _ | error⟩
      · rw [hone] at h
        obtain ⟨harith, hfirst⟩ := appends_of_compileExpr hone
        obtain ⟨hariths, hrest⟩ := ih h
        refine ⟨fun e' he' => ?_, ?_⟩
        · rcases List.mem_cons.mp he' with rfl | he'
          · exact harith
          · exact hariths e' he'
        · rw [size_of_appends hfirst] at hrest
          exact appends_trans hfirst hrest
      · rw [hone] at h
        cases h

/-! ## Statements -/

theorem compileExprs_append (es fs : List Expr) :
    package.compileExprs (es ++ fs) =
      match package.compileExprs es with
      | ⟨package, some error⟩ => .failed package error
      | ⟨package, none⟩ => package.compileExprs fs := by
  induction es generalizing package with
  | nil => rfl
  | cons e es ih =>
      rw [List.cons_append, compileExprs, compileExprs]
      rcases package.compileExpr e with ⟨middle, _ | error⟩
      · exact ih
      · rfl

mutual

theorem compileExprs_of_compileStmt {package after : Package} :
    ∀ {stmt : Stmt}, package.compileStmt stmt = ⟨after, none⟩ →
      package.compileExprs stmt.expressions = ⟨after, none⟩
  | .expression _ value, h => by
      change package.compileExpr value = _ at h
      rw [Stmt.expressions, compileExprs, h]
      rfl
  | .block body, h => compileExprs_of_compileBlock h
  | .binding .., h => by cases h
  | .exit .., h => by cases h

theorem compileExprs_of_compileBlock {package after : Package} :
    ∀ {block : Block}, package.compileBlock block = ⟨after, none⟩ →
      package.compileExprs block.expressions = ⟨after, none⟩
  | ⟨_, _⟩, h => compileExprs_of_compileStmts h

/-- **Statements that compile** compile as the expressions among them. -/
theorem compileExprs_of_compileStmts {package after : Package} :
    ∀ {stmts : List Stmt}, package.compileStmts stmts = ⟨after, none⟩ →
      package.compileExprs (expressionsOf stmts) = ⟨after, none⟩
  | [], h => h
  | stmt :: stmts, h => by
      rw [compileStmts] at h
      rcases hone : package.compileStmt stmt with ⟨middle, _ | error⟩
      · rw [hone] at h
        rw [expressionsOf, compileExprs_append, compileExprs_of_compileStmt hone]
        exact compileExprs_of_compileStmts h
      · rw [hone] at h
        cases h

end

end Package

/-- **A program that compiles** consists of arithmetic expressions, and its package holds their
literals and their postfix forms. -/
theorem Program.package_of_compile {program : Program} {package : Package}
    (h : program.compile = .ok package) :
    (∀ e ∈ program.expressions, e.IsArithmetic) ∧
      Package.Appends .empty package (program.expressions.flatMap Expr.literals)
        (Expr.postfixAll 0 program.expressions) := by
  unfold compile at h
  rcases hcompile : Package.empty.compile program with ⟨after, _ | error⟩
  · rw [hcompile] at h
    cases h
    exact Package.appends_of_compileExprs (Package.compileExprs_of_compileStmts hcompile)
  · rw [hcompile] at h
    cases h

end ExprMachine
