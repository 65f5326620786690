import ExprMachine.Proofs.Compiler.Postfix
import ExprMachine.Proofs.Machine.Checked

/-!
# What every snapshot is like

A package can be taken from the compiler between any two programs, also behind one that could not be
compiled, when the beginning of an expression stands in the code without the rest. Three things hold
of it no matter where compiling was given up.

* The constants are the ones that the instructions push, in order.
* No operation stands where there are fewer than two values for it, as what is left of an expression
  has only put values on the stack.
* Nothing that was there before has changed.

`Grows` says all of this about a stretch of compiling, and is kept from one stretch to the next:
along the expressions, the statements and the programs. That such a package decodes to its end and
can only be refused for the capacity of the stack follows for all packages at once.
-/

namespace ExprMachine

namespace Instruction

/-- The number of the constant that is pushed. -/
def index? : Instruction → Option Nat
  | constant index => some index
  | arith _ => none

/-- The height of the stack behind some instructions, if it is high enough for all of them. -/
def heightAfter (height : Nat) : List Instruction → Option Nat
  | [] => some height
  | i :: is =>
    if height < i.opcode.stackEffect.1 then none
    else heightAfter (height - i.opcode.stackEffect.1 + i.opcode.stackEffect.2) is

/-- An instruction that finds its operands, and what comes behind it. -/
theorem heightAfter_cons_eq_some {i : Instruction} {is : List Instruction} {height final : Nat} :
    heightAfter height (i :: is) = some final ↔
      ¬height < i.opcode.stackEffect.1 ∧
        heightAfter (height - i.opcode.stackEffect.1 + i.opcode.stackEffect.2) is = some final := by
  rw [heightAfter]
  by_cases hlow : height < i.opcode.stackEffect.1
  · rw [if_pos hlow]
    refine iff_of_false (fun h => ?_) fun h => h.1 hlow
    cases h
  · rw [if_neg hlow]
    exact (and_iff_right hlow).symm

theorem heightAfter_append (is js : List Instruction) (height : Nat) :
    heightAfter height (is ++ js) = (heightAfter height is).bind (heightAfter · js) := by
  induction is generalizing height with
  | nil => rfl
  | cons i is ih =>
      rw [List.cons_append, heightAfter, heightAfter]
      by_cases h : height < i.opcode.stackEffect.1
      · rw [if_pos h, if_pos h]
        rfl
      · rw [if_neg h, if_neg h]
        exact ih _

end Instruction

namespace Package

variable {before middle after : Package} {rise : Nat}

/-- What compiling has done when it ends, with an error or without: it has appended instructions
that number the new constants in order and find their operands on any stack, which they leave higher
by `rise`. -/
def Grows (before after : Package) (rise : Nat) : Prop :=
  ∃ added is, Appends before after added is ∧
    is.filterMap Instruction.index? = List.range' before.constants.size added.length ∧
    ∀ height, Instruction.heightAfter height is = some (height + rise)

theorem grows_refl (package : Package) : Grows package package 0 :=
  ⟨[], [], appends_refl package, rfl, fun _ => rfl⟩

theorem grows_trans {rise' : Nat} (h1 : Grows before middle rise) (h2 : Grows middle after rise') :
    Grows before after (rise + rise') := by
  obtain ⟨xs, is, happends1, hnumbered1, hrises1⟩ := h1
  obtain ⟨ys, js, happends2, hnumbered2, hrises2⟩ := h2
  refine ⟨xs ++ ys, is ++ js, appends_trans happends1 happends2, ?_, fun height => ?_⟩
  · rw [List.filterMap_append, hnumbered1, hnumbered2, size_of_appends happends1,
      List.length_append, List.range'_append_1]
  · rw [Instruction.heightAfter_append, hrises1, Option.bind_some, hrises2, Nat.add_assoc]

/-- An operation on the values of its operands. -/
theorem grows_arith (h : Grows before after 2) (op : ArithOp) :
    Grows before (after.emit (.arith op)) 1 := by
  obtain ⟨xs, is, happends, hnumbered, hrises⟩ := h
  have hall := appends_trans happends (appends_emit after (.arith op))
  rw [List.append_nil] at hall
  refine ⟨xs, is ++ [.arith op], hall, ?_, fun height => ?_⟩
  · rw [List.filterMap_append, hnumbered]
    exact List.append_nil _
  · -- the two values are above whatever the stack held before
    have henough : ¬height + 2 < 2 := by omega
    rw [Instruction.heightAfter_append, hrises, Option.bind_some]
    exact if_neg henough

/-- A number is pushed, or the pool is full and nothing happens. -/
theorem grows_compileConstant (package : Package) (value : Int64) :
    ∃ rise, Grows package (package.compileConstant value).package rise ∧
      ((package.compileConstant value).error = none → rise = 1) := by
  by_cases hfull : maxConstants ≤ package.constants.size
  · have hcompile : package.compileConstant value = .failed package .tooManyConstants :=
      if_pos hfull
    rw [hcompile]
    exact ⟨0, grows_refl package, nofun⟩
  · have hcompile : package.compileConstant value = .done _ := if_neg hfull
    have happends := appends_of_compileConstant hcompile
    rw [hcompile]
    exact ⟨1, ⟨[value], _, happends, rfl, fun _ => rfl⟩, fun _ => rfl⟩

/-- **An expression that compiles** puts one value on the stack. One that does not leaves the values
of the operands that were compiled. -/
theorem grows_compileExpr (package : Package) (e : Expr) :
    ∃ rise, Grows package (package.compileExpr e).package rise ∧
      ((package.compileExpr e).error = none → rise = 1) := by
  fun_induction Package.compileExpr package e with
  | case1 package pos digits value => exact grows_compileConstant package value
  | case2 package pos op left right after error hleft ihl =>
      obtain ⟨rise, hgrows, -⟩ := ihl
      rw [hleft] at hgrows
      refine ⟨rise, hgrows, fun hnone => ?_⟩
      cases hnone
  | case3 package pos op left right middle hleft after error hright ihl ihr =>
      -- the value of the left operand stays on the stack, and perhaps more
      obtain ⟨rise, hfirst, -⟩ := ihl
      obtain ⟨rise', hsecond, -⟩ := ihr
      rw [hleft] at hfirst
      rw [hright] at hsecond
      refine ⟨rise + rise', grows_trans hfirst hsecond, fun hnone => ?_⟩
      cases hnone
  | case4 package pos op left right middle hleft after hright ihl ihr =>
      obtain ⟨rise, hfirst, hone⟩ := ihl
      obtain ⟨rise', hsecond, hone'⟩ := ihr
      rw [hleft] at hfirst hone
      rw [hright] at hsecond hone'
      -- both operands compiled, so there are two values for the operation
      obtain rfl := hone rfl
      obtain rfl := hone' rfl
      exact ⟨1, grows_arith (grows_trans hfirst hsecond) op, fun _ => rfl⟩
  | case5 package e =>
      refine ⟨0, grows_refl package, fun hnone => ?_⟩
      cases hnone

mutual

theorem grows_compileStmt (package : Package) (stmt : Stmt) :
    ∃ rise, Grows package (package.compileStmt stmt).package rise := by
  cases stmt with
  | binding pos name value => exact ⟨0, grows_refl package⟩
  | exit pos value => exact ⟨0, grows_refl package⟩
  | expression start value =>
      obtain ⟨rise, hgrows, -⟩ := grows_compileExpr package value
      exact ⟨rise, hgrows⟩
  | block body => exact grows_compileBlock package body

theorem grows_compileBlock (package : Package) (block : Block) :
    ∃ rise, Grows package (package.compileBlock block).package rise := by
  cases block with
  | mk pos stmts => exact grows_compileStmts package stmts

theorem grows_compileStmts (package : Package) (stmts : List Stmt) :
    ∃ rise, Grows package (package.compileStmts stmts).package rise := by
  cases stmts with
  | nil => exact ⟨0, grows_refl package⟩
  | cons stmt stmts =>
      obtain ⟨rise, hfirst⟩ := grows_compileStmt package stmt
      rw [compileStmts]
      rcases hone : package.compileStmt stmt with ⟨middle, _ | error⟩
      · obtain ⟨rise', hrest⟩ := grows_compileStmts middle stmts
        rw [hone] at hfirst
        exact ⟨rise + rise', grows_trans hfirst hrest⟩
      · rw [hone] at hfirst
        exact ⟨rise, hfirst⟩

end

/-- The package of a compiler that was handed some programs one after the other, whether they
compile or not. -/
def compileAll (package : Package) (programs : List Program) : Package :=
  programs.foldl (fun package program => (package.compile program).package) package

theorem grows_compileAll (package : Package) (programs : List Program) :
    ∃ rise, Grows package (package.compileAll programs) rise := by
  induction programs generalizing package with
  | nil => exact ⟨0, grows_refl package⟩
  | cons program programs ih =>
      obtain ⟨rise, hfirst⟩ := grows_compileStmts package program.statements
      obtain ⟨rise', hrest⟩ := ih (package.compile program).package
      exact ⟨rise + rise', grows_trans hfirst hrest⟩

end Package

/-! ## Reading what was written -/

namespace Instruction

/-- An instruction whose constant is one of as many as can be numbered. -/
theorem encodable_of_index {i : Instruction} (h : ∀ n ∈ i.index?, n < Package.maxConstants) :
    i.Encodable := by
  cases i with
  | constant index => exact h index rfl
  | arith op => trivial

/-- The bytes of some instructions are read as these instructions. -/
theorem decodeFrom_encodeAll {is : List Instruction} (h : ∀ i ∈ is, i.Encodable) (ip : Nat) :
    (decodeFrom ip (encodeAll is) []).map Prod.snd = is := by
  induction is generalizing ip with
  | nil =>
      rw [decodeFrom_eq]
      rfl
  | cons i is ih =>
      obtain ⟨hi, his⟩ := List.forall_mem_cons.mp h
      rw [decodeFrom_eq, encodeAll_cons, fetch_encode hi]
      dsimp only
      rw [decodeFrom_append, List.map_append, ih his]
      rfl

end Instruction

namespace Check

variable {poolSize capacity ip height : Nat}

/-- An instruction that finds its constant and its operands is only refused for want of room. -/
theorem step_of_operands {i : Instruction} (hindex : ∀ n ∈ i.index?, n < poolSize)
    (hheight : ¬height < i.opcode.stackEffect.1) :
    step poolSize capacity ip height i =
      if capacity < height - i.opcode.stackEffect.1 + i.opcode.stackEffect.2 then
        .error (.overflow i.opcode ip capacity)
      else .ok (height - i.opcode.stackEffect.1 + i.opcode.stackEffect.2) := by
  cases i with
  | constant index =>
      rw [step_constant, if_neg (Nat.not_le_of_lt (hindex index rfl))]
      rfl
  | arith op => exact if_neg hheight

/-- One instruction that finds its constant and its operands. -/
theorem walk_cons {i : Instruction} {is : List Instruction}
    (hpool : poolSize ≤ Package.maxConstants)
    (hindex : ∀ n ∈ i.index?, n < poolSize) (hheight : ¬height < i.opcode.stackEffect.1) :
    walk poolSize capacity ip height (Instruction.encodeAll (i :: is)) =
      if capacity < height - i.opcode.stackEffect.1 + i.opcode.stackEffect.2 then
        .error (.overflow i.opcode ip capacity)
      else
        walk poolSize capacity (ip + i.size)
          (height - i.opcode.stackEffect.1 + i.opcode.stackEffect.2) (Instruction.encodeAll is) := by
  have hencodable : i.Encodable :=
    Instruction.encodable_of_index fun n hn => Nat.lt_of_lt_of_le (hindex n hn) hpool
  rw [walk_eq, Instruction.encodeAll_cons, Instruction.fetch_encode hencodable]
  dsimp only
  rw [step_of_operands hindex hheight]
  by_cases hover : capacity < height - i.opcode.stackEffect.1 + i.opcode.stackEffect.2
  · rw [if_pos hover, if_pos hover]
  · rw [if_neg hover, if_neg hover]

/-- Instructions that find their constants and their operands are only refused for want of room. -/
theorem eq_overflow_of_walk_error {is : List Instruction} {final : Nat} {e : CheckError}
    (hpool : poolSize ≤ Package.maxConstants) (hindex : ∀ i ∈ is, ∀ n ∈ i.index?, n < poolSize)
    (hheight : Instruction.heightAfter height is = some final)
    (h : walk poolSize capacity ip height (Instruction.encodeAll is) = .error e) :
    ∃ op ip, e = .overflow op ip capacity := by
  induction is generalizing ip height with
  | nil =>
      rw [walk_eq] at h
      cases h
  | cons i is ih =>
      obtain ⟨hi, his⟩ := List.forall_mem_cons.mp hindex
      obtain ⟨henough, hrest⟩ := Instruction.heightAfter_cons_eq_some.mp hheight
      rw [walk_cons hpool hi henough] at h
      by_cases hover : capacity < height - i.opcode.stackEffect.1 + i.opcode.stackEffect.2
      · rw [if_pos hover] at h
        cases h
        exact ⟨_, _, rfl⟩
      · -- the walk and `heightAfter` agree on the height behind the instruction
        rw [if_neg hover] at h
        exact ih his hrest h

end Check

namespace Package

/-- The instructions of the code, up to the first byte that begins none. -/
def instructions (package : Package) : List Instruction :=
  (Instruction.decode package.code.toList).map Prod.snd

/-- The code and the pool belong together. -/
structure Coherent (package : Package) : Prop where
  /-- Every byte of the code belongs to an instruction. -/
  complete : Instruction.encodeAll package.instructions = package.code.toList
  /-- The instructions that push a constant push the constants in order, each once. -/
  numbered : package.instructions.filterMap Instruction.index? = List.range package.constants.size
  bounded : package.constants.size ≤ maxConstants
  integers : ∀ v ∈ package.constants, ∃ n, v = .int n
  /-- Every operation finds two values. -/
  operands : ∃ height, Instruction.heightAfter 0 package.instructions = some height
  /-- If the package is refused, then because the stack is too small for it. -/
  refused : ∀ capacity e, package.check capacity = .error e → ∃ op ip, e = .overflow op ip capacity

/-- What has grown from nothing is coherent. -/
theorem coherent_of_grows {package : Package} {rise : Nat} (h : Grows .empty package rise) :
    package.Coherent := by
  obtain ⟨added, is, happends, hnumbered, hrises⟩ := h
  have hsize : package.constants.size = added.length :=
    (size_of_appends happends).trans (Nat.zero_add _)
  have hrange : is.filterMap Instruction.index? = List.range package.constants.size := by
    rw [hnumbered, hsize]
    exact (List.range_eq_range' ..).symm
  have hbounded : package.constants.size ≤ maxConstants := size_le_of_appends happends
  have hindex : ∀ i ∈ is, ∀ n ∈ i.index?, n < package.constants.size := by
    intro i hi n hn
    rw [← List.mem_range, ← hrange]
    exact List.mem_filterMap.mpr ⟨i, hi, hn⟩
  have hencodable : ∀ i ∈ is, i.Encodable := fun i hi =>
    Instruction.encodable_of_index fun n hn => Nat.lt_of_lt_of_le (hindex i hi n hn) hbounded
  have hcode : package.code.toList = Instruction.encodeAll is := happends.code
  have hinstructions : package.instructions = is := by
    rw [instructions, hcode]
    exact Instruction.decodeFrom_encodeAll hencodable 0
  refine ⟨?_, ?_, hbounded, fun v hv => ?_, ?_, fun capacity e he => ?_⟩
  · rw [hinstructions, hcode]
  · rw [hinstructions, hrange]
  · rw [← Array.mem_toList_iff, happends.constants] at hv
    obtain ⟨n, -, rfl⟩ := List.mem_map.mp hv
    exact ⟨n, rfl⟩
  · rw [hinstructions]
    exact ⟨_, hrises 0⟩
  · rw [check, hcode] at he
    exact Check.eq_overflow_of_walk_error hbounded hindex (hrises 0) he

/-- Growing changes nothing that was there. -/
theorem prefix_of_grows {before after : Package} {rise : Nat} (h : Grows before after rise) :
    before.code.toList <+: after.code.toList ∧
      before.constants.toList <+: after.constants.toList := by
  obtain ⟨added, is, happends, -, -⟩ := h
  exact ⟨⟨_, happends.code.symm⟩, ⟨_, happends.constants.symm⟩⟩

/--
**Every snapshot is coherent.**

Whatever programs the compiler was handed, and whether it could compile them or not, its package
decodes to its end; the instructions that push a constant push the constants in order, which are
integers and no more than can be numbered; no operation lacks operands, and the check refuses the
package for the capacity of the stack or not at all. Further programs only append to the code and to
the pool.
-/
theorem coherent_compileAll (programs further : List Program) :
    (empty.compileAll programs).Coherent ∧
      (empty.compileAll programs).code.toList
        <+: (empty.compileAll (programs ++ further)).code.toList ∧
      (empty.compileAll programs).constants.toList
        <+: (empty.compileAll (programs ++ further)).constants.toList := by
  obtain ⟨rise, hgrows⟩ := grows_compileAll empty programs
  obtain ⟨rise', hgrows'⟩ := grows_compileAll (empty.compileAll programs) further
  have hsplit : empty.compileAll (programs ++ further)
      = (empty.compileAll programs).compileAll further := List.foldl_append
  rw [hsplit]
  exact ⟨coherent_of_grows hgrows, prefix_of_grows hgrows'⟩

end Package

end ExprMachine
