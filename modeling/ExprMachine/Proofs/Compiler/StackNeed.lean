import ExprMachine.Proofs.Compiler.Meaning
import ExprMachine.Proofs.Compiler.Visits

/-!
# How large a stack a program needs

The check walks along bytes and knows nothing of the tree that they come from. Yet what it finds can
be read off the tree: the right operand of an operation is computed above the value of the left one,
and every expression of a program above the values of those in front of it. `Expr.stackNeed` and
`Program.stackNeed` say how many slots this takes.

`Instruction.peak` is the greatest height along some instructions. The check lets instructions pass
if their peak is within the capacity and refuses them at the first one that is above
(`Check.walk_of_peak_le`, `Check.walk_of_lt_peak`), and the peak of a postfix form is what the tree
needs (`Expr.peak_postfixFrom`, `Expr.peak_postfixAll`).
-/

namespace ExprMachine

/-- How many slots an arithmetic expression needs. -/
def Expr.stackNeed : Expr → Nat
  | .integer .. => 1
  | .binary _ (.arith _) left right => max left.stackNeed (1 + right.stackNeed)
  | _ => 0

/-- How many slots expressions need that are computed one after the other above `height` values, if
all their values stay on the stack. -/
def Expr.stackNeedFrom (height : Nat) (es : List Expr) : Nat :=
  (es.mapIdx fun i e => height + i + e.stackNeed).foldr max 0

/-- How many slots a program needs: for each of its expressions one for the value of every earlier
one and what it needs itself. -/
def Program.stackNeed (program : Program) : Nat :=
  (program.expressions.mapIdx fun i e => i + e.stackNeed).foldr max 0

/-! ## The peak of some instructions -/

namespace Instruction

/-- The greatest height behind one of the instructions, or zero if there are none. -/
def peak (height : Nat) : List Instruction → Nat
  | [] => 0
  | i :: is =>
    let after := height - i.opcode.stackEffect.1 + i.opcode.stackEffect.2
    max after (peak after is)

variable {height middle : Nat} {is js : List Instruction}

theorem peak_append (h : heightAfter height is = some middle) :
    peak height (is ++ js) = max (peak height is) (peak middle js) := by
  induction is generalizing height with
  | nil =>
      obtain rfl := Option.some.inj h
      exact (Nat.zero_max _).symm
  | cons i is ih =>
      obtain ⟨-, hrest⟩ := heightAfter_cons_eq_some.mp h
      rw [List.cons_append, peak, peak, ih hrest, Nat.max_assoc]

end Instruction

/-! ## The peak decides the check -/

namespace Check

open Instruction (peak heightAfter encodeAll heightAfter_cons_eq_some)

variable {poolSize capacity ip height final : Nat} {is : List Instruction}

/-- Instructions whose peak is within the capacity pass. -/
theorem walk_of_peak_le (hpool : poolSize ≤ Package.maxConstants)
    (hindex : ∀ i ∈ is, ∀ n ∈ i.index?, n < poolSize) (hheight : heightAfter height is = some final)
    (h : peak height is ≤ capacity) :
    walk poolSize capacity ip height (encodeAll is) = .ok final := by
  induction is generalizing ip height with
  | nil =>
      rw [walk_eq]
      exact congrArg Except.ok (Option.some.inj hheight)
  | cons i is ih =>
      obtain ⟨hi, his⟩ := List.forall_mem_cons.mp hindex
      obtain ⟨henough, hrest⟩ := heightAfter_cons_eq_some.mp hheight
      obtain ⟨hfirst, hlater⟩ := Nat.max_le.mp h
      rw [walk_cons hpool hi henough, if_neg (Nat.not_lt_of_le hfirst)]
      exact ih his hrest hlater

/-- Instructions whose peak is above the capacity are refused at the first one that is: one that
pushes a constant onto a full stack. -/
theorem walk_of_lt_peak (hpool : poolSize ≤ Package.maxConstants)
    (hindex : ∀ i ∈ is, ∀ n ∈ i.index?, n < poolSize) (hheight : heightAfter height is = some final)
    (hle : height ≤ capacity) (h : capacity < peak height is) :
    ∃ front index back, is = front ++ .constant index :: back ∧
      heightAfter height front = some capacity ∧ peak height front ≤ capacity ∧
      ∀ ip, walk poolSize capacity ip height (encodeAll is)
        = .error (.overflow .constant (ip + (encodeAll front).length) capacity) := by
  induction is generalizing height with
  | nil => exact absurd h (Nat.not_lt_zero _)
  | cons i is ih =>
      obtain ⟨hi, his⟩ := List.forall_mem_cons.mp hindex
      obtain ⟨henough, hrest⟩ := heightAfter_cons_eq_some.mp hheight
      by_cases hover : capacity < height - i.opcode.stackEffect.1 + i.opcode.stackEffect.2
      · cases i with
        | constant index =>
            -- the push is the first instruction above the capacity
            have hfull : height = capacity := Nat.le_antisymm hle (Nat.le_of_lt_succ hover)
            refine ⟨[], index, is, rfl, congrArg some hfull, Nat.zero_le _, fun ip => ?_⟩
            rw [walk_cons hpool hi henough, if_pos hover]
            rfl
        | arith op =>
            have hlower : ¬capacity < height - 2 + 1 := by
              have htwo : ¬height < 2 := henough
              omega
            exact absurd hover hlower
      · have hafter := Nat.le_of_not_lt hover
        have hlater : capacity
            < peak (height - i.opcode.stackEffect.1 + i.opcode.stackEffect.2) is := by
          refine Nat.lt_of_not_le fun hpeak => ?_
          exact Nat.not_le_of_lt h (Nat.max_le.mpr ⟨hafter, hpeak⟩)
        obtain ⟨front, index, back, hsplit, hfull, hpeak, hwalk⟩ := ih his hrest hafter hlater
        refine ⟨i :: front, index, back, congrArg (i :: ·) hsplit, ?_, ?_, fun ip => ?_⟩
        · exact heightAfter_cons_eq_some.mpr ⟨henough, hfull⟩
        · exact Nat.max_le.mpr ⟨hafter, hpeak⟩
        · rw [walk_cons hpool hi henough, if_neg hover, hwalk, Instruction.encodeAll_cons,
            List.length_append, Instruction.length_encode, Nat.add_assoc]

end Check

/-! ## The peak of a postfix form -/

namespace Expr

open Instruction (peak heightAfter heightAfter_append peak_append)

/-- The postfix form of an arithmetic expression puts one value on the stack, and its peak is as
high above the stack as the expression needs. -/
theorem peak_postfixFrom {e : Expr} (harith : e.IsArithmetic) (base height : Nat) :
    heightAfter height (e.postfixFrom base) = some (height + 1) ∧
      peak height (e.postfixFrom base) = height + e.stackNeed := by
  induction e using IsArithmetic.induct generalizing base height with
  | case1 pos digits value => exact ⟨rfl, Nat.max_zero _⟩
  | case2 pos op left right ihl ihr =>
      obtain ⟨hheightl, hpeakl⟩ := ihl harith.1 base height
      -- the right operand is worked out above the value of the left one
      obtain ⟨hheightr, hpeakr⟩ := ihr harith.2 (base + left.literals.length) (height + 1)
      have hoperands : heightAfter height
          (left.postfixFrom base ++ right.postfixFrom (base + left.literals.length))
            = some (height + 2) := by
        rw [heightAfter_append, hheightl]
        exact hheightr
      have htwo : ¬height + 2 < 2 := by omega
      refine ⟨?_, ?_⟩
      · rw [postfixFrom, heightAfter_append, hoperands, Option.bind_some]
        exact Instruction.heightAfter_cons_eq_some.mpr ⟨htwo, rfl⟩
      · have hoperation : peak (height + 2) [.arith op] = height + 1 := Nat.max_zero _
        rw [postfixFrom, peak_append hoperands, peak_append hheightl, hpeakl, hpeakr, hoperation,
          stackNeed]
        omega
  | case3 e hliteral hoperation =>
      rw [IsArithmetic] at harith
      · exact harith.elim
      · exact hliteral
      · exact hoperation

theorem stackNeedFrom_cons (height : Nat) (e : Expr) (es : List Expr) :
    stackNeedFrom height (e :: es)
      = max (height + e.stackNeed) (stackNeedFrom (height + 1) es) := by
  have hlater : (fun i (e : Expr) => height + (i + 1) + e.stackNeed)
      = fun i e => height + 1 + i + e.stackNeed := by
    funext i e
    omega
  rw [stackNeedFrom, List.mapIdx_cons, List.foldr_cons, hlater]
  rfl

/-- Postfix forms behind each other put their values above each other. -/
theorem peak_postfixAll {es : List Expr} (harith : ∀ e ∈ es, e.IsArithmetic) (base height : Nat) :
    heightAfter height (postfixAll base es) = some (height + es.length) ∧
      peak height (postfixAll base es) = stackNeedFrom height es := by
  induction es generalizing base height with
  | nil => exact ⟨rfl, rfl⟩
  | cons e es ih =>
      obtain ⟨he, hes⟩ := List.forall_mem_cons.mp harith
      obtain ⟨hheight, hpeak⟩ := peak_postfixFrom he base height
      obtain ⟨hheights, hpeaks⟩ := ih hes (base + e.literals.length) (height + 1)
      refine ⟨?_, ?_⟩
      · rw [postfixAll, heightAfter_append, hheight, Option.bind_some, hheights, List.length_cons,
          Nat.add_assoc, Nat.add_comm 1]
      · rw [postfixAll, peak_append hheight, hpeak, hpeaks, stackNeedFrom_cons]

end Expr

namespace Program

variable {program : Program} {package : Package}

/-- The instructions of a compiled program push constants that it has, and they are read as they
were written. -/
theorem instructions_of_compile (h : program.compile = .ok package) :
    package.instructions = Expr.postfixAll 0 program.expressions ∧
      ∀ i ∈ Expr.postfixAll 0 program.expressions, ∀ n ∈ i.index?, n < package.constants.size := by
  obtain ⟨harith, happends⟩ := package_of_compile h
  have hindex : ∀ i ∈ Expr.postfixAll 0 program.expressions, ∀ n ∈ i.index?,
      n < package.constants.size := by
    intro i hi n hn
    have hmem : n ∈ (Expr.postfixAll 0 program.expressions).filterMap Instruction.index? :=
      List.mem_filterMap.mpr ⟨i, hi, hn⟩
    rw [Expr.index_postfixAll harith, List.mem_range'_1] at hmem
    rw [Package.size_of_appends happends]
    exact hmem.2
  have hencodable : ∀ i ∈ Expr.postfixAll 0 program.expressions, i.Encodable := by
    intro i hi
    refine Instruction.encodable_of_index fun n hn => ?_
    exact Nat.lt_of_lt_of_le (hindex i hi n hn) (Package.size_le_of_appends happends)
  have hcode : package.code.toList
      = Instruction.encodeAll (Expr.postfixAll 0 program.expressions) := happends.code
  refine ⟨?_, hindex⟩
  rw [Package.instructions, hcode]
  exact Instruction.decodeFrom_encodeAll hencodable 0

/--
**What a program needs is what the check asks for.**

The package of a program passes the check on every stack with as many slots as the program needs,
with a height for each expression. On a smaller one it is refused for its overflow, at the first
instruction that would get above the capacity, which pushes a constant when all slots are in use.
And whenever a run succeeds, it leaves a value for each expression.
-/
theorem check_of_stackNeed (h : program.compile = .ok package) (capacity : Nat) :
    (program.stackNeed ≤ capacity → package.check capacity = .ok program.expressions.length) ∧
      (capacity < program.stackNeed →
        ∃ front index back, package.instructions = front ++ .constant index :: back ∧
          Instruction.heightAfter 0 front = some capacity ∧ Instruction.peak 0 front ≤ capacity ∧
          package.check capacity
            = .error (.overflow .constant (Instruction.encodeAll front).length capacity)) ∧
      ∀ (stack : OperandStack) (limit : Option Nat), stack.capacity = capacity →
        (package.run limit stack).fault = none →
        (package.run limit stack).stack.live.length = program.expressions.length := by
  obtain ⟨harith, happends⟩ := package_of_compile h
  obtain ⟨hinstructions, hindex⟩ := instructions_of_compile h
  have hpool := Package.size_le_of_appends happends
  have hcode : package.code.toList
      = Instruction.encodeAll (Expr.postfixAll 0 program.expressions) := happends.code
  obtain ⟨hheight, hpeak⟩ := Expr.peak_postfixAll harith 0 0
  rw [Nat.zero_add] at hheight
  have hneed : Expr.stackNeedFrom 0 program.expressions = program.stackNeed := by
    simp only [Expr.stackNeedFrom, stackNeed, Nat.zero_add]
  rw [hneed] at hpeak
  have hpasses : ∀ slots, program.stackNeed ≤ slots →
      package.check slots = .ok program.expressions.length := by
    intro slots hslots
    rw [Package.check, hcode]
    exact Check.walk_of_peak_le hpool hindex hheight (hpeak ▸ hslots)
  have hrefused : ∀ slots, slots < program.stackNeed →
      ∃ front index back, package.instructions = front ++ .constant index :: back ∧
        Instruction.heightAfter 0 front = some slots ∧ Instruction.peak 0 front ≤ slots ∧
        package.check slots
          = .error (.overflow .constant (Instruction.encodeAll front).length slots) := by
    intro slots hslots
    rw [Package.check, hcode, hinstructions]
    obtain ⟨front, index, back, hsplit, hfull, hlow, hwalk⟩ :=
      Check.walk_of_lt_peak hpool hindex hheight (Nat.zero_le slots) (hpeak ▸ hslots)
    refine ⟨front, index, back, hsplit, hfull, hlow, ?_⟩
    rw [hwalk 0, Nat.zero_add]
  refine ⟨hpasses capacity, hrefused capacity, fun stack limit _ hnone => ?_⟩
  -- a run that succeeds is one that the check lets pass
  obtain ⟨height, hcheck⟩ := package.check_of_run hnone
  rcases package.run_of_check_ok hcheck limit with ⟨-, htop⟩ | ⟨fault, hsome, -⟩
  · have hslots : program.stackNeed ≤ stack.capacity := by
      refine Nat.le_of_not_lt fun hlt => ?_
      obtain ⟨front, _, _, _, _, _, herror⟩ := hrefused stack.capacity hlt
      rw [herror] at hcheck
      cases hcheck
    have hheights := (hpasses stack.capacity hslots).symm.trans hcheck
    rw [OperandStack.length_live, htop]
    exact (Except.ok.inj hheights).symm
  · rw [hnone] at hsome
    cases hsome

/-- The program `{ 2 - 5 } 7 / 2` needs three slots: one for the value of its first expression, and
two for its second. -/
theorem check_of_stackNeed_quotient :
    quotientProgram.compile = .ok quotientPackage ∧ quotientProgram.stackNeed = 3 ∧
      quotientPackage.check 3 = .ok 2 ∧
      ∃ ip, quotientPackage.check 2 = .error (.overflow .constant ip 2) := by
  have hcompile : quotientProgram.compile = .ok quotientPackage := by rfl
  have hneed : quotientProgram.stackNeed = 3 := by rfl
  have htwo : 2 < quotientProgram.stackNeed := by
    rw [hneed]
    decide
  have hthree := (check_of_stackNeed hcompile 3).1 (Nat.le_of_eq hneed)
  obtain ⟨front, _, _, _, _, _, herror⟩ := (check_of_stackNeed hcompile 2).2.1 htwo
  exact ⟨hcompile, hneed, hthree, _, herror⟩

end Program

end ExprMachine
