import ExprMachine.Pipeline
import ExprMachine.Proofs.Machine.Progress

/-!
# What the check of a package is worth

The check walks along the code with a number, the machine with a stack. They meet at every
instruction: as long as nothing fails, the number is the depth of the stack.

**An instruction that the check lets pass** fails for the values of its operands or not at all, and
leaves the depth that the check has computed (`perform_of_step_ok`).

**An instruction that the check refuses** fails with the fault that the refusal names
(`perform_of_step_error`).

The two carry over to whole runs by induction on the code. What the check cannot see is the values:
a run of refused code may end earlier, at an operation whose operands have no result.
-/

namespace ExprMachine

/-- The offset of the instruction that a package is refused for. -/
def CheckError.offset : CheckError → Nat
  | unknownOpcode _ ip | truncatedOperands _ ip | constantOutOfRange _ ip _ | underflow _ ip
  | overflow _ ip _ => ip

/-- The fault of a run that meets what a package is refused for. -/
def CheckError.fault : CheckError → Fault
  | unknownOpcode byte ip => .unknownOpcode byte ip
  | truncatedOperands op ip => .truncatedOperand op ip
  | constantOutOfRange index _ poolSize => .constantOutOfRange index poolSize
  | underflow _ _ => .stackUnderflow
  | overflow _ _ capacity => .stackOverflow capacity

/-- The fault lies in the values of the operands. -/
def Fault.IsOfValues : Fault → Prop
  | typeMismatch .. | unsupportedOperands .. | arithmetic _ => True
  | _ => False

/-- The fault lies in the code, the pool or the depth of the stack. -/
def Fault.IsOfCode : Fault → Prop
  | stackOverflow _ | stackUnderflow | unknownOpcode .. | truncatedOperand ..
  | constantOutOfRange .. => True
  | _ => False

/-- Whether the instruction pushes a constant; the others are operations. -/
def Instruction.isConstant : Instruction → Bool
  | constant _ => true
  | arith _ => false

/-- The number of instructions of a package that push a constant. -/
def Package.constantCount (package : Package) : Nat :=
  (Instruction.decode package.code.toList).countP fun entry => entry.2.isConstant

/-- The number of operations of a package. -/
def Package.operationCount (package : Package) : Nat :=
  (Instruction.decode package.code.toList).countP fun entry => !entry.2.isConstant

theorem Fault.not_isOfCode_of_isOfValues {fault : Fault} (h : fault.IsOfValues) :
    ¬ fault.IsOfCode := by
  cases fault <;> simp [IsOfValues, IsOfCode] at h ⊢

/-! ## One instruction -/

namespace Check

theorem step_constant (poolSize capacity ip height index : Nat) :
    step poolSize capacity ip height (.constant index) =
      if poolSize ≤ index then .error (.constantOutOfRange index ip poolSize)
      else if capacity < height + 1 then .error (.overflow .constant ip capacity)
      else .ok (height + 1) := rfl

theorem step_arith (poolSize capacity ip height : Nat) (op : ArithOp) :
    step poolSize capacity ip height (.arith op) =
      if height < 2 then .error (.underflow (.arith op) ip)
      else if capacity < height - 2 + 1 then .error (.overflow (.arith op) ip capacity)
      else .ok (height - 2 + 1) := rfl

/-- An operation leaves one value less, so it never lacks room. -/
theorem step_arith_of_le {poolSize capacity ip height : Nat} {op : ArithOp}
    (hle : height ≤ capacity) :
    step poolSize capacity ip height (.arith op) =
      if height < 2 then .error (.underflow (.arith op) ip) else .ok (height - 1) := by
  rw [step_arith]
  by_cases h : height < 2
  · rw [if_pos h, if_pos h]
  · have hroom : ¬ capacity < height - 2 + 1 := by omega
    have hafter : height - 2 + 1 = height - 1 := by omega
    rw [if_neg h, if_neg h, if_neg hroom, hafter]

end Check

theorem Machine.isOfValues_of_compute {op : ArithOp} {left right : Value} {fault : Fault}
    (h : compute op left right = .error fault) : fault.IsOfValues := by
  unfold compute at h
  split at h
  · split at h
    · cases h
    · cases h
      trivial
  · split at h
    · cases h
      trivial
    · cases h
      trivial

section Step

variable {capacity ip : Nat} {constants : Array Value} {i : Instruction} {pile : Pile}

/-- **An instruction that the check lets pass** leaves the depth that the check says, unless its
operands have no result. -/
theorem perform_of_step_ok {after : Nat} (hle : pile.length ≤ capacity)
    (h : Check.step constants.size capacity ip pile.length i = .ok after) :
    (∃ pile', Pile.perform capacity constants i pile = ⟨pile', none⟩ ∧ pile'.length = after
        ∧ after ≤ capacity) ∨
      ∃ pile' fault, Pile.perform capacity constants i pile = ⟨pile', some fault⟩
        ∧ fault.IsOfValues := by
  cases i with
  | constant index =>
      rw [Check.step_constant] at h
      split at h
      · cases h
      rename_i hindex
      split at h
      · cases h
      rename_i hroom
      cases h
      have hget : constants[index]? = some constants[index] :=
        Array.getElem?_eq_getElem (Nat.lt_of_not_le hindex)
      refine .inl ⟨constants[index] :: pile, ?_, rfl, by omega⟩
      simp only [Pile.perform, hget, Pile.push]
      rw [if_pos (by omega)]
  | arith op =>
      rw [Check.step_arith_of_le hle] at h
      split at h
      · cases h
      rename_i hdepth
      cases h
      rcases pile with _ | ⟨right, _ | ⟨left, below⟩⟩
      · exact absurd Nat.zero_lt_two hdepth
      · exact absurd Nat.one_lt_two hdepth
      · simp only [List.length_cons] at hle ⊢
        rcases hcompute : Machine.compute op left right with fault | value
        · refine .inr ⟨below, fault, ?_, Machine.isOfValues_of_compute hcompute⟩
          simp only [Pile.perform, Pile.arithmetic, hcompute]
        · refine .inl ⟨value :: below, ?_, by simp, by omega⟩
          simp only [Pile.perform, Pile.arithmetic, hcompute]

/-- **An instruction that the check refuses** fails as the refusal says. -/
theorem perform_of_step_error {e : CheckError} (hle : pile.length ≤ capacity)
    (h : Check.step constants.size capacity ip pile.length i = .error e) :
    (Pile.perform capacity constants i pile).fault = some e.fault := by
  cases i with
  | constant index =>
      rw [Check.step_constant] at h
      split at h
      · rename_i hindex
        cases h
        simp only [Pile.perform]
        rw [Array.getElem?_eq_none hindex]
        rfl
      rename_i hindex
      split at h
      · rename_i hroom
        cases h
        simp only [Pile.perform]
        rw [Array.getElem?_eq_getElem (Nat.lt_of_not_le hindex)]
        dsimp only [Pile.push]
        rw [if_neg (by omega)]
        rfl
      · cases h
  | arith op =>
      rw [Check.step_arith_of_le hle] at h
      split at h
      · rename_i hdepth
        cases h
        match pile, hdepth with
        | [], _ => rfl
        | [_], _ => rfl
        | _ :: _ :: below, hdepth => exact absurd hdepth (by simp)
      · cases h

end Step

/-! ## The walk -/

namespace Check

theorem walk_eq (poolSize capacity ip height : Nat) (code : List UInt8) :
    walk poolSize capacity ip height code =
      match Instruction.fetch code with
      | .ending => .ok height
      | .unknown byte _ => .error (.unknownOpcode byte ip)
      | .truncated op => .error (.truncatedOperands op ip)
      | .complete i rest =>
        match step poolSize capacity ip height i with
        | .error e => .error e
        | .ok after => walk poolSize capacity (ip + i.size) after rest := by
  rw [walk]
  split <;> rename_i h <;> rewrite [h] <;> rfl

/-- A refusal is about the instruction that was looked at. -/
theorem offset_of_step_error {poolSize capacity ip height : Nat} {i : Instruction} {e : CheckError}
    (h : step poolSize capacity ip height i = .error e) : e.offset = ip := by
  cases i with
  | constant index =>
      rw [step_constant] at h
      split at h
      · cases h
        rfl
      split at h
      · cases h
        rfl
      · cases h
  | arith op =>
      rw [step_arith] at h
      split at h
      · cases h
        rfl
      split at h
      · cases h
        rfl
      · cases h

theorem le_offset_of_walk_error {poolSize capacity ip height : Nat} {code : List UInt8}
    {e : CheckError} (h : walk poolSize capacity ip height code = .error e) : ip ≤ e.offset := by
  induction code using Instruction.fetch_induction generalizing ip height with
  | ending code hfetch =>
    rw [walk_eq, hfetch] at h
    cases h
  | unknown code _ _ hfetch | truncated code _ hfetch =>
    rw [walk_eq, hfetch] at h
    cases h
    exact Nat.le_refl _
  | complete code i rest hfetch ih =>
    rw [walk_eq, hfetch] at h
    dsimp only at h
    rcases hstep : step poolSize capacity ip height i with e' | after
    · rw [hstep] at h
      cases h
      exact Nat.le_of_eq (offset_of_step_error hstep).symm
    · rw [hstep] at h
      exact Nat.le_trans (Nat.le_add_right _ _) (ih h)

end Check

theorem Instruction.decodeFrom_eq (ip : Nat) (code : List UInt8) (seen : List (Nat × Instruction)) :
    decodeFrom ip code seen =
      match fetch code with
      | .complete i rest => decodeFrom (ip + i.size) rest ((ip, i) :: seen)
      | .ending | .unknown .. | .truncated _ => seen.reverse := by
  rw [decodeFrom]
  split <;> rename_i h <;> rw [h]

/-- The instructions in front come first. -/
theorem Instruction.decodeFrom_append (ip : Nat) (code : List UInt8)
    (seen : List (Nat × Instruction)) :
    decodeFrom ip code seen = seen.reverse ++ decodeFrom ip code [] := by
  induction code using fetch_induction generalizing ip seen with
  | ending code hfetch | unknown code _ _ hfetch | truncated code _ hfetch =>
    rw [decodeFrom_eq, decodeFrom_eq ip code [], hfetch]
    exact (List.append_nil _).symm
  | complete code i rest hfetch ih =>
    rw [decodeFrom_eq, decodeFrom_eq ip code [], hfetch]
    dsimp only
    rw [ih, ih _ [(ip, i)], List.reverse_cons, List.append_assoc, List.reverse_singleton]

/-- Each constant adds a value and each operation takes one away. -/
theorem Check.step_height {poolSize capacity ip height after : Nat} {i : Instruction}
    (h : step poolSize capacity ip height i = .ok after) :
    after + (if i.isConstant then 0 else 1) = height + (if i.isConstant then 1 else 0) := by
  cases i with
  | constant index =>
      rw [step_constant] at h
      split at h
      · cases h
      split at h
      · cases h
      · cases h
        rfl
  | arith op =>
      rw [step_arith] at h
      split at h
      · cases h
      split at h
      · cases h
      · cases h
        show height - 2 + 1 + 1 = height
        omega

/-- A walk that ends has counted the instructions. -/
theorem Check.walk_height {poolSize capacity ip height final : Nat} {code : List UInt8}
    (h : walk poolSize capacity ip height code = .ok final) :
    final + (Instruction.decodeFrom ip code []).countP (fun entry => !entry.2.isConstant)
      = height + (Instruction.decodeFrom ip code []).countP fun entry => entry.2.isConstant := by
  induction code using Instruction.fetch_induction generalizing ip height with
  | ending code hfetch =>
    rw [walk_eq, hfetch] at h
    rw [Instruction.decodeFrom_eq, hfetch]
    cases h
    rfl
  | unknown code _ _ hfetch | truncated code _ hfetch =>
    rw [walk_eq, hfetch] at h
    cases h
  | complete code i rest hfetch ih =>
    rw [walk_eq, hfetch] at h
    rw [Instruction.decodeFrom_eq, hfetch]
    dsimp only at h ⊢
    rcases hstep : step poolSize capacity ip height i with e | after
    · rw [hstep] at h
      cases h
    rw [hstep] at h
    have hrest := ih h
    have hone := step_height hstep
    rw [Instruction.decodeFrom_append, List.countP_append, List.countP_append,
      List.reverse_singleton, List.countP_singleton, List.countP_singleton]
    cases hi : i.isConstant <;> simp [hi] at hone ⊢ <;> omega

section Run

variable {capacity ip : Nat} {constants : Array Value}

/-- **A run of code that the check lets pass** ends at the depth that the check says, or with a
fault that does not lie in the code. -/
theorem exec_of_walk_ok {final : Nat} {code : List UInt8} {pile : Pile}
    (hle : pile.length ≤ capacity)
    (h : Check.walk constants.size capacity ip pile.length code = .ok final)
    (limit : Option Nat) (steps : Nat) :
    ((Pile.exec capacity constants limit steps ip code pile).fault = none
        ∧ (Pile.exec capacity constants limit steps ip code pile).pile.length = final) ∨
      ∃ fault, (Pile.exec capacity constants limit steps ip code pile).fault = some fault
        ∧ ¬ fault.IsOfCode := by
  induction code using Instruction.fetch_induction generalizing steps ip pile with
  | ending code hfetch =>
    rw [Check.walk_eq, hfetch] at h
    rw [Pile.exec_eq, hfetch]
    cases h
    exact .inl ⟨rfl, rfl⟩
  | unknown code _ _ hfetch | truncated code _ hfetch =>
    rw [Check.walk_eq, hfetch] at h
    cases h
  | complete code i rest hfetch ih =>
    rw [Check.walk_eq, hfetch] at h
    rw [Pile.exec_eq, hfetch]
    dsimp only at h ⊢
    rcases hstep : Check.step constants.size capacity ip pile.length i with e | after
    · rw [hstep] at h
      cases h
    rw [hstep] at h
    rcases hspent : Machine.spent limit steps with _ | fault
    · rcases perform_of_step_ok hle hstep with
        ⟨pile', hperform, hlen, hcap⟩ | ⟨pile', fault, hperform, hvalues⟩
      · rw [hperform]
        subst hlen
        exact ih hcap h (steps + 1)
      · rw [hperform]
        exact .inr ⟨fault, rfl, Fault.not_isOfCode_of_isOfValues hvalues⟩
    · -- the limit is reached, which is no fault of the code either
      refine .inr ⟨fault, rfl, ?_⟩
      unfold Machine.spent at hspent
      split at hspent
      · split at hspent
        · cases hspent
          exact id
        · cases hspent
      · cases hspent

/-- **A run of code that the check refuses** gets to the refused instruction and fails there as the
refusal says, or fails before for the values of its operands. -/
theorem completes_of_walk_error {code : List UInt8} {stack : OperandStack} {e : CheckError}
    (h : Check.walk constants.size stack.capacity ip stack.top code = .error e) :
    ∃ n place fault, Machine.Completes constants ⟨ip, code, stack⟩ n place
      ∧ place.fault? constants = some fault
      ∧ ((place.ip = e.offset ∧ fault = e.fault) ∨ (place.ip < e.offset ∧ fault.IsOfValues)) := by
  have here : ∀ {ip code} {stack : OperandStack} {fault},
      (Place.mk ip code stack).fault? constants = some fault →
      ((ip = e.offset ∧ fault = e.fault) ∨ (ip < e.offset ∧ fault.IsOfValues)) →
      ∃ n place fault, Machine.Completes constants ⟨ip, code, stack⟩ n place
        ∧ place.fault? constants = some fault
        ∧ ((place.ip = e.offset ∧ fault = e.fault) ∨ (place.ip < e.offset ∧ fault.IsOfValues)) :=
    fun hfault hwhere => ⟨0, _, _, .refl _, hfault, hwhere⟩
  induction code using Instruction.fetch_induction generalizing ip stack with
  | ending code hfetch =>
    rw [Check.walk_eq, hfetch] at h
    cases h
  | unknown code _ _ hfetch | truncated code _ hfetch =>
    rw [Check.walk_eq, hfetch] at h
    cases h
    refine here ?_ (.inl ⟨rfl, rfl⟩)
    simp only [Place.fault?, hfetch, CheckError.fault]
  | complete code i rest hfetch ih =>
    rw [Check.walk_eq, hfetch] at h
    dsimp only at h
    have hplace : (Place.mk ip code stack).fault? constants
        = (Machine.perform constants i stack).view.fault := by
      simp only [Place.fault?, hfetch, RunEnd.view]
    obtain ⟨hview, hcap⟩ := Machine.perform_view constants i stack
    have hle : stack.pile.length ≤ stack.capacity := by
      rw [OperandStack.length_pile]
      exact stack.top_le_capacity
    rcases hstep : Check.step constants.size stack.capacity ip stack.top i with e' | after
    · rw [hstep] at h
      cases h
      rw [← OperandStack.length_pile] at hstep
      refine here ?_ (.inl ⟨(Check.offset_of_step_error hstep).symm, rfl⟩)
      rw [hplace, hview]
      exact perform_of_step_error hle hstep
    rw [hstep] at h
    rw [← OperandStack.length_pile] at hstep
    rcases perform_of_step_ok hle hstep with
      ⟨pile', hperform, hlen, -⟩ | ⟨pile', fault, hperform, hvalues⟩
    · -- the instruction completes, and the refusal is about a later one
      rcases hrun : Machine.perform constants i stack with ⟨next, fault⟩
      rw [hperform, hrun] at hview
      rw [hrun] at hcap
      obtain ⟨rfl, rfl⟩ := PileEnd.mk.inj hview
      dsimp only at hcap
      rw [← hlen, OperandStack.length_pile, ← hcap] at h
      obtain ⟨m, place, fault, hsteps, hfault, hwhere⟩ := ih h
      exact ⟨m + 1, place, fault, .step hfetch hrun hsteps, hfault, hwhere⟩
    · -- the operands have no result, and the refusal is about a later instruction
      have hlater := Check.le_offset_of_walk_error h
      have hsize := i.size_pos
      refine here ?_ (.inr ⟨by omega, hvalues⟩)
      rw [hplace, hview, hperform]

end Run

/-- A run of a package that the check refuses. -/
theorem Package.completes_of_check_error (package : Package) {stack : OperandStack} {e : CheckError}
    (h : package.check stack.capacity = .error e) :
    ∃ n place fault, Machine.Completes package.constants (package.start stack) n place
      ∧ place.fault? package.constants = some fault
      ∧ ((place.ip = e.offset ∧ fault = e.fault) ∨ (place.ip < e.offset ∧ fault.IsOfValues)) := by
  have hwalk : Check.walk package.constants.size stack.clear.capacity 0 stack.clear.top
      package.code.toList = .error e := h
  exact completes_of_walk_error hwalk

/-- A run of a package that passes the check ends at the depth that was computed, unless it fails for
something else than the code. -/
theorem Package.run_of_check_ok (package : Package) {stack : OperandStack} {height : Nat}
    (h : package.check stack.capacity = .ok height) (limit : Option Nat) :
    ((package.run limit stack).fault = none ∧ (package.run limit stack).stack.top = height) ∨
      ∃ fault, (package.run limit stack).fault = some fault ∧ ¬ fault.IsOfCode := by
  have hwalk : Check.walk package.constants.size stack.capacity 0 ([] : Pile).length
      package.code.toList = .ok height := h
  have hend := exec_of_walk_ok (Nat.zero_le _) hwalk limit 0
  rw [← package.run_view] at hend
  rw [← OperandStack.length_pile]
  exact hend

/-- A run that succeeds under some limit is a run of a package that the check lets pass. -/
theorem Package.check_of_run {package : Package} {limit : Option Nat} {stack : OperandStack}
    (h : (package.run limit stack).fault = none) :
    ∃ height, package.check stack.capacity = .ok height := by
  rcases hcheck : package.check stack.capacity with e | height
  · have hrun := Machine.exec_none_of_limit h
    obtain ⟨n, place, fault, hsteps, hfault, -⟩ := package.completes_of_check_error hcheck
    have hfails := Machine.exec_of_completes hsteps hfault 0
    have hsame : (package.run none stack).fault = none := (congrArg RunEnd.fault hrun).trans h
    exact absurd (hsame.symm.trans hfails) (by simp)
  · exact ⟨height, rfl⟩

/--
**The check is exact.**

A package that passes on a stack's capacity never fails for its code, its pool or the depth of the
stack, under any limit and whatever earlier runs have left in the slots; and a run that succeeds
leaves as many values as there are constants less operations. A package that is refused fails
without a limit: at the refused instruction as the refusal says, or at an earlier one whose operands
have no result. So nothing is refused that the machine would have run, and the pipeline gives the
machine's answer then.
-/
theorem check_exact (package : Package) (stack : OperandStack) :
    (match package.check stack.capacity with
      | .ok _ => ∀ limit,
        match (package.run limit stack).fault with
        | none =>
          (package.run limit stack).stack.live.length + package.operationCount
            = package.constantCount
        | some fault => ¬ fault.IsOfCode
      | .error e => ∃ n place fault,
        Machine.Completes package.constants (package.start stack) n place
          ∧ place.fault? package.constants = some fault
          ∧ (package.run none stack).fault = some fault
          ∧ ((place.ip = e.offset ∧ fault = e.fault) ∨ (place.ip < e.offset ∧ fault.IsOfValues)))
      ∧ ∀ limit, (package.run limit stack).fault = none →
        package.eval ⟨stack.capacity, limit⟩ = .ok (package.run limit stack).stack.peek? := by
  constructor
  · rcases hcheck : package.check stack.capacity with e | height
    · obtain ⟨n, place, fault, hsteps, hfault, hwhere⟩ :=
        package.completes_of_check_error hcheck
      exact ⟨n, place, fault, hsteps, hfault, Machine.exec_of_completes hsteps hfault 0, hwhere⟩
    · intro limit
      have hheight := Check.walk_height hcheck
      rcases hrun : (package.run limit stack).fault with _ | fault
      · rcases package.run_of_check_ok hcheck limit with ⟨-, htop⟩ | ⟨fault, hsome, -⟩
        · dsimp only
          rw [OperandStack.length_live, htop]
          exact hheight.trans (Nat.zero_add _)
        · exact absurd (hrun.symm.trans hsome) (by simp)
      · rcases package.run_of_check_ok hcheck limit with ⟨hnone, -⟩ | ⟨fault', hsome, hcode⟩
        · exact absurd (hnone.symm.trans hrun) (by simp)
        · obtain rfl := Option.some.inj (hsome.symm.trans hrun)
          exact hcode
  · intro limit h
    obtain ⟨height, hcheck⟩ := Package.check_of_run h
    -- the pipeline runs on a fresh stack, which makes no difference to the live values
    have hview : (package.run limit (.empty stack.capacity)).view
        = (package.run limit stack).view := package.run_view_congr limit rfl
    rcases hrun : package.run limit (.empty stack.capacity) with ⟨last, fault⟩
    rw [hrun] at hview
    obtain ⟨hpile, hfault⟩ := PileEnd.mk.inj hview
    rw [h] at hfault
    subst hfault
    simp only [Package.eval, hcheck, hrun, OperandStack.peek?_eq_head?, hpile]

end ExprMachine
