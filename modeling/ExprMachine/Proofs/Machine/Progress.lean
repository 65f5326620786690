import ExprMachine.Proofs.Machine.Pile

/-!
# How far a run got

A run answers with a stack and perhaps a fault, which does not say where the run was when it
stopped. A `Place` does: the offset, the code from there on, and the stack in front of it.
`Completes` relates a place to the one that a number of successful instructions lead to, and
`Place.fault?` is what the instruction at a place would fail with.

The run and the relation tell the same story: a run without a limit ends with the fault of the first
place, along the instructions that complete, that has one (`exec_of_completes`).
-/

namespace ExprMachine

/-- Where a run is: in front of the instruction at an offset. -/
structure Place where
  /-- The offset of the next instruction. -/
  ip : Nat
  /-- The code from that offset on. -/
  code : List UInt8
  stack : OperandStack

/-- Where a run of a package begins. -/
def Package.start (package : Package) (stack : OperandStack) : Place :=
  ⟨0, package.code.toList, stack.clear⟩

/-- The fault of the instruction at a place, if it has one. -/
def Place.fault? (constants : Array Value) (place : Place) : Option Fault :=
  match Instruction.fetch place.code with
  | .ending => none
  | .unknown byte _ => some (.unknownOpcode byte place.ip)
  | .truncated op => some (.truncatedOperand op place.ip)
  | .complete i _ => (Machine.perform constants i place.stack).fault

namespace Machine

/-- `Completes constants p n q`: from `p`, `n` instructions succeed one after the other, and then
the run is at `q`. -/
inductive Completes (constants : Array Value) : Place → Nat → Place → Prop where
  | refl (place : Place) : Completes constants place 0 place
  | step {ip n : Nat} {code rest : List UInt8} {i : Instruction} {stack after : OperandStack}
      {last : Place} :
      Instruction.fetch code = .complete i rest → perform constants i stack = ⟨after, none⟩ →
      Completes constants ⟨ip + i.size, rest, after⟩ n last →
      Completes constants ⟨ip, code, stack⟩ (n + 1) last

/-- The fault of a place is the fault of the run that starts there. -/
theorem exec_of_fault {constants : Array Value} {place : Place} {fault : Fault} {steps : Nat}
    (h : place.fault? constants = some fault) :
    (exec constants none steps place.ip place.code place.stack).fault = some fault := by
  rw [exec_eq]
  unfold Place.fault? at h
  rcases hfetch : Instruction.fetch place.code with _ | ⟨byte, rest⟩ | op | ⟨i, rest⟩
  · rw [hfetch] at h
    cases h
  · rw [hfetch] at h
    exact h
  · rw [hfetch] at h
    exact h
  · rw [hfetch] at h
    rcases hperform : perform constants i place.stack with ⟨after, fault'⟩
    dsimp only [spent] at h ⊢
    rw [hperform] at h ⊢
    subst h
    rfl

/-- **A run without a limit** passes every instruction that completes and ends with the fault of the
place behind them. -/
theorem exec_of_completes {constants : Array Value} {p q : Place} {n : Nat} {fault : Fault}
    (h : Completes constants p n q) (hfault : q.fault? constants = some fault) (steps : Nat) :
    (exec constants none steps p.ip p.code p.stack).fault = some fault := by
  induction h generalizing steps with
  | refl => exact exec_of_fault hfault
  | step hfetch hperform _ ih =>
      rw [exec_eq, hfetch]
      dsimp only [spent]
      rw [hperform]
      exact ih hfault (steps + 1)

/-- A limit only ends a run early: a run that succeeds under one succeeds without. -/
theorem exec_none_of_limit {constants : Array Value} {limit : Option Nat} {steps ip : Nat}
    {code : List UInt8} {stack : OperandStack}
    (h : (exec constants limit steps ip code stack).fault = none) :
    exec constants none steps ip code stack = exec constants limit steps ip code stack := by
  induction code using Instruction.fetch_induction generalizing steps ip stack with
  | ending code hfetch =>
    rw [exec_eq, exec_eq constants limit, hfetch]
  | unknown code _ _ hfetch | truncated code _ hfetch =>
    rw [exec_eq, hfetch] at h
    cases h
  | complete code i rest hfetch ih =>
    rw [exec_eq, hfetch] at h
    rw [exec_eq, exec_eq constants limit, hfetch]
    dsimp only at h ⊢
    rcases hspent : spent limit steps with _ | fault
    case some => rw [hspent] at h; cases h
    rw [hspent] at h
    dsimp only [spent] at h ⊢
    rcases hperform : perform constants i stack with ⟨after, fault⟩
    rw [hperform] at h
    cases fault with
    | some fault => rfl
    | none => exact ih h

end Machine

/-- What a run does to the live values depends on the capacity of the stack alone, not on what an
earlier run has left in its slots. -/
theorem Package.run_view (package : Package) (limit : Option Nat) (stack : OperandStack) :
    (package.run limit stack).view
      = Pile.exec stack.capacity package.constants limit 0 0 package.code.toList [] := by
  unfold run
  rw [Machine.exec_view, OperandStack.pile_clear, OperandStack.capacity_clear]

/-- Runs on two stacks of one capacity end alike. -/
theorem Package.run_view_congr (package : Package) (limit : Option Nat) {a b : OperandStack}
    (h : a.capacity = b.capacity) : (package.run limit a).view = (package.run limit b).view := by
  rw [package.run_view, package.run_view, h]

end ExprMachine
