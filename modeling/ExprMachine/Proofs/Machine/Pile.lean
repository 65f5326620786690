import ExprMachine.Machine.Run

/-!
# The operand stack as a list

The machine keeps its values in slots that are never cleared. What a run depends on is much less:
the live values in order. `OperandStack.pile` is that list, top first, and each operation of the
stack is a constructor or a pattern on it.

The functions of the namespace `Pile` are the machine on lists. `Machine.perform_view` and
`Machine.exec_view` say that the slots add nothing: whatever an earlier use left above the top, an
instruction and a whole run do to the live values what the list machine does. Everything else about
runs is proved of lists and carried over by these two.
-/

namespace ExprMachine

/-- The values of a stack, the top first. -/
abbrev Pile : Type := List Value

/-- How a run on a list ended. -/
structure PileEnd where
  pile : Pile
  fault : Option Fault

namespace OperandStack

/-- The live values, the top first. -/
def pile (stack : OperandStack) : Pile := stack.live.reverse

theorem live_eq_take (stack : OperandStack) :
    stack.live = stack.slots.toList.take stack.top := by
  unfold live
  rw [Array.toList_extract, List.extract_eq_take_drop, Nat.sub_zero, List.drop_zero]

@[simp] theorem length_live (stack : OperandStack) : stack.live.length = stack.top := by
  rw [live_eq_take, List.length_take]
  exact Nat.min_eq_left stack.top_le

@[simp] theorem length_pile (stack : OperandStack) : stack.pile.length = stack.top := by
  rw [pile, List.length_reverse, length_live]

theorem top_le_capacity (stack : OperandStack) : stack.top ≤ stack.capacity :=
  Nat.le_trans stack.top_le stack.slots_le

@[simp] theorem pile_clear (stack : OperandStack) : stack.clear.pile = [] := by
  have h : stack.clear.pile.length = 0 := length_pile stack.clear
  exact List.length_eq_zero_iff.mp h

@[simp] theorem capacity_clear (stack : OperandStack) : stack.clear.capacity = stack.capacity := rfl

@[simp] theorem capacity_push (stack : OperandStack) (value : Value)
    (room : stack.top < stack.capacity) : (stack.push value room).capacity = stack.capacity := by
  unfold push
  split
  dsimp only
  split <;> rfl

@[simp] theorem pile_push (stack : OperandStack) (value : Value)
    (room : stack.top < stack.capacity) : (stack.push value room).pile = value :: stack.pile := by
  rcases stack with ⟨capacity, slots, top, top_le, slots_le⟩
  have hlive : (push ⟨capacity, slots, top, top_le, slots_le⟩ value room).live
      = slots.toList.take top ++ [value] := by
    unfold push
    dsimp only
    split
    · next htop =>
      rw [live_eq_take, Array.toList_set, List.take_succ_eq_append_getElem (by simpa using htop),
        List.getElem_set_self, List.take_set_of_le (Nat.le_refl top)]
    · next htop =>
      have heq : slots.size ≤ top := Nat.le_of_not_lt htop
      rw [live_eq_take, Array.toList_push, List.take_of_length_le (by simpa using heq),
        List.take_of_length_le (by simpa using heq)]
  rw [pile, hlive, List.reverse_append, pile, live_eq_take]
  rfl

/-- Popping takes the head of the list off, and there is nothing to pop off the empty list only. -/
theorem pop?_view (stack : OperandStack) :
    (stack.pop? = none ∧ stack.pile = []) ∨
      ∃ value below, stack.pop? = some (value, below) ∧ stack.pile = value :: below.pile
        ∧ below.capacity = stack.capacity := by
  unfold pop?
  split
  · next h =>
    have hslot : stack.top - 1 < stack.slots.size :=
      Nat.lt_of_lt_of_le (Nat.pred_lt_self h) stack.top_le
    refine .inr ⟨_, _, rfl, ?_, rfl⟩
    have htake := List.take_succ_eq_append_getElem (l := stack.slots.toList) (by simpa using hslot)
    rw [Nat.sub_add_cancel h, Array.getElem_toList] at htake
    rw [pile, live_eq_take, htake, List.reverse_append, pile, live_eq_take]
    rfl
  · next h =>
    have htop : stack.pile.length = 0 := by
      rw [length_pile]
      exact Nat.eq_zero_of_not_pos h
    exact .inl ⟨rfl, List.length_eq_zero_iff.mp htop⟩

theorem peek?_eq_head? (stack : OperandStack) : stack.peek? = stack.pile.head? := by
  unfold peek?
  split
  · next h =>
    have hslot : stack.top - 1 < stack.slots.size :=
      Nat.lt_of_lt_of_le (Nat.pred_lt_self h) stack.top_le
    rw [pile, List.head?_reverse, List.getLast?_eq_getElem?, length_live, live_eq_take,
      List.getElem?_take_of_lt (Nat.sub_lt h Nat.zero_lt_one), Array.getElem?_toList]
    exact (Array.getElem?_eq_getElem hslot).symm
  · next h =>
    have htop : stack.pile.length = 0 := by
      rw [length_pile]
      exact Nat.eq_zero_of_not_pos h
    rw [List.length_eq_zero_iff.mp htop]
    rfl

end OperandStack

namespace Pile

/-- Pushes a value, if there is room. -/
def push (capacity : Nat) (pile : Pile) (value : Value) : PileEnd :=
  if pile.length < capacity then ⟨value :: pile, none⟩
  else ⟨pile, some (.stackOverflow capacity)⟩

/-- Takes the right and then the left operand off and puts the result there. -/
def arithmetic (op : ArithOp) : Pile → PileEnd
  | right :: left :: below =>
    match Machine.compute op left right with
    | .error fault => ⟨below, some fault⟩
    | .ok value => ⟨value :: below, none⟩
  | _ => ⟨[], some .stackUnderflow⟩

/-- What one instruction does. -/
def perform (capacity : Nat) (constants : Array Value) (i : Instruction) (pile : Pile) : PileEnd :=
  match i with
  | .arith op => arithmetic op pile
  | .constant index =>
    match constants[index]? with
    | some value => push capacity pile value
    | none => ⟨pile, some (.constantOutOfRange index constants.size)⟩

/-- Runs code that starts at `ip`, after `steps` instructions. -/
def exec (capacity : Nat) (constants : Array Value) (limit : Option Nat) (steps ip : Nat)
    (code : List UInt8) (pile : Pile) : PileEnd :=
  match _ : Instruction.fetch code with
  | .ending => ⟨pile, none⟩
  | .unknown byte _ => ⟨pile, some ((Machine.spent limit steps).getD (.unknownOpcode byte ip))⟩
  | .truncated op => ⟨pile, some ((Machine.spent limit steps).getD (.truncatedOperand op ip))⟩
  | .complete i rest =>
    match Machine.spent limit steps with
    | some fault => ⟨pile, some fault⟩
    | none =>
      match perform capacity constants i pile with
      | ⟨pile, some fault⟩ => ⟨pile, some fault⟩
      | ⟨pile, none⟩ => exec capacity constants limit (steps + 1) (ip + i.size) rest pile
termination_by code.length
decreasing_by exact Instruction.length_rest_lt ‹_›

/-- A run takes the instruction that stands at the front of the code. -/
theorem exec_eq (capacity : Nat) (constants : Array Value) (limit : Option Nat) (steps ip : Nat)
    (code : List UInt8) (pile : Pile) :
    exec capacity constants limit steps ip code pile =
      match Instruction.fetch code with
      | .ending => ⟨pile, none⟩
      | .unknown byte _ => ⟨pile, some ((Machine.spent limit steps).getD (.unknownOpcode byte ip))⟩
      | .truncated op => ⟨pile, some ((Machine.spent limit steps).getD (.truncatedOperand op ip))⟩
      | .complete i rest =>
        match Machine.spent limit steps with
        | some fault => ⟨pile, some fault⟩
        | none =>
          match perform capacity constants i pile with
          | ⟨pile, some fault⟩ => ⟨pile, some fault⟩
          | ⟨pile, none⟩ => exec capacity constants limit (steps + 1) (ip + i.size) rest pile := by
  rw [exec]
  split <;> rename_i h <;> rw [h]

end Pile

/-- The end of a run without the slots. -/
def RunEnd.view (r : RunEnd) : PileEnd := ⟨r.stack.pile, r.fault⟩

namespace Machine

theorem push_view (stack : OperandStack) (value : Value) :
    (push stack value).view = Pile.push stack.capacity stack.pile value
      ∧ (push stack value).stack.capacity = stack.capacity := by
  unfold push Pile.push
  rw [OperandStack.length_pile]
  split
  · next room => exact ⟨by simp [RunEnd.view], stack.capacity_push value room⟩
  · exact ⟨rfl, rfl⟩

theorem arithmetic_view (op : ArithOp) (stack : OperandStack) :
    (arithmetic op stack).view = Pile.arithmetic op stack.pile
      ∧ (arithmetic op stack).stack.capacity = stack.capacity := by
  unfold arithmetic
  rcases stack.pop?_view with ⟨hpop, hpile⟩ | ⟨right, one, hpop, hpile, hcap⟩
  · rw [hpop]
    exact ⟨by simp [RunEnd.view, hpile, Pile.arithmetic], rfl⟩
  rw [hpop]
  dsimp only
  rcases one.pop?_view with ⟨hpop', hpile'⟩ | ⟨left, below, hpop', hpile', hcap'⟩
  · rw [hpop']
    exact ⟨by simp [RunEnd.view, hpile, hpile', Pile.arithmetic], hcap⟩
  rw [hpop', hpile, hpile']
  dsimp only [Pile.arithmetic]
  rcases compute op left right with fault | value
  · exact ⟨rfl, hcap'.trans hcap⟩
  · dsimp only
    -- two values were taken off, so there is room for one
    have hroom : below.top < below.capacity := by
      have hlen := congrArg List.length hpile
      have hlen' := congrArg List.length hpile'
      have hle := stack.top_le_capacity
      simp only [OperandStack.length_pile, List.length_cons] at hlen hlen'
      omega
    obtain ⟨hview, hpush⟩ := push_view below value
    refine ⟨?_, hpush.trans (hcap'.trans hcap)⟩
    rw [hview, Pile.push, OperandStack.length_pile, if_pos hroom]

/-- **One instruction** does to the live values what it does to a list, and the capacity stays. -/
theorem perform_view (constants : Array Value) (i : Instruction) (stack : OperandStack) :
    (perform constants i stack).view = Pile.perform stack.capacity constants i stack.pile
      ∧ (perform constants i stack).stack.capacity = stack.capacity := by
  cases i with
  | arith op => exact arithmetic_view op stack
  | constant index =>
    unfold perform Pile.perform
    dsimp only
    split
    · next h =>
      rw [Array.getElem?_eq_getElem h]
      exact push_view stack _
    · next h =>
      rw [Array.getElem?_eq_none (Nat.le_of_not_lt h)]
      exact ⟨rfl, rfl⟩

theorem exec_eq (constants : Array Value) (limit : Option Nat) (steps ip : Nat)
    (code : List UInt8) (stack : OperandStack) :
    exec constants limit steps ip code stack =
      match Instruction.fetch code with
      | .ending => ⟨stack, none⟩
      | .unknown byte _ => ⟨stack, some ((spent limit steps).getD (.unknownOpcode byte ip))⟩
      | .truncated op => ⟨stack, some ((spent limit steps).getD (.truncatedOperand op ip))⟩
      | .complete i rest =>
        match spent limit steps with
        | some fault => ⟨stack, some fault⟩
        | none =>
          match perform constants i stack with
          | ⟨stack, some fault⟩ => ⟨stack, some fault⟩
          | ⟨stack, none⟩ => exec constants limit (steps + 1) (ip + i.size) rest stack := by
  rw [exec]
  split <;> rename_i h <;> rewrite [h] <;> rfl

/-- **A run** does to the live values what it does to a list. -/
theorem exec_view (constants : Array Value) (limit : Option Nat) (steps ip : Nat)
    (code : List UInt8) (stack : OperandStack) :
    (exec constants limit steps ip code stack).view
      = Pile.exec stack.capacity constants limit steps ip code stack.pile := by
  induction code using Instruction.fetch_induction generalizing steps ip stack with
  | ending code hfetch | unknown code _ _ hfetch | truncated code _ hfetch =>
    rw [exec_eq, Pile.exec_eq, hfetch]
    rfl
  | complete code i rest hfetch ih =>
    rw [exec_eq, Pile.exec_eq, hfetch]
    dsimp only
    rcases spent limit steps with _ | fault
    case some => rfl
    dsimp only
    -- the capacity is the stack's own, so the induction needs that the instruction keeps it
    obtain ⟨hview, hcap⟩ := perform_view constants i stack
    rw [← hview]
    rcases hperform : perform constants i stack with ⟨after, fault⟩
    rw [hperform] at hcap
    cases fault with
    | some fault => rfl
    | none =>
      dsimp only [RunEnd.view] at hcap ⊢
      rw [← hcap]
      exact ih (steps + 1) (ip + i.size) after

end Machine

end ExprMachine
