import ExprMachine.Value.Basic

/-!
# The operand stack

The values that the machine works on lie in slots. The slots below the top are live; those above it
still hold what an earlier use left there, which nobody reads. Popping only lowers the top, and
pushing writes over the slot there, so the slots are made once, when they are first needed, and used
again by every later run. There are never more slots than the capacity allows, and the top never
passes the last slot: both are part of the type.
-/

namespace ExprMachine

/-- A stack of bounded depth. -/
structure OperandStack where
  /-- How many values it may hold. -/
  capacity : Nat
  slots : Array Value
  /-- The number of live slots. -/
  top : Nat
  top_le : top ≤ slots.size
  slots_le : slots.size ≤ capacity

namespace OperandStack

/-- The empty stack. -/
def empty (capacity : Nat) : OperandStack :=
  ⟨capacity, #[], 0, Nat.le_refl _, Nat.zero_le _⟩

/-- Gives up all live values. -/
def clear (stack : OperandStack) : OperandStack :=
  { stack with top := 0, top_le := Nat.zero_le _ }

/-- The live values, the bottom first. -/
def live (stack : OperandStack) : List Value := (stack.slots.extract 0 stack.top).toList

/-- The value on top. -/
def peek? (stack : OperandStack) : Option Value :=
  if h : 0 < stack.top then
    have hslot : stack.top - 1 < stack.slots.size :=
      Nat.lt_of_lt_of_le (Nat.pred_lt_self h) stack.top_le
    some stack.slots[stack.top - 1]
  else none

/-- The stack with a value on top, which must have room. -/
def push (stack : OperandStack) (value : Value) (room : stack.top < stack.capacity) :
    OperandStack :=
  match stack, room with
  | ⟨capacity, slots, top, top_le, slots_le⟩, room =>
    if htop : top < slots.size then
      ⟨capacity, slots.set top value, top + 1, by rw [Array.size_set]; exact htop,
        by rw [Array.size_set]; exact slots_le⟩
    else
      ⟨capacity, slots.push value, top + 1,
        by rw [Array.size_push]; exact Nat.succ_le_succ top_le,
        by rw [Array.size_push]; exact Nat.lt_of_le_of_lt (Nat.le_of_not_lt htop) room⟩

/-- The value on top and the stack below it. -/
def pop? (stack : OperandStack) : Option (Value × OperandStack) :=
  if h : 0 < stack.top then
    have hslot : stack.top - 1 < stack.slots.size :=
      Nat.lt_of_lt_of_le (Nat.pred_lt_self h) stack.top_le
    some (stack.slots[stack.top - 1],
      { stack with top := stack.top - 1, top_le := Nat.le_of_lt hslot })
  else none

end OperandStack

end ExprMachine
