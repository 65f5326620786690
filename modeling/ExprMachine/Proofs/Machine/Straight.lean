import ExprMachine.Proofs.Machine.Pile

/-!
# Instructions one after the other

There are no jumps, so running the bytes of some instructions is performing the instructions in
turn. `Pile.performAll` does that on a list of instructions, without bytes and offsets, and
`Pile.exec_encodeAll` says that the machine does the same when it runs their bytes, whatever code
stands behind them.

Bytes hold numbers below 65536 only. An instruction whose operand is larger is written as another
instruction; `Instruction.Encodable` excludes those.
-/

namespace ExprMachine

namespace Operand

/-- A number of two bytes is written as the bytes that it is read from. -/
theorem word_ofNat {n : Nat} (h : n < 65536) : word (UInt8.ofNat (n / 256)) (UInt8.ofNat n) = n := by
  unfold word
  rw [UInt8.toNat_ofNat', UInt8.toNat_ofNat']
  omega

end Operand

namespace Instruction

/-- The operand fits the bytes it is written in. -/
def Encodable : Instruction → Prop
  | constant index => index < 65536
  | arith _ => True

/-- The bytes of some instructions. -/
def encodeAll (is : List Instruction) : List UInt8 := is.flatMap encode

theorem length_encode (i : Instruction) : i.encode.length = i.size := by
  cases i with
  | constant index => rfl
  | arith op => rfl

@[simp] theorem encodeAll_nil : encodeAll [] = [] := rfl

@[simp] theorem encodeAll_cons (i : Instruction) (is : List Instruction) :
    encodeAll (i :: is) = i.encode ++ encodeAll is := rfl

theorem encodeAll_append (is js : List Instruction) :
    encodeAll (is ++ js) = encodeAll is ++ encodeAll js := List.flatMap_append

/-- An instruction is read off the bytes it was written as. -/
theorem fetch_encode {i : Instruction} (h : i.Encodable) (rest : List UInt8) :
    fetch (i.encode ++ rest) = .complete i rest := by
  cases i with
  | constant index =>
      show Fetch.complete
        (.constant (Operand.word (UInt8.ofNat (index / 256)) (UInt8.ofNat index))) rest = _
      rw [Operand.word_ofNat h]
  | arith op => cases op <;> rfl

end Instruction

namespace Pile

variable {capacity : Nat} {constants : Array Value}

/-- Performs instructions up to the first that fails. -/
def performAll (capacity : Nat) (constants : Array Value) : List Instruction → Pile → PileEnd
  | [], pile => ⟨pile, none⟩
  | i :: is, pile =>
    match perform capacity constants i pile with
    | ⟨pile, some fault⟩ => ⟨pile, some fault⟩
    | ⟨pile, none⟩ => performAll capacity constants is pile

theorem performAll_append (is js : List Instruction) (pile : Pile) :
    performAll capacity constants (is ++ js) pile =
      match performAll capacity constants is pile with
      | ⟨pile, some fault⟩ => ⟨pile, some fault⟩
      | ⟨pile, none⟩ => performAll capacity constants js pile := by
  induction is generalizing pile with
  | nil => rfl
  | cons i is ih =>
      rw [List.cons_append, performAll, performAll]
      rcases perform capacity constants i pile with ⟨after, _ | fault⟩
      · exact ih after
      · rfl

/-- What is behind a failing instruction does not matter. -/
theorem performAll_append_of_fault {is : List Instruction} {pile : Pile} {fault : Fault}
    (h : (performAll capacity constants is pile).fault = some fault) (js : List Instruction) :
    performAll capacity constants (is ++ js) pile = performAll capacity constants is pile := by
  rw [performAll_append]
  rcases hrun : performAll capacity constants is pile with ⟨after, fault'⟩
  rw [hrun] at h
  obtain rfl : fault' = _ := h
  rfl

/-- **A run of the bytes of some instructions** performs them and goes on behind them. -/
theorem exec_encodeAll {is : List Instruction} (h : ∀ i ∈ is, i.Encodable) (rest : List UInt8)
    (steps ip : Nat) (pile : Pile) :
    exec capacity constants none steps ip (Instruction.encodeAll is ++ rest) pile =
      match performAll capacity constants is pile with
      | ⟨pile, some fault⟩ => ⟨pile, some fault⟩
      | ⟨pile, none⟩ =>
        exec capacity constants none (steps + is.length) (ip + (Instruction.encodeAll is).length)
          rest pile := by
  induction is generalizing steps ip pile with
  | nil => rfl
  | cons i is ih =>
      have hfetch := Instruction.fetch_encode (h i (List.mem_cons_self ..))
        (Instruction.encodeAll is ++ rest)
      have hip : ip + i.size + (Instruction.encodeAll is).length
          = ip + (Instruction.encodeAll (i :: is)).length := by
        rw [Instruction.encodeAll_cons, List.length_append, Instruction.length_encode,
          Nat.add_assoc]
      have hsteps : steps + 1 + is.length = steps + (i :: is).length := by
        rw [List.length_cons]
        omega
      rw [Instruction.encodeAll_cons, List.append_assoc, exec_eq, hfetch]
      dsimp only [Machine.spent]
      rw [performAll]
      rcases perform capacity constants i pile with ⟨after, _ | fault⟩
      · dsimp only
        rw [ih (fun j hj => h j (List.mem_cons_of_mem _ hj)), hip, hsteps,
          Instruction.encodeAll_cons]
      · rfl

end Pile

end ExprMachine
