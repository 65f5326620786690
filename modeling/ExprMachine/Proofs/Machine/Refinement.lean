import ExprMachine.Proofs.Machine.Progress
import ExprMachine.Proofs.Machine.Semantics

/-!
# The machine does what a run means

The machine against the relations of the semantics, from the inside out. `compute` decides what an
operation yields, `Pile.perform` what an instruction does, and `fetch` which instruction stands at
an offset. From these, a run on a list and the relations go along the same configurations
(`exec_of_reaches`) and end in the same way (`halts_iff_exec`).

The list then gives way to the slots: `Package.run_view` says that a run depends on a stack's
capacity alone, so it does not matter how many runs the stack has been through, or how they ended.
-/

namespace ExprMachine

open Semantics

/-! ## Operations -/

namespace Value

/-- Only numbers have the type of a number. -/
theorem eq_int_of_typeName {value : Value} {n : Int64} (h : value.typeName = (int n).typeName) :
    ∃ m, value = int m := by
  cases value with
  | int m => exact ⟨m, rfl⟩
  | _ => simp [typeName] at h

end Value

namespace Machine

variable {op : ArithOp} {left right : Value}

theorem compute_int (op : ArithOp) (a b : Int64) :
    compute op (.int a) (.int b) =
      match op.apply a b with
      | .ok n => .ok (.int n)
      | .error e => .error (.arithmetic e) := rfl

/-- Without a number on the left there is no result. -/
theorem compute_of_not_int (hleft : ∀ n, left ≠ .int n) :
    compute op left right =
      if left.typeName = right.typeName then
        .error (.unsupportedOperands left.typeName op right.typeName)
      else .error (.typeMismatch left.typeName op right.typeName) := by
  cases left with
  | int n => exact absurd rfl (hleft n)
  | _ => rfl

theorem compute_of_types (h : left.typeName ≠ right.typeName) :
    compute op left right = .error (.typeMismatch left.typeName op right.typeName) := by
  unfold compute
  split
  · exact absurd rfl h
  · rw [if_neg h]

/-- Only numbers have a result, which is a number. -/
theorem numbers_of_yields {value : Value} (h : Yields op left right value) :
    ∃ a b n, left = .int a ∧ right = .int b ∧ value = .int n := by
  cases h with
  | add | sub | mul | div => exact ⟨_, _, _, rfl, rfl, rfl⟩

/-- The operations, one by one, are those of the words. -/
theorem yields_int_iff {a b n : Int64} :
    Yields op (.int a) (.int b) (.int n) ↔ op.apply a b = .ok n := by
  rw [ArithOp.apply_eq_ok_iff]
  constructor
  · intro h
    cases h with
    | add hexact | sub hexact | mul hexact => exact ⟨nofun, hexact⟩
    | div hb hexact => exact ⟨fun hzero => hb hzero.2, hexact⟩
  · rintro ⟨hzero, hexact⟩
    cases op with
    | add => exact .add hexact
    | sub => exact .sub hexact
    | mul => exact .mul hexact
    | div => exact .div (fun hb => hzero ⟨rfl, hb⟩) hexact

/-- The reasons for which an operation on numbers has no result are those of the words. -/
theorem refuses_int_iff {a b : Int64} {fault : Fault} :
    Refuses op (.int a) (.int b) fault ↔ ∃ e, op.apply a b = .error e ∧ fault = .arithmetic e := by
  simp only [ArithOp.apply_eq_error_iff, not_fitsWord_iff]
  constructor
  · intro h
    cases h with
    | add hrange | sub hrange | mul hrange => exact ⟨_, .inr ⟨nofun, hrange, rfl⟩, rfl⟩
    | div hb hrange => exact ⟨_, .inr ⟨fun hzero => hb hzero.2, hrange, rfl⟩, rfl⟩
    | zero => exact ⟨_, .inl ⟨⟨rfl, rfl⟩, rfl⟩, rfl⟩
    | types htypes => exact absurd rfl htypes
    | noNumbers _ hleft => exact absurd rfl (hleft a)
  · rintro ⟨_, ⟨⟨rfl, rfl⟩, rfl⟩ | ⟨hzero, hrange, rfl⟩, rfl⟩
    · exact .zero a
    · cases op with
      | add => exact .add hrange
      | sub => exact .sub hrange
      | mul => exact .mul hrange
      | div => exact .div (fun hb => hzero ⟨rfl, hb⟩) hrange

theorem compute_eq_ok_iff {value : Value} :
    compute op left right = .ok value ↔ Yields op left right value := by
  constructor
  · intro h
    unfold compute at h
    split at h
    · split at h
      · next happly =>
        cases h
        exact yields_int_iff.mpr happly
      · cases h
    · split at h <;> cases h
  · intro h
    obtain ⟨a, b, n, rfl, rfl, rfl⟩ := numbers_of_yields h
    rw [compute_int, yields_int_iff.mp h]

theorem compute_int_eq_error_iff {a b : Int64} {fault : Fault} :
    compute op (.int a) (.int b) = .error fault ↔ Refuses op (.int a) (.int b) fault := by
  rw [refuses_int_iff, compute_int]
  rcases op.apply a b with e | n
  · simp [eq_comm]
  · simp

theorem compute_eq_error_iff {fault : Fault} :
    compute op left right = .error fault ↔ Refuses op left right fault := by
  constructor
  · intro h
    unfold compute at h
    split at h
    · split at h
      · cases h
      · next e happly =>
        cases h
        exact refuses_int_iff.mpr ⟨e, happly, rfl⟩
    · next hnumbers =>
      split at h
      · next htypes =>
        cases h
        refine .noNumbers htypes fun n hleft => ?_
        subst hleft
        obtain ⟨m, hright⟩ := Value.eq_int_of_typeName htypes.symm
        exact hnumbers n m rfl hright
      · next htypes =>
        cases h
        exact .types htypes
  · intro h
    cases h with
    | add hrange => exact compute_int_eq_error_iff.mpr (.add hrange)
    | sub hrange => exact compute_int_eq_error_iff.mpr (.sub hrange)
    | mul hrange => exact compute_int_eq_error_iff.mpr (.mul hrange)
    | div hb hrange => exact compute_int_eq_error_iff.mpr (.div hb hrange)
    | zero a => exact compute_int_eq_error_iff.mpr (.zero a)
    | types htypes => exact compute_of_types htypes
    | noNumbers htypes hleft => rw [compute_of_not_int hleft, if_pos htypes]

end Machine

/-! ## Instructions -/

namespace Pile

variable {capacity : Nat} {constants : Array Value} {i : Instruction} {before after : Pile}

theorem perform_eq_none_iff :
    perform capacity constants i before = ⟨after, none⟩ ↔
      Takes capacity constants i before after := by
  constructor
  · intro h
    cases i with
    | constant index =>
        simp only [perform, push] at h
        split at h
        · next hvalue =>
          split at h
          · next hroom =>
            cases h
            exact .constant hvalue hroom
          · cases h
        · cases h
    | arith op =>
        simp only [perform, arithmetic] at h
        split at h
        · split at h
          · cases h
          · next hcompute =>
            cases h
            exact .arith (Machine.compute_eq_ok_iff.mp hcompute)
        · cases h
  · intro h
    cases h with
    | constant hvalue hroom => simp only [perform, push, hvalue, if_pos hroom]
    | arith hyields => simp only [perform, arithmetic, Machine.compute_eq_ok_iff.mpr hyields]

theorem perform_eq_some_iff {fault : Fault} :
    perform capacity constants i before = ⟨after, some fault⟩ ↔
      Fails capacity constants i before after fault := by
  constructor
  · intro h
    cases i with
    | constant index =>
        simp only [perform, push] at h
        split at h
        · next hvalue =>
          split at h
          · cases h
          · next hroom =>
            cases h
            exact .noRoom hvalue (Nat.le_of_not_lt hroom)
        · next hvalue =>
          cases h
          exact .noConstant hvalue
    | arith op =>
        rcases before with _ | ⟨right, _ | ⟨left, below⟩⟩
        · cases h
          exact .noOperands Nat.zero_lt_two
        · cases h
          exact .noOperands Nat.one_lt_two
        · simp only [perform, arithmetic] at h
          split at h
          · next hcompute =>
            cases h
            exact .noResult (Machine.compute_eq_error_iff.mp hcompute)
          · cases h
  · intro h
    cases h with
    | noConstant hvalue => simp only [perform, hvalue]
    | noRoom hvalue hroom =>
        simp only [perform, push, hvalue, if_neg (Nat.not_lt.mpr hroom)]
    | noOperands hfew =>
        rcases before with _ | ⟨right, _ | ⟨left, below⟩⟩
        · rfl
        · rfl
        · exact absurd hfew (by simp)
    | noResult hrefuses =>
        simp only [perform, arithmetic, Machine.compute_eq_error_iff.mpr hrefuses]

end Pile

/-! ## Code -/

section Code

variable {code : Array UInt8} {ip next : Nat} {i : Instruction}

/-- The code from an offset on, by the byte there. -/
theorem drop_of_getElem? {byte : UInt8} (h : code[ip]? = some byte) :
    code.toList.drop ip = byte :: code.toList.drop (ip + 1) := by
  rw [← Array.getElem?_toList] at h
  obtain ⟨hlt, rfl⟩ := List.getElem?_eq_some_iff.mp h
  exact List.drop_eq_getElem_cons hlt

theorem fetch_of_stands (h : Stands code ip i next) :
    Instruction.fetch (code.toList.drop ip) = .complete i (code.toList.drop next)
      ∧ next = ip + i.size ∧ next ≤ code.size := by
  cases h with
  | @constant hi lo hop hhi hlo =>
      obtain ⟨hlt, -⟩ := Array.getElem?_eq_some_iff.mp hlo
      rw [drop_of_getElem? hop, drop_of_getElem? hhi, drop_of_getElem? hlo]
      refine ⟨?_, rfl, hlt⟩
      rw [Instruction.fetch_constant (Opcode.ofByte?_byte _)]
      show Fetch.complete (.constant (Operand.word hi lo)) _ = _
      rw [Operand.word, Nat.mul_comm]
      rfl
  | @arith op hop =>
      obtain ⟨hlt, -⟩ := Array.getElem?_eq_some_iff.mp hop
      rw [drop_of_getElem? hop]
      exact ⟨Instruction.fetch_arith (Opcode.ofByte?_byte _) _, rfl, hlt⟩

/-- At an offset the code ends, holds an instruction, or is malformed. -/
theorem ends_or_stands_or_malformed (code : Array UInt8) (ip : Nat) :
    code.size ≤ ip ∨ (∃ i next, Stands code ip i next) ∨ ∃ fault, Malformed code ip fault := by
  rcases hbyte : code[ip]? with _ | byte
  · exact .inl (Array.getElem?_eq_none_iff.mp hbyte)
  rcases hop : Opcode.ofByte? byte with _ | op
  · refine .inr (.inr ⟨_, .unknown hbyte fun op hop' => ?_⟩)
    rw [← hop', Opcode.ofByte?_byte] at hop
    cases hop
  obtain rfl := Opcode.byte_of_ofByte? hop
  cases op with
  | arith op => exact .inr (.inl ⟨_, _, .arith hbyte⟩)
  | constant =>
      rcases hlo : code[ip + 2]? with _ | lo
      · exact .inr (.inr ⟨_, .truncated hbyte hlo⟩)
      · obtain ⟨hlt, -⟩ := Array.getElem?_eq_some_iff.mp hlo
        have hhi := Array.getElem?_eq_getElem (Nat.lt_of_succ_lt hlt)
        exact .inr (.inl ⟨_, _, .constant hbyte hhi hlo⟩)

theorem fetch_of_malformed {fault : Fault} (h : Malformed code ip fault) :
    (∃ byte rest, Instruction.fetch (code.toList.drop ip) = .unknown byte rest
        ∧ fault = .unknownOpcode byte ip) ∨
      (Instruction.fetch (code.toList.drop ip) = .truncated .constant
        ∧ fault = .truncatedOperand .constant ip) := by
  cases h with
  | @unknown byte hbyte hnone =>
      have hop : Opcode.ofByte? byte = none := by
        rcases hop : Opcode.ofByte? byte with _ | op
        · rfl
        · exact absurd (Opcode.byte_of_ofByte? hop) (hnone op)
      refine .inl ⟨byte, code.toList.drop (ip + 1), ?_, rfl⟩
      rw [drop_of_getElem? hbyte, Instruction.fetch_unknown hop]
  | truncated hop hlo =>
      have hshort : (code.toList.drop (ip + 1)).length < 2 := by
        have hsize := Array.getElem?_eq_none_iff.mp hlo
        rw [List.length_drop, Array.length_toList]
        omega
      refine .inr ⟨?_, rfl⟩
      rw [drop_of_getElem? hop, Instruction.fetch_known (Opcode.ofByte?_byte _)]
      exact if_pos hshort

/-- An instruction that is fetched stands there. -/
theorem stands_of_fetch {rest : List UInt8}
    (h : Instruction.fetch (code.toList.drop ip) = .complete i rest) :
    Stands code ip i (ip + i.size) ∧ rest = code.toList.drop (ip + i.size) := by
  rcases ends_or_stands_or_malformed code ip with hend | ⟨j, next, hstands⟩ | ⟨fault, hmal⟩
  · rw [List.drop_eq_nil_of_le (by simpa using hend)] at h
    cases h
  · obtain ⟨hfetch, rfl, -⟩ := fetch_of_stands hstands
    obtain ⟨rfl, rfl⟩ := Fetch.complete.inj (h.symm.trans hfetch)
    exact ⟨hstands, rfl⟩
  · rcases fetch_of_malformed hmal with ⟨byte, rest', hfetch, -⟩ | ⟨hfetch, -⟩
    · exact absurd (h.symm.trans hfetch) (by simp)
    · exact absurd (h.symm.trans hfetch) (by simp)

/-- What a run does at an offset without an instruction. -/
theorem exec_of_malformed {fault : Fault} (h : Malformed code ip fault) (capacity : Nat)
    (constants : Array Value) (limit : Option Nat) (steps : Nat) (pile : Pile) :
    Pile.exec capacity constants limit steps ip (code.toList.drop ip) pile
      = ⟨pile, some ((Machine.spent limit steps).getD fault)⟩ := by
  rw [Pile.exec_eq]
  rcases fetch_of_malformed h with ⟨byte, rest, hfetch, rfl⟩ | ⟨hfetch, rfl⟩
  · rw [hfetch]
  · rw [hfetch]

end Code

/-! ## Runs on a list -/

namespace Machine

theorem spent_eq_none_iff {limit : Option Nat} {steps : Nat} :
    spent limit steps = none ↔ ∀ most ∈ limit, steps < most := by
  cases limit with
  | none => simp [spent]
  | some most => simp [spent]

theorem spent_eq_some_iff {limit : Option Nat} {steps : Nat} {fault : Fault} :
    spent limit steps = some fault ↔ ∃ most ∈ limit, most ≤ steps ∧ fault = .stepLimit most := by
  cases limit with
  | none => simp [spent]
  | some most => simp [spent, eq_comm]

end Machine

section Run

variable {package : Package} {capacity n ip : Nat} {values : Pile}

/-- A run never leaves the code. -/
theorem ip_le_of_reaches {c : Config} (h : Reaches package capacity n c) :
    c.ip ≤ package.code.size := by
  cases h with
  | start => exact Nat.zero_le _
  | step _ hstands _ => exact (fetch_of_stands hstands).2.2

/-- **One instruction**: a run goes on behind an instruction that does not fail. -/
theorem exec_of_takes {limit : Option Nat} {next : Nat} {i : Instruction} {after : Pile}
    (hlimit : ∀ most ∈ limit, n < most) (hstands : Stands package.code ip i next)
    (htakes : Takes capacity package.constants i values after) :
    Pile.exec capacity package.constants limit n ip (package.code.toList.drop ip) values
      = Pile.exec capacity package.constants limit (n + 1) next (package.code.toList.drop next)
        after := by
  obtain ⟨hfetch, rfl, -⟩ := fetch_of_stands hstands
  rw [Pile.exec_eq, hfetch]
  dsimp only
  rw [Machine.spent_eq_none_iff.mpr hlimit, Pile.perform_eq_none_iff.mpr htakes]

/-- **A run** passes every configuration that is reached. -/
theorem exec_of_reaches {limit : Option Nat} {c : Config} (h : Reaches package capacity n c)
    (hlimit : ∀ most ∈ limit, n ≤ most) :
    Pile.exec capacity package.constants limit 0 0 package.code.toList []
      = Pile.exec capacity package.constants limit n c.ip (package.code.toList.drop c.ip)
        c.values := by
  induction h with
  | start => rfl
  | step _ hstands htakes ih =>
      rw [ih fun most hmost => Nat.le_of_succ_le (hlimit most hmost)]
      exact exec_of_takes hlimit hstands htakes

/-- A run ends as the relations say. -/
theorem exec_of_halts {limits : Limits} {fault : Option Fault}
    (h : Halts package limits values fault) :
    Pile.exec limits.stackSize package.constants limits.maxSteps 0 0 package.code.toList []
      = ⟨values, fault⟩ := by
  cases h with
  | finished hreaches hlimit hend =>
      rw [exec_of_reaches hreaches hlimit, Pile.exec_eq]
      dsimp only
      rw [List.drop_eq_nil_of_le (by simpa using hend)]
      rfl
  | @spent most ip _ hreaches hmost hlt =>
      -- the limit goes before whatever stands at the offset
      have hspent : Machine.spent limits.maxSteps most = some (.stepLimit most) :=
        Machine.spent_eq_some_iff.mpr ⟨most, hmost, Nat.le_refl _, rfl⟩
      rw [exec_of_reaches hreaches fun most' hmost' => by
        rw [hmost, Option.mem_some_iff] at hmost'
        exact Nat.le_of_eq hmost']
      rcases ends_or_stands_or_malformed package.code ip with
        hend | ⟨i, next, hstands⟩ | ⟨fault, hmal⟩
      · exact absurd hlt (Nat.not_lt.mpr hend)
      · rw [Pile.exec_eq, (fetch_of_stands hstands).1]
        dsimp only
        rw [hspent]
      · rw [exec_of_malformed hmal, hspent]
        rfl
  | malformed hreaches hlimit hmal =>
      rw [exec_of_reaches hreaches fun most hmost => Nat.le_of_lt (hlimit most hmost),
        exec_of_malformed hmal, Machine.spent_eq_none_iff.mpr hlimit]
      rfl
  | failed hreaches hlimit hstands hfails =>
      rw [exec_of_reaches hreaches fun most hmost => Nat.le_of_lt (hlimit most hmost), Pile.exec_eq,
        (fetch_of_stands hstands).1]
      dsimp only
      rw [Machine.spent_eq_none_iff.mpr hlimit, Pile.perform_eq_some_iff.mpr hfails]

/-- Every run ends: each instruction leaves less code. -/
theorem exists_halts {limits : Limits} (h : Reaches package limits.stackSize n ⟨ip, values⟩)
    (hlimit : ∀ most ∈ limits.maxSteps, n ≤ most) :
    ∃ last fault, Halts package limits last fault := by
  -- on the code that is left
  induction hleft : package.code.size - ip using Nat.strongRecOn generalizing n ip values with
  | ind left ih =>
    rcases hspent : Machine.spent limits.maxSteps n with _ | fault
    · have hnext := Machine.spent_eq_none_iff.mp hspent
      rcases ends_or_stands_or_malformed package.code ip with
        hend | ⟨i, next, hstands⟩ | ⟨fault, hmal⟩
      · exact ⟨values, none, .finished h hlimit hend⟩
      · rcases hperform : Pile.perform limits.stackSize package.constants i values with
          ⟨after, _ | fault⟩
        · obtain ⟨-, hsize, hle⟩ := fetch_of_stands hstands
          have hpos := i.size_pos
          exact ih (package.code.size - next) (by omega)
            (.step h hstands (Pile.perform_eq_none_iff.mp hperform)) hnext rfl
        · exact ⟨after, some fault, .failed h hnext hstands (Pile.perform_eq_some_iff.mp hperform)⟩
      · exact ⟨values, some fault, .malformed h hnext hmal⟩
    · -- no instruction went past the limit, so it is reached exactly
      obtain ⟨most, hmost, hle, -⟩ := Machine.spent_eq_some_iff.mp hspent
      obtain rfl := Nat.le_antisymm (hlimit most hmost) hle
      rcases Nat.lt_or_ge ip package.code.size with hlt | hend
      · exact ⟨values, _, .spent h hmost hlt⟩
      · exact ⟨values, none, .finished h hlimit hend⟩

/-- **A run on a list** ends in exactly one way, the one that the relations say. -/
theorem halts_iff_exec (package : Package) (limits : Limits) (values : Pile)
    (fault : Option Fault) :
    Halts package limits values fault ↔
      Pile.exec limits.stackSize package.constants limits.maxSteps 0 0 package.code.toList []
        = ⟨values, fault⟩ := by
  refine ⟨exec_of_halts, fun h => ?_⟩
  obtain ⟨last, fault', hhalts⟩ : ∃ last fault', Halts package limits last fault' :=
    exists_halts .start fun most _ => Nat.zero_le most
  rw [exec_of_halts hhalts] at h
  cases h
  exact hhalts

end Run

/-! ## Runs on a stack -/

/-- The stack after `n` runs, one behind the other, that began with a new one. -/
def Package.reused (package : Package) (limits : Limits) : Nat → OperandStack
  | 0 => .empty limits.stackSize
  | n + 1 => (package.run limits.maxSteps (package.reused limits n)).stack

namespace Machine

/-- A run keeps the capacity. -/
theorem capacity_exec (constants : Array Value) (limit : Option Nat) (steps ip : Nat)
    (code : List UInt8) (stack : OperandStack) :
    (exec constants limit steps ip code stack).stack.capacity = stack.capacity := by
  induction code using Instruction.fetch_induction generalizing steps ip stack with
  | ending code hfetch | unknown code _ _ hfetch | truncated code _ hfetch => rw [exec_eq, hfetch]
  | complete code i rest hfetch ih =>
    rw [exec_eq, hfetch]
    dsimp only
    rcases spent limit steps with _ | fault
    case some => rfl
    dsimp only
    obtain ⟨-, hcap⟩ := perform_view constants i stack
    rcases hperform : perform constants i stack with ⟨after, fault⟩
    rw [hperform] at hcap
    cases fault with
    | some fault => exact hcap
    | none => exact (ih (steps + 1) (ip + i.size) after).trans hcap

/-- **A run on a stack** is, after each instruction, where the relations say. -/
theorem reaches_of_completes {package : Package} {capacity m n : Nat} {p q : Place}
    (h : Completes package.constants p n q) (hcode : p.code = package.code.toList.drop p.ip)
    (hcap : p.stack.capacity = capacity)
    (hreaches : Reaches package capacity m ⟨p.ip, p.stack.pile⟩) :
    q.code = package.code.toList.drop q.ip ∧ q.stack.capacity = capacity
      ∧ Reaches package capacity (m + n) ⟨q.ip, q.stack.pile⟩ := by
  induction h generalizing m with
  | refl => exact ⟨hcode, hcap, hreaches⟩
  | @step ip n code rest i stack after last hfetch hperform _ ih =>
      dsimp only at hcode hcap hreaches ih
      obtain ⟨hview, hkeeps⟩ := perform_view package.constants i stack
      rw [hperform, hcap] at hview hkeeps
      have htakes := Pile.perform_eq_none_iff.mp hview.symm
      rw [hcode] at hfetch
      obtain ⟨hstands, rfl⟩ := stands_of_fetch hfetch
      have hlast := ih rfl hkeeps (.step hreaches hstands htakes)
      rwa [Nat.add_right_comm] at hlast

theorem reaches_of_completes_start {package : Package} {n : Nat} {place : Place}
    {stack : OperandStack} (h : Completes package.constants (package.start stack) n place) :
    place.code = package.code.toList.drop place.ip ∧ place.stack.capacity = stack.capacity
      ∧ Reaches package stack.capacity n ⟨place.ip, place.stack.pile⟩ := by
  have hstart : Reaches package stack.capacity 0 ⟨0, stack.clear.pile⟩ := by
    rw [OperandStack.pile_clear]
    exact .start
  have hplace := reaches_of_completes h rfl rfl hstart
  rwa [Nat.zero_add] at hplace

/-- One instruction more. -/
theorem completes_snoc {constants : Array Value} {p q : Place} {n : Nat} {i : Instruction}
    {rest : List UInt8} {after : OperandStack} (h : Completes constants p n q)
    (hfetch : Instruction.fetch q.code = .complete i rest)
    (hperform : perform constants i q.stack = ⟨after, none⟩) :
    Completes constants p (n + 1) ⟨q.ip + i.size, rest, after⟩ := by
  induction h with
  | refl => exact .step hfetch hperform (.refl _)
  | step hfetch' hperform' _ ih => exact .step hfetch' hperform' (ih hfetch hperform)

/-- **A configuration that is reached** is one that a run on a stack comes to. -/
theorem completes_of_reaches {package : Package} {n : Nat} {c : Config} {stack : OperandStack}
    (h : Reaches package stack.capacity n c) :
    ∃ place, Completes package.constants (package.start stack) n place
      ∧ place.ip = c.ip ∧ place.stack.pile = c.values := by
  induction h with
  | start => exact ⟨_, .refl _, rfl, stack.pile_clear⟩
  | @step n ip next i before after _ hstands htakes ih =>
      obtain ⟨place, hcompletes, hip, hpile⟩ := ih
      dsimp only at hip hpile
      obtain ⟨hcode, hcap, -⟩ := reaches_of_completes_start hcompletes
      obtain ⟨hfetch, hnext, -⟩ := fetch_of_stands hstands
      rw [← hip, ← hcode] at hfetch
      -- what the instruction takes from the list, the machine takes from its slots
      obtain ⟨hview, -⟩ := perform_view package.constants i place.stack
      rw [hcap, hpile, Pile.perform_eq_none_iff.mpr htakes] at hview
      rcases hperform : perform package.constants i place.stack with ⟨last, fault⟩
      rw [hperform] at hview
      obtain ⟨hlast, rfl⟩ := PileEnd.mk.inj hview
      exact ⟨_, completes_snoc hcompletes hfetch hperform, by rw [hip]; exact hnext.symm, hlast⟩

end Machine

theorem Package.capacity_reused (package : Package) (limits : Limits) (n : Nat) :
    (package.reused limits n).capacity = limits.stackSize := by
  induction n with
  | zero => rfl
  | succ n ih => exact (Machine.capacity_exec ..).trans ih

/--
**The machine refines the machine on lists, run after run.**

However many runs a stack has been through, and however they ended, the next run goes along the
configurations that are reached from an empty list, ends with the values and the fault that the
relations say, and keeps its pointers inside the code and the capacity. What lies above the live
values is never read: at any point of the run, another stack of that capacity with the same live
values leads to the same end.
-/
theorem Package.run_refines (package : Package) (limits : Limits) (n : Nat) :
    let stack := package.reused limits n
    let last := package.run limits.maxSteps stack
    (∀ values fault, Halts package limits values fault ↔ last.view = ⟨values, fault⟩)
      ∧ (∀ k ip values, Reaches package limits.stackSize k ⟨ip, values⟩ ↔
        ∃ place, Machine.Completes package.constants (package.start stack) k place
          ∧ place.ip = ip ∧ place.stack.pile = values)
      ∧ (∀ k place, Machine.Completes package.constants (package.start stack) k place →
        place.ip ≤ package.code.size ∧ place.stack.top ≤ limits.stackSize
          ∧ ((∀ most ∈ limits.maxSteps, k ≤ most) → ∀ other : OperandStack,
            other.capacity = limits.stackSize → other.live = place.stack.live →
            (Machine.exec package.constants limits.maxSteps k place.ip place.code other).view
              = last.view))
      ∧ last.stack.top ≤ limits.stackSize
      ∧ last.stack.peek? = last.stack.live.getLast? := by
  intro stack last
  have hcap : stack.capacity = limits.stackSize := package.capacity_reused limits n
  have hlast : last.view = Pile.exec limits.stackSize package.constants limits.maxSteps 0 0
      package.code.toList [] := by rw [← hcap]; exact package.run_view limits.maxSteps stack
  refine ⟨fun values fault => ?_, fun k ip values => ⟨fun h => ?_, ?_⟩, fun k place h => ?_, ?_, ?_⟩
  · rw [halts_iff_exec, hlast]
  · exact Machine.completes_of_reaches (hcap.symm ▸ h)
  · rintro ⟨place, h, rfl, rfl⟩
    exact hcap ▸ (Machine.reaches_of_completes_start h).2.2
  · obtain ⟨hcode, hcapacity, hat⟩ := Machine.reaches_of_completes_start h
    rw [hcap] at hcapacity hat
    refine ⟨ip_le_of_reaches hat, hcapacity ▸ place.stack.top_le_capacity,
      fun hlimit other hother hlive => ?_⟩
    have hpile : other.pile = place.stack.pile := congrArg List.reverse hlive
    rw [Machine.exec_view, hother, hpile, hcode, hlast]
    exact (exec_of_reaches hat hlimit).symm
  · have hkeeps : last.stack.capacity = limits.stackSize := package.capacity_reused limits (n + 1)
    exact hkeeps ▸ last.stack.top_le_capacity
  · rw [OperandStack.peek?_eq_head?, OperandStack.pile, List.head?_reverse]

/-- The code of `2 - 3 * 4`. -/
def termPackage : Package := ⟨#[0, 0, 0, 0, 0, 1, 0, 0, 2, 3, 2], #[.int 2, .int 3, .int 4]⟩

/-- The code of `9223372036854775807 + 1`. -/
def rangePackage : Package := ⟨#[0, 0, 0, 0, 0, 1, 1], #[.int Int64.maxValue, .int 1]⟩

/-- The second run of either package gives what the relations say, and so did the first. -/
theorem Package.run_refines_twice :
    Halts termPackage ⟨3, none⟩ [.int (-10)] none ∧
      (termPackage.run none (termPackage.reused ⟨3, none⟩ 1)).view = ⟨[.int (-10)], none⟩ ∧
      Halts rangePackage ⟨2, none⟩ [] (some (.arithmetic (.overflow Int64.maxValue .add 1))) ∧
      (rangePackage.run none (rangePackage.reused ⟨2, none⟩ 1)).view =
        ⟨[], some (.arithmetic (.overflow Int64.maxValue .add 1))⟩ := by
  have hterm : Halts termPackage ⟨3, none⟩ [.int (-10)] none := by
    have h1 : Reaches termPackage 3 1 ⟨3, [.int 2]⟩ :=
      .step .start (.constant rfl rfl rfl) (.constant rfl (by decide))
    have h2 : Reaches termPackage 3 2 ⟨6, [.int 3, .int 2]⟩ :=
      .step h1 (.constant rfl rfl rfl) (.constant rfl (by decide))
    have h3 : Reaches termPackage 3 3 ⟨9, [.int 4, .int 3, .int 2]⟩ :=
      .step h2 (.constant rfl rfl rfl) (.constant rfl (by decide))
    have h4 : Reaches termPackage 3 4 ⟨10, [.int 12, .int 2]⟩ :=
      .step h3 (.arith rfl) (.arith (.mul (by decide)))
    have h5 : Reaches termPackage 3 5 ⟨11, [.int (-10)]⟩ :=
      .step h4 (.arith rfl) (.arith (.sub (by decide)))
    exact .finished h5 nofun (by decide)
  have hrange : Halts rangePackage ⟨2, none⟩ []
      (some (.arithmetic (.overflow Int64.maxValue .add 1))) := by
    have h1 : Reaches rangePackage 2 1 ⟨3, [.int Int64.maxValue]⟩ :=
      .step .start (.constant rfl rfl rfl) (.constant rfl (by decide))
    have h2 : Reaches rangePackage 2 2 ⟨6, [.int 1, .int Int64.maxValue]⟩ :=
      .step h1 (.constant rfl rfl rfl) (.constant rfl (by decide))
    exact .failed h2 nofun (.arith rfl) (.noResult (.add (not_fitsWord_iff.mp (by decide))))
  exact ⟨hterm, ((termPackage.run_refines ⟨3, none⟩ 1).1 _ _).mp hterm, hrange,
    ((rangePackage.run_refines ⟨2, none⟩ 1).1 _ _).mp hrange⟩

/-- An operation that finds one value takes it along. -/
example : ((⟨#[0, 0, 0, 1], #[.int 5]⟩ : Package).run none (.empty 2)).view
    = ⟨[], some .stackUnderflow⟩ := by cbv

end ExprMachine
