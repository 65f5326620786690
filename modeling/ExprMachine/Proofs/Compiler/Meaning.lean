import ExprMachine.Proofs.Compiler.Postfix
import ExprMachine.Proofs.Machine.Checked

/-!
# A package means what its program means

`Expr.evaluate` says what an arithmetic expression is worth without instructions, stack or words:
the left operand, then the right one, then the operation on integers, which has no result if it
divides by zero or if its exact result fits no word. A program is worth the list of the values of
its expressions.

The machine gets there on a stack of words. Running the postfix form of an expression puts the
expression's value on top of whatever the stack holds, or stops with the first error that evaluation
meets, unless the stack is too small for it (`performAll_postfixFrom`). The last case is what the
check of the package rules out.
-/

namespace ExprMachine

/-- Why an expression has no value. -/
inductive EvalFault where
  /-- An operation has no result. -/
  | arithmetic (error : ArithError)
  /-- The expression is no computation on numbers. -/
  | noNumber

namespace ArithOp

/-- What an operation on integers that fit a word comes to, if that fits one too. -/
def inRange (op : ArithOp) (a b result : Int) : Except ArithError Int :=
  if -9223372036854775808 ≤ result ∧ result ≤ 9223372036854775807 then .ok result
  else .error (.overflow (Int64.ofInt a) op (Int64.ofInt b))

/-- The operation on integers that fit a word. A quotient is cut off toward zero. -/
def evaluate : ArithOp → Int → Int → Except ArithError Int
  | add, a, b => add.inRange a b (a + b)
  | sub, a, b => sub.inRange a b (a - b)
  | mul, a, b => mul.inRange a b (a * b)
  | div, a, b => if b = 0 then .error .divisionByZero else div.inRange a b (a.tdiv b)

end ArithOp

/-- The value of an expression, or the first error on the way to it. -/
def Expr.evaluate : Expr → Except EvalFault Int
  | .integer _ _ value => .ok value.toInt
  | .binary _ (.arith op) left right => do
    let a ← left.evaluate
    let b ← right.evaluate
    (op.evaluate a b).mapError .arithmetic
  | _ => .error .noNumber

/-- The values of expressions in order, or the first error on the way to them. -/
def Expr.evaluateAll : List Expr → Except EvalFault (List Int)
  | [] => .ok []
  | e :: es => do
    let n ← e.evaluate
    let ns ← evaluateAll es
    return n :: ns

/-- The values of a program's expressions in order, or the first error on the way to them. -/
def Program.evaluate (program : Program) : Except EvalFault (List Int) :=
  Expr.evaluateAll program.expressions

/-- An integer as the machine holds it. -/
def Value.ofInt (n : Int) : Value := .int (Int64.ofInt n)

/-! ## Words and integers -/

theorem ArithOp.evaluate_eq (op : ArithOp) (a b : Int) :
    op.evaluate a b =
      if op = .div ∧ b = 0 then .error .divisionByZero
      else if FitsWord (op.exact a b) then .ok (op.exact a b)
      else .error (.overflow (Int64.ofInt a) op (Int64.ofInt b)) := by
  simp only [fitsWord_iff]
  cases op with
  | add | sub | mul => rfl
  | div =>
      by_cases hb : b = 0
      · rw [evaluate, if_pos hb, if_pos ⟨rfl, hb⟩]
      · rw [evaluate, if_neg hb, if_neg fun hzero => hb hzero.2]
        rfl

/-- The machine's operation on words is the operation on the integers that they hold. -/
theorem Machine.compute_ofInt (op : ArithOp) {a b : Int} (ha : FitsWord a) (hb : FitsWord b) :
    compute op (.ofInt a) (.ofInt b) =
      match op.evaluate a b with
      | .ok n => .ok (.ofInt n)
      | .error e => .error (.arithmetic e) := by
  have hzero : Int64.ofInt b = 0 ↔ b = 0 := by
    rw [← Int64.toInt_inj, toInt_ofInt_of_fitsWord hb]
    rfl
  rw [op.evaluate_eq]
  unfold compute ArithOp.apply Value.ofInt
  dsimp only
  rw [toInt_ofInt_of_fitsWord ha, toInt_ofInt_of_fitsWord hb]
  simp only [hzero]
  by_cases hdiv : op = .div ∧ b = 0
  · rw [if_pos hdiv, if_pos hdiv]
  rw [if_neg hdiv, if_neg hdiv]
  by_cases hfits : FitsWord (op.exact a b)
  · rw [if_pos hfits, if_pos hfits]
  · rw [if_neg hfits, if_neg hfits]

theorem fitsWord_of_evaluate {op : ArithOp} {a b n : Int} (h : op.evaluate a b = .ok n) :
    FitsWord n := by
  rw [op.evaluate_eq] at h
  split at h
  · cases h
  split at h
  · rename_i hfits
    cases h
    exact hfits
  · cases h

/-! ## Literals in the pool -/

/-- The pool holds the numbers from place `base` on. -/
def HoldsAt (constants : Array Value) (base : Nat) (numbers : List Int64) : Prop :=
  ∃ front back, constants.toList = front ++ numbers.map Value.int ++ back ∧ front.length = base

theorem holdsAt_append {constants : Array Value} {base : Nat} {xs ys : List Int64}
    (h : HoldsAt constants base (xs ++ ys)) :
    HoldsAt constants base xs ∧ HoldsAt constants (base + xs.length) ys := by
  obtain ⟨front, back, hlist, hlen⟩ := h
  rw [List.map_append] at hlist
  refine ⟨⟨front, ys.map Value.int ++ back, ?_, hlen⟩,
    ⟨front ++ xs.map Value.int, back, ?_, ?_⟩⟩
  · rw [hlist]
    simp only [List.append_assoc]
  · rw [hlist]
    simp only [List.append_assoc]
  · rw [List.length_append, List.length_map, hlen]

theorem getElem?_of_holdsAt {constants : Array Value} {base : Nat} {value : Int64}
    (h : HoldsAt constants base [value]) : constants[base]? = some (.int value) := by
  obtain ⟨front, back, hlist, hlen⟩ := h
  rw [← Array.getElem?_toList, hlist, List.append_assoc, ← hlen]
  exact List.getElem?_append_right (Nat.le_refl _) |>.trans (by simp)

/-! ## Postfix forms on the machine -/

/-- `Gives r pile result`: a run that began on `pile` and ended with `r` has put the values there
that `result` lists, or has stopped with its error. -/
def Gives (r : PileEnd) (pile : Pile) : Except EvalFault (List Int) → Prop
  | .ok ns => r = ⟨(ns.map Value.ofInt).reverse ++ pile, none⟩ ∧ ∀ n ∈ ns, FitsWord n
  | .error (.arithmetic e) => r.fault = some (.arithmetic e)
  | .error .noNumber => False

theorem fault_of_gives_error {r : PileEnd} {pile : Pile} {f : EvalFault}
    (h : Gives r pile (.error f)) : ∃ fault, r.fault = some fault := by
  cases f with
  | arithmetic e => exact ⟨_, h⟩
  | noNumber => exact h.elim

/-- An error does not depend on what was on the stack. -/
theorem gives_error {r : PileEnd} {pile : Pile} {f : EvalFault} (h : Gives r pile (.error f))
    (pile' : Pile) : Gives r pile' (.error f) := by
  cases f with
  | arithmetic e => exact h
  | noNumber => exact h.elim

variable {capacity : Nat} {constants : Array Value} {is js : List Instruction}

/-- On every stack the instructions give `result`, unless the stack is too small for them. -/
def Computes (capacity : Nat) (constants : Array Value) (is : List Instruction)
    (result : Except EvalFault (List Int)) : Prop :=
  ∀ pile, (Pile.performAll capacity constants is pile).fault = some (.stackOverflow capacity) ∨
    Gives (Pile.performAll capacity constants is pile) pile result

theorem computes_nil : Computes capacity constants [] (.ok []) :=
  fun _ => .inr ⟨rfl, fun _ hn => absurd hn List.not_mem_nil⟩

/-- A literal is pushed if there is room. -/
theorem computes_constant {base : Nat} {value : Int64}
    (hpool : constants[base]? = some (.int value)) :
    Computes capacity constants [.constant base] (.ok [value.toInt]) := by
  intro pile
  have hperform : Pile.perform capacity constants (.constant base) pile
      = Pile.push capacity pile (.int value) := by
    simp only [Pile.perform, hpool]
  rw [Pile.performAll, hperform, Pile.push]
  by_cases hroom : pile.length < capacity
  · rw [if_pos hroom]
    refine .inr ⟨?_, ?_⟩
    · rw [List.map_singleton, Value.ofInt, Int64.ofInt_toInt]
      rfl
    · intro n hn
      obtain rfl := List.mem_singleton.mp hn
      exact fitsWord_toInt value
  · rw [if_neg hroom]
    exact .inl rfl

/-- What stops the first part of some instructions stops them all. -/
theorem computes_append {r s : Except EvalFault (List Int)}
    (h1 : Computes capacity constants is r) (h2 : Computes capacity constants js s) :
    Computes capacity constants (is ++ js) (do
      let ns ← r
      let ms ← s
      return ns ++ ms) := by
  intro pile
  rcases h1 pile with hover | hgives
  · rw [Pile.performAll_append_of_fault hover]
    exact .inl hover
  rcases r with f | ns
  · obtain ⟨fault, hfault⟩ := fault_of_gives_error hgives
    rw [Pile.performAll_append_of_fault hfault]
    exact .inr hgives
  obtain ⟨hrun, hns⟩ := hgives
  rw [Pile.performAll_append, hrun]
  dsimp only
  rcases h2 ((ns.map Value.ofInt).reverse ++ pile) with hover | hgives
  · exact .inl hover
  rcases s with f | ms
  · exact .inr (gives_error hgives pile)
  obtain ⟨hrun', hms⟩ := hgives
  refine .inr ⟨?_, fun n hn => ?_⟩
  · rw [hrun', List.map_append, List.reverse_append, List.append_assoc]
  · exact (List.mem_append.mp hn).elim (hns n) (hms n)

/-- An operation replaces its two operands by its result. -/
theorem computes_arith {op : ArithOp} {r s : Except EvalFault Int}
    (h : Computes capacity constants is (do
      let a ← r
      let b ← s
      return [a, b])) :
    Computes capacity constants (is ++ [.arith op]) (do
      let a ← r
      let b ← s
      let n ← (op.evaluate a b).mapError .arithmetic
      return [n]) := by
  intro pile
  rcases h pile with hover | hgives
  · rw [Pile.performAll_append_of_fault hover]
    exact .inl hover
  -- what stops an operand stops the operation
  have hstopped : ∀ f, Gives (Pile.performAll capacity constants is pile) pile (.error f) →
      Gives (Pile.performAll capacity constants (is ++ [.arith op]) pile) pile (.error f) := by
    intro f hf
    obtain ⟨fault, hfault⟩ := fault_of_gives_error hf
    rw [Pile.performAll_append_of_fault hfault]
    exact hf
  rcases r with f | a
  · exact .inr (hstopped f hgives)
  rcases s with f | b
  · exact .inr (hstopped f hgives)
  obtain ⟨hrun, hfits⟩ := hgives
  have ha : FitsWord a := hfits a (by simp)
  have hb : FitsWord b := hfits b (by simp)
  have hpile : ([a, b].map Value.ofInt).reverse ++ pile = .ofInt b :: .ofInt a :: pile := rfl
  rw [Pile.performAll_append, hrun, hpile]
  dsimp only [Pile.performAll, Pile.perform, Pile.arithmetic]
  rw [Machine.compute_ofInt op ha hb]
  right
  show Gives _ pile (((op.evaluate a b).mapError .arithmetic).bind fun n => .ok [n])
  rcases heval : op.evaluate a b with e | n
  · exact rfl
  · refine ⟨rfl, fun m hm => ?_⟩
    obtain rfl := List.mem_singleton.mp hm
    exact fitsWord_of_evaluate heval

/-- **The postfix form of an expression** computes the expression's value. -/
theorem computes_postfixFrom {e : Expr} {base : Nat} (harith : e.IsArithmetic)
    (hpool : HoldsAt constants base e.literals) :
    Computes capacity constants (e.postfixFrom base) (do
      let n ← e.evaluate
      return [n]) := by
  induction e using Expr.IsArithmetic.induct generalizing base with
  | case1 pos digits value => exact computes_constant (getElem?_of_holdsAt hpool)
  | case2 pos op left right ihl ihr =>
      obtain ⟨hleft, hright⟩ := holdsAt_append hpool
      have hboth := computes_append (ihl harith.1 hleft) (ihr harith.2 hright)
      have hoperands : Computes capacity constants
          (left.postfixFrom base ++ right.postfixFrom (base + left.literals.length)) (do
            let a ← left.evaluate
            let b ← right.evaluate
            return [a, b]) := by
        simpa using hboth
      simpa [Expr.evaluate, Expr.postfixFrom] using computes_arith hoperands
  | case3 e hliteral hoperation =>
      rw [Expr.IsArithmetic] at harith
      · exact harith.elim
      · exact hliteral
      · exact hoperation

theorem computes_postfixAll {es : List Expr} {base : Nat} (harith : ∀ e ∈ es, e.IsArithmetic)
    (hpool : HoldsAt constants base (es.flatMap Expr.literals)) :
    Computes capacity constants (Expr.postfixAll base es) (Expr.evaluateAll es) := by
  induction es generalizing base with
  | nil => exact computes_nil
  | cons e es ih =>
      obtain ⟨hfirst, hrest⟩ := holdsAt_append hpool
      have heval : Expr.evaluateAll (e :: es) = (do
          let ns ← (do
            let n ← e.evaluate
            return [n])
          let ms ← Expr.evaluateAll es
          return ns ++ ms) := by
        rw [Expr.evaluateAll]
        rcases e.evaluate with f | n
        · rfl
        · rfl
      rw [heval]
      exact computes_append (computes_postfixFrom (harith e (List.mem_cons_self ..)) hfirst)
        (ih (fun e' he' => harith e' (List.mem_cons_of_mem _ he')) hrest)

/-! ## Programs -/

theorem length_of_evaluateAll {es : List Expr} {ns : List Int}
    (h : Expr.evaluateAll es = .ok ns) : ns.length = es.length := by
  induction es generalizing ns with
  | nil =>
      cases h
      rfl
  | cons e es ih =>
      rw [Expr.evaluateAll] at h
      rcases hone : e.evaluate with f | n
      · rw [hone] at h
        cases h
      rcases hall : Expr.evaluateAll es with f | ms
      · rw [hone, hall] at h
        cases h
      rw [hone, hall] at h
      cases h
      exact congrArg (· + 1) (ih hall)

/-- A run of the package of a program, as long as the check lets it pass. -/
theorem Program.gives_of_compile {program : Program} {package : Package} {stack : OperandStack}
    {height : Nat} (h : program.compile = .ok package)
    (hcheck : package.check stack.capacity = .ok height) :
    Gives (package.run none stack).view [] program.evaluate := by
  obtain ⟨harith, happends⟩ := package_of_compile h
  have hpool : HoldsAt package.constants 0 (program.expressions.flatMap Expr.literals) :=
    ⟨[], [], by rw [happends.constants]; simp [Package.empty], rfl⟩
  have hencodable : ∀ i ∈ Expr.postfixAll 0 program.expressions, i.Encodable := by
    intro i hi
    refine Expr.encodable_postfixAll ?_ hi
    have hbound := Package.size_le_of_appends happends
    rw [Package.size_of_appends happends] at hbound
    exact hbound
  have hcode : package.code.toList
      = Instruction.encodeAll (Expr.postfixAll 0 program.expressions) ++ [] := by
    rw [happends.code, List.append_nil]
    rfl
  have hrun : (package.run none stack).view
      = Pile.performAll stack.capacity package.constants (Expr.postfixAll 0 program.expressions)
        [] := by
    rw [package.run_view, hcode, Pile.exec_encodeAll hencodable]
    rcases Pile.performAll stack.capacity package.constants _ [] with ⟨after, _ | fault⟩
    · dsimp only
      rw [Pile.exec_eq]
      rfl
    · rfl
  have hcomputes : Computes stack.capacity package.constants _ _ :=
    computes_postfixAll harith hpool
  rcases hcomputes [] with hover | hgives
  · -- the check has made sure that the stack is large enough
    rw [← hrun] at hover
    rcases package.run_of_check_ok hcheck none with ⟨hnone, -⟩ | ⟨fault, hsome, hcode⟩
    · exact absurd (hnone.symm.trans hover) (by simp)
    · obtain rfl := Option.some.inj (hsome.symm.trans hover)
      exact absurd trivial hcode
  · rw [hrun]
    exact hgives

/--
**Compiling keeps the meaning of programs.**

If a program compiles and its package passes the check for a stack, a run without a limit leaves
exactly the values of the program's expressions, the first at the bottom, all of them words; and the
pipeline answers the last of them, or nothing if there is none. If an operation has no result, the
run and the pipeline fail with the error of the first such operation, operands included. There is
no other way for the run to end.
-/
theorem run_of_compile {program : Program} {package : Package} {stack : OperandStack}
    {height : Nat} (h : program.compile = .ok package)
    (hcheck : package.check stack.capacity = .ok height) :
    match program.evaluate with
    | .ok values =>
      (package.run none stack).fault = none
        ∧ (package.run none stack).stack.live = values.map Value.ofInt
        ∧ (∀ n ∈ values, FitsWord n)
        ∧ values.length = program.expressions.length
        ∧ package.eval ⟨stack.capacity, none⟩ = .ok (values.getLast?.map Value.ofInt)
    | .error (.arithmetic e) =>
      (package.run none stack).fault = some (.arithmetic e)
        ∧ package.eval ⟨stack.capacity, none⟩ = .error (.runtime (.arithmetic e))
    | .error .noNumber => False := by
  have hgives := Program.gives_of_compile h hcheck
  -- the pipeline has a stack of its own, with the same capacity
  have hfresh : (package.run none (.empty stack.capacity)).view
      = (package.run none stack).view := package.run_view_congr none rfl
  rcases hlast : package.run none (.empty stack.capacity) with ⟨last, fault⟩
  rw [hlast] at hfresh
  rcases heval : program.evaluate with (e | _) | values
  · rw [heval, ← hfresh] at hgives
    obtain rfl : fault = _ := hgives
    refine ⟨(congrArg PileEnd.fault hfresh).symm, ?_⟩
    simp only [Package.eval, hcheck, hlast]
  · rw [heval] at hgives
    exact hgives
  · rw [heval] at hgives
    obtain ⟨hview, hfits⟩ := hgives
    rw [hview] at hfresh
    obtain ⟨hpile, hfault⟩ := PileEnd.mk.inj hview
    obtain ⟨hpile', hfault'⟩ := PileEnd.mk.inj hfresh
    rw [List.append_nil] at hpile hpile'
    subst hfault'
    refine ⟨hfault, List.reverse_inj.mp hpile, hfits, length_of_evaluateAll heval, ?_⟩
    simp only [Package.eval, hcheck, hlast, OperandStack.peek?_eq_head?, hpile',
      List.head?_reverse, List.getLast?_map]

/-- The program `{ 2 - 5 } 7 / 2`. -/
def quotientProgram : Program :=
  let digit (text : String) (value : Int64) : Expr := .integer .start text value
  let statement (e : Expr) : Stmt := .expression ⟨.integer, "2", .start⟩ e
  ⟨[.block ⟨.start, [statement (.binary .start (.arith .sub) (digit "2" 2) (digit "5" 5))]⟩,
    statement (.binary .start (.arith .div) (digit "7" 7) (digit "2" 2))]⟩

/-- The package of `quotientProgram`. -/
def quotientPackage : Package :=
  ⟨#[0, 0, 0, 0, 0, 1, 2, 0, 0, 2, 0, 0, 3, 4], #[.int 2, .int 5, .int 7, .int 2]⟩

/-- The program `first + 3 * 4`. -/
def sumProgram (first : Int64) : Program :=
  let digit (value : Int64) : Expr := .integer .start (toString value) value
  let product : Expr := .binary .start (.arith .mul) (digit 3) (digit 4)
  ⟨[.expression ⟨.integer, toString first, .start⟩
    (.binary .start (.arith .add) (digit first) product)]⟩

/-- The package of `sumProgram`. -/
def sumPackage (first : Int64) : Package :=
  ⟨#[0, 0, 0, 0, 0, 1, 0, 0, 2, 3, 1], #[.int first, .int 3, .int 4]⟩

/-- Three slots are enough for either program. A sum that fits no word is reported with its operands,
the second of which is a product. -/
theorem run_of_compile_operations :
    (quotientProgram.compile = .ok quotientPackage
      ∧ quotientPackage.check (OperandStack.empty 3).capacity = .ok 2
      ∧ (quotientPackage.run none (.empty 3)).stack.live = [.ofInt (-3), .ofInt 3]) ∧
    ((sumProgram 2).compile = .ok (sumPackage 2)
      ∧ (sumPackage 2).check (OperandStack.empty 3).capacity = .ok 1
      ∧ ((sumPackage 2).run none (.empty 3)).stack.live = [.ofInt 14]) ∧
    ((sumProgram Int64.maxValue).compile = .ok (sumPackage Int64.maxValue)
      ∧ (sumPackage Int64.maxValue).check (OperandStack.empty 3).capacity = .ok 1
      ∧ ((sumPackage Int64.maxValue).run none (.empty 3)).fault
        = some (.arithmetic (.overflow Int64.maxValue .add 12))) := by
  have hquotient : quotientProgram.compile = .ok quotientPackage := by rfl
  have hcheck : quotientPackage.check (OperandStack.empty 3).capacity = .ok 2 := by cbv
  have hsum : (sumProgram 2).compile = .ok (sumPackage 2) := by rfl
  have hsum' : (sumProgram Int64.maxValue).compile = .ok (sumPackage Int64.maxValue) := by rfl
  have hroom : ∀ first, (sumPackage first).check (OperandStack.empty 3).capacity = .ok 1 := by
    intro first
    cbv
  have hevaluate : quotientProgram.evaluate = .ok [-3, 3] := by rfl
  have hvalue : (sumProgram 2).evaluate = .ok [14] := by rfl
  have hrange : (sumProgram Int64.maxValue).evaluate
      = .error (.arithmetic (.overflow Int64.maxValue .add 12)) := by rfl
  have hrun := run_of_compile hquotient hcheck
  rw [hevaluate] at hrun
  have hrun' := run_of_compile hsum (hroom 2)
  rw [hvalue] at hrun'
  have hfails := run_of_compile hsum' (hroom Int64.maxValue)
  rw [hrange] at hfails
  exact ⟨⟨hquotient, hcheck, hrun.2.1⟩, ⟨hsum, hroom 2, hrun'.2.1⟩,
    ⟨hsum', hroom Int64.maxValue, hfails.1⟩⟩

end ExprMachine
