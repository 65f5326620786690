import ExprMachine.Proofs.Bytecode.Boundaries

/-!
# Limits only cut a run short

What a run does is settled by the code and the constants; the limits only say how far it gets. A
step limit stops the run in front of an instruction that it would otherwise have looked at, and a
larger stack lets a constant be pushed that had no room before.

Both are facts about the configurations that a run passes. Those in front of a step limit are the
ones of the run without it (`Attempts.reaches`), and every configuration that is reached on a small
stack is reached on a larger one (`Reaches.mono`). A run that ends for a reason of its own therefore
ends in the same way under wider limits (`Halts.widen`).
-/

namespace ExprMachine

/-- Whatever the tight limits allow, the wide ones allow. No step limit is the widest. -/
structure Limits.Within (tight wide : Limits) : Prop where
  stackSize : tight.stackSize ≤ wide.stackSize
  maxSteps : ∀ most ∈ wide.maxSteps, ∃ least ∈ tight.maxSteps, least ≤ most

namespace Semantics

/-- `Attempts package capacity n`: a run without a step limit looks at `n` instructions. The one
that fails is counted, and so is what turns out to be none. -/
inductive Attempts (package : Package) (capacity : Nat) : Nat → Prop where
  | finished {n ip : Nat} {values : Pile} :
      Reaches package capacity n ⟨ip, values⟩ → package.code.size ≤ ip →
      Attempts package capacity n
  | malformed {n ip : Nat} {values : Pile} {fault : Fault} :
      Reaches package capacity n ⟨ip, values⟩ → Malformed package.code ip fault →
      Attempts package capacity (n + 1)
  | failed {n ip next : Nat} {i : Instruction} {before after : Pile} {fault : Fault} :
      Reaches package capacity n ⟨ip, before⟩ → Stands package.code ip i next →
      Fails capacity package.constants i before after fault → Attempts package capacity (n + 1)

variable {package : Package} {capacity wider n : Nat} {values : Pile}

/-! ## Steps -/

theorem lt_of_stands {code : Array UInt8} {ip next : Nat} {i : Instruction}
    (h : Stands code ip i next) : ip < code.size := by
  obtain ⟨-, hnext, hle⟩ := fetch_of_stands h
  have hpos := i.size_pos
  omega

/-- A run that has taken more than `k` instructions has been in front of the next one behind
them. -/
theorem Reaches.passes {c : Config} (h : Reaches package capacity n c) {k : Nat} (hk : k < n) :
    ∃ ip values, Reaches package capacity k ⟨ip, values⟩ ∧ ip < package.code.size := by
  induction h with
  | start => exact absurd hk (Nat.not_lt_zero k)
  | @step n ip next i before after hreaches hstands htakes ih =>
      rcases Nat.lt_succ_iff_lt_or_eq.mp hk with hlt | rfl
      · exact ih hlt
      · exact ⟨ip, before, hreaches, lt_of_stands hstands⟩

/-- Every instruction that is attempted has a configuration in front of it. -/
theorem Attempts.reaches (h : Attempts package capacity n) {k : Nat} (hk : k < n) :
    ∃ ip values, Reaches package capacity k ⟨ip, values⟩ ∧ ip < package.code.size := by
  cases h with
  | finished hreaches _ => exact hreaches.passes hk
  | malformed hreaches hmal =>
      rcases Nat.lt_succ_iff_lt_or_eq.mp hk with hlt | rfl
      · exact hreaches.passes hlt
      · exact ⟨_, _, hreaches, lt_of_malformed hmal⟩
  | failed hreaches hstands _ =>
      rcases Nat.lt_succ_iff_lt_or_eq.mp hk with hlt | rfl
      · exact hreaches.passes hlt
      · exact ⟨_, _, hreaches, lt_of_stands hstands⟩

/-- Every run attempts some number of instructions. -/
theorem exists_attempts (package : Package) (capacity : Nat) :
    ∃ n, Attempts package capacity n := by
  obtain ⟨values, fault, hhalts⟩ : ∃ values fault, Halts package ⟨capacity, none⟩ values fault :=
    exists_halts .start nofun
  cases hhalts with
  | finished hreaches _ hend => exact ⟨_, .finished hreaches hend⟩
  | spent _ hlimit _ => cases hlimit
  | malformed hreaches _ hmal => exact ⟨_, .malformed hreaches hmal⟩
  | failed hreaches _ hstands hfails => exact ⟨_, .failed hreaches hstands hfails⟩

/-- A run ends in one way under all limits that allow the instructions it attempts. -/
theorem Attempts.halts (h : Attempts package capacity n) :
    ∃ values fault, ∀ limit : Option Nat, (∀ most ∈ limit, n ≤ most) →
      Halts package ⟨capacity, limit⟩ values fault := by
  cases h with
  | finished hreaches hend => exact ⟨_, none, fun limit hlimit => .finished hreaches hlimit hend⟩
  | malformed hreaches hmal =>
      exact ⟨_, some _, fun limit hlimit => .malformed hreaches hlimit hmal⟩
  | failed hreaches hstands hfails =>
      exact ⟨_, some _, fun limit hlimit => .failed hreaches hlimit hstands hfails⟩

/-! ## Room -/

theorem Takes.mono {constants : Array Value} {i : Instruction} {before after : Pile}
    (hle : capacity ≤ wider) (h : Takes capacity constants i before after) :
    Takes wider constants i before after := by
  cases h with
  | constant hvalue hroom => exact .constant hvalue (Nat.lt_of_lt_of_le hroom hle)
  | arith hyields => exact .arith hyields

/-- An instruction that fails for another reason than want of room fails with more room too. -/
theorem Fails.mono {constants : Array Value} {i : Instruction} {before after : Pile}
    {fault : Fault} (h : Fails capacity constants i before after fault)
    (hroom : ∀ full, fault ≠ .stackOverflow full) : Fails wider constants i before after fault := by
  cases h with
  | noConstant hvalue => exact .noConstant hvalue
  | noRoom _ _ => exact absurd rfl (hroom capacity)
  | noOperands hfew => exact .noOperands hfew
  | noResult hrefuses => exact .noResult hrefuses

theorem Reaches.mono {c : Config} (hle : capacity ≤ wider) (h : Reaches package capacity n c) :
    Reaches package wider n c := by
  induction h with
  | start => exact .start
  | step _ hstands htakes ih => exact .step ih hstands (htakes.mono hle)

/-- **Wider limits** change nothing about a run that ends for a reason of its own. -/
theorem Halts.widen {tight wide : Limits} {fault : Option Fault} (hlimits : tight.Within wide)
    (hroom : ∀ full, fault ≠ some (.stackOverflow full))
    (hsteps : ∀ most, fault ≠ some (.stepLimit most)) (h : Halts package tight values fault) :
    Halts package wide values fault := by
  cases h with
  | @finished n ip _ hreaches hlimit hend =>
      refine .finished (hreaches.mono hlimits.stackSize) (fun most hmost => ?_) hend
      obtain ⟨least, hleast, hle⟩ := hlimits.maxSteps most hmost
      exact Nat.le_trans (hlimit least hleast) hle
  | spent _ _ _ => exact absurd rfl (hsteps _)
  | malformed hreaches hlimit hmal =>
      refine .malformed (hreaches.mono hlimits.stackSize) (fun most hmost => ?_) hmal
      obtain ⟨least, hleast, hle⟩ := hlimits.maxSteps most hmost
      exact Nat.lt_of_lt_of_le (hlimit least hleast) hle
  | failed hreaches hlimit hstands hfails =>
      refine .failed (hreaches.mono hlimits.stackSize) (fun most hmost => ?_) hstands
        (hfails.mono fun full heq => hroom full (congrArg some heq))
      obtain ⟨least, hleast, hle⟩ := hlimits.maxSteps most hmost
      exact Nat.lt_of_lt_of_le (hlimit least hleast) hle

end Semantics

open Semantics

/-! ## Runs -/

/-- A run on a stack ends as the relations say. -/
theorem Package.view_of_halts {package : Package} {limits : Limits} {stack : OperandStack}
    {values : Pile} {fault : Option Fault} (hcap : stack.capacity = limits.stackSize)
    (h : Halts package limits values fault) :
    (package.run limits.maxSteps stack).view = ⟨values, fault⟩ := by
  rw [package.run_view, hcap]
  exact exec_of_halts h

/--
**Limits only cut a run short.**

A run looks at some number of instructions, the one that fails included. Under a step limit that
allows as many it ends as it does without a limit. Under a smaller one it ends in front of the
instruction behind the last that the limit allows, whatever stands there, with the values that the
allowed instructions have left.

A run that neither lacks room nor steps ends in the same way under all wider limits.
-/
theorem Package.run_within_limits (package : Package) :
    (∀ stack : OperandStack, (∃ n, Attempts package stack.capacity n) ∧
      ∀ n most, Attempts package stack.capacity n →
        (n ≤ most → (package.run (some most) stack).view = (package.run none stack).view) ∧
        (most < n → ∃ ip values, Reaches package stack.capacity most ⟨ip, values⟩ ∧
          (package.run (some most) stack).view = ⟨values, some (.stepLimit most)⟩)) ∧
    ∀ tight wide : Limits, tight.Within wide → ∀ stack wider : OperandStack,
      stack.capacity = tight.stackSize → wider.capacity = wide.stackSize →
      (∀ full, (package.run tight.maxSteps stack).fault ≠ some (.stackOverflow full)) →
      (∀ most, (package.run tight.maxSteps stack).fault ≠ some (.stepLimit most)) →
      (package.run wide.maxSteps wider).view = (package.run tight.maxSteps stack).view := by
  constructor
  · intro stack
    refine ⟨exists_attempts package stack.capacity, fun n most hattempts => ⟨fun hle => ?_,
      fun hlt => ?_⟩⟩
    · obtain ⟨values, fault, hhalts⟩ := hattempts.halts
      have hlimited := hhalts (some most) fun most' hmost => by
        rwa [← Option.mem_some_iff.mp hmost]
      have hfree : (package.run none stack).view = ⟨values, fault⟩ :=
        view_of_halts rfl (hhalts none nofun)
      rw [hfree]
      exact view_of_halts rfl hlimited
    · -- there is code left when the steps are taken, so the limit is what ends the run
      obtain ⟨ip, values, hreaches, hip⟩ := hattempts.reaches hlt
      have hhalts : Halts package ⟨stack.capacity, some most⟩ values (some (.stepLimit most)) :=
        .spent hreaches rfl hip
      exact ⟨ip, values, hreaches, view_of_halts rfl hhalts⟩
  · intro tight wide hlimits stack wider hcap hcap' hroom hsteps
    obtain ⟨values, fault, hhalts⟩ : ∃ values fault, Halts package tight values fault :=
      exists_halts .start fun most _ => Nat.zero_le most
    have hview := view_of_halts hcap hhalts
    have hfault : (package.run tight.maxSteps stack).fault = fault := congrArg PileEnd.fault hview
    rw [hfault] at hroom hsteps
    rw [hview]
    exact view_of_halts hcap' (hhalts.widen hlimits hroom hsteps)

/-- The limit goes before a byte that is no instruction. -/
example : ((⟨#[9], #[]⟩ : Package).run (some 0) (.empty 1)).view = ⟨[], some (.stepLimit 0)⟩ := by
  cbv

end ExprMachine
