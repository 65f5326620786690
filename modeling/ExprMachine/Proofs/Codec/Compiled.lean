import ExprMachine.Proofs.Codec.RoundTrip
import ExprMachine.Proofs.Compiler.Postfix

/-!
# The package of a program can be written

Not every package has a written form, and not every written one is read again. The package of a
program has one and is: its constants are integers, and there is so little code that its length
fits a word, as an expression with `n` literals takes `4 * n - 1` bytes.
-/

namespace ExprMachine

open Codec

namespace Expr

/-- There is one operator less than there are literals, and a literal takes three bytes. -/
theorem length_postfixFrom {e : Expr} (h : e.IsArithmetic) (base : Nat) :
    (Instruction.encodeAll (e.postfixFrom base)).length + 1 = 4 * e.literals.length := by
  induction e using IsArithmetic.induct generalizing base with
  | case1 pos digits value => rfl
  | case2 pos op left right ihl ihr =>
      have hl := ihl h.1 base
      have hr := ihr h.2 (base + left.literals.length)
      have hop : (Instruction.encodeAll [.arith op]).length = 1 := rfl
      rw [postfixFrom, literals, Instruction.encodeAll_append, Instruction.encodeAll_append,
        List.length_append, List.length_append, List.length_append, hop]
      omega
  | case3 e hliteral hoperation =>
      rw [IsArithmetic] at h
      · exact h.elim
      · exact hliteral
      · exact hoperation

theorem length_postfixAll {es : List Expr} (h : ∀ e ∈ es, e.IsArithmetic) (base : Nat) :
    (Instruction.encodeAll (postfixAll base es)).length + es.length
      = 4 * (es.flatMap literals).length := by
  induction es generalizing base with
  | nil => rfl
  | cons e es ih =>
      obtain ⟨he, hes⟩ := List.forall_mem_cons.mp h
      have hfirst := length_postfixFrom he base
      have hrest := ih hes (base + e.literals.length)
      rw [postfixAll, Instruction.encodeAll_append, List.flatMap_cons, List.length_append,
        List.length_append, List.length_cons]
      omega

end Expr

namespace Program

variable {program : Program} {package : Package}

theorem integers_of_compile (h : program.compile = .ok package) :
    ∀ v ∈ package.constants, ∃ n, v = .int n := by
  obtain ⟨-, happends⟩ := package_of_compile h
  intro v hv
  rw [← Array.mem_toList_iff, happends.constants] at hv
  obtain ⟨n, -, rfl⟩ := List.mem_map.mp hv
  exact ⟨n, rfl⟩

theorem regular_of_compile (h : program.compile = .ok package) : package.Regular := by
  obtain ⟨harith, happends⟩ := package_of_compile h
  have hpool : (program.expressions.flatMap Expr.literals).length = package.constants.size :=
    (Nat.zero_add _).symm.trans (Package.size_of_appends happends).symm
  have hbounded : package.constants.size ≤ Package.maxConstants :=
    Package.size_le_of_appends happends
  have hcode : package.code.size + program.expressions.length = 4 * package.constants.size := by
    have hlength := Expr.length_postfixAll harith 0
    have happended := congrArg List.length happends.code
    rw [List.length_append, Array.length_toList] at happended
    rw [hpool] at hlength
    rw [happended, ← hlength]
    exact congrArg (· + _) (Nat.zero_add _)
  unfold Package.maxConstants at hbounded
  refine ⟨by omega, by omega, fun v hv => ?_⟩
  obtain ⟨n, rfl⟩ := integers_of_compile h v hv
  exact Value.regular_iff.mpr (Value.not_contains_of_leaf trivial (not_not.mpr trivial))

/-- **The package of a program** is written, and read back from what was written. -/
theorem stored_of_compile (h : program.compile = .ok package) :
    ∃ bytes, package.toBytes = .ok bytes ∧ Package.ofBytes bytes = .ok package := by
  have hplain : ∀ {p : Value → Prop}, (∀ n, ¬p (.int n)) →
      ¬∃ v ∈ package.constants, v.Contains p := by
    rintro p hp ⟨v, hv, hcontains⟩
    obtain ⟨n, rfl⟩ := integers_of_compile h v hv
    exact Value.not_contains_of_leaf (v := .int n) trivial (hp n) hcontains
  rcases hbytes : package.toBytes with ⟨⟩ | bytes
  · exact absurd ((Package.toBytes_eq_error package).mp hbytes) (hplain fun n => id)
  · have hwhole := ((Package.readsUnless_package (regular_of_compile h) hbytes).1
      (hplain fun n => id)).whole []
    rw [List.append_nil] at hwhole
    exact ⟨bytes, rfl, Package.ofBytes_of_ok hwhole⟩

end Program

end ExprMachine
