/-!
# Checked 64-bit arithmetic

The four operations are those of the integers, with the quotient cut off toward zero. An operation
whose exact result does not fit a signed 64-bit word is an error that names its operands, and so is
dividing by zero; nothing wraps around.
-/

namespace ExprMachine

/-- The operators that compute a number from two. -/
inductive ArithOp where
  | add | sub | mul | div
deriving DecidableEq, Repr

/-- Why an operation on two words has no result. -/
inductive ArithError where
  | divisionByZero
  /-- The exact result of `left op right` fits no word. -/
  | overflow (left : Int64) (op : ArithOp) (right : Int64)
deriving DecidableEq, Repr

namespace ArithOp

/-- Every operator once. -/
def all : List ArithOp := [add, sub, mul, div]

/-- How the operator is written. -/
def symbol : ArithOp → String
  | add => "+"
  | sub => "-"
  | mul => "*"
  | div => "/"

/-- The exact result on integers; the quotient is cut off toward zero. -/
def exact : ArithOp → Int → Int → Int
  | add, a, b => a + b
  | sub, a, b => a - b
  | mul, a, b => a * b
  | div, a, b => a.tdiv b

end ArithOp

/-- The integers that a word holds. -/
def FitsWord (n : Int) : Prop := Int64.minValue.toInt ≤ n ∧ n ≤ Int64.maxValue.toInt

instance (n : Int) : Decidable (FitsWord n) := inferInstanceAs (Decidable (_ ∧ _))

theorem fitsWord_iff {n : Int} :
    FitsWord n ↔ -9223372036854775808 ≤ n ∧ n ≤ 9223372036854775807 := by
  rw [FitsWord, Int64.toInt_minValue, Int64.toInt_maxValue]
  omega

theorem fitsWord_toInt (w : Int64) : FitsWord w.toInt := ⟨w.minValue_le_toInt, w.toInt_le⟩

theorem toInt_ofInt_of_fitsWord {n : Int} (h : FitsWord n) : (Int64.ofInt n).toInt = n := by
  obtain ⟨hmin, hmax⟩ := fitsWord_iff.mp h
  exact Int64.toInt_ofInt_of_le hmin (Int.lt_add_one_of_le hmax)

/-- An integer fits if some word holds it. -/
theorem not_fitsWord_iff {n : Int} : ¬ FitsWord n ↔ ∀ w : Int64, w.toInt ≠ n := by
  refine ⟨fun h w hw => h (hw ▸ fitsWord_toInt w), fun h hfits => ?_⟩
  exact h (Int64.ofInt n) (toInt_ofInt_of_fitsWord hfits)

namespace ArithOp

/-- The operation on words: the exact result, or why there is none. -/
def apply (op : ArithOp) (left right : Int64) : Except ArithError Int64 :=
  if op = div ∧ right = 0 then .error .divisionByZero
  else
    let result := op.exact left.toInt right.toInt
    if FitsWord result then .ok (Int64.ofInt result) else .error (.overflow left op right)

/-- A result is the exact one. -/
theorem apply_eq_ok_iff {op : ArithOp} {a b n : Int64} :
    op.apply a b = .ok n ↔ ¬ (op = div ∧ b = 0) ∧ n.toInt = op.exact a.toInt b.toInt := by
  unfold apply
  by_cases hzero : op = div ∧ b = 0
  · rw [if_pos hzero]
    exact ⟨(nomatch ·), fun h => absurd hzero h.1⟩
  rw [if_neg hzero]
  dsimp only
  constructor
  · intro h
    split at h
    · next hfits =>
      cases h
      exact ⟨hzero, toInt_ofInt_of_fitsWord hfits⟩
    · cases h
  · rintro ⟨-, hexact⟩
    rw [if_pos (hexact ▸ fitsWord_toInt n), ← hexact, Int64.ofInt_toInt]

/-- There is no result for one of two reasons. -/
theorem apply_eq_error_iff {op : ArithOp} {a b : Int64} {e : ArithError} :
    op.apply a b = .error e ↔
      ((op = div ∧ b = 0) ∧ e = .divisionByZero) ∨
        (¬ (op = div ∧ b = 0) ∧ ¬ FitsWord (op.exact a.toInt b.toInt) ∧ e = .overflow a op b) := by
  unfold apply
  by_cases hzero : op = div ∧ b = 0
  · rw [if_pos hzero]
    simp only [hzero, and_self, not_true_eq_false, false_and, or_false, true_and,
      Except.error.injEq, eq_comm]
  by_cases hfits : FitsWord (op.exact a.toInt b.toInt)
  · simp [hzero, hfits]
  · simp [hzero, hfits, eq_comm]

end ArithOp

end ExprMachine
