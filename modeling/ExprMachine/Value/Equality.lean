import ExprMachine.Ast.Equality
import ExprMachine.Value.Basic

/-!
# Equality of values

Values are equal when they have the same type and equal parts. Functions are equal when they have
the same text at the same places and were made in the same scope.
-/

namespace ExprMachine

/-- Whether two functions are equal. -/
def Closure.beq (f g : Closure) : Bool :=
  f.params == g.params && f.body == g.body && f.scope == g.scope

mutual

/-- Whether two values are equal. -/
def Value.beq : Value → Value → Bool
  | .int m, .int n => m == n
  | .str s, .str t => s == t
  | .bool a, .bool b => a == b
  | .null, .null => true
  | .arr xs, .arr ys => beqItems xs ys
  | .obj xs, .obj ys => beqEntries xs ys
  | .func f, .func g => f.beq g
  | .builtin a, .builtin b => a == b
  | .ret a, .ret b => a.beq b
  | .err a, .err b => a == b
  | _, _ => false

/-- Whether two lists of values are equal. -/
def beqItems : List Value → List Value → Bool
  | [], [] => true
  | x :: xs, y :: ys => x.beq y && beqItems xs ys
  | _, _ => false

/-- Whether two lists of entries are equal. -/
def beqEntries : List (String × Value) → List (String × Value) → Bool
  | [], [] => true
  | (k, x) :: xs, (l, y) :: ys => k == l && x.beq y && beqEntries xs ys
  | _, _ => false

end

instance : BEq Value := ⟨Value.beq⟩

end ExprMachine
