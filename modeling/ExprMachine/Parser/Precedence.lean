import ExprMachine.Ast.Operator

/-!
# How tightly operators bind

What can follow an operand is an operator with a second operand, the arguments of a call, or an
index. Each has a level, and the levels are ordered: an operand that two operators compete for goes
to the one of the higher level, and to the left one when the levels are equal. The operators in
front of an operand bind tighter than all operators between operands and less tight than calls and
indexes.
-/

namespace ExprMachine

/-- The levels, the loosest first. -/
inductive Precedence where
  | lowest
  /-- The level of `==` and `!=`. -/
  | equality
  /-- The level of `<` and `>`. -/
  | ordering
  /-- The level of `+` and `-`. -/
  | sum
  /-- The level of `*` and `/`. -/
  | product
  /-- The level of `!a` and `-a`. -/
  | unary
  /-- The level of `f(a)`. -/
  | call
  /-- The level of `a[i]`. -/
  | index
deriving DecidableEq, Repr

namespace Precedence

/-- The place of a level in the order. -/
def rank : Precedence → Nat
  | lowest => 0
  | equality => 1
  | ordering => 2
  | sum => 3
  | product => 4
  | unary => 5
  | call => 6
  | index => 7

instance : LT Precedence := ⟨fun p q => p.rank < q.rank⟩

instance (p q : Precedence) : Decidable (p < q) := inferInstanceAs (Decidable (p.rank < q.rank))

end Precedence

/-- The level of an operator between two operands. -/
def BinaryOp.precedence : BinaryOp → Precedence
  | .arith .add | .arith .sub => .sum
  | .arith .mul | .arith .div => .product
  | .compare .equal | .compare .notEqual => .equality
  | .compare .less | .compare .greater => .ordering

/-- What can follow an operand and take it as its left part. -/
inductive Continuation where
  | binary (op : BinaryOp)
  | call
  | index
deriving DecidableEq, Repr

namespace Continuation

/-- The continuation that a token begins. -/
def ofKind? (kind : Token.Kind) : Option Continuation :=
  match kind with
  | .leftParen => some call
  | .leftBracket => some index
  | _ => (BinaryOp.ofKind? kind).map binary

/-- The level of a continuation. -/
def precedence : Continuation → Precedence
  | binary op => op.precedence
  | call => .call
  | index => .index

/-- The continuation that a token begins, if it binds tighter than `level`. -/
def above? (level : Precedence) (kind : Token.Kind) : Option Continuation :=
  (ofKind? kind).filter fun continuation => level < continuation.precedence

end Continuation

/-- The level at which a token continues an operand, the lowest if it does not. -/
def Precedence.ofKind (kind : Token.Kind) : Precedence :=
  match Continuation.ofKind? kind with
  | some continuation => continuation.precedence
  | none => .lowest

end ExprMachine
