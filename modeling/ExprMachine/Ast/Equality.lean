import ExprMachine.Ast.Basic

/-!
# Equality of trees

Two trees are equal when they have the same nodes with the same texts at the same places. It is
decided node by node along the first tree.
-/

namespace ExprMachine

mutual

/-- Whether two expressions are equal, places included. -/
def Expr.beq : Expr → Expr → Bool
  | .identifier a, .identifier b => a == b
  | .integer p ds n, .integer q es m => p == q && ds == es && n == m
  | .string p s, .string q t => p == q && s == t
  | .bool p a, .bool q b => p == q && a == b
  | .array p es, .array q fs => p == q && beqExprs es fs
  | .object p es, .object q fs => p == q && beqPairs es fs
  | .unary p o a, .unary q o' b => p == q && o == o' && a.beq b
  | .binary p o a b, .binary q o' c d => p == q && o == o' && a.beq c && b.beq d
  | .branch p c t none, .branch q d u none => p == q && c.beq d && t.beq u
  | .branch p c t (some e), .branch q d u (some f) =>
    p == q && c.beq d && t.beq u && e.beq f
  | .loop p c b, .loop q d e => p == q && c.beq d && b.beq e
  | .function p xs b, .function q ys c => p == q && xs == ys && b.beq c
  | .call p f as, .call q g bs => p == q && f.beq g && beqExprs as bs
  | .index p a i, .index q b j => p == q && a.beq b && i.beq j
  | _, _ => false

/-- Whether two blocks are equal, places included. -/
def Block.beq : Block → Block → Bool
  | ⟨p, ss⟩, ⟨q, ts⟩ => p == q && beqStmts ss ts

/-- Whether two statements are equal, places included. -/
def Stmt.beq : Stmt → Stmt → Bool
  | .binding p x e, .binding q y f => p == q && x == y && e.beq f
  | .exit p none, .exit q none => p == q
  | .exit p (some e), .exit q (some f) => p == q && e.beq f
  | .expression s e, .expression t f => s == t && e.beq f
  | .block b, .block c => b.beq c
  | _, _ => false

/-- Whether two lists of expressions are equal. -/
def beqExprs : List Expr → List Expr → Bool
  | [], [] => true
  | e :: es, f :: fs => e.beq f && beqExprs es fs
  | _, _ => false

/-- Whether two lists of pairs are equal. -/
def beqPairs : List (Expr × Expr) → List (Expr × Expr) → Bool
  | [], [] => true
  | (k, v) :: es, (l, w) :: fs => k.beq l && v.beq w && beqPairs es fs
  | _, _ => false

/-- Whether two lists of statements are equal. -/
def beqStmts : List Stmt → List Stmt → Bool
  | [], [] => true
  | s :: ss, t :: ts => s.beq t && beqStmts ss ts
  | _, _ => false

end

instance : BEq Expr := ⟨Expr.beq⟩
instance : BEq Block := ⟨Block.beq⟩
instance : BEq Stmt := ⟨Stmt.beq⟩

end ExprMachine
