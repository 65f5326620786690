import ExprMachine.Parser.Grammar
import Mathlib.Algebra.Group.Nat.Defs

/-!
# Chains of operators

A chain is written `t₀ o₁ t₁ … oₙ tₙ`: terms with operators between them. A term is an atom with
operators in front of it and arguments and indexes behind it, and the atoms are names, literals and
chains in parentheses. So chains nest, through parentheses, arguments and indexes.

What a chain means is said without a parser. The operators between terms are of four levels. The
root of a chain is the rightmost of the operators that bind least (`Split`), its operands are what
stands on the two sides of it, and so on down to the terms (`Link.grouped`).
-/

namespace ExprMachine

/-- How tightly an operator between two operands binds. -/
def BinaryOp.tightness : BinaryOp → Nat
  | .compare .equal | .compare .notEqual => 0
  | .compare .less | .compare .greater => 1
  | .arith .add | .arith .sub => 2
  | .arith .mul | .arith .div => 3

/-- A token of the kind. -/
abbrev Token.Of (kind : Token.Kind) : Type := { t : Token // t.kind = kind }

/-- An operator between two operands, as it is written. -/
structure Operator where
  token : Token
  op : BinaryOp
  spelled : BinaryOp.ofKind? token.kind = some op

/-- An operator in front of an operand, as it is written. -/
structure Sign where
  token : Token
  op : UnaryOp
  spelled : UnaryOp.ofKind? token.kind = some op

/-- An operator of a chain and what stands behind it. -/
structure Link (α : Type) where
  operator : Operator
  right : α

/-! ## Where a chain is split -/

namespace Link

variable {α β : Type}

def tightness (link : Link α) : Nat := link.operator.op.tightness

/-- The same operator with something else behind it. -/
def map (f : α → β) (link : Link α) : Link β := ⟨link.operator, f link.right⟩

end Link

/-- The rightmost of the links that bind least, and those in front of it and behind it. -/
structure Split {α : Type} (links : List (Link α)) where
  before : List (Link α)
  root : Link α
  behind : List (Link α)
  whole : before ++ root :: behind = links
  least : ∀ link ∈ before, root.tightness ≤ link.tightness
  last : ∀ link ∈ behind, root.tightness < link.tightness

namespace Split

variable {α : Type} {links : List (Link α)}

theorem length_eq (s : Split links) : s.before.length + s.behind.length + 1 = links.length := by
  have h := congrArg List.length s.whole
  rw [List.length_append, List.length_cons] at h
  omega

theorem forall_mem (s : Split links) {p : Link α → Prop} (h : ∀ link ∈ links, p link) :
    (∀ link ∈ s.before, p link) ∧ p s.root ∧ ∀ link ∈ s.behind, p link := by
  have hall : ∀ link ∈ s.before ++ s.root :: s.behind, p link := by rwa [s.whole]
  obtain ⟨hbefore, hmore⟩ := List.forall_mem_append.mp hall
  exact ⟨hbefore, List.forall_mem_cons.mp hmore⟩

theorem root_le (s : Split links) {link : Link α} (h : link ∈ links) :
    s.root.tightness ≤ link.tightness := by
  rw [← s.whole] at h
  rcases List.mem_append.mp h with h | h
  · exact s.least link h
  · rcases List.mem_cons.mp h with rfl | h
    · exact Nat.le_refl _
    · exact Nat.le_of_lt (s.last link h)

/-- Splits links, of which there is one at least. -/
def of (link : Link α) (links : List (Link α)) : Split (link :: links) :=
  match links with
  | [] => ⟨[], link, [], rfl, List.forall_mem_nil _, List.forall_mem_nil _⟩
  | next :: more =>
    let later := of next more
    if h : link.tightness < later.root.tightness then
      ⟨[], link, next :: more, rfl, List.forall_mem_nil _,
        fun _ hl => Nat.lt_of_lt_of_le h (later.root_le hl)⟩
    else
      ⟨link :: later.before, later.root, later.behind, congrArg (link :: ·) later.whole,
        List.forall_mem_cons.mpr ⟨Nat.le_of_not_lt h, later.least⟩, later.last⟩

/-- What stands between the operators does not matter for the split. -/
def map {β : Type} (f : α → β) (s : Split links) : Split (links.map (Link.map f)) where
  before := s.before.map (Link.map f)
  root := s.root.map f
  behind := s.behind.map (Link.map f)
  whole := by rw [← List.map_cons, ← List.map_append, s.whole]
  least := List.forall_mem_map.mpr s.least
  last := List.forall_mem_map.mpr s.last

/-- One root does not stand behind another. -/
theorem eq_nil_of_before {s t : Split links} {more : List (Link α)}
    (h : t.before = s.before ++ more) : more = [] := by
  cases more with
  | nil => rfl
  | cons link more =>
      -- the root of `s` stands in front of the root of `t`, so it binds both more and less
      have hwhole := s.whole.trans t.whole.symm
      rw [h, List.append_assoc, List.append_cancel_left_eq] at hwhole
      obtain ⟨hroot, hbehind⟩ := List.cons.inj hwhole
      have hlt : s.root.tightness < t.root.tightness := s.last t.root (by simp [hbehind])
      have hle : t.root.tightness ≤ s.root.tightness := t.least s.root (by simp [h, hroot])
      omega

/-- A chain has only one root. -/
theorem unique (s t : Split links) : s = t := by
  have hbefore : s.before = t.before := by
    have hwhole := s.whole.trans t.whole.symm
    rcases List.append_eq_append_iff.mp hwhole with ⟨more, h, -⟩ | ⟨more, h, -⟩
    · rw [h, eq_nil_of_before h, List.append_nil]
    · rw [h, eq_nil_of_before h, List.append_nil]
  have hwhole := s.whole.trans t.whole.symm
  rw [hbefore, List.append_cancel_left_eq] at hwhole
  obtain ⟨hroot, hbehind⟩ := List.cons.inj hwhole
  cases s
  cases t
  cases hbefore
  cases hroot
  cases hbehind
  rfl

end Split

/-- The tree of a chain of operands: the root of the chain with the trees of the two sides of it. -/
def Link.grouped (first : Expr) : List (Link Expr) → Expr
  | [] => first
  | link :: links =>
    let s := Split.of link links
    .binary s.root.operator.token.pos s.root.operator.op (grouped first s.before)
      (grouped s.root.right s.behind)
termination_by links => links.length
decreasing_by
  · have h := (Split.of link links).length_eq
    show (Split.of link links).before.length < (link :: links).length
    omega
  · have h := (Split.of link links).length_eq
    show (Split.of link links).behind.length < (link :: links).length
    omega

theorem Link.grouped_nil (first : Expr) : grouped first [] = first := by rw [grouped]

/-- A chain is its root with the two sides of it as operands. -/
theorem Link.grouped_split (first : Expr) {links : List (Link Expr)} (s : Split links) :
    grouped first links =
      .binary s.root.operator.token.pos s.root.operator.op (grouped first s.before)
        (grouped s.root.right s.behind) := by
  cases links with
  | nil => exact absurd s.whole (by simp)
  | cons link links => rw [grouped, Split.unique (Split.of link links) s]

/-! ## Chains as they are written -/

mutual

/-- Terms with operators between them. -/
inductive Chain where
  | mk (first : Term) (links : List (Link Term))

/-- An atom with signs in front of it and suffixes behind it. -/
inductive Term where
  | mk (signs : List Sign) (atom : Atom) (suffixes : List Suffix)

/-- What is no operation by itself. -/
inductive Atom where
  | identifier (t : Token.Of .identifier)
  /-- A number in the range of the words. -/
  | integer (t : Token.Of .integer) (n : Nat) (value : Parser.digitsValue? t.val.literal = some n)
    (inRange : n < 2 ^ 63)
  | string (t : Token.Of .string)
  | bool (value : Bool) (t : Token.Of (if value then .trueWord else .falseWord))
  /-- A chain in parentheses. -/
  | group (opening : Token.Of .leftParen) (inner : Chain) (closing : Token.Of .rightParen)

/-- What takes everything in front of it as its left part. -/
inductive Suffix where
  /-- Written `()`. -/
  | call (opening : Token.Of .leftParen) (closing : Token.Of .rightParen)
  /-- Written `(a, b)`. -/
  | callWith (opening : Token.Of .leftParen) (first : Chain) (more : List Argument)
    (closing : Token.Of .rightParen)
  /-- Written `[i]`. -/
  | index (opening : Token.Of .leftBracket) (place : Chain) (closing : Token.Of .rightBracket)

/-- An argument behind another one. -/
inductive Argument where
  | mk (comma : Token.Of .comma) (value : Chain)

end

/-- The chain behind the comma. -/
def Argument.value : Argument → Chain
  | ⟨_, value⟩ => value

mutual

/-- The tokens of a chain. -/
def Chain.tokens : Chain → List Token
  | ⟨first, links⟩ => first.tokens ++ linkTokens links

def linkTokens : List (Link Term) → List Token
  | [] => []
  | ⟨operator, right⟩ :: links => operator.token :: (right.tokens ++ linkTokens links)

def Term.tokens : Term → List Token
  | ⟨signs, atom, suffixes⟩ => signs.map Sign.token ++ (atom.tokens ++ suffixTokens suffixes)

def Atom.tokens : Atom → List Token
  | .identifier t => [t.val]
  | .integer t _ _ _ => [t.val]
  | .string t => [t.val]
  | .bool _ t => [t.val]
  | .group opening inner closing => opening.val :: (inner.tokens ++ [closing.val])

def Suffix.tokens : Suffix → List Token
  | .call opening closing => [opening.val, closing.val]
  | .callWith opening first more closing =>
    opening.val :: (first.tokens ++ (argumentTokens more ++ [closing.val]))
  | .index opening place closing => opening.val :: (place.tokens ++ [closing.val])

def suffixTokens : List Suffix → List Token
  | [] => []
  | suffix :: suffixes => suffix.tokens ++ suffixTokens suffixes

def argumentTokens : List Argument → List Token
  | [] => []
  | ⟨comma, value⟩ :: more => comma.val :: (value.tokens ++ argumentTokens more)

end

/-! ## Chains as trees -/

/-- The signs in front of an operand, the innermost nearest to it. -/
def Sign.applied (signs : List Sign) (operand : Expr) : Expr :=
  signs.foldr (fun sign right => .unary sign.token.pos sign.op right) operand

mutual

/-- The tree of a chain. -/
def Chain.tree : Chain → Expr
  | ⟨first, links⟩ => Link.grouped first.tree (linkTrees links)

def linkTrees : List (Link Term) → List (Link Expr)
  | [] => []
  | ⟨operator, right⟩ :: links => ⟨operator, right.tree⟩ :: linkTrees links

def Term.tree : Term → Expr
  | ⟨signs, atom, suffixes⟩ => Sign.applied signs (suffixed atom.tree suffixes)

def Atom.tree : Atom → Expr
  | .identifier t => .identifier (.ofToken t.val)
  | .integer t n _ _ => .integer t.val.pos t.val.literal (Int64.ofNat n)
  | .string t => .string t.val.pos t.val.literal
  | .bool value t => .bool t.val.pos value
  | .group _ inner _ => inner.tree

/-- What a suffix makes of everything in front of it. -/
def Suffix.applied (left : Expr) : Suffix → Expr
  | .call opening _ => .call opening.val.pos left []
  | .callWith opening first more _ =>
    .call opening.val.pos left (first.tree :: argumentTrees more)
  | .index opening place _ => .index opening.val.pos left place.tree

/-- What suffixes make of everything in front of them, from left to right. -/
def suffixed (left : Expr) : List Suffix → Expr
  | [] => left
  | suffix :: suffixes => suffixed (suffix.applied left) suffixes

def argumentTrees : List Argument → List Expr
  | [] => []
  | ⟨_, value⟩ :: more => value.tree :: argumentTrees more

end

end ExprMachine
