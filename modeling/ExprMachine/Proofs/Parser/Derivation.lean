import ExprMachine.Parser.Grammar

/-!
# Derivations

The grammar of the language as a relation between tokens and trees, without a parser in it. A
phrase relates the tokens it stands in front of, the node that it builds and the tokens behind it,
so that the phrases of one rule are chained by what each leaves to the next: every token between
the two ends is used by one rule, in order. The rules say nothing about how tightly operators bind;
they say which tokens a node may be built from.

The optional, repeated and enclosed parts of the rules are phrases made from phrases. The one rule
that looks at what is behind it is that of a block whose closing brace is missing: it stands at the
end of the text.
-/

namespace ExprMachine

/-- The tokens a phrase stands in front of, the node it builds, and the tokens behind it. -/
abbrev Phrase (α : Type) : Type := List Token → α → List Token → Prop

namespace Phrase

variable {α : Type}

/-- A phrase between two delimiters. -/
inductive Enclosed (Item : Phrase α) (opening closing : Token.Kind) :
    List Token → α → List Token → Prop
  | intro {a : α} {o c : Token} {ts rest : List Token} (ho : o.kind = opening)
      (h : Item ts a (c :: rest)) (hc : c.kind = closing) :
      Enclosed Item opening closing (o :: ts) a rest

/-- One or more phrases with a comma between neighbours. -/
inductive CommaSeparated (Item : Phrase α) : List Token → List α → List Token → Prop
  | last {a : α} {ts rest : List Token} (h : Item ts a rest) : CommaSeparated Item ts [a] rest
  | more {a : α} {as : List α} {c : Token} {ts ts' rest : List Token} (h : Item ts a (c :: ts'))
      (hc : c.kind = .comma) (hs : CommaSeparated Item ts' as rest) :
      CommaSeparated Item ts (a :: as) rest

/-- A list that one more comma may follow. -/
inductive TrailingComma (Items : Phrase (List α)) : List Token → List α → List Token → Prop
  | without {as : List α} {ts rest : List Token} (h : Items ts as rest) :
      TrailingComma Items ts as rest
  | trailing {as : List α} {c : Token} {ts rest : List Token} (h : Items ts as (c :: rest))
      (hc : c.kind = .comma) : TrailingComma Items ts as rest

/-- A list that may be missing. -/
inductive Possibly (Items : Phrase (List α)) : List Token → List α → List Token → Prop
  | none (ts : List Token) : Possibly Items ts [] ts
  | some {as : List α} {ts rest : List Token} (h : Items ts as rest) : Possibly Items ts as rest

/-- Phrases one behind the other. -/
inductive Sequence (Item : Phrase α) : List Token → List α → List Token → Prop
  | nil (ts : List Token) : Sequence Item ts [] ts
  | cons {a : α} {as : List α} {ts ts' rest : List Token} (h : Item ts a ts')
      (hs : Sequence Item ts' as rest) : Sequence Item ts (a :: as) rest

end Phrase

open Phrase

/-- Any number of semicolons. -/
def Semicolons (ts rest : List Token) : Prop :=
  ∃ semicolons, ts = semicolons ++ rest ∧ ∀ t ∈ semicolons, t.kind = .semicolon

/-- A name. -/
inductive Identifier.DerivedBy : List Token → Identifier → List Token → Prop
  | intro {t : Token} {ts : List Token} (h : t.kind = .identifier) :
      Identifier.DerivedBy (t :: ts) (.ofToken t) ts

mutual

/-- An expression. -/
inductive Expr.DerivedBy : List Token → Expr → List Token → Prop
  | identifier {name : Identifier} {ts rest : List Token} (h : name.DerivedBy ts rest) :
      Expr.DerivedBy ts (.identifier name) rest
  | integer {t : Token} {ts : List Token} {value : Int64} (h : t.kind = .integer)
      (hv : Parser.wordValue? t.literal = some value) :
      Expr.DerivedBy (t :: ts) (.integer t.pos t.literal value) ts
  | string {t : Token} {ts : List Token} (h : t.kind = .string) :
      Expr.DerivedBy (t :: ts) (.string t.pos t.literal) ts
  | bool {t : Token} {ts : List Token} {value : Bool}
      (h : t.kind = if value then .trueWord else .falseWord) :
      Expr.DerivedBy (t :: ts) (.bool t.pos value) ts
  | unary {t : Token} {op : UnaryOp} {right : Expr} {ts rest : List Token}
      (h : UnaryOp.ofKind? t.kind = some op) (hr : right.DerivedBy ts rest) :
      Expr.DerivedBy (t :: ts) (.unary t.pos op right) rest
  | binary {t : Token} {op : BinaryOp} {left right : Expr} {ts ts' rest : List Token}
      (hl : left.DerivedBy ts (t :: ts')) (h : BinaryOp.ofKind? t.kind = some op)
      (hr : right.DerivedBy ts' rest) :
      Expr.DerivedBy ts (.binary t.pos op left right) rest
  /-- Parentheses leave no trace in the tree. -/
  | group {inner : Expr} {ts rest : List Token}
      (h : Enclosed Expr.DerivedBy .leftParen .rightParen ts inner rest) :
      Expr.DerivedBy ts inner rest
  | branch {t : Token} {test : Expr} {consequence : Block} {ts ts' rest : List Token}
      (h : t.kind = .ifWord)
      (ht : Enclosed Expr.DerivedBy .leftParen .rightParen ts test ts')
      (hb : consequence.DerivedBy ts' rest) :
      Expr.DerivedBy (t :: ts) (.branch t.pos test consequence none) rest
  | branchElse {t e : Token} {test : Expr} {consequence alternative : Block}
      {ts ts' ts'' rest : List Token} (h : t.kind = .ifWord)
      (ht : Enclosed Expr.DerivedBy .leftParen .rightParen ts test ts')
      (hb : consequence.DerivedBy ts' (e :: ts'')) (he : e.kind = .elseWord)
      (ha : alternative.DerivedBy ts'' rest) :
      Expr.DerivedBy (t :: ts) (.branch t.pos test consequence (some alternative)) rest
  | loop {t : Token} {test : Expr} {body : Block} {ts ts' rest : List Token}
      (h : t.kind = .forWord)
      (ht : Enclosed Expr.DerivedBy .leftParen .rightParen ts test ts')
      (hb : body.DerivedBy ts' rest) :
      Expr.DerivedBy (t :: ts) (.loop t.pos test body) rest
  | function {t : Token} {params : List Identifier} {body : Block} {ts ts' rest : List Token}
      (h : t.kind = .fnWord)
      (hp : Enclosed (Possibly (CommaSeparated Identifier.DerivedBy)) .leftParen .rightParen
        ts params ts')
      (hb : body.DerivedBy ts' rest) :
      Expr.DerivedBy (t :: ts) (.function t.pos params body) rest
  | call {t : Token} {callee : Expr} {arguments : List Expr} {ts ts' rest : List Token}
      (hl : callee.DerivedBy ts (t :: ts'))
      (ha : Enclosed (Possibly (CommaSeparated Expr.DerivedBy)) .leftParen .rightParen
        (t :: ts') arguments rest) :
      Expr.DerivedBy ts (.call t.pos callee arguments) rest
  | index {t : Token} {left place : Expr} {ts ts' rest : List Token}
      (hl : left.DerivedBy ts (t :: ts'))
      (hi : Enclosed Expr.DerivedBy .leftBracket .rightBracket (t :: ts') place rest) :
      Expr.DerivedBy ts (.index t.pos left place) rest
  | array {t : Token} {items : List Expr} {ts rest : List Token}
      (h : Enclosed (Possibly (TrailingComma (CommaSeparated Expr.DerivedBy)))
        .leftBracket .rightBracket (t :: ts) items rest) :
      Expr.DerivedBy (t :: ts) (.array t.pos items) rest
  | object {t : Token} {items : List (Expr × Expr)} {ts rest : List Token}
      (h : Enclosed (Possibly (TrailingComma (CommaSeparated Pair.DerivedBy)))
        .leftObject .rightObject (t :: ts) items rest) :
      Expr.DerivedBy (t :: ts) (.object t.pos items) rest

/-- A key, a colon and a value. -/
inductive Pair.DerivedBy : List Token → Expr × Expr → List Token → Prop
  | intro {key value : Expr} {c : Token} {ts ts' rest : List Token}
      (hk : key.DerivedBy ts (c :: ts')) (hc : c.kind = .colon) (hv : value.DerivedBy ts' rest) :
      Pair.DerivedBy ts (key, value) rest

/-- Statements between braces, of which the closing one may be missing at the end of the text. -/
inductive Block.DerivedBy : List Token → Block → List Token → Prop
  | closed {o c : Token} {stmts : List Stmt} {ts rest : List Token} (ho : o.kind = .leftBrace)
      (h : Sequence Stmt.DerivedBy ts stmts (c :: rest)) (hc : c.kind = .rightBrace) :
      Block.DerivedBy (o :: ts) ⟨o.pos, stmts⟩ rest
  | unclosed {o : Token} {stmts : List Stmt} {ts : List Token} (ho : o.kind = .leftBrace)
      (h : Sequence Stmt.DerivedBy ts stmts []) : Block.DerivedBy (o :: ts) ⟨o.pos, stmts⟩ []

/-- A statement with the semicolons behind it. -/
inductive Stmt.DerivedBy : List Token → Stmt → List Token → Prop
  | binding {t a : Token} {name : Identifier} {value : Expr} {ts ts' ts'' rest : List Token}
      (h : t.kind = .letWord) (hn : name.DerivedBy ts (a :: ts')) (ha : a.kind = .assign)
      (hv : value.DerivedBy ts' ts'') (hs : Semicolons ts'' rest) :
      Stmt.DerivedBy (t :: ts) (.binding t.pos name value) rest
  | exit {t : Token} {ts rest : List Token} (h : t.kind = .returnWord)
      (hs : Semicolons ts rest) : Stmt.DerivedBy (t :: ts) (.exit t.pos none) rest
  | exitWith {t : Token} {value : Expr} {ts ts' rest : List Token} (h : t.kind = .returnWord)
      (hv : value.DerivedBy ts ts') (hs : Semicolons ts' rest) :
      Stmt.DerivedBy (t :: ts) (.exit t.pos (some value)) rest
  | block {body : Block} {ts rest : List Token} (h : body.DerivedBy ts rest) :
      Stmt.DerivedBy ts (.block body) rest
  | expression {t : Token} {value : Expr} {ts rest : List Token}
      (h : value.DerivedBy (t :: ts) rest) : Stmt.DerivedBy (t :: ts) (.expression t value) rest
  /-- One semicolon belongs to an expression. -/
  | expressionClosed {t s : Token} {value : Expr} {ts rest : List Token}
      (h : value.DerivedBy (t :: ts) (s :: rest)) (hs : s.kind = .semicolon) :
      Stmt.DerivedBy (t :: ts) (.expression t value) rest

end

/-- The tokens are a derivation of the program, all of them. -/
def Program.DerivedBy (tokens : List Token) (program : Program) : Prop :=
  Sequence Stmt.DerivedBy tokens program.statements []

end ExprMachine
