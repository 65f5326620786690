import ExprMachine.Ast.Operator
import ExprMachine.Token.Basic

/-!
# Programs as trees

Expressions, blocks and statements refer to each other, so they are declared together. Every node
carries the place it is reported at: where its first token stands, except that an operation between
operands, a call and an index are reported at their operator, `(` or `[`.

Collections may be partial: where the text breaks off inside one, the tree keeps what was complete.
-/

namespace ExprMachine

/-- A name and where it stands: an expression, the target of a `let`, or a parameter. -/
structure Identifier where
  name : String
  pos : Position
deriving DecidableEq, Repr

mutual

/-- An expression. -/
inductive Expr where
  | identifier (id : Identifier)
  /-- A number: its digits as they are written, and its value. -/
  | integer (pos : Position) (digits : String) (value : Int64)
  | string (pos : Position) (value : String)
  | bool (pos : Position) (value : Bool)
  /-- Written `[a, b]`. -/
  | array (pos : Position) (elements : List Expr)
  /-- Written `{{ k: v, l: w }}`; the pairs keep the order of the source. -/
  | object (pos : Position) (pairs : List (Expr × Expr))
  /-- Written `!a` or `-a`. -/
  | unary (pos : Position) (op : UnaryOp) (right : Expr)
  /-- Written `a + b`, or with another operator. -/
  | binary (pos : Position) (op : BinaryOp) (left right : Expr)
  /-- Written `if (c) { … } else { … }`. -/
  | branch (pos : Position) (condition : Expr) (consequence : Block) (alternative : Option Block)
  /-- Written `for (c) { … }`. -/
  | loop (pos : Position) (condition : Expr) (body : Block)
  /-- Written `fn(a, b) { … }`. -/
  | function (pos : Position) (params : List Identifier) (body : Block)
  /-- Written `f(a, b)`. -/
  | call (pos : Position) (callee : Expr) (arguments : List Expr)
  /-- Written `a[i]`. -/
  | index (pos : Position) (left index : Expr)

/-- Statements between braces. -/
structure Block where
  pos : Position
  statements : List Stmt

/-- A statement. -/
inductive Stmt where
  /-- Written `let a = e`. -/
  | binding (pos : Position) (name : Identifier) (value : Expr)
  /-- Written `return e` or `return`. -/
  | exit (pos : Position) (value : Option Expr)
  /-- An expression on its own, with the token it starts at (which may be an opening parenthesis
  that the tree does not keep). -/
  | expression (start : Token) (value : Expr)
  | block (body : Block)

end

/-- A program: its statements in order. -/
structure Program where
  statements : List Stmt

namespace Expr

/-- What sort of expression it is, in words. -/
def kindName : Expr → String
  | identifier .. => "identifier"
  | integer .. => "integer literal"
  | string .. => "string literal"
  | bool .. => "boolean literal"
  | array .. => "array literal"
  | object .. => "object literal"
  | unary .. => "prefix expression"
  | binary .. => "infix expression"
  | branch .. => "if expression"
  | loop .. => "for expression"
  | function .. => "function literal"
  | call .. => "function call"
  | index .. => "index expression"

/-- Where the expression is reported. -/
def pos : Expr → Position
  | identifier id => id.pos
  | integer pos .. | string pos .. | bool pos .. | array pos .. | object pos .. | unary pos ..
  | binary pos .. | branch pos .. | loop pos .. | function pos .. | call pos .. | index pos .. => pos

/-- The text of the token that the expression is reported at. -/
def leadText : Expr → String
  | identifier id => id.name
  | integer _ digits _ => digits
  | string _ value => value
  | bool _ value => if value then "true" else "false"
  | array .. | index .. => "["
  | object .. => "\x7b\x7b"
  | unary _ op _ => op.symbol
  | binary _ op _ _ => op.symbol
  | branch .. => "if"
  | loop .. => "for"
  | function .. => "fn"
  | call .. => "("

end Expr

namespace Stmt

/-- What sort of statement it is, in words. -/
def kindName : Stmt → String
  | binding .. => "let statement"
  | exit .. => "return statement"
  | expression .. => "expression statement"
  | block .. => "block statement"

/-- Where the statement is reported. -/
def pos : Stmt → Position
  | binding pos .. | exit pos .. => pos
  | expression start _ => start.pos
  | block body => body.pos

/-- The text of the token that the statement is reported at. -/
def leadText : Stmt → String
  | binding .. => "let"
  | exit .. => "return"
  | expression start _ => start.literal
  | block .. => "\x7b"

end Stmt

namespace Program

/-- The text of the program's first token, or nothing for the empty program. -/
def leadText (program : Program) : String :=
  match program.statements with
  | [] => ""
  | stmt :: _ => stmt.leadText

end Program

end ExprMachine
