import ExprMachine.Ast.Render
import ExprMachine.Proofs.Token.Spelling

/-!
# What the canonical text says

The canonical text of a tree has two readers. One sees trees up to the places of their nodes:
`erase` takes the places away, and the text does not depend on them. The other sees tokens:
`spelling` lists the tokens that the text is meant to have, with every parenthesis, comma and
semicolon that it adds. How each construct begins is stated here as well, since that is what keeps
neighbours apart.
-/

namespace ExprMachine

/-! ## Trees without places -/

/-- The name without its place. -/
def Identifier.erase (id : Identifier) : Identifier := ⟨id.name, .start⟩

mutual

/-- The expression with the same place in all nodes. -/
def Expr.erase : Expr → Expr
  | .identifier id => .identifier id.erase
  | .integer _ digits value => .integer .start digits value
  | .string _ value => .string .start value
  | .bool _ value => .bool .start value
  | .array _ elements => .array .start (eraseExprs elements)
  | .object _ pairs => .object .start (erasePairs pairs)
  | .unary _ op right => .unary .start op right.erase
  | .binary _ op left right => .binary .start op left.erase right.erase
  | .branch _ condition consequence none =>
    .branch .start condition.erase consequence.erase none
  | .branch _ condition consequence (some alternative) =>
    .branch .start condition.erase consequence.erase (some alternative.erase)
  | .loop _ condition body => .loop .start condition.erase body.erase
  | .function _ params body => .function .start (params.map Identifier.erase) body.erase
  | .call _ callee arguments => .call .start callee.erase (eraseExprs arguments)
  | .index _ left index => .index .start left.erase index.erase

/-- The block with the same place in all nodes. -/
def Block.erase : Block → Block
  | ⟨_, stmts⟩ => ⟨.start, eraseStmts stmts⟩

/-- The statement with the same place in all nodes; the token it starts at is forgotten. -/
def Stmt.erase : Stmt → Stmt
  | .binding _ name value => .binding .start name.erase value.erase
  | .exit _ none => .exit .start none
  | .exit _ (some value) => .exit .start (some value.erase)
  | .expression _ value => .expression (.ending .start) value.erase
  | .block body => .block body.erase

/-- The expressions with the same place in all nodes. -/
def eraseExprs : List Expr → List Expr
  | [] => []
  | expr :: exprs => expr.erase :: eraseExprs exprs

/-- The pairs with the same place in all nodes. -/
def erasePairs : List (Expr × Expr) → List (Expr × Expr)
  | [] => []
  | (key, value) :: pairs => (key.erase, value.erase) :: erasePairs pairs

/-- The statements with the same place in all nodes. -/
def eraseStmts : List Stmt → List Stmt
  | [] => []
  | stmt :: stmts => stmt.erase :: eraseStmts stmts

end

/-- The program with the same place in all nodes. -/
def Program.erase (program : Program) : Program := ⟨eraseStmts program.statements⟩

theorem terminator_erase (stmt : Stmt) : stmt.erase.terminator = stmt.terminator := by
  cases stmt with
  | exit pos value? => cases value? <;> rfl
  | _ => rfl

mutual

theorem Expr.render_erase (expr : Expr) : expr.erase.render = expr.render := by
  cases expr with
  | array pos elements => simp only [Expr.erase, Expr.render, renderExprs_erase elements]
  | object pos pairs =>
    cases pairs with
    | nil => rfl
    | cons pair pairs =>
      have h := renderPairs_erase (pair :: pairs)
      simp only [erasePairs] at h
      simp only [Expr.erase, erasePairs, Expr.render, h]
  | unary pos op right => simp only [Expr.erase, Expr.render, right.render_erase]
  | binary pos op left right =>
    simp only [Expr.erase, Expr.render, left.render_erase, right.render_erase]
  | branch pos condition consequence alternative? =>
    cases alternative? with
    | none => simp only [Expr.erase, Expr.render, condition.render_erase, consequence.render_erase]
    | some alternative =>
      simp only [Expr.erase, Expr.render, condition.render_erase, consequence.render_erase,
        alternative.render_erase]
  | loop pos condition body =>
    simp only [Expr.erase, Expr.render, condition.render_erase, body.render_erase]
  | function pos params body =>
    have hnames : (params.map Identifier.erase).map (·.name) = params.map (·.name) := by
      simp [Identifier.erase]
    simp only [Expr.erase, Expr.render, hnames, body.render_erase]
  | call pos callee arguments =>
    simp only [Expr.erase, Expr.render, callee.render_erase, renderExprs_erase arguments]
  | index pos left index =>
    simp only [Expr.erase, Expr.render, left.render_erase, index.render_erase]
  | _ => rfl

theorem Block.render_erase (block : Block) : block.erase.render = block.render := by
  cases block with
  | mk pos stmts =>
    cases stmts with
    | nil => rfl
    | cons stmt stmts =>
      have h := renderStmts_erase (stmt :: stmts)
      simp only [eraseStmts] at h
      simp only [Block.erase, eraseStmts, Block.render, h]

theorem Stmt.render_erase (stmt : Stmt) : stmt.erase.render = stmt.render := by
  cases stmt with
  | binding pos name value =>
    simp only [Stmt.erase, Stmt.render, value.render_erase, Identifier.erase]
  | exit pos value? =>
    cases value? with
    | none => rfl
    | some value => simp only [Stmt.erase, Stmt.render, value.render_erase]
  | expression start value => simp only [Stmt.erase, Stmt.render, value.render_erase]
  | block body => simp only [Stmt.erase, Stmt.render, body.render_erase]

theorem renderExprs_erase (exprs : List Expr) :
    renderExprs (eraseExprs exprs) = renderExprs exprs := by
  cases exprs with
  | nil => rfl
  | cons expr exprs =>
    simp only [eraseExprs, renderExprs, expr.render_erase, renderExprs_erase exprs]

theorem renderPairs_erase (pairs : List (Expr × Expr)) :
    renderPairs (erasePairs pairs) = renderPairs pairs := by
  cases pairs with
  | nil => rfl
  | cons pair pairs =>
    obtain ⟨key, value⟩ := pair
    simp only [erasePairs, renderPairs, key.render_erase, value.render_erase,
      renderPairs_erase pairs]

theorem renderStmts_erase (stmts : List Stmt) :
    renderStmts (eraseStmts stmts) = renderStmts stmts := by
  cases stmts with
  | nil => rfl
  | cons stmt stmts =>
    have h := renderStmts_erase stmts
    cases stmts with
    | nil => simp only [eraseStmts, renderStmts, stmt.render_erase]
    | cons next stmts =>
      simp only [eraseStmts] at h
      simp only [eraseStmts, renderStmts, stmt.render_erase, terminator_erase, h]

end

/-- The canonical text does not show where the nodes stood. -/
theorem Program.render_erase (program : Program) : program.erase.render = program.render := by
  simp only [Program.erase, Program.render, renderStmts_erase]

/-! ## The tokens of the canonical text -/

namespace Spelling

/-- The opening of an object. -/
def openObject : Spelling := (.leftObject, "\x7b\x7b")

/-- The end of an object. -/
def closeObject : Spelling := (.rightObject, "\x7d\x7d")

/-- Parts with a comma between neighbours. -/
def commaSeparated (parts : List (List Spelling)) : List Spelling :=
  [sign ','].intercalate parts

end Spelling

/-- How the operator is written. -/
def UnaryOp.spelling : UnaryOp → Spelling
  | .not => .sign '!'
  | .negate => .sign '-'

/-- How the operator is written. -/
def BinaryOp.spelling : BinaryOp → Spelling
  | .arith .add => .sign '+'
  | .arith .sub => .sign '-'
  | .arith .mul => .sign '*'
  | .arith .div => .sign '/'
  | .compare .equal => (.equal, "==")
  | .compare .notEqual => (.notEqual, "!=")
  | .compare .less => .sign '<'
  | .compare .greater => .sign '>'

/-- What closes a statement that another one follows. -/
def Stmt.terminatorSpelling : Stmt → List Spelling
  | .expression .. => [.sign ';']
  | .binding .. | .exit .. | .block .. => []

mutual

/-- The tokens of an expression's canonical text. -/
def Expr.spelling : Expr → List Spelling
  | .identifier id => [.word id.name]
  | .integer _ digits _ => [.number digits]
  | .string _ value => [.text value]
  | .bool _ value => [.word (if value then "true" else "false")]
  | .array _ elements => .sign '[' :: (Spelling.commaSeparated (exprSpellings elements) ++ [.sign ']'])
  | .object _ pairs => .openObject :: (Spelling.commaSeparated (pairSpellings pairs) ++ [.closeObject])
  | .unary _ op right => .sign '(' :: op.spelling :: (right.spelling ++ [.sign ')'])
  | .binary _ op left right =>
    .sign '(' :: (left.spelling ++ op.spelling :: (right.spelling ++ [.sign ')']))
  | .branch _ condition consequence none =>
    .word "if" :: .sign '(' :: (condition.spelling ++ .sign ')' :: consequence.spelling)
  | .branch _ condition consequence (some alternative) =>
    .word "if" :: .sign '(' :: (condition.spelling ++ .sign ')' :: (consequence.spelling ++
      .word "else" :: alternative.spelling))
  | .loop _ condition body =>
    .word "for" :: .sign '(' :: (condition.spelling ++ .sign ')' :: body.spelling)
  | .function _ params body =>
    .word "fn" :: .sign '(' :: (Spelling.commaSeparated (params.map fun id => [.word id.name]) ++
      .sign ')' :: body.spelling)
  | .call _ callee arguments =>
    callee.spelling ++ .sign '(' :: (Spelling.commaSeparated (exprSpellings arguments) ++ [.sign ')'])
  | .index _ left index =>
    .sign '(' :: (left.spelling ++ .sign '[' :: (index.spelling ++ [.sign ']', .sign ')']))

/-- The tokens of a block's canonical text. -/
def Block.spelling : Block → List Spelling
  | ⟨_, stmts⟩ => .sign '\x7b' :: ((stmtSpellings stmts).flatten ++ [.sign '\x7d'])

/-- The tokens of the canonical text of a statement that nothing follows. -/
def Stmt.spelling : Stmt → List Spelling
  | .binding _ name value =>
    .word "let" :: .word name.name :: .sign '=' :: (value.spelling ++ [.sign ';'])
  | .exit _ none => [.word "return", .sign ';']
  | .exit _ (some value) => .word "return" :: (value.spelling ++ [.sign ';'])
  | .expression _ value => value.spelling
  | .block body => body.spelling

/-- The tokens of the canonical texts of expressions. -/
def exprSpellings : List Expr → List (List Spelling)
  | [] => []
  | expr :: exprs => expr.spelling :: exprSpellings exprs

/-- The tokens of the canonical texts of an object's pairs. -/
def pairSpellings : List (Expr × Expr) → List (List Spelling)
  | [] => []
  | (key, value) :: pairs => (key.spelling ++ .sign ':' :: value.spelling) :: pairSpellings pairs

/-- The tokens of the canonical texts of statements that follow each other. -/
def stmtSpellings : List Stmt → List (List Spelling)
  | [] => []
  | [stmt] => [stmt.spelling]
  | stmt :: next :: stmts =>
    (stmt.spelling ++ stmt.terminatorSpelling) :: stmtSpellings (next :: stmts)

end

/-- The tokens of a program's canonical text. -/
def Program.spelling (program : Program) : List Spelling :=
  (stmtSpellings program.statements).flatten

end ExprMachine
