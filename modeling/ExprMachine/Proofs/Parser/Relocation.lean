import ExprMachine.Parser.Program
import ExprMachine.Proofs.Parser.Success

/-!
# Reading does not look at places

Every token carries its place, and the trees and reports are full of places, but no choice is made
by one. If all the tokens of a text are moved somewhere else, all that is read from them is the same
thing moved there too. `relocate f` moves whatever has places, by any function `f` of places, and
`Parsed.Moves` says that one reading is another one moved. It goes from the parts of a construct to
the whole, so that each function of the grammar needs one look at its parts.

Moving everything to one place forgets the places, so readings of texts whose tokens differ in their
places only can be compared.
-/

namespace ExprMachine

/-! ## Moving what has places -/

/-- The token at another place. -/
def Token.relocate (f : Position → Position) (t : Token) : Token := ⟨t.kind, t.literal, f t.pos⟩

/-- The stream at other places. -/
def TokenStream.relocate (f : Position → Position) (stream : TokenStream) : TokenStream :=
  ⟨stream.tokens.map (Token.relocate f), f stream.eof⟩

/-- The report at another place. -/
def Diagnostic.relocate (f : Position → Position) (d : Diagnostic) : Diagnostic := ⟨f d.pos, d.fault⟩

/-- The name at another place. -/
def Identifier.relocate (f : Position → Position) (id : Identifier) : Identifier :=
  ⟨id.name, f id.pos⟩

mutual

/-- The expression with all its nodes at other places. -/
def Expr.relocate (f : Position → Position) : Expr → Expr
  | .identifier id => .identifier (id.relocate f)
  | .integer pos digits value => .integer (f pos) digits value
  | .string pos value => .string (f pos) value
  | .bool pos value => .bool (f pos) value
  | .array pos elements => .array (f pos) (relocateExprs f elements)
  | .object pos pairs => .object (f pos) (relocatePairs f pairs)
  | .unary pos op right => .unary (f pos) op (right.relocate f)
  | .binary pos op left right => .binary (f pos) op (left.relocate f) (right.relocate f)
  | .branch pos condition consequence none =>
    .branch (f pos) (condition.relocate f) (consequence.relocate f) none
  | .branch pos condition consequence (some alternative) =>
    .branch (f pos) (condition.relocate f) (consequence.relocate f)
      (some (alternative.relocate f))
  | .loop pos condition body => .loop (f pos) (condition.relocate f) (body.relocate f)
  | .function pos params body =>
    .function (f pos) (params.map (Identifier.relocate f)) (body.relocate f)
  | .call pos callee arguments => .call (f pos) (callee.relocate f) (relocateExprs f arguments)
  | .index pos left index => .index (f pos) (left.relocate f) (index.relocate f)

/-- The block with all its nodes at other places. -/
def Block.relocate (f : Position → Position) : Block → Block
  | ⟨pos, stmts⟩ => ⟨f pos, relocateStmts f stmts⟩

/-- The statement with all its nodes at other places. -/
def Stmt.relocate (f : Position → Position) : Stmt → Stmt
  | .binding pos name value => .binding (f pos) (name.relocate f) (value.relocate f)
  | .exit pos none => .exit (f pos) none
  | .exit pos (some value) => .exit (f pos) (some (value.relocate f))
  | .expression start value => .expression (start.relocate f) (value.relocate f)
  | .block body => .block (body.relocate f)

/-- The expressions with all their nodes at other places. -/
def relocateExprs (f : Position → Position) : List Expr → List Expr
  | [] => []
  | expr :: exprs => expr.relocate f :: relocateExprs f exprs

/-- The pairs with all their nodes at other places. -/
def relocatePairs (f : Position → Position) : List (Expr × Expr) → List (Expr × Expr)
  | [] => []
  | (key, value) :: pairs => (key.relocate f, value.relocate f) :: relocatePairs f pairs

/-- The statements with all their nodes at other places. -/
def relocateStmts (f : Position → Position) : List Stmt → List Stmt
  | [] => []
  | stmt :: stmts => stmt.relocate f :: relocateStmts f stmts

end

/-- The program with all its nodes at other places. -/
def Program.relocate (f : Position → Position) (program : Program) : Program :=
  ⟨relocateStmts f program.statements⟩

/-- What was read, with the tree and the reports at other places. -/
def ParsedProgram.relocate (f : Position → Position) (parsed : ParsedProgram) : ParsedProgram :=
  ⟨parsed.program.relocate f, parsed.diagnostics.map (Diagnostic.relocate f)⟩

variable {f : Position → Position}

theorem relocateStmts_append (xs ys : List Stmt) :
    relocateStmts f (xs ++ ys) = relocateStmts f xs ++ relocateStmts f ys := by
  induction xs with
  | nil => rfl
  | cons x xs ih => exact congrArg (x.relocate f :: ·) ih

theorem relocateStmts_toList (stmt? : Option Stmt) :
    (stmt?.map (Stmt.relocate f)).toList = relocateStmts f stmt?.toList := by
  cases stmt? with
  | none => rfl
  | some stmt => rfl

/-! ## Readings that differ in places -/

namespace Parsed

variable {α β : Type} {m n m' n' : Nat} {g : α → α} {g' : β → β}

/-- The second reading is the first one with everything at other places, where `g` moves the
node. -/
structure Moves (f : Position → Position) (g : α → α) (p : Parsed α m) (q : Parsed α n) :
    Prop where
  value : q.outcome.value = g p.outcome.value
  rest : q.outcome.rest = p.outcome.rest.map (Token.relocate f)
  diagnostics : q.outcome.diagnostics = p.outcome.diagnostics.map (Diagnostic.relocate f)

theorem Moves.of_outcome {p : Parsed α m} {q : Parsed α n} {o o' : Outcome α}
    (hp : p.outcome = o) (hq : q.outcome = o') (hvalue : o'.value = g o.value)
    (hrest : o'.rest = o.rest.map (Token.relocate f))
    (hdiagnostics : o'.diagnostics = o.diagnostics.map (Diagnostic.relocate f)) :
    Moves f g p q := by
  subst hp hq
  exact ⟨hvalue, hrest, hdiagnostics⟩

theorem moves_done {value value' : α} {rest : List Token} (h : value' = g value) :
    Moves f g (done value rest) (done value' (rest.map (Token.relocate f))) :=
  ⟨h, rfl, rfl⟩

theorem moves_report {value value' : α} {rest : List Token} {d d' : Diagnostic}
    (h : value' = g value) (hd : d' = d.relocate f) :
    Moves f g (report value rest d) (report value' (rest.map (Token.relocate f)) d') := by
  subst hd
  exact ⟨h, rfl, rfl⟩

theorem Moves.weaken {p : Parsed α m} {q : Parsed α n} {hm : m ≤ m'} {hn : n ≤ n'}
    (h : Moves f g p q) : Moves f g (p.weaken hm) (q.weaken hn) :=
  ⟨h.value, h.rest, h.diagnostics⟩

theorem Moves.map {p : Parsed α m} {q : Parsed α n} {φ ψ : α → β} (h : Moves f g p q)
    (hφ : ∀ value, ψ (g value) = g' (φ value)) : Moves f g' (p.map φ) (q.map ψ) := by
  refine ⟨?_, h.rest, h.diagnostics⟩
  rw [Parsed.map, Parsed.map, h.value]
  exact hφ _

/-- What is read behind moved tokens moves if what is read behind the tokens does. -/
theorem Moves.bind {p : Parsed α m} {q : Parsed α n}
    {k : α → (rest : List Token) → rest.length ≤ m → Parsed β rest.length}
    {l : α → (rest : List Token) → rest.length ≤ n → Parsed β rest.length} (h : Moves f g p q)
    (hk : ∀ value rest hle hle',
      Moves f g' (k value rest hle) (l (g value) (rest.map (Token.relocate f)) hle')) :
    Moves f g' (p.bind k) (q.bind l) := by
  -- `q` is written as `p` moved, so that `hk` applies to what both go on with
  obtain ⟨⟨value, rest, ds⟩, hle⟩ := p
  obtain ⟨⟨value', rest', ds'⟩, hle'⟩ := q
  obtain rfl : value' = g value := h.value
  obtain rfl : rest' = rest.map (Token.relocate f) := h.rest
  obtain rfl : ds' = ds.map (Diagnostic.relocate f) := h.diagnostics
  have hlater := hk value rest hle hle'
  refine ⟨hlater.value, hlater.rest, ?_⟩
  dsimp only [Parsed.bind]
  rw [hlater.diagnostics, List.map_append]

theorem Moves.andThen {p : Attempt α m} {q : Attempt α n}
    {k : α → (rest : List Token) → rest.length ≤ m → Attempt β rest.length}
    {l : α → (rest : List Token) → rest.length ≤ n → Attempt β rest.length}
    (h : Moves f (Option.map g) p q)
    (hk : ∀ value rest hle hle', Moves f (Option.map g') (k value rest hle)
      (l (g value) (rest.map (Token.relocate f)) hle')) :
    Moves f (Option.map g') (p.andThen k) (q.andThen l) := by
  refine Moves.bind h ?_
  intro value? rest hle hle'
  cases value? with
  | none => exact moves_done rfl
  | some value => exact hk value rest hle hle'

end Parsed

namespace Parser

variable {eof : Position}

theorem nextKind_relocate (ts : List Token) :
    nextKind (ts.map (Token.relocate f)) = nextKind ts := by
  cases ts with
  | nil => rfl
  | cons t rest => rfl

theorem nextPos_relocate (ts : List Token) :
    nextPos (f eof) (ts.map (Token.relocate f)) = f (nextPos eof ts) := by
  cases ts with
  | nil => rfl
  | cons t rest => rfl

theorem take?_relocate (kind : Token.Kind) (ts : List Token) :
    take? kind (ts.map (Token.relocate f)) =
      (take? kind ts).map fun taken => ⟨taken.1.map (Token.relocate f), by simp [taken.2]⟩ := by
  cases ts with
  | nil => rfl
  | cons t rest =>
      by_cases hkind : t.kind = kind
      · have hmoved : (t.relocate f).kind = kind := hkind
        show take? kind (t.relocate f :: rest.map (Token.relocate f)) = _
        rw [take?_cons _ hmoved, take?_cons rest hkind]
        rfl
      · have hmoved : nextKind (t.relocate f :: rest.map (Token.relocate f)) ≠ kind := hkind
        have hother : nextKind (t :: rest) ≠ kind := hkind
        show take? kind (t.relocate f :: rest.map (Token.relocate f)) = _
        rw [take?_none hmoved, take?_none hother]
        rfl

theorem expect_moves (kind : Token.Kind) (ts : List Token) :
    Parsed.Moves f (Option.map (Token.relocate f)) (expect eof kind ts)
      (expect (f eof) kind (ts.map (Token.relocate f))) := by
  cases ts with
  | nil => exact Parsed.moves_report rfl rfl
  | cons t rest =>
      by_cases hkind : t.kind = kind
      · have hmoved : (t.relocate f).kind = kind := hkind
        rw [List.map_cons, expect, expect, if_pos hkind, if_pos hmoved]
        exact Parsed.Moves.weaken (Parsed.moves_done rfl)
      · have hmoved : (t.relocate f).kind ≠ kind := hkind
        rw [List.map_cons, expect, expect, if_neg hkind, if_neg hmoved]
        exact Parsed.moves_report rfl rfl

theorem closed_moves {α : Type} {g : α → α} {value value' : α} (ts : List Token)
    (h : value' = g value) :
    Parsed.Moves f g (closed value ts) (closed value' (ts.map (Token.relocate f))) := by
  refine ⟨h, ?_, rfl⟩
  dsimp only [closed]
  rw [List.dropWhile_map]
  rfl

theorem afterItem_moves (collection : Collection) (close : Token.Kind) (ts : List Token) :
    Parsed.Moves f id (afterItem eof collection close ts)
      (afterItem (f eof) collection close (ts.map (Token.relocate f))) := by
  rw [afterItem, afterItem, take?_relocate, take?_relocate]
  rcases take? .comma ts with _ | ⟨rest, hlt⟩
  · rcases take? close ts with _ | ⟨rest, hlt⟩
    · refine Parsed.moves_report rfl ?_
      rw [nextPos_relocate, nextKind_relocate]
      rfl
    · exact Parsed.Moves.weaken (Parsed.moves_done rfl)
  · exact Parsed.Moves.weaken (Parsed.moves_done rfl)

theorem integerLiteral_moves (t : Token) (ts : List Token) :
    Parsed.Moves f (Option.map (Expr.relocate f)) (integerLiteral t ts)
      (integerLiteral (t.relocate f) (ts.map (Token.relocate f))) := by
  unfold integerLiteral
  dsimp only [Token.relocate]
  rcases wordValue? t.literal with _ | value
  · exact Parsed.moves_report rfl rfl
  · exact Parsed.moves_done rfl

theorem moreParams_moves (ts : List Token) :
    Parsed.Moves f (Option.map (List.map (Identifier.relocate f))) (moreParams eof ts)
      (moreParams (f eof) (ts.map (Token.relocate f))) := by
  rw [moreParams, moreParams]
  refine (expect_moves .identifier ts).andThen ?_
  intro name rest hle _
  rw [take?_relocate]
  rcases take? .comma rest with _ | ⟨rest', hlt⟩
  · refine (expect_moves .rightParen rest).andThen ?_
    intro _ last _ _
    exact Parsed.moves_done rfl
  · refine Parsed.Moves.weaken ((moreParams_moves rest').map ?_)
    intro names?
    cases names? with
    | none => rfl
    | some names => rfl
termination_by ts.length

theorem params_moves (ts : List Token) :
    Parsed.Moves f (Option.map (List.map (Identifier.relocate f))) (params eof ts)
      (params (f eof) (ts.map (Token.relocate f))) := by
  rw [params, params, take?_relocate]
  rcases take? .rightParen ts with _ | ⟨rest, hlt⟩
  · exact moreParams_moves ts
  · exact Parsed.Moves.weaken (Parsed.moves_done rfl)

/-! ## The functions of the grammar -/

mutual

theorem expr_moves (level : Precedence) (t : Token) (ts : List Token) :
    Parsed.Moves f (Option.map (Expr.relocate f)) (expr eof level t ts)
      (expr (f eof) level (t.relocate f) (ts.map (Token.relocate f))) := by
  rw [expr, expr]
  refine (operand_moves t ts).andThen ?_
  intro left rest hle _
  exact continuations_moves level left rest
termination_by (ts.length + 1, 1)

theorem exprAt_moves (level : Precedence) (ts : List Token) :
    Parsed.Moves f (Option.map (Expr.relocate f)) (exprAt eof level ts)
      (exprAt (f eof) level (ts.map (Token.relocate f))) := by
  cases ts with
  | nil =>
      rw [exprAt, List.map_nil, exprAt]
      exact Parsed.moves_report rfl rfl
  | cons t rest =>
      rw [exprAt, List.map_cons, exprAt]
      exact (expr_moves level t rest).weaken
termination_by (ts.length, 2)

theorem operand_moves (t : Token) (ts : List Token) :
    Parsed.Moves f (Option.map (Expr.relocate f)) (operand eof t ts)
      (operand (f eof) (t.relocate f) (ts.map (Token.relocate f))) := by
  -- the kind decides, and moving the token leaves it alone
  have hkind : (t.relocate f).kind = t.kind := rfl
  rw [operand, operand, hkind]
  cases t.kind with
  | identifier | string | trueWord | falseWord => exact Parsed.moves_done rfl
  | integer => exact integerLiteral_moves t ts
  | bang | minus =>
      refine (exprAt_moves .unary ts).andThen ?_
      intro right rest _ _
      exact Parsed.moves_done rfl
  | leftParen =>
      refine (exprAt_moves .lowest ts).andThen ?_
      intro inner rest _ _
      refine (expect_moves .rightParen rest).andThen ?_
      intro _ last _ _
      exact Parsed.moves_done rfl
  | leftBracket =>
      refine (elements_moves ts).map ?_
      intro items
      rfl
  | leftObject =>
      refine (pairs_moves ts).map ?_
      intro items
      rfl
  | ifWord =>
      refine (condition_moves ts).andThen ?_
      rintro ⟨test, brace⟩ rest hle _
      refine (block_moves brace rest).bind ?_
      intro consequence rest' hle' _
      rw [take?_relocate]
      rcases take? .elseWord rest' with _ | ⟨rest'', hlt⟩
      · exact Parsed.moves_done rfl
      · refine Parsed.Moves.weaken ((expect_moves .leftBrace rest'').andThen ?_)
        intro brace' last hle'' _
        refine (block_moves brace' last).map ?_
        intro alternative
        rfl
  | forWord =>
      refine (condition_moves ts).andThen ?_
      rintro ⟨test, brace⟩ rest hle _
      refine (block_moves brace rest).map ?_
      intro body
      rfl
  | fnWord =>
      refine (expect_moves .leftParen ts).andThen ?_
      intro _ rest hle _
      refine (params_moves rest).andThen ?_
      intro names rest' hle' _
      refine (expect_moves .leftBrace rest').andThen ?_
      intro brace last hle'' _
      refine (block_moves brace last).map ?_
      intro body
      rfl
  | _ => exact Parsed.moves_report rfl rfl
termination_by (ts.length + 1, 0)

theorem continuations_moves (level : Precedence) (left : Expr) (ts : List Token) :
    Parsed.Moves f (Option.map (Expr.relocate f)) (continuations eof level left ts)
      (continuations (f eof) level (left.relocate f) (ts.map (Token.relocate f))) := by
  cases ts with
  | nil =>
      rw [continuations, List.map_nil, continuations]
      exact ⟨rfl, rfl, rfl⟩
  | cons t rest =>
      have hkind : (t.relocate f).kind = t.kind := rfl
      rw [continuations, List.map_cons, continuations, hkind]
      cases Continuation.above? level t.kind with
      | none => exact ⟨rfl, rfl, rfl⟩
      | some continuation =>
          cases continuation with
          | binary op =>
              refine Parsed.Moves.weaken ((exprAt_moves op.precedence rest).andThen ?_)
              intro right rest' hle _
              exact continuations_moves level (.binary t.pos op left right) rest'
          | call =>
              refine Parsed.Moves.weaken ((arguments_moves rest).andThen ?_)
              intro items rest' hle _
              exact continuations_moves level (.call t.pos left items) rest'
          | index =>
              refine Parsed.Moves.weaken ((exprAt_moves .lowest rest).andThen ?_)
              intro place rest' hle _
              refine (expect_moves .rightBracket rest').andThen ?_
              intro _ last hle' _
              exact continuations_moves level (.index t.pos left place) last
termination_by (ts.length, 0)

theorem arguments_moves (ts : List Token) :
    Parsed.Moves f (Option.map (relocateExprs f)) (arguments eof ts)
      (arguments (f eof) (ts.map (Token.relocate f))) := by
  rw [arguments, arguments, take?_relocate]
  rcases take? .rightParen ts with _ | ⟨rest, hlt⟩
  · exact moreArguments_moves ts
  · exact Parsed.Moves.weaken (Parsed.moves_done rfl)
termination_by (ts.length, 4)

theorem moreArguments_moves (ts : List Token) :
    Parsed.Moves f (Option.map (relocateExprs f)) (moreArguments eof ts)
      (moreArguments (f eof) (ts.map (Token.relocate f))) := by
  rw [moreArguments, moreArguments]
  refine (exprAt_moves .lowest ts).andThen ?_
  intro item rest hle _
  rw [take?_relocate]
  rcases take? .comma rest with _ | ⟨rest', hlt⟩
  · refine (expect_moves .rightParen rest).andThen ?_
    intro _ last _ _
    exact Parsed.moves_done rfl
  · refine Parsed.Moves.weaken ((moreArguments_moves rest').map ?_)
    intro items?
    cases items? with
    | none => rfl
    | some items => rfl
termination_by (ts.length, 3)

theorem elements_moves (ts : List Token) :
    Parsed.Moves f (relocateExprs f) (elements eof ts)
      (elements (f eof) (ts.map (Token.relocate f))) := by
  cases ts with
  | nil =>
      rw [elements, List.map_nil, elements]
      exact Parsed.moves_report rfl rfl
  | cons t rest =>
      have hkind : (t.relocate f).kind = t.kind := rfl
      rw [elements, List.map_cons, elements, hkind]
      by_cases hclose : t.kind = .rightBracket
      · rw [if_pos hclose, if_pos hclose]
        exact Parsed.Moves.weaken (Parsed.moves_done rfl)
      · rw [if_neg hclose, if_neg hclose]
        refine Parsed.Moves.weaken ((expr_moves .lowest t rest).bind ?_)
        intro item? rest' hle _
        cases item? with
        | none => exact Parsed.moves_done rfl
        | some item =>
            refine (afterItem_moves .array .rightBracket rest').bind ?_
            intro more last hle' _
            cases more with
            | true =>
                refine (elements_moves last).map ?_
                intro items
                rfl
            | false => exact Parsed.moves_done rfl
termination_by (ts.length, 3)

theorem pairs_moves (ts : List Token) :
    Parsed.Moves f (relocatePairs f) (pairs eof ts)
      (pairs (f eof) (ts.map (Token.relocate f))) := by
  cases ts with
  | nil =>
      rw [pairs, List.map_nil, pairs]
      exact Parsed.moves_report rfl rfl
  | cons t rest =>
      have hkind : (t.relocate f).kind = t.kind := rfl
      rw [pairs, List.map_cons, pairs, hkind]
      by_cases hclose : t.kind = .rightObject
      · rw [if_pos hclose, if_pos hclose]
        exact Parsed.Moves.weaken (Parsed.moves_done rfl)
      · rw [if_neg hclose, if_neg hclose]
        refine Parsed.Moves.weaken ((expr_moves .lowest t rest).bind ?_)
        intro key? rest' hle _
        cases key? with
        | none => exact Parsed.moves_done rfl
        | some key =>
            dsimp only [Option.map_some]
            rw [take?_relocate]
            rcases take? .colon rest' with _ | ⟨ts', hlt⟩
            · refine Parsed.moves_report rfl ?_
              rw [nextPos_relocate, nextKind_relocate]
              rfl
            · refine Parsed.Moves.weaken ((exprAt_moves .lowest ts').bind ?_)
              intro value? rest'' hle' _
              cases value? with
              | none => exact Parsed.moves_done rfl
              | some value =>
                  refine (afterItem_moves .object .rightObject rest'').bind ?_
                  intro more last hle'' _
                  cases more with
                  | true =>
                      refine (pairs_moves last).map ?_
                      intro items
                      rfl
                  | false => exact Parsed.moves_done rfl
termination_by (ts.length, 3)

theorem condition_moves (ts : List Token) :
    Parsed.Moves f (Option.map (Prod.map (Expr.relocate f) (Token.relocate f))) (condition eof ts)
      (condition (f eof) (ts.map (Token.relocate f))) := by
  rw [condition, condition]
  refine (expect_moves .leftParen ts).andThen ?_
  intro _ rest hle _
  refine (exprAt_moves .lowest rest).andThen ?_
  intro test rest' _ _
  refine (expect_moves .rightParen rest').andThen ?_
  intro _ rest'' _ _
  refine (expect_moves .leftBrace rest'').andThen ?_
  intro brace last _ _
  exact Parsed.moves_done rfl
termination_by (ts.length, 3)
decreasing_by exact measure_lt_of_le ‹_› (by decide)

theorem block_moves (brace : Token) (ts : List Token) :
    Parsed.Moves f (Block.relocate f) (block eof brace ts)
      (block (f eof) (brace.relocate f) (ts.map (Token.relocate f))) := by
  rw [block, block]
  refine (statements_moves true ts).map ?_
  intro stmts
  rfl
termination_by (ts.length, 4)

theorem statement_moves (t : Token) (ts : List Token) :
    Parsed.Moves f (Option.map (Stmt.relocate f)) (statement eof t ts)
      (statement (f eof) (t.relocate f) (ts.map (Token.relocate f))) := by
  have hkind : (t.relocate f).kind = t.kind := rfl
  rw [statement, statement, hkind]
  cases t.kind with
  | letWord =>
      refine (expect_moves .identifier ts).andThen ?_
      intro name rest hle _
      refine (expect_moves .assign rest).andThen ?_
      intro _ rest' hle' _
      refine (exprAt_moves .lowest rest').andThen ?_
      intro value last _ _
      exact closed_moves last rfl
  | returnWord =>
      dsimp only
      rw [nextKind_relocate]
      by_cases hend : nextKind ts ∈ [.semicolon, .rightBrace, .eof]
      · rw [if_pos hend, if_pos hend]
        exact closed_moves ts rfl
      · rw [if_neg hend, if_neg hend]
        refine (exprAt_moves .lowest ts).andThen ?_
        intro value rest _ _
        exact closed_moves rest rfl
  | leftBrace =>
      refine (block_moves t ts).map ?_
      intro body
      rfl
  | _ =>
      refine (expr_moves .lowest t ts).andThen ?_
      intro value rest _ _
      rw [take?_relocate]
      rcases take? .semicolon rest with _ | ⟨rest', hlt⟩
      · exact Parsed.moves_done rfl
      · exact Parsed.Moves.weaken (Parsed.moves_done rfl)
termination_by (ts.length + 1, 2)

theorem statements_moves (inBlock : Bool) (ts : List Token) :
    Parsed.Moves f (relocateStmts f) (statements eof inBlock ts [] [])
      (statements (f eof) inBlock (ts.map (Token.relocate f)) [] []) := by
  cases ts with
  | nil =>
      rw [statements, List.map_nil, statements]
      exact ⟨rfl, rfl, rfl⟩
  | cons t rest =>
      rw [List.map_cons]
      by_cases hclose : inBlock ∧ t.kind = .rightBrace
      · obtain ⟨rfl, hkind⟩ := hclose
        have hmoved : (t.relocate f).kind = .rightBrace := hkind
        exact .of_outcome (statements_close hkind) (statements_close hmoved) rfl rfl rfl
      · have hmoved : ¬(inBlock ∧ (t.relocate f).kind = .rightBrace) := hclose
        have hlt : (statement eof t rest).outcome.rest.length < rest.length + 1 :=
          Nat.lt_succ_of_le (statement eof t rest).rest_le
        have hfirst : Parsed.Moves f (Option.map (Stmt.relocate f)) (statement eof t rest)
            (statement (f eof) (t.relocate f) (rest.map (Token.relocate f))) :=
          statement_moves t rest
        have hothers : Parsed.Moves f (relocateStmts f)
            (statements eof inBlock (statement eof t rest).outcome.rest [] [])
            (statements (f eof) inBlock
              ((statement eof t rest).outcome.rest.map (Token.relocate f)) [] []) :=
          statements_moves inBlock _
        -- behind the first statement both readings have the same tokens left, moved
        rw [← hfirst.rest] at hothers
        refine .of_outcome (statements_cons hclose) (statements_cons hmoved) ?_ hothers.rest ?_
        · dsimp only
          rw [hfirst.value, hothers.value, relocateStmts_toList, relocateStmts_append]
        · dsimp only
          rw [hfirst.diagnostics, hothers.diagnostics, List.map_append]
termination_by (ts.length, 3)

end

end Parser

/-! ## Whole texts -/

/-- **Reading moved tokens** gives the same program and the same reports, moved. -/
theorem ParsedProgram.ofTokens_relocate (f : Position → Position) (stream : TokenStream) :
    ofTokens (stream.relocate f) = (ofTokens stream).relocate f := by
  have hmoves : Parsed.Moves f (relocateStmts f)
      (Parser.statements stream.eof false stream.tokens [] [])
      (Parser.statements (f stream.eof) false (stream.tokens.map (Token.relocate f)) [] []) :=
    Parser.statements_moves false stream.tokens
  unfold ofTokens relocate Program.relocate
  dsimp only [TokenStream.relocate]
  rw [hmoves.value, hmoves.diagnostics]

end ExprMachine
