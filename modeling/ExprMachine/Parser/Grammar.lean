import ExprMachine.Ast.Basic
import ExprMachine.Parser.Outcome
import ExprMachine.Parser.Precedence
import ExprMachine.Text.Layout

/-!
# The grammar

    statement  = "let" name "=" expr ";"*  |  "return" [expr] ";"*  |  block  |  expr [";"]
    block      = "{" statement* "}"
    expr       = operand continuation*
    operand    = name | number | string | "true" | "false" | ("!" | "-") expr | "(" expr ")"
               | "if" condition block ["else" block]  |  "for" condition block
               | "fn" "(" [name ("," name)*] ")" block
               | "[" [expr ("," expr)* [","]] "]"  |  "{{" [pair ("," pair)* [","]] "}}"
    continuation = operator expr  |  "(" [expr ("," expr)*] ")"  |  "[" expr "]"
    condition  = "(" expr ")"
    pair       = expr ":" expr

An expression is read up to the first continuation that does not bind tighter than the level it is
read at; an operator reads its right operand at its own level, so that chains group to the left.

Reading never stops at an error. A construct that lacks a part reports it and gives no node; its
statement is dropped and the next one begins behind the tokens read so far. Arrays and objects keep
the items that were complete, and a block that the text ends in counts as closed there. A token
that no expression begins with is passed over, so every statement takes a token at least.

The tokens behind the one that a construct begins with are `ts`, and `eof` is where the text ends.
The recursion is justified by the number of tokens left and, where none is read, by a fixed order
of the constructs.
-/

namespace ExprMachine

/-- The name that an identifier token stands for. -/
def Identifier.ofToken (t : Token) : Identifier := ⟨t.literal, t.pos⟩

namespace Parser

/-- The value of a run of decimal digits. -/
def digitsValue? (digits : String) : Option Nat :=
  if digits.toList ≠ [] ∧ digits.toList.all Char.isDigit then
    some (digits.toList.foldl (fun n c => 10 * n + (c.toNat - '0'.toNat)) 0)
  else none

/-- The word that a run of decimal digits stands for, if its value fits one. -/
def wordValue? (digits : String) : Option Int64 :=
  (digitsValue? digits).bind fun n => if n < 1 <<< 63 then some (Int64.ofNat n) else none

/-- The digits are the number in decimal, perhaps with zeros in front. -/
theorem digitsValue?_eq_some_iff {digits : String} {n : Nat} :
    digitsValue? digits = some n ↔ ∃ width, digits = Text.zeroFill width n := by
  rw [digitsValue?]
  constructor
  · intro h
    split at h
    · next hdigits =>
      obtain ⟨hne, hall⟩ := hdigits
      obtain ⟨width, hfill⟩ := Text.exists_zeroFill hne (List.all_eq_true.mp hall)
      exact ⟨width, hfill.trans (congrArg _ (Option.some.inj h))⟩
    · cases h
  · rintro ⟨width, rfl⟩
    obtain ⟨hdigits, hvalue, -⟩ := Text.zeroFill_spec width n
    rw [if_pos ⟨Text.zeroFill_ne_nil width n, List.all_eq_true.mpr hdigits⟩]
    exact congrArg some hvalue

/-- The digits are a number that a word holds, in decimal, perhaps with zeros in front. -/
theorem wordValue?_eq_some_iff {digits : String} {value : Int64} :
    wordValue? digits = some value ↔
      ∃ n width, digits = Text.zeroFill width n ∧ n ≤ 9223372036854775807 ∧ value.toInt = n := by
  rw [wordValue?, Option.bind_eq_some_iff]
  constructor
  · rintro ⟨n, hn, hvalue⟩
    obtain ⟨width, hdigits⟩ := digitsValue?_eq_some_iff.mp hn
    split at hvalue
    · next hlt =>
      cases hvalue
      exact ⟨n, width, hdigits, Nat.le_of_lt_succ hlt, Int64.toInt_ofNat_of_lt hlt⟩
    · cases hvalue
  · rintro ⟨n, width, hdigits, hle, hvalue⟩
    refine ⟨n, digitsValue?_eq_some_iff.mpr ⟨width, hdigits⟩, ?_⟩
    have hlt : n < 1 <<< 63 := Nat.lt_succ_of_le hle
    have hword : Int64.ofNat n = value :=
      Int64.toInt_inj.mp ((Int64.toInt_ofNat_of_lt hlt).trans hvalue.symm)
    exact (if_pos hlt).trans (congrArg some hword)

/-- A number. -/
def integerLiteral (t : Token) (ts : List Token) : Attempt Expr ts.length :=
  match wordValue? t.literal with
  | some value => .done (some (.integer t.pos t.literal value)) ts
  | none => .report none ts ⟨t.pos, .integerRange t.literal⟩

/-- The names of a parameter list from one of them on, and the parenthesis that closes it. -/
def moreParams (eof : Position) (ts : List Token) : Attempt (List Identifier) ts.length :=
  (expect eof .identifier ts).andThen fun name rest _ =>
    match take? .comma rest with
    | some ⟨rest', hlt⟩ =>
      ((moreParams eof rest').map (·.map (.ofToken name :: ·))).weaken (length_le_of_lt hlt)
    | none =>
      (expect eof .rightParen rest).andThen fun _ rest _ => .done (some [.ofToken name]) rest
termination_by ts.length
decreasing_by exact Nat.lt_of_lt_of_le hlt ‹_›

/-- The parameter list behind its opening parenthesis. -/
def params (eof : Position) (ts : List Token) : Attempt (List Identifier) ts.length :=
  match take? .rightParen ts with
  | some ⟨rest, h⟩ => (Parsed.done (some []) rest).weaken (length_le_of_lt h)
  | none => moreParams eof ts

/-- A construct of a lower rank may begin where another one has read no token for certain. -/
theorem measure_lt_of_le {m n r s : Nat} (hlen : m ≤ n) (hrank : r < s) :
    Prod.Lex (· < ·) (· < ·) (m, r) (n, s) := by
  rcases Nat.lt_or_eq_of_le hlen with h | rfl
  · exact .left _ _ h
  · exact .right _ hrank

mutual

/-- The expression that begins with `t`, as far as its continuations bind tighter than `level`. -/
def expr (eof : Position) (level : Precedence) (t : Token) (ts : List Token) :
    Attempt Expr ts.length :=
  (operand eof t ts).andThen fun left rest _ => continuations eof level left rest
termination_by (ts.length + 1, 1)

/-- The expression that the tokens begin with. -/
def exprAt (eof : Position) (level : Precedence) (ts : List Token) : Attempt Expr ts.length :=
  match ts with
  | [] => .report none [] ⟨eof, .noExpression .eof⟩
  | t :: rest => (expr eof level t rest).weaken (Nat.le_succ _)
termination_by (ts.length, 2)

/-- The operand that begins with `t`. -/
def operand (eof : Position) (t : Token) (ts : List Token) : Attempt Expr ts.length :=
  match t.kind with
  | .identifier => .done (some (.identifier (.ofToken t))) ts
  | .integer => integerLiteral t ts
  | .string => .done (some (.string t.pos t.literal)) ts
  | .trueWord => .done (some (.bool t.pos true)) ts
  | .falseWord => .done (some (.bool t.pos false)) ts
  | .bang =>
    (exprAt eof .unary ts).andThen fun right rest _ => .done (some (.unary t.pos .not right)) rest
  | .minus =>
    (exprAt eof .unary ts).andThen fun right rest _ =>
      .done (some (.unary t.pos .negate right)) rest
  | .leftParen =>
    (exprAt eof .lowest ts).andThen fun inner rest _ =>
      (expect eof .rightParen rest).andThen fun _ rest _ => .done (some inner) rest
  | .leftBracket => (elements eof ts).map fun items => some (.array t.pos items)
  | .leftObject => (pairs eof ts).map fun items => some (.object t.pos items)
  | .ifWord =>
    (condition eof ts).andThen fun (test, brace) rest _ =>
      (block eof brace rest).bind fun consequence rest _ =>
        match take? .elseWord rest with
        | none => .done (some (.branch t.pos test consequence none)) rest
        | some ⟨rest', _⟩ =>
          ((expect eof .leftBrace rest').andThen fun brace rest _ =>
            (block eof brace rest).map fun alternative =>
              some (.branch t.pos test consequence (some alternative))).weaken (by omega)
  | .forWord =>
    (condition eof ts).andThen fun (test, brace) rest _ =>
      (block eof brace rest).map fun body => some (.loop t.pos test body)
  | .fnWord =>
    (expect eof .leftParen ts).andThen fun _ rest _ =>
      (params eof rest).andThen fun names rest _ =>
        (expect eof .leftBrace rest).andThen fun brace rest _ =>
          (block eof brace rest).map fun body => some (.function t.pos names body)
  | kind => .report none ts ⟨t.pos, .noExpression kind⟩
termination_by (ts.length + 1, 0)

/-- What follows the operand `left`, as far as it binds tighter than `level`. -/
def continuations (eof : Position) (level : Precedence) (left : Expr) (ts : List Token) :
    Attempt Expr ts.length :=
  match ts with
  | [] => .done (some left) []
  | t :: rest =>
    match Continuation.above? level t.kind with
    | none => .done (some left) (t :: rest)
    | some (.binary op) =>
      ((exprAt eof op.precedence rest).andThen fun right rest _ =>
        continuations eof level (.binary t.pos op left right) rest).weaken (Nat.le_succ _)
    | some .call =>
      ((arguments eof rest).andThen fun items rest _ =>
        continuations eof level (.call t.pos left items) rest).weaken (Nat.le_succ _)
    | some .index =>
      ((exprAt eof .lowest rest).andThen fun place rest _ =>
        (expect eof .rightBracket rest).andThen fun _ rest _ =>
          continuations eof level (.index t.pos left place) rest).weaken (Nat.le_succ _)
termination_by (ts.length, 0)

/-- The arguments of a call behind its opening parenthesis. -/
def arguments (eof : Position) (ts : List Token) : Attempt (List Expr) ts.length :=
  match take? .rightParen ts with
  | some ⟨rest, h⟩ => (Parsed.done (some []) rest).weaken (length_le_of_lt h)
  | none => moreArguments eof ts
termination_by (ts.length, 4)

/-- The arguments of a call from one of them on, and the parenthesis that closes it. -/
def moreArguments (eof : Position) (ts : List Token) : Attempt (List Expr) ts.length :=
  (exprAt eof .lowest ts).andThen fun item rest _ =>
    match take? .comma rest with
    | some ⟨rest', _⟩ =>
      ((moreArguments eof rest').map (·.map (item :: ·))).weaken (by omega)
    | none => (expect eof .rightParen rest).andThen fun _ rest _ => .done (some [item]) rest
termination_by (ts.length, 3)

/-- The elements of an array behind its bracket or behind a comma. -/
def elements (eof : Position) (ts : List Token) : Parsed (List Expr) ts.length :=
  match ts with
  | [] => .report [] [] ⟨eof, .unexpected .rightBracket .eof⟩
  | t :: rest =>
    if t.kind = .rightBracket then (Parsed.done [] rest).weaken (Nat.le_succ _)
    else
      ((expr eof .lowest t rest).bind fun item? rest _ =>
        match item? with
        | none => .done [] rest
        | some item =>
          (afterItem eof .array .rightBracket rest).bind fun more rest _ =>
            if more then (elements eof rest).map (item :: ·) else .done [item] rest).weaken
        (Nat.le_succ _)
termination_by (ts.length, 3)

/-- The pairs of an object behind its braces or behind a comma. -/
def pairs (eof : Position) (ts : List Token) : Parsed (List (Expr × Expr)) ts.length :=
  match ts with
  | [] => .report [] [] ⟨eof, .unexpected .rightObject .eof⟩
  | t :: rest =>
    if t.kind = .rightObject then (Parsed.done [] rest).weaken (Nat.le_succ _)
    else
      ((expr eof .lowest t rest).bind fun key? rest _ =>
        match key? with
        | none => .done [] rest
        | some key =>
          match take? .colon rest with
          | none => .report [] rest ⟨nextPos eof rest, .missingColon (nextKind rest)⟩
          | some ⟨rest', _⟩ =>
            ((exprAt eof .lowest rest').bind fun value? rest _ =>
              match value? with
              | none => .done [] rest
              | some value =>
                (afterItem eof .object .rightObject rest).bind fun more rest _ =>
                  if more then (pairs eof rest).map ((key, value) :: ·)
                  else .done [(key, value)] rest).weaken (by omega)).weaken
        (Nat.le_succ _)
termination_by (ts.length, 3)

/-- The condition of an `if` or a `for`, and the brace that opens its block. -/
def condition (eof : Position) (ts : List Token) : Attempt (Expr × Token) ts.length :=
  (expect eof .leftParen ts).andThen fun _ rest _ =>
    (exprAt eof .lowest rest).andThen fun test rest _ =>
      (expect eof .rightParen rest).andThen fun _ rest _ =>
        (expect eof .leftBrace rest).andThen fun brace rest _ => .done (some (test, brace)) rest
termination_by (ts.length, 3)
decreasing_by exact measure_lt_of_le ‹_› (by decide)

/-- The block that `brace` opens, up to its closing brace or the end of the text. -/
def block (eof : Position) (brace : Token) (ts : List Token) : Parsed Block ts.length :=
  (statements eof true ts [] []).map (Block.mk brace.pos)
termination_by (ts.length, 4)

/-- The statement that begins with `t`. -/
def statement (eof : Position) (t : Token) (ts : List Token) : Attempt Stmt ts.length :=
  match t.kind with
  | .letWord =>
    (expect eof .identifier ts).andThen fun name rest _ =>
      (expect eof .assign rest).andThen fun _ rest _ =>
        (exprAt eof .lowest rest).andThen fun value rest _ =>
          closed (some (.binding t.pos (.ofToken name) value)) rest
  | .returnWord =>
    if nextKind ts ∈ [.semicolon, .rightBrace, .eof] then closed (some (.exit t.pos none)) ts
    else
      (exprAt eof .lowest ts).andThen fun value rest _ =>
        closed (some (.exit t.pos (some value))) rest
  | .leftBrace => (block eof t ts).map fun body => some (.block body)
  | _ =>
    (expr eof .lowest t ts).andThen fun value rest _ =>
      match take? .semicolon rest with
      | some ⟨rest', h⟩ =>
        (Parsed.done (some (.expression t value)) rest').weaken (Nat.le_of_lt h)
      | none => .done (some (.expression t value)) rest
termination_by (ts.length + 1, 2)

/--
The statements up to the end of the text or, in a block, up to the closing brace, which is read.
The statements and reports so far are in `seen` and `reported`, the latest first.
-/
def statements (eof : Position) (inBlock : Bool) (ts : List Token) (seen : List Stmt)
    (reported : List Diagnostic) : Parsed (List Stmt) ts.length :=
  match ts with
  | [] => ⟨⟨seen.reverse, [], reported.reverse⟩, Nat.le_refl _⟩
  | t :: rest =>
    if inBlock ∧ t.kind = .rightBrace then
      ⟨⟨seen.reverse, rest, reported.reverse⟩, Nat.le_succ _⟩
    else
      match statement eof t rest with
      | ⟨⟨stmt?, rest', ds⟩, h⟩ =>
        have shorter : rest'.length < rest.length + 1 := Nat.lt_succ_of_le h
        (statements eof inBlock rest' (stmt?.toList ++ seen) (ds.reverse ++ reported)).weaken
          (Nat.le_of_lt shorter)
termination_by (ts.length, 3)

end

end Parser

end ExprMachine
