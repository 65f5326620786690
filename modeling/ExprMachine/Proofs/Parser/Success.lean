import ExprMachine.Parser.Grammar

/-!
# Readings that go well

The rules of the grammar from the parser's side: where the parts of a construct are read without a
report and the tokens between them are the right ones, the construct is read without a report, and
its node is made of the nodes of its parts. Each rule states the whole outcome, so that the rules
chain; an operand is followed by its continuations, and those end where a token binds nothing.
-/

namespace ExprMachine

/-- Operators between operands stand between the lowest level and that of the ones in front. -/
theorem BinaryOp.precedence_bounds (op : BinaryOp) :
    Precedence.lowest < op.precedence ∧ op.precedence < .unary := by
  rcases op with (_ | _ | _ | _) | (_ | _ | _ | _) <;> decide

namespace Parsed

variable {α β : Type} {n : Nat}

theorem length_rest_le {p : Parsed α n} {value : α} {rest : List Token} {ds : List Diagnostic}
    (h : p.outcome = ⟨value, rest, ds⟩) : rest.length ≤ n := by
  have hle := p.rest_le
  rwa [h] at hle

theorem outcome_map {p : Parsed α n} {f : α → β} {value : α} {rest : List Token}
    {ds : List Diagnostic} (h : p.outcome = ⟨value, rest, ds⟩) :
    (p.map f).outcome = ⟨f value, rest, ds⟩ := by
  obtain ⟨o, hle⟩ := p
  cases h
  rfl

theorem outcome_bind {p : Parsed α n}
    {k : α → (rest : List Token) → rest.length ≤ n → Parsed β rest.length} {value : α}
    {rest : List Token} (h : p.outcome = ⟨value, rest, []⟩) :
    (p.bind k).outcome = (k value rest (length_rest_le h)).outcome := by
  obtain ⟨o, hle⟩ := p
  cases h
  rfl

theorem outcome_andThen {p : Attempt α n}
    {k : α → (rest : List Token) → rest.length ≤ n → Attempt β rest.length} {value : α}
    {rest : List Token} (h : p.outcome = ⟨some value, rest, []⟩) :
    (p.andThen k).outcome = (k value rest (length_rest_le h)).outcome :=
  outcome_bind h

end Parsed

namespace Parser

variable {eof : Position}

/-! ## Single tokens -/

theorem expect_cons {kind : Token.Kind} {t : Token} (rest : List Token) (h : t.kind = kind) :
    (expect eof kind (t :: rest)).outcome = ⟨some t, rest, []⟩ := by
  rw [expect, if_pos h]
  rfl

theorem take?_cons {kind : Token.Kind} {t : Token} (rest : List Token) (h : t.kind = kind) :
    take? kind (t :: rest) = some ⟨rest, Nat.lt_succ_self _⟩ := by
  rw [take?, if_pos h]

theorem take?_none {kind : Token.Kind} {ts : List Token} (h : nextKind ts ≠ kind) :
    take? kind ts = none := by
  cases ts with
  | nil => rfl
  | cons t rest => exact if_neg h

theorem afterItem_comma {collection : Collection} {close : Token.Kind} {c : Token}
    (rest : List Token) (h : c.kind = .comma) :
    (afterItem eof collection close (c :: rest)).outcome = ⟨true, rest, []⟩ := by
  rw [afterItem, take?_cons rest h]
  rfl

theorem afterItem_close {collection : Collection} {close : Token.Kind} {c : Token}
    (rest : List Token) (h : c.kind = close) (hne : close ≠ .comma) :
    (afterItem eof collection close (c :: rest)).outcome = ⟨false, rest, []⟩ := by
  have hcomma : nextKind (c :: rest) ≠ .comma := by
    rw [nextKind, h]
    exact hne
  rw [afterItem, take?_none hcomma, take?_cons rest h]
  rfl

/-! ## Continuations -/

/-- A token that continues no operand ends the expression. -/
theorem continuations_stop {level : Precedence} {left : Expr} {ts : List Token}
    (h : Continuation.ofKind? (nextKind ts) = none) :
    (continuations eof level left ts).outcome = ⟨some left, ts, []⟩ := by
  cases ts with
  | nil =>
      rw [continuations]
      rfl
  | cons t rest =>
      have habove : Continuation.above? level t.kind = none := by
        rw [Continuation.above?, show Continuation.ofKind? t.kind = none from h]
        rfl
      rw [continuations, habove]
      rfl

theorem Continuation.above?_of_lt {level : Precedence} {kind : Token.Kind}
    {continuation : Continuation} (h : Continuation.ofKind? kind = some continuation)
    (hl : level < continuation.precedence) :
    Continuation.above? level kind = some continuation := by
  rw [Continuation.above?, h, Option.filter_some, if_pos (by simpa using hl)]

/-- An operator between two operands continues the first of them. -/
theorem Continuation.ofKind?_of_binary {op : BinaryOp} {kind : Token.Kind}
    (h : BinaryOp.ofKind? kind = some op) : Continuation.ofKind? kind = some (.binary op) := by
  unfold Continuation.ofKind?
  split
  · cases h
  · cases h
  · rw [h]
    rfl

theorem continuations_binary {level : Precedence} {left right : Expr} {op : BinaryOp} {t : Token}
    {ts rest : List Token} (hop : BinaryOp.ofKind? t.kind = some op) (hl : level < op.precedence)
    (hr : (exprAt eof op.precedence ts).outcome = ⟨some right, rest, []⟩) :
    (continuations eof level left (t :: ts)).outcome =
      (continuations eof level (.binary t.pos op left right) rest).outcome := by
  rw [continuations, Continuation.above?_of_lt (Continuation.ofKind?_of_binary hop) hl]
  dsimp only [Parsed.weaken]
  exact Parsed.outcome_andThen hr

theorem continuations_call {level : Precedence} {left : Expr} {items : List Expr} {t : Token}
    {ts rest : List Token} (ht : t.kind = .leftParen) (hl : level < .call)
    (ha : (arguments eof ts).outcome = ⟨some items, rest, []⟩) :
    (continuations eof level left (t :: ts)).outcome =
      (continuations eof level (.call t.pos left items) rest).outcome := by
  have hkind : Continuation.ofKind? t.kind = some .call := by rw [ht]; rfl
  rw [continuations, Continuation.above?_of_lt hkind hl]
  dsimp only [Parsed.weaken]
  exact Parsed.outcome_andThen ha

theorem continuations_index {level : Precedence} {left place : Expr} {t c : Token}
    {ts rest : List Token} (ht : t.kind = .leftBracket) (hl : level < .index)
    (hi : (exprAt eof .lowest ts).outcome = ⟨some place, c :: rest, []⟩)
    (hc : c.kind = .rightBracket) :
    (continuations eof level left (t :: ts)).outcome =
      (continuations eof level (.index t.pos left place) rest).outcome := by
  have hkind : Continuation.ofKind? t.kind = some .index := by rw [ht]; rfl
  rw [continuations, Continuation.above?_of_lt hkind hl]
  dsimp only [Parsed.weaken]
  refine (Parsed.outcome_andThen hi).trans ?_
  exact Parsed.outcome_andThen (expect_cons rest hc)

/-! ## Operands -/

theorem exprAt_of_operand {level : Precedence} {e : Expr} {t : Token} {ts rest : List Token}
    (h : (operand eof t ts).outcome = ⟨some e, rest, []⟩) :
    (exprAt eof level (t :: ts)).outcome = (continuations eof level e rest).outcome := by
  rw [exprAt, expr]
  dsimp only [Parsed.weaken]
  exact Parsed.outcome_andThen h

theorem operand_identifier {t : Token} (ts : List Token) (h : t.kind = .identifier) :
    (operand eof t ts).outcome = ⟨some (.identifier (.ofToken t)), ts, []⟩ := by
  rw [operand, h]
  rfl

theorem operand_integer {t : Token} {value : Int64} (ts : List Token) (h : t.kind = .integer)
    (hv : wordValue? t.literal = some value) :
    (operand eof t ts).outcome = ⟨some (.integer t.pos t.literal value), ts, []⟩ := by
  rw [operand, h]
  simp only [integerLiteral, hv]
  rfl

theorem operand_string {t : Token} (ts : List Token) (h : t.kind = .string) :
    (operand eof t ts).outcome = ⟨some (.string t.pos t.literal), ts, []⟩ := by
  rw [operand, h]
  rfl

theorem operand_bool {t : Token} {value : Bool} (ts : List Token)
    (h : t.kind = if value then .trueWord else .falseWord) :
    (operand eof t ts).outcome = ⟨some (.bool t.pos value), ts, []⟩ := by
  cases value with
  | true =>
      rw [operand, h]
      rfl
  | false =>
      rw [operand, h]
      rfl

theorem operand_unary {op : UnaryOp} {right : Expr} {t : Token} {ts rest : List Token}
    (hop : UnaryOp.ofKind? t.kind = some op)
    (hr : (exprAt eof .unary ts).outcome = ⟨some right, rest, []⟩) :
    (operand eof t ts).outcome = ⟨some (.unary t.pos op right), rest, []⟩ := by
  unfold UnaryOp.ofKind? at hop
  split at hop
  · next h =>
    cases hop
    rw [operand, h]
    exact Parsed.outcome_andThen hr
  · next h =>
    cases hop
    rw [operand, h]
    exact Parsed.outcome_andThen hr
  · cases hop

theorem operand_group {inner : Expr} {t c : Token} {ts rest : List Token}
    (ht : t.kind = .leftParen) (hi : (exprAt eof .lowest ts).outcome = ⟨some inner, c :: rest, []⟩)
    (hc : c.kind = .rightParen) :
    (operand eof t ts).outcome = ⟨some inner, rest, []⟩ := by
  rw [operand, ht]
  refine (Parsed.outcome_andThen hi).trans ?_
  exact Parsed.outcome_andThen (expect_cons rest hc)

theorem operand_array {items : List Expr} {t : Token} {ts rest : List Token}
    {ds : List Diagnostic} (ht : t.kind = .leftBracket)
    (h : (elements eof ts).outcome = ⟨items, rest, ds⟩) :
    (operand eof t ts).outcome = ⟨some (.array t.pos items), rest, ds⟩ := by
  rw [operand, ht]
  exact Parsed.outcome_map h

theorem operand_object {items : List (Expr × Expr)} {t : Token} {ts rest : List Token}
    {ds : List Diagnostic} (ht : t.kind = .leftObject)
    (h : (pairs eof ts).outcome = ⟨items, rest, ds⟩) :
    (operand eof t ts).outcome = ⟨some (.object t.pos items), rest, ds⟩ := by
  rw [operand, ht]
  exact Parsed.outcome_map h

theorem condition_outcome {test : Expr} {o c brace : Token} {ts rest : List Token}
    (ho : o.kind = .leftParen)
    (ht : (exprAt eof .lowest ts).outcome = ⟨some test, c :: brace :: rest, []⟩)
    (hc : c.kind = .rightParen) (hb : brace.kind = .leftBrace) :
    (condition eof (o :: ts)).outcome = ⟨some (test, brace), rest, []⟩ := by
  rw [condition]
  refine (Parsed.outcome_andThen (expect_cons ts ho)).trans ?_
  refine (Parsed.outcome_andThen ht).trans ?_
  refine (Parsed.outcome_andThen (expect_cons (brace :: rest) hc)).trans ?_
  exact Parsed.outcome_andThen (expect_cons rest hb)

theorem operand_branch {test : Expr} {consequence : Block} {t brace : Token}
    {ts ts' rest : List Token} (ht : t.kind = .ifWord)
    (hc : (condition eof ts).outcome = ⟨some (test, brace), ts', []⟩)
    (hb : (block eof brace ts').outcome = ⟨consequence, rest, []⟩)
    (helse : nextKind rest ≠ .elseWord) :
    (operand eof t ts).outcome = ⟨some (.branch t.pos test consequence none), rest, []⟩ := by
  rw [operand, ht]
  refine (Parsed.outcome_andThen hc).trans ?_
  refine (Parsed.outcome_bind hb).trans ?_
  rw [take?_none helse]
  rfl

theorem operand_branchElse {test : Expr} {consequence alternative : Block} {t e brace brace' : Token}
    {ts ts' ts'' rest : List Token} (ht : t.kind = .ifWord)
    (hc : (condition eof ts).outcome = ⟨some (test, brace), ts', []⟩)
    (hb : (block eof brace ts').outcome = ⟨consequence, e :: brace' :: ts'', []⟩)
    (he : e.kind = .elseWord) (hbrace : brace'.kind = .leftBrace)
    (ha : (block eof brace' ts'').outcome = ⟨alternative, rest, []⟩) :
    (operand eof t ts).outcome =
      ⟨some (.branch t.pos test consequence (some alternative)), rest, []⟩ := by
  rw [operand, ht]
  refine (Parsed.outcome_andThen hc).trans ?_
  refine (Parsed.outcome_bind hb).trans ?_
  rw [take?_cons _ he]
  dsimp only [Parsed.weaken]
  refine (Parsed.outcome_andThen (expect_cons ts'' hbrace)).trans ?_
  exact Parsed.outcome_map ha

theorem operand_loop {test : Expr} {body : Block} {t brace : Token} {ts ts' rest : List Token}
    (ht : t.kind = .forWord)
    (hc : (condition eof ts).outcome = ⟨some (test, brace), ts', []⟩)
    (hb : (block eof brace ts').outcome = ⟨body, rest, []⟩) :
    (operand eof t ts).outcome = ⟨some (.loop t.pos test body), rest, []⟩ := by
  rw [operand, ht]
  refine (Parsed.outcome_andThen hc).trans ?_
  exact Parsed.outcome_map hb

theorem operand_function {names : List Identifier} {body : Block} {t o brace : Token}
    {ts ts' rest : List Token} (ht : t.kind = .fnWord) (ho : o.kind = .leftParen)
    (hp : (params eof ts).outcome = ⟨some names, brace :: ts', []⟩)
    (hbrace : brace.kind = .leftBrace)
    (hb : (block eof brace ts').outcome = ⟨body, rest, []⟩) :
    (operand eof t (o :: ts)).outcome = ⟨some (.function t.pos names body), rest, []⟩ := by
  rw [operand, ht]
  refine (Parsed.outcome_andThen (expect_cons ts ho)).trans ?_
  refine (Parsed.outcome_andThen hp).trans ?_
  refine (Parsed.outcome_andThen (expect_cons ts' hbrace)).trans ?_
  exact Parsed.outcome_map hb

/-! ## Lists -/

theorem moreParams_last {name c : Token} {rest : List Token} (hn : name.kind = .identifier)
    (hc : c.kind = .rightParen) :
    (moreParams eof (name :: c :: rest)).outcome = ⟨some [.ofToken name], rest, []⟩ := by
  have hcomma : nextKind (c :: rest) ≠ .comma := by simp [nextKind, hc]
  rw [moreParams]
  refine (Parsed.outcome_andThen (expect_cons (c :: rest) hn)).trans ?_
  rw [take?_none hcomma]
  exact Parsed.outcome_andThen (expect_cons rest hc)

theorem moreParams_cons {name c : Token} {names : List Identifier} {ts rest : List Token}
    (hn : name.kind = .identifier) (hc : c.kind = .comma)
    (hs : (moreParams eof ts).outcome = ⟨some names, rest, []⟩) :
    (moreParams eof (name :: c :: ts)).outcome = ⟨some (.ofToken name :: names), rest, []⟩ := by
  rw [moreParams]
  refine (Parsed.outcome_andThen (expect_cons (c :: ts) hn)).trans ?_
  rw [take?_cons ts hc]
  dsimp only [Parsed.weaken]
  exact Parsed.outcome_map hs

theorem moreArguments_last {item : Expr} {c : Token} {ts rest : List Token}
    (h : (exprAt eof .lowest ts).outcome = ⟨some item, c :: rest, []⟩) (hc : c.kind = .rightParen) :
    (moreArguments eof ts).outcome = ⟨some [item], rest, []⟩ := by
  have hcomma : nextKind (c :: rest) ≠ .comma := by simp [nextKind, hc]
  rw [moreArguments]
  refine (Parsed.outcome_andThen h).trans ?_
  rw [take?_none hcomma]
  exact Parsed.outcome_andThen (expect_cons rest hc)

theorem moreArguments_cons {item : Expr} {items : List Expr} {c : Token} {ts ts' rest : List Token}
    (h : (exprAt eof .lowest ts).outcome = ⟨some item, c :: ts', []⟩) (hc : c.kind = .comma)
    (hs : (moreArguments eof ts').outcome = ⟨some items, rest, []⟩) :
    (moreArguments eof ts).outcome = ⟨some (item :: items), rest, []⟩ := by
  rw [moreArguments]
  refine (Parsed.outcome_andThen h).trans ?_
  rw [take?_cons ts' hc]
  dsimp only [Parsed.weaken]
  exact Parsed.outcome_map hs

theorem elements_close {t : Token} (rest : List Token) (h : t.kind = .rightBracket) :
    (elements eof (t :: rest)).outcome = ⟨[], rest, []⟩ := by
  rw [elements, if_pos h]
  rfl

/-- What does not close the array is read as an element. -/
theorem elements_of_other {t : Token} (ts : List Token) (ht : t.kind ≠ .rightBracket) :
    (elements eof (t :: ts)).outcome =
      ((exprAt eof .lowest (t :: ts)).bind fun item? rest _ =>
        match item? with
        | none => .done [] rest
        | some item =>
          (afterItem eof .array .rightBracket rest).bind fun more rest _ =>
            if more then (elements eof rest).map (item :: ·) else .done [item] rest).outcome := by
  rw [elements, if_neg ht, exprAt]
  rfl

theorem elements_last {item : Expr} {t c : Token} {ts rest : List Token}
    (ht : t.kind ≠ .rightBracket)
    (h : (exprAt eof .lowest (t :: ts)).outcome = ⟨some item, c :: rest, []⟩)
    (hc : c.kind = .rightBracket) : (elements eof (t :: ts)).outcome = ⟨[item], rest, []⟩ := by
  rw [elements_of_other ts ht]
  refine (Parsed.outcome_bind h).trans ?_
  exact Parsed.outcome_bind (afterItem_close rest hc (by decide))

theorem elements_cons {item : Expr} {items : List Expr} {t c : Token} {ts ts' rest : List Token}
    {ds : List Diagnostic} (ht : t.kind ≠ .rightBracket)
    (h : (exprAt eof .lowest (t :: ts)).outcome = ⟨some item, c :: ts', []⟩) (hc : c.kind = .comma)
    (hs : (elements eof ts').outcome = ⟨items, rest, ds⟩) :
    (elements eof (t :: ts)).outcome = ⟨item :: items, rest, ds⟩ := by
  rw [elements_of_other ts ht]
  refine (Parsed.outcome_bind h).trans ?_
  refine (Parsed.outcome_bind (afterItem_comma ts' hc)).trans ?_
  exact Parsed.outcome_map hs

theorem pairs_close {t : Token} (rest : List Token) (h : t.kind = .rightObject) :
    (pairs eof (t :: rest)).outcome = ⟨[], rest, []⟩ := by
  rw [pairs, if_pos h]
  rfl

/-- What does not close the object is read as a key. -/
theorem pairs_of_other {t : Token} (ts : List Token) (ht : t.kind ≠ .rightObject) :
    (pairs eof (t :: ts)).outcome =
      ((exprAt eof .lowest (t :: ts)).bind fun key? rest _ =>
        match key? with
        | none => .done [] rest
        | some key =>
          match take? .colon rest with
          | none => .report [] rest ⟨nextPos eof rest, .missingColon (nextKind rest)⟩
          | some ⟨rest', hlt⟩ =>
            ((exprAt eof .lowest rest').bind fun value? rest _ =>
              match value? with
              | none => .done [] rest
              | some value =>
                (afterItem eof .object .rightObject rest).bind fun more rest _ =>
                  if more then (pairs eof rest).map ((key, value) :: ·)
                  else .done [(key, value)] rest).weaken (length_le_of_lt hlt)).outcome := by
  rw [pairs, if_neg ht, exprAt]
  rfl

theorem pairs_last {key value : Expr} {t colon c : Token} {ts ts' rest : List Token}
    (ht : t.kind ≠ .rightObject)
    (hk : (exprAt eof .lowest (t :: ts)).outcome = ⟨some key, colon :: ts', []⟩)
    (hcolon : colon.kind = .colon)
    (hv : (exprAt eof .lowest ts').outcome = ⟨some value, c :: rest, []⟩)
    (hc : c.kind = .rightObject) :
    (pairs eof (t :: ts)).outcome = ⟨[(key, value)], rest, []⟩ := by
  rw [pairs_of_other ts ht]
  refine (Parsed.outcome_bind hk).trans ?_
  dsimp only
  rw [take?_cons ts' hcolon]
  dsimp only [Parsed.weaken]
  refine (Parsed.outcome_bind hv).trans ?_
  exact Parsed.outcome_bind (afterItem_close rest hc (by decide))

theorem pairs_cons {key value : Expr} {items : List (Expr × Expr)} {t colon c : Token}
    {ts ts' ts'' rest : List Token} {ds : List Diagnostic} (ht : t.kind ≠ .rightObject)
    (hk : (exprAt eof .lowest (t :: ts)).outcome = ⟨some key, colon :: ts', []⟩)
    (hcolon : colon.kind = .colon)
    (hv : (exprAt eof .lowest ts').outcome = ⟨some value, c :: ts'', []⟩) (hc : c.kind = .comma)
    (hs : (pairs eof ts'').outcome = ⟨items, rest, ds⟩) :
    (pairs eof (t :: ts)).outcome = ⟨(key, value) :: items, rest, ds⟩ := by
  rw [pairs_of_other ts ht]
  refine (Parsed.outcome_bind hk).trans ?_
  dsimp only
  rw [take?_cons ts' hcolon]
  dsimp only [Parsed.weaken]
  refine (Parsed.outcome_bind hv).trans ?_
  refine (Parsed.outcome_bind (afterItem_comma ts'' hc)).trans ?_
  exact Parsed.outcome_map hs

/-! ## Statements -/

theorem closed_one {α : Type} {value : α} {s : Token} {rest : List Token}
    (hs : s.kind = .semicolon) (hne : nextKind rest ≠ .semicolon) :
    (closed value (s :: rest)).outcome = ⟨value, rest, []⟩ := by
  have hdrop : (rest.dropWhile fun token => token.kind = .semicolon) = rest := by
    cases rest with
    | nil => rfl
    | cons t rest => exact List.dropWhile_cons_of_neg (by simpa [nextKind] using hne)
  unfold closed
  dsimp only
  rw [List.dropWhile_cons_of_pos (by simpa using hs), hdrop]

theorem statement_binding {value : Expr} {t name a s : Token} {ts rest : List Token}
    (ht : t.kind = .letWord) (hn : name.kind = .identifier) (ha : a.kind = .assign)
    (hv : (exprAt eof .lowest ts).outcome = ⟨some value, s :: rest, []⟩)
    (hs : s.kind = .semicolon) (hne : nextKind rest ≠ .semicolon) :
    (statement eof t (name :: a :: ts)).outcome =
      ⟨some (.binding t.pos (.ofToken name) value), rest, []⟩ := by
  rw [statement, ht]
  refine (Parsed.outcome_andThen (expect_cons (a :: ts) hn)).trans ?_
  refine (Parsed.outcome_andThen (expect_cons ts ha)).trans ?_
  refine (Parsed.outcome_andThen hv).trans ?_
  exact closed_one hs hne

theorem statement_exit {t s : Token} {rest : List Token} (ht : t.kind = .returnWord)
    (hs : s.kind = .semicolon) (hne : nextKind rest ≠ .semicolon) :
    (statement eof t (s :: rest)).outcome = ⟨some (.exit t.pos none), rest, []⟩ := by
  have hempty : nextKind (s :: rest) ∈ [Token.Kind.semicolon, .rightBrace, .eof] := by
    simp [nextKind, hs]
  rw [statement, ht]
  dsimp only
  rw [if_pos hempty]
  exact closed_one hs hne

theorem statement_exitWith {value : Expr} {t s : Token} {ts rest : List Token}
    (ht : t.kind = .returnWord)
    (hfirst : nextKind ts ∉ [Token.Kind.semicolon, .rightBrace, .eof])
    (hv : (exprAt eof .lowest ts).outcome = ⟨some value, s :: rest, []⟩)
    (hs : s.kind = .semicolon) (hne : nextKind rest ≠ .semicolon) :
    (statement eof t ts).outcome = ⟨some (.exit t.pos (some value)), rest, []⟩ := by
  rw [statement, ht]
  dsimp only
  rw [if_neg hfirst]
  refine (Parsed.outcome_andThen hv).trans ?_
  exact closed_one hs hne

theorem statement_block {body : Block} {t : Token} {ts rest : List Token}
    (ht : t.kind = .leftBrace) (hb : (block eof t ts).outcome = ⟨body, rest, []⟩) :
    (statement eof t ts).outcome = ⟨some (.block body), rest, []⟩ := by
  rw [statement, ht]
  exact Parsed.outcome_map hb

/-- What begins like an expression is read as one. -/
theorem statement_of_other {t : Token} (ts : List Token)
    (ht : t.kind ∉ [Token.Kind.letWord, .returnWord, .leftBrace]) :
    statement eof t ts = (expr eof .lowest t ts).andThen fun value rest _ =>
      match take? .semicolon rest with
      | some ⟨rest', h⟩ =>
        (Parsed.done (some (.expression t value)) rest').weaken (Nat.le_of_lt h)
      | none => .done (some (.expression t value)) rest := by
  simp only [List.mem_cons, List.not_mem_nil, or_false, not_or] at ht
  rw [statement]
  split
  · next h => exact absurd h ht.1
  · next h => exact absurd h ht.2.1
  · next h => exact absurd h ht.2.2
  · rfl

theorem statement_expression {value : Expr} {t : Token} {ts rest : List Token}
    (ht : t.kind ∉ [Token.Kind.letWord, .returnWord, .leftBrace])
    (hv : (exprAt eof .lowest (t :: ts)).outcome = ⟨some value, rest, []⟩)
    (hne : nextKind rest ≠ .semicolon) :
    (statement eof t ts).outcome = ⟨some (.expression t value), rest, []⟩ := by
  rw [exprAt] at hv
  dsimp only [Parsed.weaken] at hv
  rw [statement_of_other ts ht]
  refine (Parsed.outcome_andThen hv).trans ?_
  rw [take?_none hne]
  rfl

theorem statement_expressionClosed {value : Expr} {t s : Token} {ts rest : List Token}
    (ht : t.kind ∉ [Token.Kind.letWord, .returnWord, .leftBrace])
    (hv : (exprAt eof .lowest (t :: ts)).outcome = ⟨some value, s :: rest, []⟩)
    (hs : s.kind = .semicolon) :
    (statement eof t ts).outcome = ⟨some (.expression t value), rest, []⟩ := by
  rw [exprAt] at hv
  dsimp only [Parsed.weaken] at hv
  rw [statement_of_other ts ht]
  refine (Parsed.outcome_andThen hv).trans ?_
  rw [take?_cons rest hs]
  rfl

theorem block_outcome {stmts : List Stmt} {brace : Token} {ts rest : List Token}
    (h : (statements eof true ts [] []).outcome = ⟨stmts, rest, []⟩) :
    (block eof brace ts).outcome = ⟨⟨brace.pos, stmts⟩, rest, []⟩ := by
  rw [block]
  exact Parsed.outcome_map h

/-! ## Statements one behind the other -/

/-- What has been read before is put in front of what is read now. -/
theorem statements_eq (eof : Position) (inBlock : Bool) (ts : List Token) (seen : List Stmt)
    (reported : List Diagnostic) :
    (statements eof inBlock ts seen reported).outcome =
      ⟨seen.reverse ++ (statements eof inBlock ts [] []).outcome.value,
        (statements eof inBlock ts [] []).outcome.rest,
        reported.reverse ++ (statements eof inBlock ts [] []).outcome.diagnostics⟩ := by
  cases ts with
  | nil => simp [statements]
  | cons t rest =>
      by_cases hclose : inBlock ∧ t.kind = .rightBrace
      · simp [statements, hclose]
      · have hlt : (statement eof t rest).outcome.rest.length < rest.length + 1 :=
          Nat.lt_succ_of_le (statement eof t rest).rest_le
        simp only [statements, if_neg hclose, Parsed.weaken]
        rw [statements_eq]
        rw [statements_eq eof inBlock _ ((statement eof t rest).outcome.value.toList ++ [])]
        simp
termination_by ts.length
decreasing_by all_goals exact hlt

theorem statements_close {eof : Position} {t : Token} {rest : List Token}
    (h : t.kind = .rightBrace) : (statements eof true (t :: rest) [] []).outcome = ⟨[], rest, []⟩ := by
  simp [statements, h]

theorem statements_cons {eof : Position} {inBlock : Bool} {t : Token} {rest : List Token}
    (h : ¬(inBlock ∧ t.kind = .rightBrace)) :
    (statements eof inBlock (t :: rest) [] []).outcome =
      let first := (statement eof t rest).outcome
      let others := (statements eof inBlock first.rest [] []).outcome
      ⟨first.value.toList ++ others.value, others.rest,
        first.diagnostics ++ others.diagnostics⟩ := by
  simp only [statements, if_neg h, Parsed.weaken]
  rw [statements_eq]
  cases (statement eof t rest).outcome.value with
  | none => simp
  | some stmt => simp

theorem statements_step {inBlock : Bool} {stmt : Stmt} {stmts : List Stmt} {t : Token}
    {ts rest last : List Token} (ht : t.kind ≠ .rightBrace)
    (h : (statement eof t ts).outcome = ⟨some stmt, rest, []⟩)
    (hs : (statements eof inBlock rest [] []).outcome = ⟨stmts, last, []⟩) :
    (statements eof inBlock (t :: ts) [] []).outcome = ⟨stmt :: stmts, last, []⟩ := by
  rw [statements_cons fun hclose => ht hclose.2, h]
  dsimp only
  rw [hs]
  rfl

end Parser

end ExprMachine
