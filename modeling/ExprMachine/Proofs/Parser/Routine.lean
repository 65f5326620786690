import ExprMachine.Parser.Grammar
import ExprMachine.Proofs.Parser.Script

/-!
# The parser as routines

The functions of the grammar say what a construct at the beginning of some tokens is, and which
tokens are left behind it. Here is the same parser as routines that share a cursor, as one would
write it to read tokens one at a time. A routine is entered with the cursor on the first token of
its construct, or on the delimiter in front of it, and leaves it on the last token that belongs to
what it has read; moving on from there is left to whoever called it. A routine that fails may leave
the cursor where it was.

A loop is a routine that calls itself when it goes round once more, so that calls are all there is
to justify: the rounds of a loop come to an end for the same reason as constructs within each other.
-/

namespace ExprMachine.Parser

/-- The routines, with what they have to know. -/
inductive Routine where
  /-- The statements up to the end or, in a block, up to the brace that closes it. -/
  | statements (inBlock : Bool)
  | statement
  /-- Entered behind the brace. -/
  | block (brace : Token)
  /-- Moves on over semicolons. -/
  | semicolons
  | expression (level : Precedence)
  | operand
  /-- Entered on the last token of the left operand. -/
  | continuations (level : Precedence) (left : Expr)
  /-- Entered on the word in front of the condition; gives the brace behind it too. -/
  | condition
  /-- Entered on the opening parenthesis. -/
  | params
  /-- Entered in front of a name. -/
  | moreParams
  /-- Entered on the opening parenthesis. -/
  | arguments
  | moreArguments
  | elements
  | pairs

/-- What a routine gives. -/
abbrev Routine.Node : Routine → Type
  | statements _ => List Stmt
  | statement => Option Stmt
  | block _ => Block
  | semicolons => Unit
  | expression _ | operand | continuations .. => Option Expr
  | condition => Option (Expr × Token)
  | params | moreParams => Option (List Identifier)
  | arguments | moreArguments => Option (List Expr)
  | elements => List Expr
  | pairs => List (Expr × Expr)

/-! ## Putting scripts together -/

/-- A script that may call the routines. -/
abbrev Steps (α : Type) : Type := Script Routine.Node α

namespace Script

variable {α β : Type}

/-- Calls a routine. -/
def run (routine : Routine) : Steps routine.Node := .call routine .done

/-- Another node. -/
def map (f : α → β) (s : Steps α) : Steps β := s.bind fun value => .done (f value)

/-- Goes on if there is a node. -/
def andThen (s : Steps (Option α)) (go : α → Steps (Option β)) : Steps (Option β) :=
  s.bind fun
    | none => .done none
    | some value => go value

/-- Moves on if the next token is of the kind, and does `yes`, else `no`. -/
def ifNext (kind : Token.Kind) (yes no : Steps α) : Steps α :=
  .look fun _ peek => if peek.any (·.kind = kind) then .next yes else no

/-- Reports what is wrong at the next token. -/
def reportNext (eof : Position) (fault : Token.Kind → SyntaxFault) (value : α) : Steps α :=
  .look fun _ peek =>
    .report ⟨peek.elim eof Token.pos, fault (peek.elim .eof Token.kind)⟩ (.done value)

/-- Moves on to the next token if that is of the kind, else reports. -/
def expectNext (eof : Position) (kind : Token.Kind) : Steps (Option Token) :=
  .look fun _ peek =>
    match peek.filter (·.kind = kind) with
    | some token => .next (.done (some token))
    | none => reportNext eof (.unexpected kind) none

/-- Behind an item of a collection: whether another one may follow. -/
def behindItem (eof : Position) (collection : Collection) (close : Token.Kind) : Steps Bool :=
  .ifNext .comma (.done true) <| .ifNext close (.done false) <|
    reportNext eof (.missingComma collection) false

end Script

open Script

/-! ## The routines -/

/-- An operand that begins with `t`. -/
def operandText (eof : Position) (t : Token) : Steps (Option Expr) :=
  match t.kind with
  | .identifier => .done (some (.identifier (.ofToken t)))
  | .integer =>
    match wordValue? t.literal with
    | some value => .done (some (.integer t.pos t.literal value))
    | none => .report ⟨t.pos, .integerRange t.literal⟩ (.done none)
  | .string => .done (some (.string t.pos t.literal))
  | .trueWord => .done (some (.bool t.pos true))
  | .falseWord => .done (some (.bool t.pos false))
  | .bang => .next <| (run (.expression .unary)).andThen fun right =>
      .done (some (.unary t.pos .not right))
  | .minus => .next <| (run (.expression .unary)).andThen fun right =>
      .done (some (.unary t.pos .negate right))
  | .leftParen => .next <| (run (.expression .lowest)).andThen fun inner =>
      (expectNext eof .rightParen).andThen fun _ => .done (some inner)
  | .leftBracket => .next <| (run .elements).map fun items => some (.array t.pos items)
  | .leftObject => .next <| (run .pairs).map fun items => some (.object t.pos items)
  | .ifWord => (run .condition).andThen fun (test, brace) =>
      .next <| (run (.block brace)).bind fun consequence =>
        .ifNext .elseWord
          ((expectNext eof .leftBrace).andThen fun brace =>
            .next <| (run (.block brace)).map fun alternative =>
              some (.branch t.pos test consequence (some alternative)))
          (.done (some (.branch t.pos test consequence none)))
  | .forWord => (run .condition).andThen fun (test, brace) =>
      .next <| (run (.block brace)).map fun body => some (.loop t.pos test body)
  | .fnWord => (expectNext eof .leftParen).andThen fun _ => (run .params).andThen fun names =>
      (expectNext eof .leftBrace).andThen fun brace =>
        .next <| (run (.block brace)).map fun body => some (.function t.pos names body)
  | kind => .report ⟨t.pos, .noExpression kind⟩ (.done none)

/-- A statement that begins with `t`. -/
def statementText (eof : Position) (t : Token) : Steps (Option Stmt) :=
  match t.kind with
  | .letWord => (expectNext eof .identifier).andThen fun name =>
      (expectNext eof .assign).andThen fun _ =>
        .next <| (run (.expression .lowest)).andThen fun value =>
          (run .semicolons).map fun _ => some (.binding t.pos (.ofToken name) value)
  | .returnWord => .look fun _ peek =>
      if peek.elim .eof Token.kind ∈ [.semicolon, .rightBrace, .eof] then
        (run .semicolons).map fun _ => some (.exit t.pos none)
      else
        .next <| (run (.expression .lowest)).andThen fun value =>
          (run .semicolons).map fun _ => some (.exit t.pos (some value))
  | .leftBrace => .next <| (run (.block t)).map fun body => some (.block body)
  | _ => (run (.expression .lowest)).andThen fun value =>
      .ifNext .semicolon (.done (some (.expression t value))) (.done (some (.expression t value)))

/-- What a routine does. -/
def Routine.text (eof : Position) : (routine : Routine) → Steps routine.Node
  | statements inBlock => .look fun
    | none, _ => .done []
    | some t, _ =>
      if inBlock ∧ t.kind = .rightBrace then .done []
      else (run statement).bind fun stmt? =>
        .next <| (run (statements inBlock)).map (stmt?.toList ++ ·)
  | statement => .look fun
    | none, _ => .report ⟨eof, .noExpression .eof⟩ (.done none)
    | some t, _ => statementText eof t
  | block brace => (run (statements true)).map (Block.mk brace.pos)
  | semicolons => .ifNext .semicolon (run semicolons) (.done ())
  | expression level =>
    (run operand).andThen fun left => run (continuations level left)
  | operand => .look fun
    | none, _ => .report ⟨eof, .noExpression .eof⟩ (.done none)
    | some t, _ => operandText eof t
  | continuations level left => .look fun
    | _, none => .done (some left)
    | _, some t =>
      match Continuation.above? level t.kind with
      | none => .done (some left)
      | some (.binary op) => .next <| .next <| (run (expression op.precedence)).andThen fun right =>
          run (continuations level (.binary t.pos op left right))
      | some .call => .next <| (run arguments).andThen fun items =>
          run (continuations level (.call t.pos left items))
      | some .index => .next <| .next <| (run (expression .lowest)).andThen fun place =>
          (expectNext eof .rightBracket).andThen fun _ =>
            run (continuations level (.index t.pos left place))
  | condition => (expectNext eof .leftParen).andThen fun _ =>
      .next <| (run (expression .lowest)).andThen fun test =>
        (expectNext eof .rightParen).andThen fun _ =>
          (expectNext eof .leftBrace).andThen fun brace => .done (some (test, brace))
  | params => .ifNext .rightParen (.done (some [])) (run moreParams)
  | moreParams => (expectNext eof .identifier).andThen fun name =>
      .ifNext .comma ((run moreParams).map (·.map (.ofToken name :: ·)))
        ((expectNext eof .rightParen).andThen fun _ => .done (some [.ofToken name]))
  | arguments => .ifNext .rightParen (.done (some [])) (.next (run moreArguments))
  | moreArguments => (run (expression .lowest)).andThen fun item =>
      .ifNext .comma (.next <| (run moreArguments).map (·.map (item :: ·)))
        ((expectNext eof .rightParen).andThen fun _ => .done (some [item]))
  | elements => .look fun
    | none, _ => .report ⟨eof, .unexpected .rightBracket .eof⟩ (.done [])
    | some t, _ =>
      if t.kind = .rightBracket then .done []
      else (run (expression .lowest)).bind fun
        | none => .done []
        | some item => (behindItem eof .array .rightBracket).bind fun more =>
          if more then .next <| (run elements).map (item :: ·) else .done [item]
  | pairs => .look fun
    | none, _ => .report ⟨eof, .unexpected .rightObject .eof⟩ (.done [])
    | some t, _ =>
      if t.kind = .rightObject then .done []
      else (run (expression .lowest)).bind fun
        | none => .done []
        | some key =>
          .ifNext .colon
            (.next <| (run (expression .lowest)).bind fun
              | none => .done []
              | some value => (behindItem eof .object .rightObject).bind fun more =>
                if more then .next <| (run pairs).map ((key, value) :: ·)
                else .done [(key, value)])
            (reportNext eof .missingColon [])

/-!
## Rules

What has to be shown of a script that is put together, for any contract. Lengths are all that is
said about the tokens, and nothing is said about reports.
-/

namespace Script

variable {α β : Type} {eof : Position} {contract : Contract Routine.Node} {here : List Token}

/-- From `here` the script keeps the contract, and ends with a node and a cursor as `Q` says,
whatever it reports. -/
def Yields (contract : Contract Routine.Node) (s : Steps α) (here : List Token)
    (Q : α → List Token → Prop) : Prop :=
  s.Keeps contract here fun value there _ => Q value there

variable {P Q : α → List Token → Prop}

theorem Yields.mono {s : Steps α} (h : s.Yields contract here P)
    (hPQ : ∀ value there, there.length ≤ here.length → P value there → Q value there) :
    s.Yields contract here Q :=
  Keeps.mono h fun value there _ hle => hPQ value there hle

theorem yields_done {value : α} (h : Q value here) : Yields contract (.done value) here Q := h

theorem yields_report {value : α} {d : Diagnostic} (h : Q value here) :
    Yields contract (.report d (.done value)) here Q := h

/-- Looks at the current token. -/
theorem yields_current {go : Option Token → Option Token → Steps α}
    (hend : here = [] → (go none none).Yields contract here Q)
    (htoken : ∀ t peek, 0 < here.length → (go (some t) peek).Yields contract here Q) :
    Yields contract (.look go) here Q := by
  show (go here.head? here.tail.head?).Yields contract here Q
  cases here with
  | nil => exact hend rfl
  | cons t rest => exact htoken t _ (Nat.succ_pos _)

/-- Looks at the next token. -/
theorem yields_peek {go : Option Token → Option Token → Steps α}
    (hend : ∀ current, (go current none).Yields contract here Q)
    (htoken : ∀ current t, 1 < here.length → (go current (some t)).Yields contract here Q) :
    Yields contract (.look go) here Q := by
  show (go here.head? here.tail.head?).Yields contract here Q
  match here with
  | [] => exact hend none
  | [current] => exact hend (some current)
  | current :: t :: rest => exact htoken (some current) t (Nat.succ_lt_succ (Nat.succ_pos _))

theorem yields_next {s : Steps α}
    (h : ∀ there : List Token, there.length = here.length - 1 → s.Yields contract there Q) :
    Yields contract (.next s) here Q :=
  h here.tail List.length_tail

theorem yields_run {routine : Routine} {Q : routine.Node → List Token → Prop}
    (hpre : contract.pre routine here)
    (hpost : ∀ node there ds, there.length ≤ here.length →
      contract.post routine here node there ds → Q node there) :
    (run routine).Yields contract here Q :=
  ⟨hpre, hpost⟩

theorem Yields.bind {s : Steps α} {go : α → Steps β} {Q : β → List Token → Prop}
    (h : s.Yields contract here P)
    (hgo : ∀ value there, there.length ≤ here.length → P value there →
      (go value).Yields contract there Q) :
    (s.bind go).Yields contract here Q :=
  keeps_bind (Keeps.mono h fun value there _ hle hP => hgo value there hle hP)

theorem Yields.map {s : Steps α} {f : α → β} {Q : β → List Token → Prop}
    (h : s.Yields contract here fun value there => Q (f value) there) :
    (s.map f).Yields contract here Q :=
  Yields.bind h fun _ _ _ hQ => yields_done hQ

theorem Yields.andThen {s : Steps (Option α)} {go : α → Steps (Option β)}
    {P : Option α → List Token → Prop} {Q : Option β → List Token → Prop}
    (h : s.Yields contract here P)
    (hnone : ∀ there, there.length ≤ here.length → Q none there)
    (hgo : ∀ value there, there.length ≤ here.length → P (some value) there →
      (go value).Yields contract there Q) :
    (s.andThen go).Yields contract here Q := by
  refine h.bind fun value? there hle hP => ?_
  cases value? with
  | none => exact yields_done (hnone there hle)
  | some value => exact hgo value there hle hP

theorem yields_ifNext {kind : Token.Kind} {yes no : Steps α}
    (hyes : ∀ there : List Token, 0 < there.length → there.length < here.length →
      yes.Yields contract there Q)
    (hno : no.Yields contract here Q) : (ifNext kind yes no).Yields contract here Q := by
  refine yields_peek (fun _ => hno) fun _ t hlength => ?_
  split
  · exact yields_next fun there hthere => hyes there (by omega) (by omega)
  · exact hno

theorem yields_reportNext {fault : Token.Kind → SyntaxFault} {value : α} (h : Q value here) :
    (reportNext eof fault value).Yields contract here Q := h

/-- Goes on with the cursor on a token further on. -/
theorem yields_expectNext {kind : Token.Kind} {go : Token → Steps (Option β)}
    {Q : Option β → List Token → Prop} (hnone : Q none here)
    (hgo : ∀ token (there : List Token), 0 < there.length → there.length < here.length →
      (go token).Yields contract there Q) :
    ((expectNext eof kind).andThen go).Yields contract here Q := by
  refine yields_peek (fun _ => hnone) fun _ t hlength => ?_
  dsimp only
  cases Option.filter (fun token => token.kind = kind) (some t) with
  | none => exact hnone
  | some token => exact yields_next fun there hthere => hgo token there (by omega) (by omega)

theorem yields_behindItem {collection : Collection} {close : Token.Kind} {go : Bool → Steps β}
    {Q : β → List Token → Prop}
    (hgo : ∀ more (there : List Token), there.length ≤ here.length →
      (go more).Yields contract there Q) :
    ((behindItem eof collection close).bind go).Yields contract here Q := by
  have hbehind : (behindItem eof collection close).Yields contract here fun _ _ => True := by
    refine yields_ifNext (fun _ _ _ => yields_done trivial) ?_
    exact yields_ifNext (fun _ _ _ => yields_done trivial) (yields_reportNext trivial)
  exact hbehind.bind fun more there hle _ => hgo more there hle

end Script

end ExprMachine.Parser
