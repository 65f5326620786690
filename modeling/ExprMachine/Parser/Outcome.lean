import ExprMachine.Parser.Diagnostic

/-!
# The outcome of reading a construct

Reading a construct off a list of tokens gives a node, the tokens behind the construct, and the
reports made on the way, in order. A construct never gives tokens back: the type `Parsed α n` holds
outcomes that leave at most `n` tokens, so that whoever reads on from there knows that the tokens
run out. That bound is what makes the grammar's recursion end.

Two ways of reading on: `bind` goes on with whatever node was read, `andThen` only if there is one.
The reports of both parts are kept in order.
-/

namespace ExprMachine

/-- What reading a construct gave. -/
structure Outcome (α : Type) where
  value : α
  /-- The tokens behind the construct. -/
  rest : List Token
  /-- What was reported, in order. -/
  diagnostics : List Diagnostic

/-- An outcome that leaves at most `n` tokens. -/
structure Parsed (α : Type) (n : Nat) where
  outcome : Outcome α
  rest_le : outcome.rest.length ≤ n

/-- An outcome that may lack the node: whoever fails has reported why. -/
abbrev Attempt (α : Type) (n : Nat) : Type := Parsed (Option α) n

namespace Parsed

variable {α β : Type} {m n : Nat}

/-- A node for which nothing was reported. -/
def done (value : α) (rest : List Token) : Parsed α rest.length :=
  ⟨⟨value, rest, []⟩, Nat.le_refl _⟩

/-- A node with one report. -/
def report (value : α) (rest : List Token) (diagnostic : Diagnostic) : Parsed α rest.length :=
  ⟨⟨value, rest, [diagnostic]⟩, Nat.le_refl _⟩

/-- The same outcome under a weaker bound. -/
def weaken (p : Parsed α m) (h : m ≤ n) : Parsed α n := ⟨p.outcome, Nat.le_trans p.rest_le h⟩

/-- Another node for the same tokens. -/
def map (f : α → β) (p : Parsed α n) : Parsed β n :=
  ⟨⟨f p.outcome.value, p.outcome.rest, p.outcome.diagnostics⟩, p.rest_le⟩

/-- Reads on behind a construct. -/
def bind (p : Parsed α n)
    (k : α → (rest : List Token) → rest.length ≤ n → Parsed β rest.length) : Parsed β n :=
  let q := k p.outcome.value p.outcome.rest p.rest_le
  ⟨⟨q.outcome.value, q.outcome.rest, p.outcome.diagnostics ++ q.outcome.diagnostics⟩,
    Nat.le_trans q.rest_le p.rest_le⟩

/-- Reads on behind a construct if it gave a node. -/
def andThen (p : Attempt α n)
    (k : α → (rest : List Token) → rest.length ≤ n → Attempt β rest.length) : Attempt β n :=
  p.bind fun value? rest h =>
    match value? with
    | none => done none rest
    | some value => k value rest h

end Parsed

/-! ## Reading single tokens -/

namespace Parser

/-- The kind of the next token. -/
def nextKind : List Token → Token.Kind
  | [] => .eof
  | token :: _ => token.kind

/-- The place of the next token, where `eof` is the end of the text. -/
def nextPos (eof : Position) : List Token → Position
  | [] => eof
  | token :: _ => token.pos

/-- The next token if it is of the kind, else a report in front of it. -/
def expect (eof : Position) (kind : Token.Kind) (ts : List Token) : Attempt Token ts.length :=
  match ts with
  | [] => .report none [] ⟨eof, .unexpected kind .eof⟩
  | token :: rest =>
    if token.kind = kind then (Parsed.done (some token) rest).weaken (Nat.le_succ _)
    else .report none (token :: rest) ⟨token.pos, .unexpected kind token.kind⟩

/-- The tokens behind the next one, if that is of the kind. -/
def take? (kind : Token.Kind) (ts : List Token) :
    Option { rest : List Token // rest.length < ts.length } :=
  match ts with
  | [] => none
  | token :: rest => if token.kind = kind then some ⟨rest, Nat.lt_succ_self _⟩ else none

theorem length_le_of_lt {ts rest : List Token} (h : rest.length < ts.length) :
    rest.length ≤ ts.length := Nat.le_of_lt h

/-- A node, with any semicolons behind it skipped. -/
def closed {α : Type} (value : α) (ts : List Token) : Parsed α ts.length :=
  ⟨⟨value, ts.dropWhile fun token => token.kind = .semicolon, []⟩,
    (List.dropWhile_sublist _).length_le⟩

/--
Behind an item of a collection: whether another one may follow. A comma is read and lets the list
go on; the closing delimiter is read and ends it; anything else is reported, left unread, and ends
it too.
-/
def afterItem (eof : Position) (collection : Collection) (close : Token.Kind) (ts : List Token) :
    Parsed Bool ts.length :=
  match take? .comma ts with
  | some ⟨rest, h⟩ => (Parsed.done true rest).weaken (length_le_of_lt h)
  | none =>
    match take? close ts with
    | some ⟨rest, h⟩ => (Parsed.done false rest).weaken (length_le_of_lt h)
    | none => .report false ts ⟨nextPos eof ts, .missingComma collection (nextKind ts)⟩

end Parser

end ExprMachine
