/-!
# Places in a source text

A place is a line and a column, both counted from 1, and a column is a number of characters
(code points), not of bytes. Everything that points into a source text (tokens, syntax nodes,
diagnostics) carries one of these.
-/

namespace ExprMachine

/-- A line and a column of a source text, both counted from 1. -/
structure Position where
  /-- One more than the number of newlines before the place. -/
  line : Nat
  /-- One more than the number of characters between the last newline and the place. -/
  col : Nat
deriving DecidableEq, Repr

namespace Position

/-- The first character of a text. -/
def start : Position := ⟨1, 1⟩

/-- The place behind the character `c` that stands at `p`. -/
def after (p : Position) (c : Char) : Position :=
  if c = '\n' then ⟨p.line + 1, 1⟩ else ⟨p.line, p.col + 1⟩

/-- The place behind the characters `cs`, the first of which stands at `p`. -/
def afterAll (p : Position) (cs : List Char) : Position := cs.foldl after p

/--
One column to the right. A string or a comment that is still open at the end of the text
reserves the column where its closing mark is missing, so the end of the text is reported
behind that column.
-/
def pastMissing (p : Position) : Position := ⟨p.line, p.col + 1⟩

/-- The place as `line:col`. -/
def render (p : Position) : String := s!"{p.line}:{p.col}"

@[simp] theorem afterAll_nil (p : Position) : p.afterAll [] = p := rfl

@[simp] theorem afterAll_cons (p : Position) (c : Char) (cs : List Char) :
    p.afterAll (c :: cs) = (p.after c).afterAll cs := rfl

theorem afterAll_append (p : Position) (xs ys : List Char) :
    p.afterAll (xs ++ ys) = (p.afterAll xs).afterAll ys := by
  simp [afterAll, List.foldl_append]

end Position

end ExprMachine
