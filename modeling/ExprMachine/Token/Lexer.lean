import ExprMachine.Token.Basic

/-!
# From characters to tokens

A cursor is the unread rest of a source text and the place where it begins. Reading a token skips
the blanks and comments in front of it and takes the longest lexeme that starts there. Nothing is
an error at this level: a character that starts no token is an illegal token of its own, and a
string without a closing quote takes the whole rest of the text.

Blanks are the space, the tab, the newline and the carriage return. A comment runs from one `#` to
the next. Words and numbers are of ASCII letters and ASCII digits only.

Every lexeme has a character, so the rest gets shorter with each token (`Cursor.rest_next_lt`), and
that is why reading the whole text ends.
-/

namespace ExprMachine

/-- The unread rest of a source text and where it begins. -/
structure Cursor where
  rest : List Char
  pos : Position
deriving DecidableEq, Repr

/-- A token's text as it stands in the source, and what follows it. -/
structure Lexeme where
  kind : Token.Kind
  /-- The text that the token keeps. -/
  literal : List Char
  /-- The characters it takes from the source, quotes included. -/
  extent : List Char
  /-- The characters behind it. -/
  rest : List Char
  /-- Whether its closing quote is missing. -/
  isOpen : Bool := false

namespace Lexeme

/-- The characters that separate tokens. -/
def isBlank (c : Char) : Bool := c == ' ' || c == '\t' || c == '\n' || c == '\r'

/-- ASCII letters. -/
def isLetter (c : Char) : Bool := c.isAlpha

/-- ASCII digits. -/
def isDigit (c : Char) : Bool := c.isDigit

theorem isLetter_iff {c : Char} : isLetter c ↔ ('A' ≤ c ∧ c ≤ 'Z') ∨ ('a' ≤ c ∧ c ≤ 'z') := by
  show (decide ('A' ≤ c ∧ c ≤ 'Z') || (decide ('a' ≤ c) && decide (c ≤ 'z'))) = true ↔ _
  rw [Bool.or_eq_true, Bool.and_eq_true, decide_eq_true_iff, decide_eq_true_iff,
    decide_eq_true_iff]

theorem isDigit_iff {c : Char} : isDigit c ↔ '0' ≤ c ∧ c ≤ '9' := by
  show (decide ('0' ≤ c) && decide (c ≤ '9')) = true ↔ _
  rw [Bool.and_eq_true, decide_eq_true_iff, decide_eq_true_iff]

/-- The tokens of two characters. -/
def pair? (c d : Char) : Option Token.Kind :=
  match c, d with
  | '=', '=' => some .equal
  | '!', '=' => some .notEqual
  | '+', '+' => some .increment
  | '-', '-' => some .decrement
  | '{', '{' => some .leftObject
  | '}', '}' => some .rightObject
  | _, _ => none

/-- The tokens of one character. -/
def single (c : Char) : Token.Kind :=
  match c with
  | '=' => .assign
  | '!' => .bang
  | '+' => .plus
  | '-' => .minus
  | '{' => .leftBrace
  | '}' => .rightBrace
  | '*' => .asterisk
  | '/' => .slash
  | '<' => .less
  | '>' => .greater
  | ',' => .comma
  | ';' => .semicolon
  | ':' => .colon
  | '(' => .leftParen
  | ')' => .rightParen
  | '[' => .leftBracket
  | ']' => .rightBracket
  | _ => .illegal

/-- The string behind an opening quote: up to the next quote, or all that is left. -/
def quoted (cs : List Char) : Lexeme :=
  let body := cs.takeWhile (· ≠ '"')
  match cs.dropWhile (· ≠ '"') with
  | [] => { kind := .string, literal := body, extent := '"' :: body, rest := [], isOpen := true }
  | quote :: rest => { kind := .string, literal := body, extent := '"' :: body ++ [quote], rest }

/-- The run of characters of one class that starts with `c`. -/
def run (kind : List Char → Token.Kind) (inClass : Char → Bool) (c : Char) (cs : List Char) :
    Lexeme :=
  let text := c :: cs.takeWhile inClass
  { kind := kind text, literal := text, extent := text, rest := cs.dropWhile inClass }

/-- A token of two characters if the next character completes one, else of one. -/
def symbol (c : Char) (cs : List Char) : Lexeme :=
  let alone : Lexeme := { kind := single c, literal := [c], extent := [c], rest := cs }
  match cs with
  | [] => alone
  | d :: ds =>
    match pair? c d with
    | some kind => { kind, literal := [c, d], extent := [c, d], rest := ds }
    | none => alone

/-- The lexeme that starts with `c` in the text `c :: cs`; `c` is no blank and no comment sign. -/
def first (c : Char) (cs : List Char) : Lexeme :=
  if c = '"' then quoted cs
  else if isLetter c then run (fun word => .ofWord (String.ofList word)) isLetter c cs
  else if isDigit c then run (fun _ => .integer) isDigit c cs
  else symbol c cs

/-- The place behind the lexeme when it starts at `pos`. -/
def endPos (l : Lexeme) (pos : Position) : Position :=
  let behind := pos.afterAll l.extent
  if l.isOpen then behind.pastMissing else behind

theorem length_rest_quoted_le (cs : List Char) : (quoted cs).rest.length ≤ cs.length := by
  have h : (cs.dropWhile (· ≠ '"')).length ≤ cs.length := (List.dropWhile_sublist _).length_le
  unfold quoted
  split
  · simp
  · next heq => rw [heq, List.length_cons] at h; exact Nat.le_of_succ_le h

theorem length_rest_run_le (kind : List Char → Token.Kind) (p : Char → Bool) (c : Char)
    (cs : List Char) : (run kind p c cs).rest.length ≤ cs.length :=
  (List.dropWhile_sublist p).length_le

theorem length_rest_symbol_le (c : Char) (cs : List Char) :
    (symbol c cs).rest.length ≤ cs.length := by
  unfold symbol
  cases cs with
  | nil => simp
  | cons d ds => dsimp only; split <;> simp

/-- A lexeme takes its first character at least. -/
theorem length_rest_first_le (c : Char) (cs : List Char) :
    (first c cs).rest.length ≤ cs.length := by
  unfold first
  split
  · exact length_rest_quoted_le cs
  split
  · exact length_rest_run_le _ _ _ _
  split
  · exact length_rest_run_le _ _ _ _
  · exact length_rest_symbol_le c cs

end Lexeme

namespace Cursor

/-- The beginning of a source text. -/
def ofSource (source : String) : Cursor := ⟨source.toList, .start⟩

/--
The cursor behind the blanks and comments in front of `cs`, which stands at `pos`. Each `#` enters
or leaves a comment.
-/
def skip (inComment : Bool) (pos : Position) : List Char → Cursor
  | [] => ⟨[], if inComment then pos.pastMissing else pos⟩
  | c :: cs =>
    if c = '#' then skip (!inComment) (pos.after c) cs
    else if inComment || Lexeme.isBlank c then skip inComment (pos.after c) cs
    else ⟨c :: cs, pos⟩

/-- The cursor at the next lexeme, or at the end of the text. -/
def skipTrivia (cur : Cursor) : Cursor := skip false cur.pos cur.rest

/-- The next token and the cursor behind it. At the end of the text it is the end token. -/
def next (cur : Cursor) : Token × Cursor :=
  let start := cur.skipTrivia
  match start.rest with
  | [] => (Token.ending start.pos, start)
  | c :: cs =>
    let l := Lexeme.first c cs
    (⟨l.kind, String.ofList l.literal, start.pos⟩, ⟨l.rest, l.endPos start.pos⟩)

theorem length_rest_skip_le (inComment : Bool) (pos : Position) (cs : List Char) :
    (skip inComment pos cs).rest.length ≤ cs.length := by
  induction cs generalizing inComment pos with
  | nil => simp [skip]
  | cons c cs ih =>
    unfold skip
    split
    · exact Nat.le_succ_of_le (ih _ _)
    split
    · exact Nat.le_succ_of_le (ih _ _)
    · exact Nat.le_refl _

/-- What is left behind a token is shorter than what was left in front of it. -/
theorem rest_next_lt {cur : Cursor} (h : cur.skipTrivia.rest ≠ []) :
    cur.next.2.rest.length < cur.rest.length := by
  have hskip : cur.skipTrivia.rest.length ≤ cur.rest.length := length_rest_skip_le _ _ _
  unfold next
  dsimp only
  split
  · next heq => exact absurd heq h
  · next c cs heq =>
    rw [heq, List.length_cons] at hskip
    exact Nat.lt_of_le_of_lt (Lexeme.length_rest_first_le c cs) hskip

/-- Reads to the end of the text; `seen` holds the tokens read so far, the latest first. -/
def readAll (cur : Cursor) (seen : List Token) : TokenStream :=
  if _ : cur.skipTrivia.rest = [] then ⟨seen.reverse, cur.skipTrivia.pos⟩
  else readAll cur.next.2 (cur.next.1 :: seen)
termination_by cur.rest.length
decreasing_by exact rest_next_lt ‹_›

/-- The tokens that are still to come. -/
def remaining (cur : Cursor) : TokenStream := readAll cur []

end Cursor

/-- The tokens of a source text. -/
def TokenStream.ofSource (source : String) : TokenStream := (Cursor.ofSource source).remaining

end ExprMachine
