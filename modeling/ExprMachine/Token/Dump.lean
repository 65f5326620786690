import ExprMachine.Text.Layout
import ExprMachine.Text.Quoted
import ExprMachine.Token.Basic

/-!
# Listing tokens

One line per token: its place, the group its kind belongs to, and the token itself. The plain view
shows the kind and the quoted text, so nothing about a token is lost; the pretty view shows the
text as it stands in the source, quoted only where it is the text of a string. Colours mark the
groups on a terminal and can be left out.
-/

namespace ExprMachine.Token

/-- What a token is there for. -/
inductive Group where
  | ending | illegal | integer | string | bool | identifier | paren | bracket | brace | object
  | punctuation | operator | comparison | keyword
deriving DecidableEq, Repr

namespace Group

/-- The group of a kind. -/
def ofKind : Kind → Group
  | .eof => ending
  | .illegal => illegal
  | .integer => integer
  | .string => string
  | .trueWord | .falseWord => bool
  | .identifier => identifier
  | .leftParen | .rightParen => paren
  | .leftBracket | .rightBracket => bracket
  | .leftBrace | .rightBrace => brace
  | .leftObject | .rightObject => object
  | .comma | .semicolon | .colon => punctuation
  | .plus | .minus | .asterisk | .slash | .bang | .assign | .increment | .decrement => operator
  | .equal | .notEqual | .less | .greater => comparison
  | .letWord | .fnWord | .ifWord | .elseWord | .forWord | .returnWord => keyword

/-- Every keyword is listed as one, but for the two truth values. -/
theorem ofKind_eq_keyword_iff {kind : Kind} :
    ofKind kind = keyword ↔ kind.isKeyword ∧ ofKind kind ≠ bool := by
  cases kind <;> decide

/-- The group's name in a listing. -/
def name : Group → String
  | ending => "EOF"
  | illegal => "ILLEGAL"
  | integer => "INT"
  | string => "STRING"
  | bool => "BOOL"
  | identifier => "IDENT"
  | paren => "PAREN"
  | bracket => "BRACKET"
  | brace => "BRACE"
  | object => "OBJECT"
  | punctuation => "PUNCT"
  | operator => "OP"
  | comparison => "CMP"
  | keyword => "KEYWORD"

end Group

/-- How a listing looks. -/
structure DumpStyle where
  /-- Whether terminal colours are written. -/
  color : Bool := true
  /-- Whether tokens are shown as they stand in the source, without their kind. -/
  pretty : Bool := false

namespace DumpStyle

/-- The terminal sequence that sets a display attribute. -/
def sequence (code : String) : String := "\x1b[" ++ code ++ "m"

/-- Back to the terminal's own colours. -/
def reset : String := sequence "0"

/-- The terminal sequence in front of a group's tokens. -/
def groupColor : Group → String
  | .ending => sequence "2"
  | .illegal => sequence "31"
  | .string => sequence "32"
  | .identifier => sequence "33"
  | .operator | .comparison => sequence "35"
  | .integer | .bool => sequence "36"
  | .paren | .bracket | .brace | .object | .punctuation | .keyword => reset

/-- The token itself. -/
def body (style : DumpStyle) (token : Token) : String :=
  if style.pretty then
    match token.kind with
    | .eof => "EOF"
    | .string => Text.quoted token.literal
    | _ => token.literal
  else token.kind.name ++ "(" ++ Text.quoted token.literal ++ ")"

/-- The line of one token. -/
def line (style : DumpStyle) (token : Token) : String :=
  let group := Group.ofKind token.kind
  let (on, off) := if style.color then (groupColor group, reset) else ("", "")
  let place := Text.zeroFill 2 token.pos.line ++ ":" ++ Text.zeroFill 2 token.pos.col
  "[" ++ place ++ "] " ++ on ++ Text.padRight 8 group.name ++ " " ++ style.body token ++ off ++ "\n"

/-- The listing of a source text's tokens, the end token included. -/
def dump (style : DumpStyle) (stream : TokenStream) : String :=
  String.join (stream.toList.map style.line)

end DumpStyle

end ExprMachine.Token
