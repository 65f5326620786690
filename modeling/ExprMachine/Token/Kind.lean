/-!
# The kinds of token

Every token of the language is of one of these kinds. The order of the constructors is the order
in which `Kind.all` lists them, and `Kind.name` is the word that diagnostics and dumps use. Words
that spell a keyword are told apart from identifiers by `Kind.ofWord`.
-/

namespace ExprMachine.Token

/-- What a token is. -/
inductive Kind where
  | letWord | fnWord | trueWord | falseWord | ifWord | elseWord | forWord | returnWord
  | plus | minus | slash | asterisk | less | greater | bang | assign
  | equal | notEqual | increment | decrement
  | comma | semicolon | colon
  | leftParen | rightParen
  | leftBrace | rightBrace
  /-- The opening of an object, `{{`. -/
  | leftObject
  /-- The end of an object, `}}`. -/
  | rightObject
  | leftBracket | rightBracket
  | identifier | integer | string
  /-- A character that starts no token. -/
  | illegal
  /-- The end of the text. -/
  | eof
deriving DecidableEq, Repr, Inhabited

namespace Kind

/-- The name of a kind in diagnostics and dumps. -/
def name : Kind → String
  | letWord => "LET"
  | fnWord => "FUNCTION"
  | trueWord => "TRUE"
  | falseWord => "FALSE"
  | ifWord => "IF"
  | elseWord => "ELSE"
  | forWord => "FOR"
  | returnWord => "RETURN"
  | plus => "PLUS"
  | minus => "MINUS"
  | slash => "SLASH"
  | asterisk => "ASTERISK"
  | less => "LT"
  | greater => "GT"
  | bang => "BANG"
  | assign => "ASSIGN"
  | equal => "EQ"
  | notEqual => "NOT_EQ"
  | increment => "INCREMENT"
  | decrement => "DECREMENT"
  | comma => "COMMA"
  | semicolon => "SEMICOLON"
  | colon => "COLON"
  | leftParen => "LPAREN"
  | rightParen => "RPAREN"
  | leftBrace => "LBRACE"
  | rightBrace => "RBRACE"
  | leftObject => "LOBJECT_BRACE"
  | rightObject => "ROBJECT_BRACE"
  | leftBracket => "LBRACKET"
  | rightBracket => "RBRACKET"
  | identifier => "IDENTIFIER"
  | integer => "INTEGER"
  | string => "STRING"
  | illegal => "ILLEGAL"
  | eof => "EOF"

/-- Every kind once, in the order of declaration. -/
def all : List Kind :=
  [letWord, fnWord, trueWord, falseWord, ifWord, elseWord, forWord, returnWord,
   plus, minus, slash, asterisk, less, greater, bang, assign,
   equal, notEqual, increment, decrement,
   comma, semicolon, colon, leftParen, rightParen, leftBrace, rightBrace,
   leftObject, rightObject, leftBracket, rightBracket,
   identifier, integer, string, illegal, eof]

/-- The keywords and how they are spelled. -/
def keywords : List (String × Kind) :=
  [("let", letWord), ("fn", fnWord), ("true", trueWord), ("false", falseWord),
   ("if", ifWord), ("else", elseWord), ("for", forWord), ("return", returnWord)]

/-- The kind of a run of letters: a keyword if it spells one, else an identifier. -/
def ofWord (word : String) : Kind := (keywords.lookup word).getD identifier

/-- Whether the kind is that of a keyword. -/
def isKeyword (kind : Kind) : Bool := keywords.any fun entry => entry.2 == kind

theorem mem_all (kind : Kind) : kind ∈ all := by cases kind <;> decide

end Kind

end ExprMachine.Token
