import ExprMachine.Token.Basic

/-!
# What can be wrong with a program text

Each report names its cause and the place of the token concerned. The wording is in one function.
-/

namespace ExprMachine

/-- The literals that list items between delimiters. -/
inductive Collection where
  | array | object
deriving DecidableEq, Repr

/-- What is wrong at a place of a program text. -/
inductive SyntaxFault where
  /-- Another token stands where a certain one is needed. -/
  | unexpected (wanted got : Token.Kind)
  /-- No expression begins with such a token. -/
  | noExpression (got : Token.Kind)
  /-- The number does not fit a word. -/
  | integerRange (digits : String)
  /-- An item of a collection is followed by neither a comma nor the end of the collection. -/
  | missingComma (collection : Collection) (got : Token.Kind)
  /-- A key is not followed by a colon. -/
  | missingColon (got : Token.Kind)
deriving DecidableEq, Repr

/-- A report about a program text. -/
structure Diagnostic where
  /-- Where the token concerned stands. -/
  pos : Position
  fault : SyntaxFault
deriving DecidableEq, Repr

/-- The collection's name in reports. -/
def Collection.name : Collection → String
  | array => "array"
  | object => "object"

/-- What a report says. -/
def SyntaxFault.message : SyntaxFault → String
  | unexpected wanted got =>
    "expected next token to be " ++ wanted.name ++ ", got " ++ got.name ++ " instead"
  | noExpression got => "no prefix parse function for " ++ got.name ++ " found"
  | integerRange digits => "could not parse " ++ digits ++ " as integer"
  | missingComma collection got =>
    "no comma after element in " ++ collection.name ++ ", got " ++ got.name
  | missingColon got => "no separator found between key and value, got " ++ got.name

/-- What a report says, without its place. -/
def Diagnostic.message (d : Diagnostic) : String := d.fault.message

/-- A report with its place in front. -/
def Diagnostic.render (d : Diagnostic) : String := d.pos.render ++ ": " ++ d.message

end ExprMachine
