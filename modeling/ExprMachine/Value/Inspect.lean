import ExprMachine.Ast.Render
import ExprMachine.Text.Quoted
import ExprMachine.Value.Basic

/-!
# Values as text

`inspect` is how a value is shown to a user: strings bare, errors marked, a returned value as
itself. `describe` is the view for whoever debugs a program: it names the type of every part and
quotes every string, so that no two values of different types look the same.
-/

namespace ExprMachine

mutual

/-- The value as it is shown for a result. -/
def Value.inspect : Value → String
  | .int n => toString n.toInt
  | .str s => s
  | .bool b => toString b
  | .null => "null"
  | .arr items => "[" ++ Text.commaSeparated (inspectItems items) ++ "]"
  | .obj entries => "\x7b" ++ Text.commaSeparated (inspectEntries entries) ++ "\x7d"
  | .func f => "fn(" ++ Text.commaSeparated (f.params.map (·.name)) ++ ") " ++ f.body.render
  | .builtin b => "builtin function " ++ b.name
  | .ret inner => inner.inspect
  | .err message => "ERROR: " ++ message

/-- The items of an array as they are shown. -/
def inspectItems : List Value → List String
  | [] => []
  | item :: items => item.inspect :: inspectItems items

/-- The entries of an object as they are shown. -/
def inspectEntries : List (String × Value) → List String
  | [] => []
  | (key, value) :: entries => (key ++ ": " ++ value.inspect) :: inspectEntries entries

end

/-- A name with its token, for debugging. -/
def Identifier.describe (id : Identifier) : String :=
  "Identifier \x7b token: Token \x7b kind: Ident, literal: " ++ Text.quoted id.name
    ++ ", span: Span \x7b line: " ++ toString id.pos.line ++ ", col: " ++ toString id.pos.col
    ++ " \x7d \x7d, value: " ++ Text.quoted id.name ++ " \x7d"

/-- A function without the scope it was made in, which may hold the function itself. -/
def Closure.describe (f : Closure) : String :=
  "Function \x7b params: [" ++ Text.commaSeparated (f.params.map Identifier.describe)
    ++ "], body: " ++ Text.quoted f.body.render ++ ", .. \x7d"

mutual

/-- The value with the types of its parts, for debugging. -/
def Value.describe : Value → String
  | .int n => "Integer(" ++ toString n.toInt ++ ")"
  | .str s => "String(" ++ Text.quoted s ++ ")"
  | .bool b => "Boolean(" ++ toString b ++ ")"
  | .null => "Null"
  | .arr items => "Array([" ++ Text.commaSeparated (describeItems items) ++ "])"
  | .obj entries => "Object(\x7b" ++ Text.commaSeparated (describeEntries entries) ++ "\x7d)"
  | .func f => "Function(" ++ f.describe ++ ")"
  | .builtin b => "Builtin(Builtin(" ++ b.name ++ "))"
  | .ret inner => "Return(" ++ inner.describe ++ ")"
  | .err message => "Error(" ++ Text.quoted message ++ ")"

/-- The items of an array, for debugging. -/
def describeItems : List Value → List String
  | [] => []
  | item :: items => item.describe :: describeItems items

/-- The entries of an object, for debugging. -/
def describeEntries : List (String × Value) → List String
  | [] => []
  | (key, value) :: entries =>
    (Text.quoted key ++ ": " ++ value.describe) :: describeEntries entries

end

end ExprMachine
