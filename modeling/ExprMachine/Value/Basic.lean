import ExprMachine.Ast.Basic
import ExprMachine.Text.Dictionary

/-!
# Values

What the constants of a package and the places of the machine's stack hold. A function keeps the
scope it was made in by its number; two functions of the same text made in different scopes are
different values. Objects are dictionaries: their entries are in order of their keys.
-/

namespace ExprMachine

/-- The number of a scope in a forest of scopes. -/
abbrev ScopeId := Nat

/-- The functions that come with the language. -/
inductive Builtin where
  /-- The number of bytes of a string or of items of an array. -/
  | len
  /-- The number of arguments. -/
  | argc
deriving DecidableEq, Repr

/-- A function: parameters, body, and the scope it was made in. -/
structure Closure where
  params : List Identifier
  body : Block
  scope : ScopeId

/-- A value. -/
inductive Value where
  | int (n : Int64)
  | str (s : String)
  | bool (b : Bool)
  | null
  | arr (items : List Value)
  /-- An object, its entries in order of their keys. -/
  | obj (entries : List (String × Value))
  | func (f : Closure)
  | builtin (b : Builtin)
  /-- A value on its way out of the blocks around a `return`. -/
  | ret (inner : Value)
  /-- An error as a value of the language. -/
  | err (message : String)

instance : Inhabited Value := ⟨.null⟩

/-- The name of a builtin. -/
def Builtin.name : Builtin → String
  | len => "len"
  | argc => "argc"

namespace Value

/-- The name of a value's type. -/
def typeName : Value → String
  | int _ => "INTEGER"
  | str _ => "STRING"
  | bool _ => "BOOLEAN"
  | null => "NULL"
  | arr _ => "ARRAY"
  | obj _ => "OBJECT"
  | func _ => "FUNCTION"
  | builtin _ => "BUILTIN"
  | ret _ => "RETURN"
  | err _ => "ERROR"

/-- Whether the value is an error. -/
def isError : Value → Bool
  | err _ => true
  | _ => false

/-- The object that holds the entries; of two with one key the later stays. -/
def object (entries : List (String × Value)) : Value := obj (Dictionary.ofList entries)

/-- Appends to an array: the answer and the array after. Anything else answers an error. -/
def push (receiver item : Value) : Value × Value :=
  match receiver with
  | arr items => (null, arr (items ++ [item]))
  | other => (err ("push: expected ARRAY, got " ++ other.typeName), other)

/--
Files an item in an object: the item that was there before, or null, and the object after.
Anything else answers an error.
-/
def insert (receiver : Value) (key : String) (item : Value) : Value × Value :=
  match receiver with
  | obj entries =>
    ((Dictionary.find? key entries).getD null, obj (Dictionary.insert key item entries))
  | other => (err ("insert: expected OBJECT, got " ++ other.typeName), other)

end Value

/-- What a builtin answers. -/
def Builtin.call (b : Builtin) (args : List Value) : Value :=
  match b, args with
  | len, [.str s] => .int (Int64.ofNat s.utf8ByteSize)
  | len, [.arr items] => .int (Int64.ofNat items.length)
  | len, _ => .err "len: unsupported argument"
  | argc, args => .int (Int64.ofNat args.length)

end ExprMachine
