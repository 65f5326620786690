/-!
# Files that cannot be used

The reasons for which the system refuses a file, in its words and with its numbers.
-/

namespace ExprMachine.Cli

/-- Why a file cannot be used. -/
inductive FileError where
  | notFound | permissionDenied | notDirectory | isDirectory
deriving DecidableEq, Repr

namespace FileError

/-- Every reason once. -/
def all : List FileError := [notFound, permissionDenied, notDirectory, isDirectory]

/-- The system's number for the reason. -/
def number : FileError → Nat
  | notFound => 2
  | permissionDenied => 13
  | notDirectory => 20
  | isDirectory => 21

/-- The system's words for the reason. -/
def words : FileError → String
  | notFound => "No such file or directory"
  | permissionDenied => "Permission denied"
  | notDirectory => "Not a directory"
  | isDirectory => "Is a directory"

/-- The reason that has a number. -/
def ofNumber? (n : Nat) : Option FileError := all.find? fun error => error.number == n

/-- What is said about a file that cannot be used. -/
def message (error : FileError) : String :=
  error.words ++ " (os error " ++ toString error.number ++ ")"

end FileError

end ExprMachine.Cli
