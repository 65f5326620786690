/-!
# Paths of files

A path is a list of names with slashes between them. The name of the file is the last one, where
empty names and `.` do not count; a path that ends in `..` names no file. Its extension is what
follows the last dot, if anything stands before that dot.
-/

namespace ExprMachine.Cli.Path

/-- The parts of a path between its slashes. -/
def split : List Char → List (List Char)
  | [] => [[]]
  | c :: cs =>
    if c = '/' then [] :: split cs
    else
      match split cs with
      | [] => [[c]]
      | part :: parts => (c :: part) :: parts

/-- The parts of a path that lead somewhere. -/
def components (path : String) : List String :=
  ((split path.toList).filter fun part => part ≠ [] ∧ part ≠ ['.']).map String.ofList

/-- The name of the file. -/
def fileName? (path : String) : Option String :=
  (components path).getLast?.filter (· ≠ "..")

/-- What follows the last dot of a name, if anything stands before that dot. -/
def extensionOfName? (name : String) : Option String :=
  let backwards := name.toList.reverse
  match backwards.dropWhile (· ≠ '.') with
  | [] | [_] => none
  | _ :: _ :: _ => some (String.ofList (backwards.takeWhile (· ≠ '.')).reverse)

/-- The extension of the file's name. -/
def extension? (path : String) : Option String := (fileName? path).bind extensionOfName?

/-- The path with another extension; it must have one. -/
def withExtension (path extension : String) : String :=
  String.ofList (path.toList.reverse.dropWhile (· ≠ '.')).reverse ++ extension

end ExprMachine.Cli.Path
