import ExprMachine.Cli.Action
import ExprMachine.Cli.FileError

/-!
# Directories

A directory with files and folders, in which an action can be carried out without touching anything
else. Everything has a location, which is its name behind those of the folders around it, as in
`work/f.ape`. What is not in the directory has a location from the root, as in `/tmp/f.ape`.

A path is followed part by part: an empty part and `.` stay, `..` leaves a folder, and only a folder
that exists can be entered. So a path that goes on behind a file leads nowhere, even if only a slash
follows, and so does one that leaves the directory itself.
-/

namespace ExprMachine.Cli

/-- What stands at a location. -/
inductive Node where
  | file (bytes : List UInt8)
  | folder

/-- Files and folders under their locations. -/
abbrev Directory := List (String × Node)

namespace Directory

/-- The directory of some entries; of two with one location the later stays. -/
def ofList (entries : List (String × Node)) : Directory := Dictionary.ofList entries

/-- The location of a name behind the folders around it, the innermost first. The root is a folder
without a name. -/
def location : List String → String
  | [] => ""
  | [name] => name
  | name :: folder :: folders => location (folder :: folders) ++ "/" ++ name

/-- The folders around the innermost one. The root is around itself, and nothing is known of what is
around the directory. -/
def outward? : List String → Option (List String)
  | [] => none
  | [""] => some [""]
  | _ :: folders => some folders

/-- The location that the parts of a path lead to from within some folders. -/
def follow (dir : Directory) (folders : List String) : List String → Except FileError String
  | [] => .error .isDirectory
  | part :: parts =>
    if part = "" ∨ part = "." then follow dir folders parts
    else if part = ".." then
      match outward? folders with
      | some folders => follow dir folders parts
      | none => .error .notFound
    else if parts = [] then .ok (location (part :: folders))
    else
      match Dictionary.find? (location (part :: folders)) dir with
      | some .folder => follow dir (part :: folders) parts
      | some (.file _) => .error .notDirectory
      | none => .error .notFound

/-- The location that a path leads to. -/
def resolve (dir : Directory) (path : String) : Except FileError String :=
  let folders := if path.startsWith "/" then [""] else []
  follow dir folders ((Path.split path.toList).map String.ofList)

/-- The bytes of a file. -/
def read (dir : Directory) (path : String) : Except FileError (List UInt8) := do
  let place ← dir.resolve path
  match Dictionary.find? place dir with
  | some (.file bytes) => .ok bytes
  | some .folder => .error .isDirectory
  | none => .error .notFound

/-- The directory with a file in it, in place of the file that was there. -/
def write (dir : Directory) (path : String) (bytes : List UInt8) : Except FileError Directory := do
  let place ← dir.resolve path
  match Dictionary.find? place dir with
  | some .folder => .error .isDirectory
  | _ => .ok (Dictionary.insert place (.file bytes) dir)

/-- Carries out an action: the directory afterwards, and how the program ends. -/
def perform (stdin : List UInt8) (dir : Directory) : Action → Directory × Report
  | .finish report => (dir, report)
  | .converse => (dir, .ofTranscript (Repl.converse stdin {}))
  | .read path next => perform stdin dir (next ((dir.read path).mapError FileError.message))
  | .write path bytes next =>
    match dir.write path bytes with
    | .error error => perform stdin dir (next (.error error.message))
    | .ok dir => perform stdin dir (next (.ok ()))

end Directory

end ExprMachine.Cli
