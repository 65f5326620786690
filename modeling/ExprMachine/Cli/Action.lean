import ExprMachine.Cli.Command
import ExprMachine.Cli.Path
import ExprMachine.Codec.Package
import ExprMachine.Bytecode.Listing
import ExprMachine.Bytecode.Statistics
import ExprMachine.Repl
import ExprMachine.Ast.Render
import ExprMachine.Token.Dump

/-!
# What the program does with its files

An action is a plan: it says which file to read or write next and how to go on with the result, or
what to write to the terminal and how to end. Whoever carries it out knows nothing about the
language, and the plan nothing about where files are kept.

A source file (extension `ape`) is read as text and, by what is asked for, listed, printed, written
out as a package, or compiled and run. A package file (extension `apec`) is run. Nothing else is
opened. The first thing that goes wrong ends it with a message on the error stream.
-/

namespace ExprMachine.Cli

/-- How the program ends: what it writes to its two streams and its exit code. -/
structure Report where
  stdout : String := ""
  stderr : String := ""
  code : Nat := 0
deriving DecidableEq, Repr

/-- What to do next. A file that cannot be read or written comes with the reason in words. -/
inductive Action where
  | finish (report : Report)
  /-- A conversation on the standard input. -/
  | converse
  | read (path : String) (next : Except String (List UInt8) → Action)
  | write (path : String) (bytes : List UInt8) (next : Except String Unit → Action)

namespace Report

/-- A success that wrote `text`. -/
def success (text : String) : Report := { stdout := text }

/-- A failure with a message, behind what was already written. -/
def failureAfter (written message : String) : Report :=
  { stdout := written, stderr := message ++ "\n", code := 1 }

/-- A failure with a message. -/
def failure (message : String) : Report := failureAfter "" message

/-- How the program ends after a conversation. -/
def ofTranscript (transcript : Repl.Transcript) : Report :=
  if transcript.broken then failureAfter transcript.output ("I/O error: " ++ Text.notUtf8)
  else success transcript.output

end Report

/-- Runs a package, after the views of it that were asked for. -/
def runPackage (options : Options) (package : Package) : Report :=
  let views :=
    (if options.listing then package.listing else "")
      ++ (if options.stats then package.statistics else "")
  match package.eval {} with
  | .ok none => .success views
  | .ok (some value) => .success (views ++ value.inspect ++ "\n")
  | .error error => .failureAfter views error.message

/-- Writes a package next to its source file. -/
def emitPackage (path : String) (package : Package) : Action :=
  let target := Path.withExtension path "apec"
  match package.toBytes with
  | .error error => .finish (.failure ("Failed to encode bytecode: " ++ error.message))
  | .ok bytes =>
    .write target bytes fun
      | .error reason => .finish (.failure ("Failed to write '" ++ target ++ "': " ++ reason))
      | .ok () => .finish (.success ("wrote " ++ target ++ "\n"))

/-- What is done with a source text. -/
def processSource (options : Options) (path source : String) : Action :=
  if options.tokens then
    let style : Token.DumpStyle := { color := !options.noColor, pretty := options.pretty }
    .finish (.success (style.dump (.ofSource source)))
  else
    match parseSource source with
    | .error error => .finish (.failure error.message)
    | .ok program =>
      if options.ast then .finish (.success (program.render ++ "\n"))
      else
        match compileProgram program with
        | .error error => .finish (.failure error.message)
        | .ok package =>
          if options.emit then emitPackage path package
          else .finish (runPackage options package)

/-- What is done with a file. -/
def processFile (options : Options) (path : String) : Action :=
  match Path.extension? path with
  | some "ape" =>
    .read path fun contents =>
      match contents.bind fun bytes => (Text.ofUtf8? bytes).elim (.error Text.notUtf8) .ok with
      | .error reason => .finish (.failure ("Failed to read '" ++ path ++ "': " ++ reason))
      | .ok source => processSource options path source
  | some "apec" =>
    .read path fun contents =>
      match contents with
      | .error reason => .finish (.failure ("Failed to read '" ++ path ++ "': " ++ reason))
      | .ok bytes =>
        match Package.ofBytes bytes with
        | .error error =>
          .finish (.failure ("Invalid bytecode file '" ++ path ++ "': " ++ error.message))
        | .ok package => .finish (runPackage options package)
  | _ => .finish (.failure ("Error: expected a .ape or .apec file, got " ++ path))

/-- What the program does with its arguments. -/
def Action.ofArgs (args : List String) : Action :=
  match Command.ofArgs args with
  | .help => .finish (.success usage)
  | .incomplete => .finish { stdout := usage, code := 1 }
  | .converse => .converse
  | .file options path => processFile options path

end ExprMachine.Cli
