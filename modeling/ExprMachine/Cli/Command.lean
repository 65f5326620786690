/-!
# What the command line asks for

Options may stand anywhere, and unknown ones are passed over. The first argument that does not start
with a dash is the file; further ones are passed over too. Asking for help wins over everything.
-/

namespace ExprMachine.Cli

/-- The options that a file is treated with. -/
structure Options where
  /-- Only list the tokens. -/
  tokens : Bool := false
  noColor : Bool := false
  pretty : Bool := false
  /-- Only print the program. -/
  ast : Bool := false
  /-- List the package before it is run. -/
  listing : Bool := false
  /-- Print the package's statistics before it is run. -/
  stats : Bool := false
  /-- Write the package to a file instead of running it. -/
  emit : Bool := false

/-- What the command line asks for. -/
inductive Command where
  | help
  /-- Options without a file: the usage is shown, as a failure. -/
  | incomplete
  /-- No arguments at all: a conversation. -/
  | converse
  | file (options : Options) (path : String)

/-- The command of some arguments. -/
def Command.ofArgs (args : List String) : Command :=
  if args.contains "--help" || args.contains "-h" then help
  else
    match args.find? fun arg => !arg.startsWith "-" with
    | some path =>
      file
        { tokens := args.contains "--tokens"
          noColor := args.contains "--no-color"
          pretty := args.contains "--pretty"
          ast := args.contains "--ast"
          listing := args.contains "--bc" || args.contains "--bytecode"
          stats := args.contains "--stats"
          emit := args.contains "--emit" } path
    | none => if args.isEmpty then converse else incomplete

/-- How the program is called, line by line. -/
def usageLines : List String :=
  ["APE - a small expression language with a bytecode VM",
    "",
    "Usage:",
    "  ape                        Start interactive REPL",
    "  ape <file.ape>             Compile and run a program",
    "  ape <file.apec>            Run a compiled bytecode file",
    "  ape --tokens <file.ape>    Show tokens only (--no-color, --pretty)",
    "  ape --ast <file.ape>       Print the parsed program",
    "  ape --bc <file>            Print bytecode and constants, then run",
    "  ape --stats <file>         Print bytecode statistics, then run",
    "  ape --emit <file.ape>      Write <file>.apec instead of running",
    "  ape --help, -h             Show this help",
    "",
    "Set APE_LOG=debug (or trace) for VM and compiler logging."]

/-- How the program is called. -/
def usage : String := String.join (usageLines.map (· ++ "\n"))

end ExprMachine.Cli
