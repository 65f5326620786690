import ExprMachine.Parser.Grammar
import ExprMachine.Token.Lexer

/-!
# Reading a program

A text is read as a whole: the program holds every statement that was read, and the reports say
what was wrong with the others. Later stages take a program only if nothing was reported.
-/

namespace ExprMachine

/-- A program as far as it could be read, and what was reported about its text. -/
structure ParsedProgram where
  program : Program
  /-- The reports, in the order in which they were made. -/
  diagnostics : List Diagnostic

/-- Reads the statements of a stream of tokens up to its end. -/
def ParsedProgram.ofTokens (stream : TokenStream) : ParsedProgram :=
  let outcome := (Parser.statements stream.eof false stream.tokens [] []).outcome
  ⟨⟨outcome.value⟩, outcome.diagnostics⟩

/-- Reads a source text. -/
def ParsedProgram.ofSource (source : String) : ParsedProgram := ofTokens (.ofSource source)

/-- The program that a text spells, or everything that was reported about the text. -/
def Program.ofSource (source : String) : Except (List Diagnostic) Program :=
  let parsed := ParsedProgram.ofSource source
  if parsed.diagnostics.isEmpty then .ok parsed.program else .error parsed.diagnostics

end ExprMachine
