import ExprMachine.Pipeline
import ExprMachine.Text.Utf8
import ExprMachine.Value.Inspect

/-!
# Conversations

In a conversation every line of input is a program of its own: it is answered before the next one is
read, and nothing is kept between lines. A prompt is written before each line and once more when the
input has ended. A line that is no text ends the conversation behind its prompt.
-/

namespace ExprMachine.Repl

/-- What is written before each line of input. -/
def prompt : String := ">> "

/-- The answer to one line, its newline included. -/
def respond (line : String) (limits : Limits) : String :=
  match evalSource line limits with
  | .ok none => ""
  | .ok (some value) => value.inspect ++ "\n"
  | .error (.parse diagnostics) =>
    String.join (diagnostics.map fun d => "\t" ++ d.render ++ "\n")
  | .error error => error.message ++ "\n"

/-- The lines of some bytes, each with the newline that ends it, the last one perhaps without. The
beginning of the current line is in `line`, the lines in front of it in `seen`, latest first. -/
def linesFrom (line : List UInt8) (seen : List (List UInt8)) :
    List UInt8 → List (List UInt8)
  | [] => (if line.isEmpty then seen else line.reverse :: seen).reverse
  | b :: rest =>
    if b = 10 then linesFrom [] ((b :: line).reverse :: seen) rest
    else linesFrom (b :: line) seen rest

/-- The lines of some bytes, each with the newline that ends it, the last one perhaps without. -/
def lines (input : List UInt8) : List (List UInt8) := linesFrom [] [] input

/-- What a conversation wrote, and whether a line that is no text ended it. -/
structure Transcript where
  output : String
  broken : Bool

/-- Answers the lines one after the other, behind the output so far. -/
def answer (limits : Limits) (output : String) : List (List UInt8) → Transcript
  | [] => ⟨output ++ prompt, false⟩
  | line :: rest =>
    match Text.ofUtf8? line with
    | none => ⟨output ++ prompt, true⟩
    | some text => answer limits (output ++ prompt ++ respond text limits) rest

/-- The conversation about some input. -/
def converse (input : List UInt8) (limits : Limits) : Transcript :=
  answer limits "" (lines input)

end ExprMachine.Repl
