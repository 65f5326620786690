import ExprMachine.Parser.Program
import ExprMachine.Proofs.Parser.Success

/-!
# Reading passes along the tokens

Whatever a construct looks like and whatever goes wrong in it, all that reading does with the tokens
is to take the next one or to report something at it. It never goes back, and it never reports a
token that it has passed. `Passes` is that much of a reading: the tokens it began at, the tokens it
left, and the reports made on the way.

Every function of the grammar passes along the tokens in this sense, whether it gives a node or not
(`Parsed.Traced`). What follows from the order of the tokens alone is then an induction on `Passes`,
with nothing in it about the grammar.
-/

namespace ExprMachine

open ExprMachine.Parser

/-- `Passes eof ts rest ds`: from `ts` on, tokens are taken one by one up to `rest`, and the reports
`ds` are made on the way, each at the token that is next. -/
inductive Passes (eof : Position) : List Token → List Token → List Diagnostic → Prop where
  | stay (ts : List Token) : Passes eof ts ts []
  | take {t : Token} {ts rest : List Token} {ds : List Diagnostic} :
      Passes eof ts rest ds → Passes eof (t :: ts) rest ds
  | report {ts rest : List Token} {ds : List Diagnostic} (fault : SyntaxFault) :
      Passes eof ts rest ds → Passes eof ts rest (⟨nextPos eof ts, fault⟩ :: ds)

variable {eof : Position}

/-- Two ways in a row. -/
theorem Passes.trans {ts mid rest : List Token} {ds es : List Diagnostic}
    (h : Passes eof ts mid ds) (h' : Passes eof mid rest es) : Passes eof ts rest (ds ++ es) := by
  induction h with
  | stay => exact h'
  | take _ ih => exact .take (ih h')
  | report fault _ ih => exact .report fault (ih h')

/-- Tokens that are left out are passed without a report. -/
theorem passes_dropWhile (p : Token → Bool) (ts : List Token) :
    Passes eof ts (ts.dropWhile p) [] := by
  induction ts with
  | nil => exact .stay []
  | cons t rest ih =>
      rw [List.dropWhile_cons]
      split
      · exact .take ih
      · exact .stay _

/-- The reading passes along the tokens from `ts` on. -/
def Parsed.Along {α : Type} {n : Nat} (eof : Position) (ts : List Token) (p : Parsed α n) : Prop :=
  Passes eof ts p.outcome.rest p.outcome.diagnostics

/-- Outside of a block, statements are read up to the end. -/
theorem Parser.rest_statements (ts : List Token) :
    (statements eof false ts [] []).outcome.rest = [] := by
  cases ts with
  | nil => rw [statements]
  | cons t rest =>
      have hopen : ¬(false = true ∧ t.kind = .rightBrace) := by simp
      have hlt : (statement eof t rest).outcome.rest.length < rest.length + 1 :=
        Nat.lt_succ_of_le (statement eof t rest).rest_le
      rw [statements_cons hopen]
      exact rest_statements _
termination_by ts.length

end ExprMachine
