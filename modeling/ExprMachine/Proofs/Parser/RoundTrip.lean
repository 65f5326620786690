import ExprMachine.Parser.Program
import ExprMachine.Proofs.Parser.Reread

/-!
# Writing a program down and reading it again

The canonical text of a program is cut into the tokens it is meant to have, and these are read as
the program it was written from. Both need no more than that the names, numbers and strings of the
program are legible, and whatever the parser returns is made of legible tokens: the tokens of a
text are, and reading makes none. So writing undoes reading for every program that comes out of a
text, also for what is left of a text with faults.
-/

namespace ExprMachine

/-- What is read from the program's own canonical text. -/
def Program.reread (program : Program) : ParsedProgram := .ofSource program.render

/-- The tokens of a canonical text. -/
theorem Program.spelling_render {program : Program} (h : program.MadeOf Token.Legible) :
    (TokenStream.ofSource program.render).tokens.map Token.spelling = program.spelling := by
  have hread := (stmts_readAs program.statements h).spaced [] separated_nil
  rw [List.append_nil, spellings_nil, List.append_nil] at hread
  rw [TokenStream.spelling_ofSource]
  exact hread

/-- A legible program is read from its canonical text, up to places and without a report. -/
theorem Program.reread_of_legible {program : Program} (h : program.MadeOf Token.Legible) :
    program.reread.diagnostics = [] ∧ program.reread.program.erase = program.erase := by
  have hs : Spells (TokenStream.ofSource program.render).tokens
      (stmtSpellings program.statements).flatten [] :=
    ⟨_, (List.append_nil _).symm, Program.spelling_render h⟩
  -- behind the last statement there is nothing left to read
  have hlast : (Parser.statements (TokenStream.ofSource program.render).eof false [] [] []).outcome
      = ⟨[], [], []⟩ := by
    rw [Parser.statements]
    rfl
  obtain ⟨read, hreads, houtcome⟩ :=
    statements_readable h (stmts_readable program.statements h) _ (by decide) hlast hs
  have hparsed : program.reread = ⟨⟨read⟩, []⟩ := by
    simp only [Program.reread, ParsedProgram.ofSource, ParsedProgram.ofTokens, houtcome]
  rw [hparsed]
  exact ⟨rfl, by rw [Program.erase, hreads]; rfl⟩

/--
**Writing undoes reading.** Whatever the text, and whatever was reported about it: the canonical
text of the program that was read has the tokens of that program and no others, it is read without
a report as the same program up to places, and writing that one down gives the same text.
-/
theorem reread_ofSource (source : String) :
    (TokenStream.ofSource (ParsedProgram.ofSource source).program.render).tokens.map
        Token.spelling = (ParsedProgram.ofSource source).program.spelling ∧
    (ParsedProgram.ofSource source).program.reread.diagnostics = [] ∧
    (ParsedProgram.ofSource source).program.reread.program.erase =
      (ParsedProgram.ofSource source).program.erase ∧
    (ParsedProgram.ofSource source).program.reread.program.render =
      (ParsedProgram.ofSource source).program.render := by
  -- the tokens of any text are legible, and the parser builds the tree from them alone
  have hlegible : (ParsedProgram.ofSource source).program.MadeOf Token.Legible :=
    (ParsedProgram.within_ofTokens (.ofSource source) (TokenStream.legible_ofSource source)).1
  obtain ⟨hclean, herase⟩ := Program.reread_of_legible hlegible
  refine ⟨Program.spelling_render hlegible, hclean, herase, ?_⟩
  rw [← Program.render_erase (Program.reread _).program, herase, Program.render_erase]

end ExprMachine
