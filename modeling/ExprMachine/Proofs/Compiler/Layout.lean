import ExprMachine.Pipeline
import ExprMachine.Proofs.Compiler.Postfix
import ExprMachine.Proofs.Parser.Relocation
import ExprMachine.Proofs.Token.Spacing

/-!
# The layout of a text does not matter

Two texts with the same tokens, laid out in different ways, have the same program and the same
reports but for the places, compile to the same package or fail for the same reason, and give the
same value. `placeless` forgets places by moving everything to one and the same: texts that differ
in their layout have the same tokens then, and all that follows from them is the same too. The
compiler has no part in this but that it does not look at places either (`compileStmts_relocate`).
-/

namespace ExprMachine

/-! ## Forgetting places -/

/-- The report without its place. -/
def Diagnostic.placeless (d : Diagnostic) : Diagnostic := d.relocate fun _ => .start

/-- The program without its places. -/
def Program.placeless (program : Program) : Program := program.relocate fun _ => .start

/-- What was read, without the places. -/
def ParsedProgram.placeless (parsed : ParsedProgram) : ParsedProgram :=
  ⟨parsed.program.placeless, parsed.diagnostics.map Diagnostic.placeless⟩

/-- The failure without the places in the reports about the text. -/
def EvalError.placeless : EvalError → EvalError
  | parse diagnostics => .parse (diagnostics.map Diagnostic.placeless)
  | compile error => .compile error
  | check error => .check error
  | runtime fault => .runtime fault

/-- **The same tokens at other places** are read as the same program with the same reports. -/
theorem ParsedProgram.placeless_ofTokens {a b : TokenStream}
    (h : a.tokens.map Token.spelling = b.tokens.map Token.spelling) :
    (ofTokens a).placeless = (ofTokens b).placeless := by
  have hforget : ∀ stream : TokenStream, stream.relocate (fun _ => .start) =
      ⟨(stream.tokens.map Token.spelling).map fun s => ⟨s.1, s.2, .start⟩, .start⟩ := by
    intro stream
    rw [List.map_map]
    rfl
  have hsame : a.relocate (fun _ => .start) = b.relocate (fun _ => .start) := by
    rw [hforget, hforget, h]
  show (ofTokens a).relocate (fun _ => .start) = (ofTokens b).relocate (fun _ => .start)
  rw [← ofTokens_relocate, ← ofTokens_relocate, hsame]

/-! ## Compiling does not look at places -/

namespace Package

variable {f : Position → Position}

theorem compileExpr_relocate (package : Package) (e : Expr) :
    package.compileExpr (e.relocate f) = package.compileExpr e := by
  fun_induction Package.compileExpr package e with
  | case1 package pos digits value => rfl
  | case2 package pos op left right after error hleft ihl =>
      rw [Expr.relocate, compileExpr, ihl, hleft]
  | case3 package pos op left right middle hleft after error hright ihl ihr =>
      rw [Expr.relocate, compileExpr, ihl, hleft]
      dsimp only
      rw [ihr, hright]
  | case4 package pos op left right middle hleft after hright ihl ihr =>
      rw [Expr.relocate, compileExpr, ihl, hleft]
      dsimp only
      rw [ihr, hright]
  | case5 package e hliteral hoperation =>
      cases e with
      | integer pos digits value => exact (hliteral pos digits value rfl).elim
      | binary pos op left right =>
          cases op with
          | arith op => exact (hoperation pos op left right rfl).elim
          | compare op => rfl
      | branch pos condition consequence alternative? =>
          cases alternative? with
          | none => rfl
          | some alternative => rfl
      | _ => rfl

mutual

theorem compileStmt_relocate (package : Package) (stmt : Stmt) :
    package.compileStmt (stmt.relocate f) = package.compileStmt stmt := by
  cases stmt with
  | binding pos name value => rfl
  | exit pos value? =>
      cases value? with
      | none => rfl
      | some value => rfl
  | expression start value => exact compileExpr_relocate package value
  | block body => exact compileBlock_relocate package body

theorem compileBlock_relocate (package : Package) (block : Block) :
    package.compileBlock (block.relocate f) = package.compileBlock block := by
  cases block with
  | mk pos stmts => exact compileStmts_relocate package stmts

theorem compileStmts_relocate (package : Package) (stmts : List Stmt) :
    package.compileStmts (relocateStmts f stmts) = package.compileStmts stmts := by
  cases stmts with
  | nil => rfl
  | cons stmt stmts =>
      rw [relocateStmts, compileStmts, compileStmts, compileStmt_relocate package stmt]
      rcases package.compileStmt stmt with ⟨middle, _ | error⟩
      · exact compileStmts_relocate middle stmts
      · rfl

end

end Package

theorem compileProgram_placeless (program : Program) :
    compileProgram program.placeless = compileProgram program := by
  have hcompile : program.placeless.compile = program.compile := by
    unfold Program.compile Package.compile Program.placeless Program.relocate
    rw [Package.compileStmts_relocate]
  rw [compileProgram, compileProgram, hcompile]

/-! ## Stages behind the reader -/

/-- Texts that are read in the same way but for places are accepted or refused together. -/
theorem parseSource_placeless {a b : String}
    (h : (ParsedProgram.ofSource a).placeless = (ParsedProgram.ofSource b).placeless) :
    ((parseSource a).mapError EvalError.placeless).map Program.placeless
      = ((parseSource b).mapError EvalError.placeless).map Program.placeless := by
  have hforget : ∀ source,
      ((parseSource source).mapError EvalError.placeless).map Program.placeless =
        if (ParsedProgram.ofSource source).placeless.diagnostics.isEmpty then
          .ok (ParsedProgram.ofSource source).placeless.program
        else .error (.parse (ParsedProgram.ofSource source).placeless.diagnostics) := by
    intro source
    -- a report without its place is still a report
    have hempty : (ParsedProgram.ofSource source).placeless.diagnostics.isEmpty
        = (ParsedProgram.ofSource source).diagnostics.isEmpty := List.isEmpty_map
    rw [hempty, parseSource, Program.ofSource]
    by_cases hnone : (ParsedProgram.ofSource source).diagnostics.isEmpty = true
    · rw [if_pos hnone, if_pos hnone]
      rfl
    · rw [if_neg hnone, if_neg hnone]
      rfl
  rw [hforget, hforget, h]

/-- A later stage that does not look at places gives the same for programs that differ in theirs. -/
theorem bind_placeless {β : Type} {k : Program → Except EvalError β}
    (hk : ∀ program : Program, k program.placeless = k program) {r s : Except EvalError Program}
    (h : (r.mapError EvalError.placeless).map Program.placeless
      = (s.mapError EvalError.placeless).map Program.placeless) :
    (r.bind k).mapError EvalError.placeless = (s.bind k).mapError EvalError.placeless := by
  rcases r with e | program
  · rcases s with e' | program'
    · exact congrArg Except.error (Except.error.inj h)
    · cases h
  · rcases s with e' | program'
    · cases h
    · have hsame : program.placeless = program'.placeless := Except.ok.inj h
      show (k program).mapError _ = (k program').mapError _
      rw [← hk program, hsame, hk program']

/--
**The layout does not matter.**

A text that is made from tokens as the lexical rules allow them, with blanks and closed comments
between them, has these tokens and the end. Any two such texts of the same tokens are read as the
same program but for its places, with reports that say the same in the same order; they compile to
the same package or fail with the same error; and a run of the one gives what a run of the other
gives, but for places in reports.
-/
theorem Layout.same_outcome {tokens : List Spelling} (hlegal : ∀ s ∈ tokens, s.IsLegal)
    (a b : Layout tokens) :
    (TokenStream.ofSource a.source).toList.map Token.spelling = tokens ++ [(.eof, "")] ∧
      (ParsedProgram.ofSource a.source).placeless = (ParsedProgram.ofSource b.source).placeless ∧
      (ParsedProgram.ofSource a.source).diagnostics.map Diagnostic.message
        = (ParsedProgram.ofSource b.source).diagnostics.map Diagnostic.message ∧
      ((parseSource a.source).bind compileProgram).mapError EvalError.placeless
        = ((parseSource b.source).bind compileProgram).mapError EvalError.placeless ∧
      ∀ limits, (evalSource a.source limits).mapError EvalError.placeless
        = (evalSource b.source limits).mapError EvalError.placeless := by
  have ha := a.spelling_ofSource hlegal
  have hb := b.spelling_ofSource hlegal
  have hsame : (ParsedProgram.ofSource a.source).placeless
      = (ParsedProgram.ofSource b.source).placeless :=
    ParsedProgram.placeless_ofTokens (ha.trans hb.symm)
  have hparse := parseSource_placeless hsame
  refine ⟨?_, hsame, ?_, bind_placeless compileProgram_placeless hparse, fun limits => ?_⟩
  · rw [TokenStream.toList, List.map_append, ha]
    rfl
  · have hmessages : ∀ parsed : ParsedProgram, parsed.diagnostics.map Diagnostic.message
        = parsed.placeless.diagnostics.map Diagnostic.message := by
      intro parsed
      rw [ParsedProgram.placeless, List.map_map]
      rfl
    rw [hmessages (.ofSource a.source), hsame, ← hmessages (.ofSource b.source)]
  · refine bind_placeless (fun program => ?_) hparse
    rw [compileProgram_placeless]

/-- The tokens of `7 - 2`. -/
def differenceTokens : List Spelling := [(.integer, "7"), (.minus, "-"), (.integer, "2")]

/-- They are laid out on one line. -/
def differenceLine : Layout differenceTokens where
  lead := []
  entries := [((.integer, "7"), [' ']), ((.minus, "-"), [' ']), ((.integer, "2"), [])]
  tokens_eq := rfl
  trivia_lead := .nil
  trivia := by
    have hblank : IsTrivia [' '] := .blank (by decide) .nil
    exact List.forall_mem_cons.mpr ⟨hblank, List.forall_mem_cons.mpr ⟨hblank,
      List.forall_mem_singleton.mpr .nil⟩⟩
  apart := by simp

/-- They are laid out with a comment that holds a quote, and a newline at the end. -/
def differenceComment : Layout differenceTokens where
  lead := ['\t']
  entries := [((.integer, "7"), ['#', '"', '#']), ((.minus, "-"), [' ']),
    ((.integer, "2"), ['\n'])]
  tokens_eq := rfl
  trivia_lead := .blank (by decide) .nil
  trivia := by
    have hcomment : IsTrivia ('#' :: (['"'] ++ '#' :: [])) := .comment (by decide) .nil
    have hblank : IsTrivia [' '] := .blank (by decide) .nil
    have hnewline : IsTrivia ['\n'] := .blank (by decide) .nil
    exact List.forall_mem_cons.mpr ⟨hcomment, List.forall_mem_cons.mpr ⟨hblank,
      List.forall_mem_singleton.mpr hnewline⟩⟩
  apart := by simp

/-- The lexer finds the three tokens, and either text gives what the other does. -/
theorem Layout.same_outcome_difference :
    differenceLine.source = "7 - 2" ∧ differenceComment.source = "\t7#\"#- 2\n" ∧
      (TokenStream.ofSource differenceComment.source).toList.map Token.spelling
        = differenceTokens ++ [(.eof, "")] ∧
      (evalSource differenceComment.source ⟨8, none⟩).mapError EvalError.placeless
        = (evalSource differenceLine.source ⟨8, none⟩).mapError EvalError.placeless := by
  have hlegal : ∀ s ∈ differenceTokens, s.IsLegal := by
    have hseven : Spelling.IsLegal (.integer, "7") :=
      .integer (by decide) (List.all_eq_true.mp (by decide))
    have hminus : Spelling.IsLegal (.minus, "-") := IsLexeme.fixed rfl
    have htwo : Spelling.IsLegal (.integer, "2") :=
      .integer (by decide) (List.all_eq_true.mp (by decide))
    exact List.forall_mem_cons.mpr ⟨hseven, List.forall_mem_cons.mpr ⟨hminus,
      List.forall_mem_singleton.mpr htwo⟩⟩
  obtain ⟨htokens, -, -, -, heval⟩ := Layout.same_outcome hlegal differenceComment differenceLine
  exact ⟨rfl, rfl, htokens, heval ⟨8, none⟩⟩

end ExprMachine
