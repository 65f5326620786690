import ExprMachine.Proofs.Parser.RoundTrip
import ExprMachine.Proofs.Token.Joined

/-!
# What is written behind a program

A program that ends in an expression can be written down and closed with a semicolon, and any text
can stand behind that: it is read as if it stood alone. The canonical text leaves no string and no
comment open (`ReadsAs.closed`), so the tokens of the two texts do not mix, and behind the semicolon
the parser has nothing left to go on with (`statements_terminated`). What it reads from there on
is what it reads from the same tokens at their own places, which reading does not look at.
-/

namespace ExprMachine

open ExprMachine.Parser

/-! ## Canonical texts leave nothing open -/

theorem Tiles.spellings_eq {cs : List Char} {tokens : List Token} {isOpen : Bool}
    (h : Tiles [] cs tokens isOpen) : spellings cs = tokens.map Token.spelling :=
  congrArg (fun stream => stream.tokens.map Token.spelling) (h.readAll [])

/-- A string or a comment that is left open takes in what is written behind it, and no token is
made of that. -/
theorem Tiles.append_open {front cs more : List Char} {tokens : List Token}
    (h : Tiles front cs tokens true) (hmore : ∀ d ∈ more.head?, d = '#' ∨ Lexeme.isBlank d)
    (hcomment : '#' ∉ more) (hquote : '"' ∉ more) :
    ∃ tokens', Tiles front (cs ++ more) tokens' true ∧ tokens'.length = tokens.length := by
  generalize hopen : true = isOpen at h
  induction h with
  | ending => cases hopen
  | @openComment front trivia body htrivia hbody =>
      have hbody' : '#' ∉ body ++ more := by simp [hbody, hcomment]
      rw [List.append_assoc, List.cons_append]
      exact ⟨[], .openComment htrivia hbody', rfl⟩
  | @openString front trivia body htrivia hbody =>
      have hbody' : '"' ∉ body ++ more := by simp [hbody, hquote]
      rw [List.append_assoc, List.cons_append]
      exact ⟨_, .openString htrivia hbody', rfl⟩
  | @lexeme front trivia extent literal rest kind tokens isOpen htrivia hlexeme hends hrest ih =>
      obtain ⟨tokens', htiles, hlength⟩ := ih hopen
      rw [List.append_assoc]
      exact ⟨_, .lexeme htrivia hlexeme (hends.append hmore) htiles, by simp [hlength]⟩

/-- **A text that keeps its tokens**, whatever is written behind it, leaves nothing open: else a
semicolon behind it would not be read. -/
theorem ReadsAs.closed {text : String} {sp : List Spelling} (h : ReadsAs text sp)
    {tokens : List Token} {isOpen : Bool} (htiles : Tiles [] text.toList tokens isOpen) :
    isOpen = false := by
  by_contra hopen
  rw [Bool.not_eq_false] at hopen
  subst hopen
  have hseparator : ∀ d ∈ [' ', ';'].head?, d = '#' ∨ Lexeme.isBlank d := by
    rintro _ ⟨⟩
    exact .inr rfl
  obtain ⟨tokens', htiles', hlength⟩ := htiles.append_open hseparator (by decide) (by decide)
  have halone := h [] separated_nil
  have hbefore := h [' ', ';'] (separated_cons ' ' [';'])
  rw [List.append_nil, spellings_nil, List.append_nil, htiles.spellings_eq] at halone
  rw [spellings_space, spellings_alone ';', spellings_nil, htiles'.spellings_eq] at hbefore
  have hcount := congrArg List.length hbefore
  rw [← halone, List.length_append, List.length_map, List.length_map, hlength] at hcount
  simp at hcount

/-- The canonical text of a program with a semicolon behind it. -/
theorem Program.readsAs_terminated {program : Program} (h : program.MadeOf Token.Legible) :
    ReadsAs (program.render ++ ";") (program.spelling ++ [.sign ';']) := by
  intro rest _
  have hread := (stmts_readAs program.statements h).spaced (';' :: rest) (separated_cons ';' rest)
  simp only [String.toList_append, String.reduceToList, List.append_assoc, List.cons_append,
    List.nil_append]
  rw [← spellings_alone ';']
  exact hread

/-! ## Reading on behind a semicolon -/

/-- **Statements that end in an expression and a semicolon** are read as they are, and what follows
is read as if it stood alone. -/
theorem statements_terminated {stmts : List Stmt} (hmade : stmtsMadeOf Token.Legible stmts)
    {start : Token} {value : Expr} (hlast : stmts.getLast? = some (.expression start value))
    (eof : Position) {inBlock : Bool} {ts rest : List Token}
    (hs : Spells ts ((stmtSpellings stmts).flatten ++ [.sign ';']) rest) :
    ∃ read, eraseStmts read = eraseStmts stmts ∧
      (statements eof inBlock ts [] []).outcome =
        let others := (statements eof inBlock rest [] []).outcome
        ⟨read ++ others.value, others.rest, others.diagnostics⟩ := by
  induction stmts generalizing ts with
  | nil => cases hlast
  | cons stmt stmts ih =>
      obtain ⟨t, mid, rfl, hstart⟩ : ∃ t mid, ts = t :: mid ∧ startsStmt t.kind := by
        obtain ⟨mid, hfirst, -⟩ := spells_append.mp hs
        exact first_of_stmtSpellings hmade.1 hfirst
      have hfirst : ¬(inBlock ∧ t.kind = .rightBrace) := fun hclose =>
        ne_of_startsStmt hstart (by decide) hclose.2
      cases stmts with
      | nil =>
          -- behind the semicolon nothing is asked of the next token, which may be anything
          obtain rfl := Option.some.inj hlast
          rw [stmtSpellings, List.flatten_cons, List.flatten_nil, List.append_nil] at hs
          obtain ⟨s, hs', hread⟩ :=
            Stmt.expression_terminated hmade.1 (value.readable hmade.1) eof hs
          refine ⟨[s], by rw [eraseStmts, hs']; rfl, ?_⟩
          rw [statements_cons hfirst, hread]
          rfl
      | cons next stmts =>
          rw [stmtSpellings, List.flatten_cons, List.append_assoc] at hs
          obtain ⟨mid', hs, hmore⟩ := spells_append.mp hs
          obtain ⟨mid'', hnext, -⟩ := spells_append.mp hmore
          obtain ⟨t', ts', rfl, hstart'⟩ := first_of_stmtSpellings hmade.2.1 hnext
          have hne : nextKind (t' :: ts') ≠ .semicolon := ne_of_startsStmt hstart' (by decide)
          obtain ⟨s, hs', hread⟩ :=
            stmt.readable hmade.1 eof t mid _ _ (.inl ⟨rfl, hne⟩) hs
          obtain ⟨read, hreads, hothers⟩ := ih hmade.2 hlast hmore
          refine ⟨s :: read, by rw [eraseStmts, hs', hreads]; rfl, ?_⟩
          rw [statements_cons hfirst, hread]
          dsimp only
          rw [hothers]
          rfl

/-- The tokens of a program that ends in an expression and a semicolon, in front of any others. -/
theorem ParsedProgram.ofTokens_terminated {program : Program} (h : program.MadeOf Token.Legible)
    {start : Token} {value : Expr}
    (hlast : program.statements.getLast? = some (.expression start value)) {tokens : List Token}
    (hspelling : tokens.map Token.spelling = program.spelling ++ [.sign ';'])
    (stream : TokenStream) :
    ∃ first, eraseStmts first = eraseStmts program.statements ∧
      ofTokens ⟨tokens ++ stream.tokens, stream.eof⟩ =
        ⟨⟨first ++ (ofTokens stream).program.statements⟩, (ofTokens stream).diagnostics⟩ := by
  have hs : Spells (tokens ++ stream.tokens)
      ((stmtSpellings program.statements).flatten ++ [.sign ';']) stream.tokens :=
    ⟨tokens, rfl, hspelling⟩
  obtain ⟨first, herase, hread⟩ := statements_terminated h hlast stream.eof hs
  refine ⟨first, herase, ?_⟩
  unfold ofTokens
  dsimp only
  rw [hread]

/--
**What follows does not disturb a program.**

A program that was read off some text and ends in an expression is written down, closed with a
semicolon, and followed by any text at all. The whole is read as the statements of the program, up
to places, and behind them those of the text; and it is reported what is reported about the text
alone. What belongs to the text stands as far behind the program as the text does.
-/
theorem ParsedProgram.ofSource_sequel (source text : String) {start : Token} {value : Expr}
    (hlast : (ofSource source).program.statements.getLast? = some (.expression start value)) :
    let front := (ofSource source).program.render ++ "; "
    let shift := (Position.behind front.toList).shift
    ∃ first, eraseStmts first = eraseStmts (ofSource source).program.statements ∧
      ofSource (front ++ text) =
        ⟨⟨first ++ relocateStmts shift (ofSource text).program.statements⟩,
          (ofSource text).diagnostics.map (Diagnostic.relocate shift)⟩ := by
  intro front shift
  have hlegible : (ofSource source).program.MadeOf Token.Legible :=
    (within_ofTokens (.ofSource source) (TokenStream.legible_ofSource source)).1
  have hreads := Program.readsAs_terminated hlegible
  obtain ⟨tokens, isOpen, htiles⟩ :=
    exists_tiles [] ((ofSource source).program.render ++ ";").toList
  obtain rfl := hreads.closed htiles
  -- the lexer finds the canonical tokens and then those of the text, moved
  have hblank : IsTrivia " ".toList := .blank (by decide) .nil
  have hfront : (ofSource source).program.render ++ ";" ++ " " = front := String.append_assoc
  have hstream := TokenStream.ofSource_joined htiles hblank (by decide) text
  rw [hfront] at hstream
  have hspelling := hreads [] separated_nil
  rw [List.append_nil, spellings_nil, List.append_nil, htiles.spellings_eq] at hspelling
  -- the parser reads the program and then what it reads from the moved tokens
  obtain ⟨first, herase, hread⟩ := ofTokens_terminated hlegible hlast hspelling
    ((TokenStream.ofSource text).relocate shift)
  refine ⟨first, herase, ?_⟩
  rw [ofTokens_relocate] at hread
  rw [ofSource, hstream]
  exact hread

/-- What is left of a text with faults, written down in front of a parenthesis that closes nothing
and a string that is not closed. -/
theorem ParsedProgram.ofSource_sequel_open :
    (ofSource "let; x").program.statements.getLast? =
        some (.expression ⟨.identifier, "x", ⟨1, 6⟩⟩ (.identifier ⟨"x", ⟨1, 6⟩⟩)) ∧
      ∃ first, eraseStmts first = eraseStmts (ofSource "let; x").program.statements ∧
        ofSource "x; ) \"" =
          ⟨⟨first ++ [.expression ⟨.string, "", ⟨1, 6⟩⟩ (.string ⟨1, 6⟩ "")]⟩,
            [⟨⟨1, 4⟩, .noExpression .rightParen⟩]⟩ := by
  have hlast : (ofSource "let; x").program.statements.getLast? =
      some (.expression ⟨.identifier, "x", ⟨1, 6⟩⟩ (.identifier ⟨"x", ⟨1, 6⟩⟩)) := by cbv
  have hrender : (ofSource "let; x").program.render = "x" := by cbv
  have htext : ofSource ") \"" =
      ⟨⟨[.expression ⟨.string, "", ⟨1, 3⟩⟩ (.string ⟨1, 3⟩ "")]⟩,
        [⟨⟨1, 1⟩, .noExpression .rightParen⟩]⟩ := by cbv
  obtain ⟨first, herase, hread⟩ := ofSource_sequel "let; x" ") \"" hlast
  rw [hrender, htext] at hread
  exact ⟨hlast, first, herase, hread⟩

end ExprMachine
