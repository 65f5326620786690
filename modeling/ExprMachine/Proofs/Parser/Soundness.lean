import ExprMachine.Parser.Program
import ExprMachine.Proofs.Parser.Clean
import ExprMachine.Proofs.Parser.Derivation
import ExprMachine.Proofs.Parser.Success
import Mathlib

/-!
# What is read is derived

A text that is read without a report is a derivation of the program it gave, token by token: the
parser neither passes over a token nor makes one up. Each function of the grammar owes that for the
construct it reads, and the theorems below call each other the way the functions do.

The converse of a report is what makes it useful. A construct that gives no node has reported
something, and reports are never taken back, so where nothing was reported nothing was dropped.
-/

namespace ExprMachine

open Phrase

/-! ## Rules of the grammar in the order of reading -/

/-- An item and a comma in front of what may follow them. -/
theorem Phrase.TrailingComma.cons {α : Type} {Item : Phrase α} {a : α} {as : List α} {c : Token}
    {ts ts' rest : List Token} (h : Item ts a (c :: ts')) (hc : c.kind = .comma)
    (hs : Possibly (TrailingComma (CommaSeparated Item)) ts' as rest) :
    TrailingComma (CommaSeparated Item) ts (a :: as) rest := by
  cases hs with
  | none => exact .trailing (.last h) hc
  | some hs =>
    cases hs with
    | without hs => exact .without (.more h hc hs)
    | trailing hs hc' => exact .trailing (.more h hc hs) hc'

theorem semicolons_dropWhile (ts : List Token) :
    Semicolons ts (ts.dropWhile fun token => token.kind = .semicolon) := by
  refine ⟨ts.takeWhile fun token => token.kind = .semicolon, ?_, ?_⟩
  · exact List.takeWhile_append_dropWhile.symm
  · intro t ht
    have h := List.all_eq_true.mp (List.all_takeWhile (p := fun token : Token =>
      decide (token.kind = .semicolon)) (l := ts)) t ht
    exact of_decide_eq_true h

/-- What a continuation begins with. -/
theorem Continuation.ofKind?_of_above? {level : Precedence} {kind : Token.Kind}
    {continuation : Continuation} (h : above? level kind = some continuation) :
    ofKind? kind = some continuation :=
  (Option.filter_eq_some_iff.mp h).1

theorem Continuation.kind_of_ofKind? {kind : Token.Kind} {continuation : Continuation}
    (h : ofKind? kind = some continuation) :
    match continuation with
    | .binary op => BinaryOp.ofKind? kind = some op
    | .call => kind = .leftParen
    | .index => kind = .leftBracket := by
  unfold ofKind? at h
  split at h
  · cases h
    rfl
  · cases h
    rfl
  · obtain ⟨op, hop, rfl⟩ := Option.map_eq_some_iff.mp h
    exact hop

namespace Parser

theorem closed_clean {α : Type} (value : α) (ts : List Token) :
    (closed (some value) ts).CleanSome fun v rest => v = value ∧ Semicolons ts rest :=
  fun _ => ⟨value, rfl, rfl, semicolons_dropWhile ts⟩

theorem afterItem_clean (eof : Position) (collection : Collection) (close : Token.Kind)
    (ts : List Token) :
    (afterItem eof collection close ts).Clean fun more rest =>
      ∃ c, ts = c :: rest ∧ c.kind = if more then .comma else close := by
  unfold afterItem
  split
  · next rest hlt hcomma =>
    obtain ⟨c, hc, hts⟩ := eq_cons_of_take? hcomma
    exact Parsed.Clean.weaken (Parsed.clean_done ⟨c, hts, hc⟩)
  · split
    · next rest hlt hclose =>
      obtain ⟨c, hc, hts⟩ := eq_cons_of_take? hclose
      exact Parsed.Clean.weaken (Parsed.clean_done ⟨c, hts, hc⟩)
    · exact Parsed.clean_report

theorem integerLiteral_clean {t : Token} (ts : List Token) (h : t.kind = .integer) :
    (integerLiteral t ts).CleanSome fun e rest => e.DerivedBy (t :: ts) rest := by
  unfold integerLiteral
  split
  · next value hvalue => exact Parsed.cleanSome_done (.integer h hvalue)
  · exact Parsed.clean_report

theorem moreParams_clean (eof : Position) (ts : List Token) :
    (moreParams eof ts).CleanSome fun names rest =>
      ∃ c, c.kind = .rightParen ∧ CommaSeparated Identifier.DerivedBy ts names (c :: rest) := by
  rw [moreParams]
  refine (expect_clean eof .identifier ts).andThen ?_
  rintro t rest hle ⟨ht, rfl⟩
  split
  · next rest' hlt hcomma =>
    obtain ⟨c, hc, rfl⟩ := eq_cons_of_take? hcomma
    refine Parsed.CleanSome.weaken (Parsed.CleanSome.mapSome ?_)
    refine (moreParams_clean eof rest').mono ?_
    rintro names last ⟨p, hp, hnames⟩
    exact ⟨p, hp, .more (.intro ht) hc hnames⟩
  · refine (expect_clean eof .rightParen rest).andThen ?_
    rintro p last _ ⟨hp, rfl⟩
    exact Parsed.cleanSome_done ⟨p, hp, .last (.intro ht)⟩
termination_by ts.length

theorem params_clean (eof : Position) (ts : List Token) :
    (params eof ts).CleanSome fun names rest => ∃ c, c.kind = .rightParen ∧
      Possibly (CommaSeparated Identifier.DerivedBy) ts names (c :: rest) := by
  unfold params
  split
  · next rest hlt hclose =>
    obtain ⟨c, hc, rfl⟩ := eq_cons_of_take? hclose
    exact Parsed.CleanSome.weaken (Parsed.cleanSome_done ⟨c, hc, .none _⟩)
  · refine (moreParams_clean eof ts).mono ?_
    rintro names rest ⟨c, hc, hnames⟩
    exact ⟨c, hc, .some hnames⟩

/-! ## Statements one behind the other -/

/-- Where the statements of a block or of a program end. -/
def StatementsDerivedBy (inBlock : Bool) (ts : List Token) (stmts : List Stmt)
    (rest : List Token) : Prop :=
  (inBlock ∧ ∃ c, c.kind = .rightBrace ∧ Sequence Stmt.DerivedBy ts stmts (c :: rest)) ∨
    (rest = [] ∧ Sequence Stmt.DerivedBy ts stmts [])

theorem StatementsDerivedBy.cons {inBlock : Bool} {ts ts' rest : List Token} {stmt : Stmt}
    {stmts : List Stmt} (h : stmt.DerivedBy ts ts')
    (hs : StatementsDerivedBy inBlock ts' stmts rest) :
    StatementsDerivedBy inBlock ts (stmt :: stmts) rest := by
  rcases hs with ⟨hin, c, hc, hs⟩ | ⟨hrest, hs⟩
  · exact .inl ⟨hin, c, hc, .cons h hs⟩
  · exact .inr ⟨hrest, .cons h hs⟩

/-! ## The functions of the grammar -/

mutual

theorem expr_clean (eof : Position) (level : Precedence) (t : Token) (ts : List Token) :
    (expr eof level t ts).CleanSome fun e rest => e.DerivedBy (t :: ts) rest := by
  rw [expr]
  refine (operand_clean eof t ts).andThen ?_
  intro left rest hle hleft
  exact continuations_clean eof level hleft
termination_by (ts.length + 1, 1)

theorem exprAt_clean (eof : Position) (level : Precedence) (ts : List Token) :
    (exprAt eof level ts).CleanSome fun e rest => e.DerivedBy ts rest := by
  cases ts with
  | nil =>
      rw [exprAt]
      exact Parsed.clean_report
  | cons t rest =>
      rw [exprAt]
      exact (expr_clean eof level t rest).weaken
termination_by (ts.length, 2)

theorem operand_clean (eof : Position) (t : Token) (ts : List Token) :
    (operand eof t ts).CleanSome fun e rest => e.DerivedBy (t :: ts) rest := by
  rw [operand]
  cases h : t.kind with
  | identifier => exact Parsed.cleanSome_done (.identifier (.intro h))
  | integer => exact integerLiteral_clean ts h
  | string => exact Parsed.cleanSome_done (.string h)
  | trueWord | falseWord => exact Parsed.cleanSome_done (.bool h)
  | bang | minus =>
      refine (exprAt_clean eof .unary ts).andThen ?_
      intro right rest _ hright
      exact Parsed.cleanSome_done (.unary (by rw [h]; rfl) hright)
  | leftParen =>
      refine (exprAt_clean eof .lowest ts).andThen ?_
      intro inner rest _ hinner
      refine (expect_clean eof .rightParen rest).andThen ?_
      rintro c rest' _ ⟨hc, rfl⟩
      exact Parsed.cleanSome_done (.group (.intro h hinner hc))
  | leftBracket =>
      refine Parsed.Clean.mapSome ((elements_clean eof ts).mono ?_)
      rintro items rest ⟨c, hc, hitems⟩
      exact .array (.intro h hitems hc)
  | leftObject =>
      refine Parsed.Clean.mapSome ((pairs_clean eof ts).mono ?_)
      rintro items rest ⟨c, hc, hitems⟩
      exact .object (.intro h hitems hc)
  | ifWord =>
      refine (condition_clean eof ts).andThen ?_
      rintro ⟨test, brace⟩ rest hle ⟨hbrace, htest⟩
      refine (block_clean eof rest hbrace).bind ?_
      intro consequence rest' hle' hblock
      split
      · exact Parsed.cleanSome_done (.branch h htest hblock)
      · next rest'' hlt helse =>
        obtain ⟨e, he, rfl⟩ := eq_cons_of_take? helse
        refine Parsed.CleanSome.weaken ((expect_clean eof .leftBrace rest'').andThen ?_)
        rintro brace' last hle'' ⟨hbrace', rfl⟩
        refine Parsed.Clean.mapSome ((block_clean eof last hbrace').mono ?_)
        intro alternative last' halternative
        exact .branchElse h htest hblock he halternative
  | forWord =>
      refine (condition_clean eof ts).andThen ?_
      rintro ⟨test, brace⟩ rest hle ⟨hbrace, htest⟩
      refine Parsed.Clean.mapSome ((block_clean eof rest hbrace).mono ?_)
      intro body rest' hbody
      exact .loop h htest hbody
  | fnWord =>
      refine (expect_clean eof .leftParen ts).andThen ?_
      rintro o rest hle ⟨ho, rfl⟩
      refine (params_clean eof rest).andThen ?_
      rintro names rest' hle' ⟨c, hc, hnames⟩
      refine (expect_clean eof .leftBrace rest').andThen ?_
      rintro brace rest'' hle'' ⟨hbrace, rfl⟩
      refine Parsed.Clean.mapSome ((block_clean eof rest'' hbrace).mono ?_)
      intro body last hbody
      exact .function h (.intro ho hnames hc) hbody
  | _ => exact Parsed.clean_report
termination_by (ts.length + 1, 0)

theorem continuations_clean (eof : Position) (level : Precedence) {left : Expr}
    {start ts : List Token} : left.DerivedBy start ts →
    (continuations eof level left ts).CleanSome fun e rest => e.DerivedBy start rest := by
  -- the derivation begins where that of the left operand does, and grows at its end
  cases ts with
  | nil =>
      intro h
      rw [continuations]
      exact Parsed.cleanSome_done h
  | cons t rest =>
      intro h
      rw [continuations]
      split
      · exact Parsed.cleanSome_done h
      · next op hop =>
        have hkind := Continuation.kind_of_ofKind? (Continuation.ofKind?_of_above? hop)
        refine Parsed.CleanSome.weaken ((exprAt_clean eof op.precedence rest).andThen ?_)
        intro right rest' hle hright
        exact continuations_clean eof level (.binary h hkind hright)
      · next hcall =>
        have hkind := Continuation.kind_of_ofKind? (Continuation.ofKind?_of_above? hcall)
        refine Parsed.CleanSome.weaken ((arguments_clean eof rest).andThen ?_)
        rintro items rest' hle ⟨c, hc, hitems⟩
        exact continuations_clean eof level (.call h (.intro hkind hitems hc))
      · next hindex =>
        have hkind := Continuation.kind_of_ofKind? (Continuation.ofKind?_of_above? hindex)
        refine Parsed.CleanSome.weaken ((exprAt_clean eof .lowest rest).andThen ?_)
        intro place rest' hle hplace
        refine (expect_clean eof .rightBracket rest').andThen ?_
        rintro c rest'' hle' ⟨hc, rfl⟩
        exact continuations_clean eof level (.index h (.intro hkind hplace hc))
termination_by (ts.length, 0)

theorem arguments_clean (eof : Position) (ts : List Token) :
    (arguments eof ts).CleanSome fun items rest => ∃ c, c.kind = .rightParen ∧
      Possibly (CommaSeparated Expr.DerivedBy) ts items (c :: rest) := by
  rw [arguments]
  split
  · next rest hlt hclose =>
    obtain ⟨c, hc, rfl⟩ := eq_cons_of_take? hclose
    exact Parsed.CleanSome.weaken (Parsed.cleanSome_done ⟨c, hc, .none _⟩)
  · refine (moreArguments_clean eof ts).mono ?_
    rintro items rest ⟨c, hc, hitems⟩
    exact ⟨c, hc, .some hitems⟩
termination_by (ts.length, 4)

theorem moreArguments_clean (eof : Position) (ts : List Token) :
    (moreArguments eof ts).CleanSome fun items rest =>
      ∃ c, c.kind = .rightParen ∧ CommaSeparated Expr.DerivedBy ts items (c :: rest) := by
  rw [moreArguments]
  refine (exprAt_clean eof .lowest ts).andThen ?_
  intro item rest hle hitem
  split
  · next rest' hlt hcomma =>
    obtain ⟨c, hc, rfl⟩ := eq_cons_of_take? hcomma
    refine Parsed.CleanSome.weaken (Parsed.CleanSome.mapSome ?_)
    refine (moreArguments_clean eof rest').mono ?_
    rintro items last ⟨p, hp, hitems⟩
    exact ⟨p, hp, .more hitem hc hitems⟩
  · refine (expect_clean eof .rightParen rest).andThen ?_
    rintro p last _ ⟨hp, rfl⟩
    exact Parsed.cleanSome_done ⟨p, hp, .last hitem⟩
termination_by (ts.length, 3)

theorem elements_clean (eof : Position) (ts : List Token) :
    (elements eof ts).Clean fun items rest => ∃ c, c.kind = .rightBracket ∧
      Possibly (TrailingComma (CommaSeparated Expr.DerivedBy)) ts items (c :: rest) := by
  cases ts with
  | nil =>
      rw [elements]
      exact Parsed.clean_report
  | cons t rest =>
      rw [elements]
      split
      · next hclose => exact Parsed.Clean.weaken (Parsed.clean_done ⟨t, hclose, .none _⟩)
      · refine Parsed.Clean.weaken ((expr_clean eof .lowest t rest).bind ?_)
        rintro _ rest' hle ⟨item, rfl, hitem⟩
        refine (afterItem_clean eof .array .rightBracket rest').bind ?_
        rintro more rest'' hle' ⟨c, rfl, hc⟩
        cases more with
        | true =>
          refine Parsed.Clean.map ((elements_clean eof rest'').mono ?_)
          rintro items last ⟨b, hb, hitems⟩
          exact ⟨b, hb, .some (TrailingComma.cons hitem hc hitems)⟩
        | false => exact Parsed.clean_done ⟨c, hc, .some (.without (.last hitem))⟩
termination_by (ts.length, 3)

theorem pairs_clean (eof : Position) (ts : List Token) :
    (pairs eof ts).Clean fun items rest => ∃ c, c.kind = .rightObject ∧
      Possibly (TrailingComma (CommaSeparated Pair.DerivedBy)) ts items (c :: rest) := by
  cases ts with
  | nil =>
      rw [pairs]
      exact Parsed.clean_report
  | cons t rest =>
      rw [pairs]
      split
      · next hclose => exact Parsed.Clean.weaken (Parsed.clean_done ⟨t, hclose, .none _⟩)
      · refine Parsed.Clean.weaken ((expr_clean eof .lowest t rest).bind ?_)
        rintro _ rest' hle ⟨key, rfl, hkey⟩
        dsimp only
        split
        · exact Parsed.clean_report
        · next ts' hlt hcolon =>
          obtain ⟨colon, hcol, rfl⟩ := eq_cons_of_take? hcolon
          refine Parsed.Clean.weaken ((exprAt_clean eof .lowest ts').bind ?_)
          rintro _ rest'' hle' ⟨value, rfl, hvalue⟩
          have hpair : Pair.DerivedBy (t :: rest) (key, value) rest'' := .intro hkey hcol hvalue
          refine (afterItem_clean eof .object .rightObject rest'').bind ?_
          rintro more last hle'' ⟨c, rfl, hc⟩
          cases more with
          | true =>
            refine Parsed.Clean.map ((pairs_clean eof last).mono ?_)
            rintro items last' ⟨b, hb, hitems⟩
            exact ⟨b, hb, .some (TrailingComma.cons hpair hc hitems)⟩
          | false => exact Parsed.clean_done ⟨c, hc, .some (.without (.last hpair))⟩
termination_by (ts.length, 3)

theorem condition_clean (eof : Position) (ts : List Token) :
    (condition eof ts).CleanSome fun read rest => read.2.kind = .leftBrace ∧
      Enclosed Expr.DerivedBy .leftParen .rightParen ts read.1 (read.2 :: rest) := by
  rw [condition]
  refine (expect_clean eof .leftParen ts).andThen ?_
  rintro o rest hle ⟨ho, rfl⟩
  refine (exprAt_clean eof .lowest rest).andThen ?_
  intro test rest' _ htest
  refine (expect_clean eof .rightParen rest').andThen ?_
  rintro c rest'' _ ⟨hc, rfl⟩
  refine (expect_clean eof .leftBrace rest'').andThen ?_
  rintro brace last _ ⟨hbrace, rfl⟩
  exact Parsed.cleanSome_done ⟨hbrace, .intro ho htest hc⟩
termination_by (ts.length, 3)

theorem block_clean (eof : Position) {brace : Token} (ts : List Token)
    (h : brace.kind = .leftBrace) :
    (block eof brace ts).Clean fun body rest => body.DerivedBy (brace :: ts) rest := by
  rw [block]
  refine Parsed.Clean.map ((statements_clean eof true ts).mono ?_)
  rintro stmts rest (⟨-, c, hc, hs⟩ | ⟨rfl, hs⟩)
  · exact .closed h hs hc
  · -- at the end of the text nothing is reported if the brace is missing
    exact .unclosed h hs
termination_by (ts.length, 4)

theorem statement_clean (eof : Position) (t : Token) (ts : List Token) :
    (statement eof t ts).CleanSome fun stmt rest => stmt.DerivedBy (t :: ts) rest := by
  rw [statement]
  split
  · next h =>
    refine (expect_clean eof .identifier ts).andThen ?_
    rintro name rest hle ⟨hname, rfl⟩
    refine (expect_clean eof .assign rest).andThen ?_
    rintro a rest' hle' ⟨ha, rfl⟩
    refine (exprAt_clean eof .lowest rest').andThen ?_
    intro value rest'' hle'' hvalue
    refine (closed_clean _ rest'').mono ?_
    rintro _ last ⟨rfl, hs⟩
    exact .binding h (.intro hname) ha hvalue hs
  · next h =>
    split
    · refine (closed_clean _ ts).mono ?_
      rintro _ rest ⟨rfl, hs⟩
      exact .exit h hs
    · refine (exprAt_clean eof .lowest ts).andThen ?_
      intro value rest hle hvalue
      refine (closed_clean _ rest).mono ?_
      rintro _ last ⟨rfl, hs⟩
      exact .exitWith h hvalue hs
  · next h =>
    refine Parsed.Clean.mapSome ((block_clean eof ts h).mono ?_)
    intro body rest hbody
    exact .block hbody
  · refine (expr_clean eof .lowest t ts).andThen ?_
    intro value rest hle hvalue
    split
    · next rest' hlt hsemicolon =>
      obtain ⟨s, hs, rfl⟩ := eq_cons_of_take? hsemicolon
      exact Parsed.CleanSome.weaken (Parsed.cleanSome_done (.expressionClosed hvalue hs))
    · exact Parsed.cleanSome_done (.expression hvalue)
termination_by (ts.length + 1, 2)

theorem statements_clean (eof : Position) (inBlock : Bool) (ts : List Token) :
    (statements eof inBlock ts [] []).Clean (StatementsDerivedBy inBlock ts) := by
  cases ts with
  | nil =>
      rw [statements]
      exact Parsed.clean_done (.inr ⟨rfl, .nil _⟩)
  | cons t rest =>
      by_cases hclose : inBlock ∧ t.kind = .rightBrace
      · obtain ⟨rfl, hkind⟩ := hclose
        unfold Parsed.Clean
        rw [statements_close hkind]
        exact fun _ => .inl ⟨rfl, t, hkind, .nil _⟩
      · unfold Parsed.Clean
        rw [statements_cons hclose]
        intro hd
        -- a clean list has a clean first statement, so there is a node for it
        obtain ⟨hfirst, hothers⟩ := List.append_eq_nil_iff.mp hd
        have hlt : (statement eof t rest).outcome.rest.length < rest.length + 1 :=
          Nat.lt_succ_of_le (statement eof t rest).rest_le
        obtain ⟨stmt, hstmt, hderived⟩ := statement_clean eof t rest hfirst
        have hs := statements_clean eof inBlock (statement eof t rest).outcome.rest hothers
        dsimp only
        rw [hstmt]
        exact hs.cons hderived
termination_by (ts.length, 3)

end

end Parser

/-! ## Whole texts -/

/--
**No token is lost and none is made up.** The tokens of a text that is read without a report are,
all of them and in order, a derivation of the program that was read. A statement or an expression
that gives no node has reported something.
-/
theorem derivedBy_of_no_report (source : String) :
    ((ParsedProgram.ofSource source).diagnostics = [] →
      (ParsedProgram.ofSource source).program.DerivedBy (TokenStream.ofSource source).tokens) ∧
    (∀ (eof : Position) (t : Token) (ts : List Token),
      (Parser.statement eof t ts).outcome.value = none →
      (Parser.statement eof t ts).outcome.diagnostics ≠ []) ∧
    (∀ (eof : Position) (level : Precedence) (t : Token) (ts : List Token),
      (Parser.expr eof level t ts).outcome.value = none →
      (Parser.expr eof level t ts).outcome.diagnostics ≠ []) := by
  refine ⟨?_, ?_, ?_⟩
  · intro h
    rcases Parser.statements_clean _ false (TokenStream.ofSource source).tokens h with
      ⟨hin, -⟩ | ⟨-, hs⟩
    · cases hin
    · exact hs
  · intro eof t ts hnone
    exact (Parser.statement_clean eof t ts).diagnostics_ne_nil hnone
  · intro eof level t ts hnone
    exact (Parser.expr_clean eof level t ts).diagnostics_ne_nil hnone

/-- A text with a trailing comma, a semicolon too many and a block that is still open. -/
theorem derivedBy_of_no_report_unclosed :
    (ParsedProgram.ofSource "let a = [1, 2,];; if (a) \x7b a[0]").diagnostics = [] ∧
    (ParsedProgram.ofSource "let a = [1, 2,];; if (a) \x7b a[0]").program.DerivedBy
      (TokenStream.ofSource "let a = [1, 2,];; if (a) \x7b a[0]").tokens := by
  have h : (ParsedProgram.ofSource "let a = [1, 2,];; if (a) \x7b a[0]").diagnostics = [] := by cbv
  exact ⟨h, (derivedBy_of_no_report _).1 h⟩

end ExprMachine
