import ExprMachine.Proofs.Parser.Routine

/-!
# No more statements than tokens

Every statement of a tree, however deep it lies, stands for a token of its own: the one that it
begins with. For a construct that has been read this says that its statements and the tokens that
are left behind it are no more than the tokens that it was read from. Statements lie in blocks only,
and a block is read behind its brace; so an expression, which has a token of its own too, keeps one
to spare. That is what pays for the statement that consists of it.
-/

namespace ExprMachine

/-! ## Statements of a tree -/

mutual

/-- How many statements there are anywhere in the expression. -/
def Expr.stmtCount : Expr → Nat
  | .identifier _ | .integer .. | .string .. | .bool .. => 0
  | .array _ elements => exprsStmtCount elements
  | .object _ pairs => pairsStmtCount pairs
  | .unary _ _ right => right.stmtCount
  | .binary _ _ left right => left.stmtCount + right.stmtCount
  | .branch _ condition consequence none => condition.stmtCount + consequence.stmtCount
  | .branch _ condition consequence (some alternative) =>
    condition.stmtCount + consequence.stmtCount + alternative.stmtCount
  | .loop _ condition body => condition.stmtCount + body.stmtCount
  | .function _ _ body => body.stmtCount
  | .call _ callee arguments => callee.stmtCount + exprsStmtCount arguments
  | .index _ left index => left.stmtCount + index.stmtCount

/-- The same for a block. -/
def Block.stmtCount : Block → Nat
  | ⟨_, stmts⟩ => stmtsStmtCount stmts

/-- The same for a statement, itself included. -/
def Stmt.stmtCount : Stmt → Nat
  | .binding _ _ value => value.stmtCount + 1
  | .exit _ none => 1
  | .exit _ (some value) => value.stmtCount + 1
  | .expression _ value => value.stmtCount + 1
  | .block body => body.stmtCount + 1

/-- The same for expressions. -/
def exprsStmtCount : List Expr → Nat
  | [] => 0
  | expr :: exprs => expr.stmtCount + exprsStmtCount exprs

/-- The same for the pairs of an object. -/
def pairsStmtCount : List (Expr × Expr) → Nat
  | [] => 0
  | (key, value) :: pairs => key.stmtCount + value.stmtCount + pairsStmtCount pairs

/-- The same for statements. -/
def stmtsStmtCount : List Stmt → Nat
  | [] => 0
  | stmt :: stmts => stmt.stmtCount + stmtsStmtCount stmts

end

/-- The same for a program. -/
def Program.stmtCount (program : Program) : Nat := stmtsStmtCount program.statements

namespace Parser

open Script

/-! ## Where there is a node -/

namespace Script

variable {α β : Type} {eof : Position} {contract : Contract Routine.Node} {here : List Token}

/-- If the script ends with a node, that and the cursor are as `Q` says. -/
def YieldsSome (contract : Contract Routine.Node) (s : Steps (Option α)) (here : List Token)
    (Q : α → List Token → Prop) : Prop :=
  s.Yields contract here fun value? there => ∀ value ∈ value?, Q value there

variable {P Q : α → List Token → Prop}

theorem yieldsSome_done {value : α} (h : Q value here) :
    YieldsSome contract (.done (some value)) here Q := by
  refine yields_done ?_
  rintro _ ⟨⟩
  exact h

theorem yieldsSome_report {d : Diagnostic} :
    YieldsSome contract (.report d (.done none)) here Q := by
  refine yields_report ?_
  rintro _ ⟨⟩

theorem YieldsSome.mono {s : Steps (Option α)} (h : s.YieldsSome contract here P)
    (hPQ : ∀ value there, there.length ≤ here.length → P value there → Q value there) :
    s.YieldsSome contract here Q :=
  Yields.mono h fun _ there hle hP value hvalue => hPQ value there hle (hP value hvalue)

theorem YieldsSome.andThen {s : Steps (Option α)} {go : α → Steps (Option β)}
    {Q : β → List Token → Prop} (h : s.YieldsSome contract here P)
    (hgo : ∀ value there, there.length ≤ here.length → P value there →
      (go value).YieldsSome contract there Q) :
    (s.andThen go).YieldsSome contract here Q := by
  refine Yields.andThen h (fun there _ => ?_) fun value there hle hP => ?_
  · rintro _ ⟨⟩
  · exact hgo value there hle (hP value rfl)

theorem Yields.mapSome {s : Steps α} {f : α → β} {Q : β → List Token → Prop}
    (h : s.Yields contract here fun value there => Q (f value) there) :
    (s.map fun value => some (f value)).YieldsSome contract here Q := by
  refine Yields.map (Yields.mono h fun value there _ hQ => ?_)
  rintro _ ⟨⟩
  exact hQ

theorem YieldsSome.mapSome {s : Steps (Option α)} {f : α → β} {Q : β → List Token → Prop}
    (h : s.YieldsSome contract here fun value there => Q (f value) there) :
    (s.map (Option.map f)).YieldsSome contract here Q := by
  refine Yields.map (Yields.mono h fun value? there _ hQ => ?_)
  cases value? with
  | none => rintro _ ⟨⟩
  | some value =>
      rintro _ ⟨⟩
      exact hQ value rfl

theorem yieldsSome_expectNext {kind : Token.Kind} {go : Token → Steps (Option α)}
    (hgo : ∀ token (there : List Token), 0 < there.length → there.length < here.length →
      (go token).YieldsSome contract there Q) :
    ((expectNext eof kind).andThen go).YieldsSome contract here Q := by
  refine yields_expectNext ?_ hgo
  rintro _ ⟨⟩

end Script

/-! ## What the routines spend -/

/-- The statements read from `here` on and the tokens behind the cursor at `there` are no more than
the tokens from where the construct begins. -/
def Routine.Spends : (routine : Routine) → List Token → routine.Node → List Token → Prop
  | statements _, here, stmts, there => stmtsStmtCount stmts + (there.length - 1) ≤ here.length
  | statement, here, stmt?, there =>
    ∀ stmt ∈ stmt?, stmt.stmtCount + (there.length - 1) ≤ here.length
  | block _, here, body, there => body.stmtCount + (there.length - 1) ≤ here.length
  | expression _, here, expr?, there | operand, here, expr?, there =>
    ∀ expr ∈ expr?, expr.stmtCount + (there.length - 1) < here.length
  | continuations _ left, here, expr?, there =>
    ∀ expr ∈ expr?, expr.stmtCount + (there.length - 1) ≤ left.stmtCount + (here.length - 1)
  | condition, here, found, there =>
    ∀ p ∈ found, p.1.stmtCount + (there.length - 1) ≤ here.length - 1
  | arguments, here, items?, there =>
    ∀ items ∈ items?, exprsStmtCount items + (there.length - 1) ≤ here.length - 1
  | moreArguments, here, items?, there =>
    ∀ items ∈ items?, exprsStmtCount items + (there.length - 1) ≤ here.length
  | elements, here, items, there => exprsStmtCount items + (there.length - 1) ≤ here.length
  | pairs, here, items, there => pairsStmtCount items + (there.length - 1) ≤ here.length
  | semicolons, _, _, _ | params, _, _, _ | moreParams, _, _, _ => True

/-- Every routine spends a token on each statement. -/
def spending : Contract Routine.Node where
  pre _ _ := True
  post routine here node there _ := routine.Spends here node there

namespace Routine

variable {eof : Position} {here : List Token}

theorem run_spends (routine : Routine) :
    (run routine).Yields spending here (routine.Spends here) :=
  yields_run trivial fun _ _ _ _ hpost => hpost

theorem operandText_spends (t : Token) (hpos : 0 < here.length) :
    (operandText eof t).YieldsSome spending here fun expr there =>
      expr.stmtCount + (there.length - 1) < here.length := by
  unfold operandText
  cases t.kind with
  | integer =>
      dsimp only
      cases wordValue? t.literal with
      | none => exact yieldsSome_report
      | some value => exact yieldsSome_done (by simp only [Expr.stmtCount]; omega)
  | bang | minus =>
      refine yields_next fun there hthere => ?_
      refine YieldsSome.andThen (run_spends (expression .unary)) fun right behind _ hright => ?_
      exact yieldsSome_done (by simp only [Expr.stmtCount]; omega)
  | leftParen =>
      refine yields_next fun there hthere => ?_
      refine YieldsSome.andThen (run_spends (expression .lowest)) fun inner behind _ hinner => ?_
      exact yieldsSome_expectNext fun _ ahead _ hlt => yieldsSome_done (by omega)
  | leftBracket =>
      refine yields_next fun there hthere => Yields.mapSome ?_
      refine (run_spends elements).mono fun items behind _ hitems => ?_
      simp only [Spends, Expr.stmtCount] at hitems ⊢
      omega
  | leftObject =>
      refine yields_next fun there hthere => Yields.mapSome ?_
      refine (run_spends pairs).mono fun items behind _ hitems => ?_
      simp only [Spends, Expr.stmtCount] at hitems ⊢
      omega
  | ifWord =>
      refine YieldsSome.andThen (run_spends condition) fun (test, brace) there _ htest => ?_
      dsimp only at htest
      refine yields_next fun mid hmid => ?_
      refine (run_spends (block brace)).bind fun consequence behind _ hblock => ?_
      simp only [Spends] at hblock
      refine yields_ifNext (fun there' _ hlt => ?_) ?_
      · refine yieldsSome_expectNext fun brace' ahead _ hahead => ?_
        refine yields_next fun within hwithin => Yields.mapSome ?_
        refine (run_spends (block brace')).mono fun alternative last _ hblock' => ?_
        simp only [Spends, Expr.stmtCount] at hblock' ⊢
        omega
      · exact yieldsSome_done (by simp only [Expr.stmtCount]; omega)
  | forWord =>
      refine YieldsSome.andThen (run_spends condition) fun (test, brace) there _ htest => ?_
      dsimp only at htest
      refine yields_next fun mid hmid => Yields.mapSome ?_
      refine (run_spends (block brace)).mono fun body behind _ hblock => ?_
      simp only [Spends, Expr.stmtCount] at hblock ⊢
      omega
  | fnWord =>
      refine yieldsSome_expectNext fun _ there _ hlt => ?_
      refine Yields.andThen (run_spends params) (fun _ _ => ?_) fun names behind hbehind _ => ?_
      · rintro _ ⟨⟩
      · refine yieldsSome_expectNext fun brace ahead _ hahead => ?_
        refine yields_next fun within hwithin => Yields.mapSome ?_
        refine (run_spends (block brace)).mono fun body last _ hblock => ?_
        simp only [Spends, Expr.stmtCount] at hblock ⊢
        omega
  | identifier | string | trueWord | falseWord =>
      exact yieldsSome_done (by simp only [Expr.stmtCount]; omega)
  | _ => exact yieldsSome_report

/-- Semicolons behind a statement are not needed to pay for it. -/
theorem semicolons_spends {stmt : Stmt} {room : Nat}
    (h : stmt.stmtCount + (here.length - 1) ≤ room) :
    ((run semicolons).map fun _ => some stmt).YieldsSome spending here fun stmt there =>
      stmt.stmtCount + (there.length - 1) ≤ room := by
  refine Yields.mapSome ((run_spends semicolons).mono fun _ there hle _ => ?_)
  omega

theorem statementText_spends (t : Token) (hpos : 0 < here.length) :
    (statementText eof t).YieldsSome spending here fun stmt there =>
      stmt.stmtCount + (there.length - 1) ≤ here.length := by
  unfold statementText
  cases t.kind with
  | letWord =>
      refine yieldsSome_expectNext fun name there _ hlt => ?_
      refine yieldsSome_expectNext fun _ there' _ hlt' => ?_
      refine yields_next fun mid hmid => ?_
      refine YieldsSome.andThen (run_spends (expression .lowest)) fun value behind _ hvalue => ?_
      exact semicolons_spends (by simp only [Stmt.stmtCount]; omega)
  | returnWord =>
      refine yields_peek (fun _ => ?_) fun _ peek _ => ?_
      · exact semicolons_spends (by simp only [Stmt.stmtCount]; omega)
      · split
        · exact semicolons_spends (by simp only [Stmt.stmtCount]; omega)
        · refine yields_next fun there hthere => ?_
          refine YieldsSome.andThen (run_spends (expression .lowest)) fun value behind _ hvalue => ?_
          exact semicolons_spends (by simp only [Stmt.stmtCount]; omega)
  | leftBrace =>
      refine yields_next fun there hthere => Yields.mapSome ?_
      refine (run_spends (block t)).mono fun body behind _ hblock => ?_
      simp only [Spends, Stmt.stmtCount] at hblock ⊢
      omega
  | _ =>
      -- the expression has kept a token, which is spent on its statement
      refine YieldsSome.andThen (run_spends (expression .lowest)) fun value there _ hvalue => ?_
      refine yields_ifNext (fun there' _ hlt => ?_) ?_
      · exact yieldsSome_done (by simp only [Stmt.stmtCount]; omega)
      · exact yieldsSome_done (by simp only [Stmt.stmtCount]; omega)

theorem stmtsStmtCount_toList (stmt? : Option Stmt) (stmts : List Stmt) :
    stmtsStmtCount (stmt?.toList ++ stmts) =
      stmt?.elim 0 Stmt.stmtCount + stmtsStmtCount stmts := by
  cases stmt? with
  | none => simp
  | some stmt => simp [stmtsStmtCount]

theorem statements_spends (inBlock : Bool) (here : List Token) :
    (text eof (statements inBlock)).Yields spending here ((statements inBlock).Spends here) := by
  refine yields_current (fun hend => ?_) fun t _ hpos => ?_
  · exact yields_done (by simp [Spends, stmtsStmtCount, hend])
  · dsimp only
    split
    · exact yields_done (by simp only [Spends, stmtsStmtCount]; omega)
    · refine (run_spends statement).bind fun stmt? there _ hstmt => ?_
      refine yields_next fun there' hthere => Yields.map ?_
      refine (run_spends (statements inBlock)).mono fun stmts last hle hstmts => ?_
      simp only [Spends, stmtsStmtCount_toList] at hstmts ⊢
      cases stmt? with
      | none =>
          simp only [Option.elim_none]
          omega
      | some stmt =>
          have hfirst := hstmt stmt rfl
          simp only [Option.elim_some]
          omega

theorem continuations_spends (level : Precedence) (left : Expr) (here : List Token) :
    (text eof (continuations level left)).YieldsSome spending here fun expr there =>
      expr.stmtCount + (there.length - 1) ≤ left.stmtCount + (here.length - 1) := by
  refine yields_peek (fun _ => ?_) fun _ t hlength => ?_
  · exact yieldsSome_done (by omega)
  · dsimp only
    cases Continuation.above? level t.kind with
    | none => exact yieldsSome_done (by omega)
    | some c =>
        cases c with
        | binary op =>
            refine yields_next fun there hthere => yields_next fun mid hmid => ?_
            refine YieldsSome.andThen (run_spends (expression op.precedence))
              fun right behind _ hright => ?_
            refine YieldsSome.mono (run_spends (continuations level (.binary t.pos op left right)))
              fun expr last _ hexpr => ?_
            simp only [Expr.stmtCount] at hexpr
            omega
        | call =>
            refine yields_next fun there hthere => ?_
            refine YieldsSome.andThen (run_spends arguments) fun items behind _ hitems => ?_
            refine YieldsSome.mono (run_spends (continuations level (.call t.pos left items)))
              fun expr last _ hexpr => ?_
            simp only [Expr.stmtCount] at hexpr
            omega
        | index =>
            refine yields_next fun there hthere => yields_next fun mid hmid => ?_
            refine YieldsSome.andThen (run_spends (expression .lowest))
              fun place behind _ hplace => ?_
            refine yieldsSome_expectNext fun _ ahead _ hahead => ?_
            refine YieldsSome.mono (run_spends (continuations level (.index t.pos left place)))
              fun expr last _ hexpr => ?_
            simp only [Expr.stmtCount] at hexpr
            omega

theorem elements_spends (here : List Token) :
    (text eof elements).Yields spending here (elements.Spends here) := by
  refine yields_current (fun hend => ?_) fun t _ hpos => ?_
  · exact yields_report (by simp [Spends, exprsStmtCount, hend])
  · dsimp only
    split
    · exact yields_done (by simp only [Spends, exprsStmtCount]; omega)
    · refine (run_spends (expression .lowest)).bind fun item? there hle hitem => ?_
      cases item? with
      -- an element that failed is dropped with whatever was read of it
      | none => exact yields_done (by simp only [Spends, exprsStmtCount]; omega)
      | some item =>
          have hbound := hitem item rfl
          refine yields_behindItem fun more mid hmid => ?_
          cases more with
          | false => exact yields_done (by simp only [Spends, exprsStmtCount]; omega)
          | true =>
              refine yields_next fun ahead hahead => Yields.map ?_
              refine (run_spends elements).mono fun items last _ hitems => ?_
              simp only [Spends, exprsStmtCount] at hitems ⊢
              omega

theorem pairs_spends (here : List Token) :
    (text eof pairs).Yields spending here (pairs.Spends here) := by
  refine yields_current (fun hend => ?_) fun t _ hpos => ?_
  · exact yields_report (by simp [Spends, pairsStmtCount, hend])
  · dsimp only
    split
    · exact yields_done (by simp only [Spends, pairsStmtCount]; omega)
    · refine (run_spends (expression .lowest)).bind fun key? there hle hkey => ?_
      cases key? with
      | none => exact yields_done (by simp only [Spends, pairsStmtCount]; omega)
      | some key =>
          have hbound := hkey key rfl
          refine yields_ifNext (fun there' _ hlt => ?_) (yields_reportNext ?_)
          · refine yields_next fun mid hmid => ?_
            refine (run_spends (expression .lowest)).bind fun value? behind hbehind hvalue => ?_
            cases value? with
            | none => exact yields_done (by simp only [Spends, pairsStmtCount]; omega)
            | some value =>
                have hbound' := hvalue value rfl
                refine yields_behindItem fun more ahead hahead => ?_
                cases more with
                | false => exact yields_done (by simp only [Spends, pairsStmtCount]; omega)
                | true =>
                    refine yields_next fun further hfurther => Yields.map ?_
                    refine (run_spends pairs).mono fun items last _ hitems => ?_
                    simp only [Spends, pairsStmtCount] at hitems ⊢
                    omega
          · simp only [Spends, pairsStmtCount]
            omega

/-- **Every routine spends a token on each statement**, as long as the others do. -/
theorem text_spends (routine : Routine) (here : List Token) :
    (text eof routine).Yields spending here (routine.Spends here) := by
  cases routine with
  | statements inBlock => exact statements_spends inBlock here
  | statement =>
      exact yields_current (fun _ => yieldsSome_report) fun t _ hpos => statementText_spends t hpos
  | block brace =>
      refine Yields.map ((run_spends (statements true)).mono fun stmts there _ hstmts => ?_)
      simp only [Spends, Block.stmtCount] at hstmts ⊢
      exact hstmts
  | semicolons => exact yields_ifNext (fun _ _ _ => run_spends semicolons) (yields_done trivial)
  | expression level =>
      refine YieldsSome.andThen (run_spends operand) fun left there _ hleft => ?_
      exact YieldsSome.mono (run_spends (continuations level left)) fun expr last _ hexpr => by omega
  | operand =>
      exact yields_current (fun _ => yieldsSome_report) fun t _ hpos => operandText_spends t hpos
  | continuations level left => exact continuations_spends level left here
  | condition =>
      refine yieldsSome_expectNext fun _ there _ hlt => yields_next fun mid hmid => ?_
      refine YieldsSome.andThen (run_spends (expression .lowest)) fun test behind _ htest => ?_
      refine yieldsSome_expectNext fun _ there' _ hlt' => ?_
      refine yieldsSome_expectNext fun brace ahead _ hahead => yieldsSome_done ?_
      dsimp only
      omega
  | params | moreParams => exact keeps_trivial fun _ _ => trivial
  | arguments =>
      refine yields_ifNext (fun there _ hlt => ?_) ?_
      · exact yieldsSome_done (by simp only [exprsStmtCount]; omega)
      · refine yields_next fun there hthere => ?_
        exact YieldsSome.mono (run_spends moreArguments) fun items last _ hitems => by omega
  | moreArguments =>
      refine YieldsSome.andThen (run_spends (expression .lowest)) fun item there _ hitem => ?_
      refine yields_ifNext (fun there' _ hlt => ?_) ?_
      · refine yields_next fun ahead hahead => YieldsSome.mapSome ?_
        refine YieldsSome.mono (run_spends moreArguments) fun items last _ hitems => ?_
        simp only [exprsStmtCount]
        omega
      · refine yieldsSome_expectNext fun _ ahead _ hlt => ?_
        exact yieldsSome_done (by simp only [exprsStmtCount]; omega)
  | elements => exact elements_spends here
  | pairs => exact pairs_spends here

end Routine

/-- What a routine has read has no more statements than tokens were passed for it. -/
theorem Runs.spends {eof : Position} {routine : Routine} {here there : List Token}
    {moves : List Move} {node : routine.Node}
    (h : Runs (Routine.text eof) (routine.text eof) here moves node there) :
    routine.Spends here node there :=
  h.post (fun callee entry => Routine.text_spends callee entry) (Routine.text_spends routine here)

end Parser

end ExprMachine
