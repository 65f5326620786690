import ExprMachine.Parser.Program
import ExprMachine.Proofs.Parser.Reading
import ExprMachine.Proofs.Parser.Size

/-!
# Why reading comes to an end

Some routines leave the cursor where it was when they fail, and past the last token moving on
changes nothing. So no loop and no call can rely on the progress of the calls in front of it. What
holds is this: when a routine is called, either fewer tokens are left than where its caller was
entered, or as many and the routine is of a lower rank (`Routine.descends`). It holds whatever the
calls in front of it have given, and in particular if they have failed.
-/

namespace ExprMachine

namespace Parser

/-! ## Every call descends -/

/-- The order of the routines where no token has been passed. -/
def Routine.rank : Routine → Nat
  | semicolons | continuations .. | condition | moreParams => 0
  | params => 1
  | operand => 2
  | expression _ => 3
  | statement | moreArguments | elements | pairs => 4
  | statements _ | arguments => 5
  | block _ => 6

namespace Script

variable {α β : Type} {eof : Position} {here : List Token} {room level : Nat}

/-- From `here` the script calls routines only with fewer tokens left than `room`, or with as many
if they are of a lower rank than `level`. -/
def CallsBelow (room level : Nat) (s : Steps α) (here : List Token) : Prop :=
  s.Yields (.below Routine.rank room level) here fun _ _ => True

/-- **Once a token has been passed, whatever is called is called further on.** -/
theorem callsBelow_of_lt {s : Steps α} (h : here.length < room) : s.CallsBelow room level here := by
  induction s generalizing here with
  | done value => trivial
  | look go ih => exact ih _ _ h
  | next go ih => exact ih (Nat.lt_of_le_of_lt (by rw [List.length_tail]; omega) h)
  | report diagnostic go ih => exact ih h
  | call routine go ih =>
      exact ⟨.inl h, fun node mid _ hmid _ => ih node (Nat.lt_of_le_of_lt hmid h)⟩

/-- A routine that was entered on a token has passed one as soon as it has moved on, wherever the
calls in front of that have left the cursor. -/
theorem callsBelow_next {s : Steps α} (hpos : 0 < room) (hle : here.length ≤ room) :
    CallsBelow room level (.next s) here :=
  yields_next fun there hthere => callsBelow_of_lt (by omega)

theorem callsBelow_run {routine : Routine} (hle : here.length ≤ room)
    (hrank : routine.rank < level) : (run routine).CallsBelow room level here :=
  yields_run ((Nat.lt_or_eq_of_le hle).imp_right fun heq => ⟨heq, hrank⟩) fun _ _ _ _ _ => trivial

theorem callsBelow_done {value : α} : CallsBelow room level (.done value) here :=
  yields_done trivial

theorem callsBelow_report {value : α} {d : Diagnostic} :
    CallsBelow room level (.report d (.done value)) here := yields_report trivial

theorem CallsBelow.bind {s : Steps α} {go : α → Steps β} (h : s.CallsBelow room level here)
    (hgo : ∀ value (there : List Token), there.length ≤ here.length →
      (go value).CallsBelow room level there) : (s.bind go).CallsBelow room level here :=
  Yields.bind h fun value there hle _ => hgo value there hle

theorem CallsBelow.map {s : Steps α} {f : α → β} (h : s.CallsBelow room level here) :
    (s.map f).CallsBelow room level here := Yields.map h

theorem CallsBelow.andThen {s : Steps (Option α)} {go : α → Steps (Option β)}
    (h : s.CallsBelow room level here)
    (hgo : ∀ value (there : List Token), there.length ≤ here.length →
      (go value).CallsBelow room level there) : (s.andThen go).CallsBelow room level here :=
  Yields.andThen h (fun _ _ => trivial) fun value there hle _ => hgo value there hle

end Script

open Script

namespace Routine

variable {eof : Position} {here : List Token}

theorem operandText_descends (t : Token) (hpos : 0 < here.length) :
    (operandText eof t).CallsBelow here.length (rank operand) here := by
  unfold operandText
  cases t.kind with
  | integer =>
      dsimp only
      cases wordValue? t.literal with
      | none => exact callsBelow_report
      | some value => exact callsBelow_done
  | bang | minus | leftParen | leftBracket | leftObject =>
      exact callsBelow_next hpos (Nat.le_refl _)
  | ifWord | forWord =>
      -- a block outranks an operand, so it is the brace in front of it that has to be passed
      exact CallsBelow.andThen (callsBelow_run (Nat.le_refl _) (by decide))
        fun (test, brace) there hle => callsBelow_next hpos hle
  | fnWord => exact yields_expectNext trivial fun _ there _ hlt => callsBelow_of_lt hlt
  | identifier | string | trueWord | falseWord => exact callsBelow_done
  | _ => exact callsBelow_report

theorem statementText_descends (t : Token) (hpos : 0 < here.length) :
    (statementText eof t).CallsBelow here.length (rank statement) here := by
  unfold statementText
  cases t.kind with
  | letWord => exact yields_expectNext trivial fun name there _ hlt => callsBelow_of_lt hlt
  | returnWord =>
      have hsemicolons {stmt : Option Stmt} : ((run semicolons).map fun _ => stmt).CallsBelow
          here.length (rank statement) here :=
        CallsBelow.map (callsBelow_run (Nat.le_refl _) (by decide))
      refine yields_peek (fun _ => hsemicolons) fun _ peek _ => ?_
      split
      · exact hsemicolons
      · exact callsBelow_next hpos (Nat.le_refl _)
  | leftBrace => exact callsBelow_next hpos (Nat.le_refl _)
  | _ =>
      refine CallsBelow.andThen (callsBelow_run (Nat.le_refl _) (by decide)) fun value there _ => ?_
      exact yields_ifNext (fun _ _ _ => callsBelow_done) callsBelow_done

/-- **Every call descends**: with fewer tokens left, or to a routine of a lower rank. -/
theorem descends : Descends (text eof) rank := by
  intro routine here
  show (text eof routine).CallsBelow here.length routine.rank here
  cases routine with
  | statements inBlock =>
      refine yields_current (fun _ => callsBelow_done) fun t _ hpos => ?_
      dsimp only
      split
      · exact callsBelow_done
      · -- the cursor is on a token, so moving on leaves fewer, even if the statement has passed none
        have hstatement : (run statement).CallsBelow here.length (rank (statements inBlock)) here :=
          callsBelow_run (Nat.le_refl _) (by simp [rank])
        exact hstatement.bind fun _ there hle => callsBelow_next hpos hle
  | statement =>
      exact yields_current (fun _ => callsBelow_report)
        fun t _ hpos => statementText_descends t hpos
  | block brace => exact CallsBelow.map (callsBelow_run (Nat.le_refl _) (by simp [rank]))
  | semicolons => exact yields_ifNext (fun there _ hlt => callsBelow_of_lt hlt) callsBelow_done
  | expression level =>
      refine CallsBelow.andThen (callsBelow_run (Nat.le_refl _) (by simp [rank]))
        fun left there hle => ?_
      exact callsBelow_run hle (by simp [rank])
  | operand =>
      exact yields_current (fun _ => callsBelow_report) fun t _ hpos => operandText_descends t hpos
  | continuations level left =>
      refine yields_peek (fun _ => callsBelow_done) fun _ t hlength => ?_
      have hpos : 0 < here.length := Nat.lt_of_succ_lt hlength
      dsimp only
      cases Continuation.above? level t.kind with
      | none => exact callsBelow_done
      | some continuation =>
          cases continuation with
          | binary | call | index => exact callsBelow_next hpos (Nat.le_refl _)
  | condition => exact yields_expectNext trivial fun _ there _ hlt => callsBelow_of_lt hlt
  | params =>
      refine yields_ifNext (fun _ _ _ => callsBelow_done) ?_
      exact callsBelow_run (Nat.le_refl _) (by decide)
  | moreParams => exact yields_expectNext trivial fun name there _ hlt => callsBelow_of_lt hlt
  | arguments =>
      -- past the last token moving on leaves as many, so the rank has to get lower here
      refine yields_ifNext (fun _ _ _ => callsBelow_done) ?_
      exact yields_next fun there hthere => callsBelow_run (by omega) (by decide)
  | moreArguments =>
      refine CallsBelow.andThen (callsBelow_run (Nat.le_refl _) (by decide)) fun item there hle => ?_
      refine yields_ifNext (fun there' _ hlt => callsBelow_of_lt (by omega)) ?_
      exact yields_expectNext trivial fun _ _ _ _ => callsBelow_done
  | elements =>
      refine yields_current (fun _ => callsBelow_report) fun t _ hpos => ?_
      dsimp only
      split
      · exact callsBelow_done
      · refine CallsBelow.bind (callsBelow_run (Nat.le_refl _) (by decide))
          fun item? there hle => ?_
        cases item? with
        | none => exact callsBelow_done
        | some item =>
            refine yields_behindItem fun more mid hmid => ?_
            cases more with
            | false => exact callsBelow_done
            | true => exact callsBelow_next hpos (Nat.le_trans hmid hle)
  | pairs =>
      refine yields_current (fun _ => callsBelow_report) fun t _ hpos => ?_
      dsimp only
      split
      · exact callsBelow_done
      · refine CallsBelow.bind (callsBelow_run (Nat.le_refl _) (by decide))
          fun key? there hle => ?_
        cases key? with
        | none => exact callsBelow_done
        | some key =>
            refine yields_ifNext (fun there' _ hlt => ?_) (yields_reportNext trivial)
            exact callsBelow_of_lt (Nat.lt_of_lt_of_le hlt hle)

end Routine

/-! ## Where the statements end -/

section

variable {eof : Position} {here there : List Token} {moves : List Move}

/-- Outside of a block, nothing but the end of the tokens ends the statements. -/
def stopping : Contract Routine.Node where
  pre _ _ := True
  post routine _ _ there _ := routine = .statements false → there = []

theorem Routine.text_stops (routine : Routine) (here : List Token) :
    (routine.text eof).Keeps stopping here (stopping.post routine here) := by
  by_cases hroutine : routine = .statements false
  · subst hroutine
    show (Routine.text eof (.statements false)).Yields stopping here fun _ there =>
      Routine.statements false = Routine.statements false → there = []
    refine yields_current (fun hend => yields_done fun _ => hend) fun t _ _ => ?_
    dsimp only
    rw [if_neg (by simp)]
    have hstatement : (run statement).Yields stopping here fun _ _ => True :=
      yields_run trivial fun _ _ _ _ _ => trivial
    refine hstatement.bind fun _ mid _ _ => yields_next fun behind _ => Yields.map ?_
    exact yields_run trivial fun _ _ _ _ hstops => hstops
  · exact (keeps_trivial fun _ _ => trivial).mono fun _ _ _ _ _ h => absurd h hroutine

theorem Runs.stops {stmts : List Stmt}
    (h : Runs (Routine.text eof) (Routine.text eof (.statements false)) here moves stmts there) :
    there = [] :=
  h.post (fun callee entry => Routine.text_stops callee entry)
    (Routine.text_stops (.statements false) here) rfl

end

end Parser

/-! ## Reading a text -/

open ExprMachine.Parser

namespace ParsedProgram

theorem ofTokens_of_read {stream : TokenStream} {stmts : List Stmt} {rest : List Token}
    {ds : List Diagnostic}
    (h : Routine.read stream.eof (.statements false) stream.tokens = ⟨stmts, rest, ds⟩) :
    ofTokens stream = ⟨⟨stmts⟩, ds⟩ := by
  have hread : (Parser.statements stream.eof false stream.tokens [] []).outcome =
    ⟨stmts, rest, ds⟩ := h
  rw [ofTokens, hread]

/-- **Reading comes to an end, whatever the tokens are.** Every routine does, wherever it is
entered, and reads there what the grammar says; it passes the tokens in order, and goes back over
none. Every call, and with it every round of a loop, is made with fewer tokens left or else to a
routine of a lower rank, also behind a call that has failed. Reading a text ends with the cursor at
its end, so that each token has been passed once, and with the program and the reports of the text;
and the program has no more statements, at any depth, than the text has tokens. -/
theorem ofTokens_terminates (stream : TokenStream) :
    (∀ (routine : Routine) (here : List Token), ∃ moves node there,
      Runs (Routine.text stream.eof) (routine.text stream.eof) here moves node there ∧
        Move.passed moves ++ there = here ∧
        routine.read stream.eof here = ⟨node, there.tail, Move.reports moves⟩) ∧
    (∀ (routine callee : Routine) (here entry : List Token),
      Calls (Routine.text stream.eof) (routine.text stream.eof) here callee entry →
        entry.length < here.length ∨ entry.length = here.length ∧ callee.rank < routine.rank) ∧
    (∀ moves stmts there,
      Runs (Routine.text stream.eof) (Routine.text stream.eof (.statements false)) stream.tokens
        moves stmts there →
        there = [] ∧ Move.passed moves = stream.tokens ∧
          ofTokens stream = ⟨⟨stmts⟩, Move.reports moves⟩) ∧
    (ofTokens stream).program.stmtCount ≤ stream.tokens.length := by
  refine ⟨fun routine here => ?_, fun routine callee here entry hcalls => ?_,
    fun moves stmts there hruns => ?_, ?_⟩
  · obtain ⟨moves, node, there, hruns⟩ := exists_runs Routine.descends routine here
    exact ⟨moves, node, there, hruns, hruns.passed_append, hruns.reads⟩
  · exact hcalls.descends Routine.descends
  · have hstops : there = [] := hruns.stops
    have hpassed := hruns.passed_append
    rw [hstops, List.append_nil] at hpassed
    exact ⟨hstops, hpassed, ofTokens_of_read hruns.reads⟩
  · obtain ⟨moves, stmts, there, hruns⟩ :=
      exists_runs Routine.descends (.statements false) stream.tokens
    rw [ofTokens_of_read hruns.reads]
    exact Nat.le_trans (Nat.le_add_right _ _) hruns.spends

/-- A parenthesis with nothing open: its statement fails in front of it, and the next round of the
loop begins behind it. -/
theorem ofTokens_terminates_parenthesis :
    let close : Token := ⟨.rightParen, ")", ⟨1, 1⟩⟩
    let name : Token := ⟨.identifier, "x", ⟨1, 3⟩⟩
    let text := Routine.text ⟨1, 4⟩
    Calls text (text (.statements false)) [close, name] (.statements false) [name] ∧
      ([name].length < [close, name].length ∨
        [name].length = [close, name].length ∧
          (Routine.statements false).rank < (Routine.statements false).rank) ∧
      ∃ moves, Runs text (text (.statements false)) [close, name] moves
        [.expression name (.identifier ⟨"x", ⟨1, 3⟩⟩)] [] ∧
        Move.passed moves = [close, name] ∧
        Move.reports moves = [⟨⟨1, 1⟩, .noExpression .rightParen⟩] := by
  intro close name text
  obtain ⟨hends, hcalls, hreads, -⟩ := ofTokens_terminates ⟨[close, name], ⟨1, 4⟩⟩
  obtain ⟨_, hstatement⟩ : ∃ moves, Runs text (text .statement) [close, name] moves none
      [close, name] := ⟨_, .look (.call (.call (.look (.report .done)) .done) .done)⟩
  have hcall : Calls text (text (.statements false)) [close, name] (.statements false) [name] :=
    .look (.after hstatement (.next .made))
  refine ⟨hcall, hcalls _ _ _ _ hcall, ?_⟩
  obtain ⟨moves, stmts, there, hruns, -, -⟩ := hends (.statements false) [close, name]
  obtain ⟨rfl, hpassed, hread⟩ := hreads moves stmts there hruns
  have hprogram : ofTokens ⟨[close, name], ⟨1, 4⟩⟩ =
      ⟨⟨[.expression name (.identifier ⟨"x", ⟨1, 3⟩⟩)]⟩,
        [⟨⟨1, 1⟩, .noExpression .rightParen⟩]⟩ := by cbv
  rw [hprogram] at hread
  injection hread with hstmts hreports
  injection hstmts with hstmts
  subst hstmts
  exact ⟨moves, hruns, hpassed, hreports.symm⟩

end ParsedProgram

end ExprMachine
