import ExprMachine.Proofs.Parser.Clean
import ExprMachine.Proofs.Parser.Routine
import ExprMachine.Proofs.Parser.Success

/-!
# The routines read what the grammar says

The routines and the functions of the grammar are one parser. A routine that is entered with the
cursor on a token gives the node and makes the reports of the grammar's function, and behind the
token on which it leaves the cursor are the tokens that the function leaves. That is the contract
`reading`. The grammar's equations are followed once, with a rule for each way in which scripts are
put together; what the routines rely on when they call each other is in the contract, so there is
no induction here. That every run keeps it is `Runs.post`.
-/

namespace ExprMachine.Parser

open Script

/-- What the grammar reads where the routine is entered with the cursor at `here`. -/
def Routine.read (eof : Position) : (routine : Routine) → List Token → Outcome routine.Node
  | statements inBlock, here => (Parser.statements eof inBlock here [] []).outcome
  | statement, [] => ⟨none, [], [⟨eof, .noExpression .eof⟩]⟩
  | statement, t :: rest => (Parser.statement eof t rest).outcome
  | block brace, here => (Parser.block eof brace here).outcome
  | semicolons, here => ⟨(), here.tail.dropWhile fun token => token.kind = .semicolon, []⟩
  | expression level, here => (exprAt eof level here).outcome
  | operand, [] => ⟨none, [], [⟨eof, .noExpression .eof⟩]⟩
  | operand, t :: rest => (Parser.operand eof t rest).outcome
  | continuations level left, here => (Parser.continuations eof level left here.tail).outcome
  | condition, here => (Parser.condition eof here.tail).outcome
  | params, here => (Parser.params eof here.tail).outcome
  | moreParams, here => (Parser.moreParams eof here.tail).outcome
  | arguments, here => (Parser.arguments eof here.tail).outcome
  | moreArguments, here => (Parser.moreArguments eof here).outcome
  | elements, here => (Parser.elements eof here).outcome
  | pairs, here => (Parser.pairs eof here).outcome

/-- A routine gives what the grammar reads, and leaves the cursor in front of what that leaves. -/
def reading (eof : Position) : Contract Routine.Node where
  pre _ _ := True
  post routine here node there ds := routine.read eof here = ⟨node, there.tail, ds⟩

/-- The first token is of another kind if it was not taken. -/
theorem kind_ne_of_take? {kind : Token.Kind} {t : Token} {rest : List Token}
    (h : take? kind (t :: rest) = none) : t.kind ≠ kind := by
  intro hkind
  rw [take?_cons rest hkind] at h
  cases h

theorem elim_kind (ts : List Token) : ts.head?.elim .eof Token.kind = nextKind ts := by
  cases ts <;> rfl

namespace Script

variable {α β : Type} {n : Nat} {eof : Position} {here ts : List Token}

/-- From `here` the script comes to the outcome `o`, if the routines give what the grammar reads. -/
def ComesTo (eof : Position) (s : Steps α) (here : List Token) (o : Outcome α) : Prop :=
  s.Keeps (reading eof) here fun value there ds => o = ⟨value, there.tail, ds⟩

theorem comesTo_done {value : α} (hts : here.tail = ts) :
    ComesTo eof (.done value) here ⟨value, ts, []⟩ := by
  subst hts
  rfl

theorem comesTo_report {value : α} {d : Diagnostic} (hts : here.tail = ts) :
    ComesTo eof (.report d (.done value)) here ⟨value, ts, [d]⟩ := by
  subst hts
  rfl

theorem comesTo_look {go : Option Token → Option Token → Steps α} {o : Outcome α}
    (h : (go here.head? here.tail.head?).ComesTo eof here o) :
    (Script.look go).ComesTo eof here o := h

theorem comesTo_next {s : Steps α} {o : Outcome α} (h : s.ComesTo eof here.tail o) :
    (Script.next s).ComesTo eof here o := h

theorem comesTo_run (routine : Routine) :
    ComesTo eof (run routine) here (routine.read eof here) := by
  refine ⟨trivial, fun node mid ds _ hread => ?_⟩
  have hread : routine.read eof here = ⟨node, mid.tail, ds⟩ := hread
  rw [hread]
  exact congrArg _ (List.append_nil ds).symm

theorem ComesTo.bind {s : Steps α} {go : α → Steps β} {p : Parsed α n}
    {k : α → (rest : List Token) → rest.length ≤ n → Parsed β rest.length}
    (h : s.ComesTo eof here p.outcome)
    (hgo : ∀ value there hle, (go value).ComesTo eof there (k value there.tail hle).outcome) :
    (s.bind go).ComesTo eof here (p.bind k).outcome := by
  refine keeps_bind (h.mono fun value there ds _ hp => ?_)
  refine (hgo value there (Parsed.length_rest_le hp)).mono fun value' there' es _ hk => ?_
  obtain ⟨o, hle⟩ := p
  cases hp
  simp only [Parsed.bind, hk]

theorem ComesTo.andThen {s : Steps (Option α)} {go : α → Steps (Option β)} {p : Attempt α n}
    {k : α → (rest : List Token) → rest.length ≤ n → Attempt β rest.length}
    (h : s.ComesTo eof here p.outcome)
    (hgo : ∀ value there hle, (go value).ComesTo eof there (k value there.tail hle).outcome) :
    (s.andThen go).ComesTo eof here (p.andThen k).outcome := by
  refine h.bind fun value? there hle => ?_
  cases value? with
  | none => exact comesTo_done rfl
  | some value => exact hgo value there hle

theorem ComesTo.map {s : Steps α} {f : α → β} {p : Parsed α n} (h : s.ComesTo eof here p.outcome) :
    (s.map f).ComesTo eof here (p.map f).outcome := by
  refine keeps_bind (h.mono fun value there ds _ hp => ?_)
  show (p.map f).outcome = ⟨f value, there.tail, ds ++ []⟩
  rw [Parsed.outcome_map hp, List.append_nil]

theorem comesTo_ifNext_some {kind : Token.Kind} {yes no : Steps α} {rest : List Token}
    {hlt : rest.length < ts.length} {o : Outcome α} (hts : here.tail = ts)
    (h : take? kind ts = some ⟨rest, hlt⟩)
    (hyes : ∀ there : List Token, there.tail = rest → yes.ComesTo eof there o) :
    (ifNext kind yes no).ComesTo eof here o := by
  obtain ⟨t, hkind, rfl⟩ := eq_cons_of_take? h
  have hpeek : here.tail.head?.any (·.kind = kind) = true := by simp [hts, hkind]
  show (if here.tail.head?.any (·.kind = kind) then Script.next yes else no).ComesTo eof here o
  rw [if_pos hpeek]
  exact hyes here.tail (by rw [hts, List.tail_cons])

theorem comesTo_ifNext_none {kind : Token.Kind} {yes no : Steps α} {o : Outcome α}
    (hts : here.tail = ts) (h : take? kind ts = none) (hno : no.ComesTo eof here o) :
    (ifNext kind yes no).ComesTo eof here o := by
  have hpeek : ¬here.tail.head?.any (·.kind = kind) = true := by
    rw [hts]
    cases ts with
    | nil => simp
    | cons t rest => simpa using kind_ne_of_take? h
  show (if here.tail.head?.any (·.kind = kind) then Script.next yes else no).ComesTo eof here o
  rwa [if_neg hpeek]

theorem comesTo_reportNext {fault : Token.Kind → SyntaxFault} {value : α} (hts : here.tail = ts) :
    (reportNext eof fault value).ComesTo eof here
      ⟨value, ts, [⟨nextPos eof ts, fault (nextKind ts)⟩]⟩ := by
  show ComesTo eof (.report ⟨here.tail.head?.elim eof Token.pos,
    fault (here.tail.head?.elim .eof Token.kind)⟩ (.done value)) here _
  rw [hts]
  cases ts with
  | nil => exact comesTo_report hts
  | cons t rest => exact comesTo_report hts

theorem comesTo_expectNext (kind : Token.Kind) (hts : here.tail = ts) :
    (expectNext eof kind).ComesTo eof here (expect eof kind ts).outcome := by
  refine comesTo_look ?_
  rw [hts]
  cases ts with
  | nil => exact comesTo_reportNext hts
  | cons t rest =>
      rw [expect, List.head?_cons]
      by_cases hkind : t.kind = kind
      · rw [if_pos hkind, Option.filter_some, if_pos (by simpa using hkind)]
        refine comesTo_next ?_
        exact comesTo_done (by rw [hts, List.tail_cons])
      · rw [if_neg hkind, Option.filter_some, if_neg (by simpa using hkind)]
        exact comesTo_reportNext hts

theorem comesTo_behindItem (collection : Collection) (close : Token.Kind) (hts : here.tail = ts) :
    (behindItem eof collection close).ComesTo eof here
      (afterItem eof collection close ts).outcome := by
  unfold afterItem
  split
  · next hcomma => exact comesTo_ifNext_some hts hcomma fun there hthere => comesTo_done hthere
  · next hcomma =>
    refine comesTo_ifNext_none hts hcomma ?_
    split
    · next hclose => exact comesTo_ifNext_some hts hclose fun there hthere => comesTo_done hthere
    · next hclose => exact comesTo_ifNext_none hts hclose (comesTo_reportNext hts)

theorem comesTo_semicolons {value : α} (hts : here.tail = ts) :
    ((run .semicolons).map fun _ => value).ComesTo eof here (closed value ts).outcome := by
  subst hts
  refine ⟨trivial, fun node mid ds _ hread => ?_⟩
  have hread : (⟨(), _, []⟩ : Outcome Unit) = ⟨node, mid.tail, ds⟩ := hread
  obtain ⟨-, hrest, rfl⟩ := Outcome.mk.inj hread
  exact congrArg (fun rest => (⟨value, rest, []⟩ : Outcome α)) hrest

end Script

namespace Routine

variable {eof : Position}

theorem statements_reads (inBlock : Bool) (here : List Token) :
    (text eof (statements inBlock)).ComesTo eof here (read eof (statements inBlock) here) := by
  show ComesTo eof _ here (Parser.statements eof inBlock here [] []).outcome
  cases here with
  | nil =>
      rw [Parser.statements]
      exact comesTo_look (comesTo_done rfl)
  | cons t rest =>
      refine comesTo_look ?_
      dsimp only [List.head?_cons]
      by_cases hclose : inBlock ∧ t.kind = .rightBrace
      · rw [if_pos hclose]
        obtain ⟨rfl, hkind⟩ := hclose
        rw [statements_close hkind]
        exact comesTo_done rfl
      · -- the grammar's loop carries what it has read; this is its equation without that
        rw [if_neg hclose, statements_cons hclose]
        refine ComesTo.bind (p := Parser.statement eof t rest)
          (k := fun stmt? rest' _ =>
            (Parser.statements eof inBlock rest' [] []).map (stmt?.toList ++ ·))
          (comesTo_run statement) fun stmt? there _ => ?_
        exact ComesTo.map (comesTo_run (statements inBlock))

theorem comesTo_expr (level : Precedence) (t : Token) (rest : List Token) :
    (run (expression level)).ComesTo eof (t :: rest) (expr eof level t rest).outcome := by
  have hread : read eof (expression level) (t :: rest) = (expr eof level t rest).outcome := by
    show (exprAt eof level (t :: rest)).outcome = _
    rw [exprAt]
    rfl
  rw [← hread]
  exact comesTo_run (expression level)

theorem statement_reads (here : List Token) :
    (text eof statement).ComesTo eof here (read eof statement here) := by
  cases here with
  | nil => exact comesTo_look (comesTo_report rfl)
  | cons t rest =>
      show (statementText eof t).ComesTo eof (t :: rest) (Parser.statement eof t rest).outcome
      rw [Parser.statement]
      unfold statementText
      cases t.kind with
      | letWord =>
          refine (comesTo_expectNext .identifier rfl).andThen fun name there _ => ?_
          refine (comesTo_expectNext .assign rfl).andThen fun _ there' _ => ?_
          refine ComesTo.andThen (p := exprAt eof .lowest there'.tail)
            (comesTo_run (expression .lowest)) fun value there'' _ => ?_
          exact comesTo_semicolons rfl
      | returnWord =>
          refine comesTo_look ?_
          simp only [List.tail_cons, elim_kind]
          by_cases hstop : nextKind rest ∈ [Token.Kind.semicolon, .rightBrace, .eof]
          · simp only [if_pos hstop]
            exact comesTo_semicolons rfl
          · simp only [if_neg hstop]
            refine comesTo_next <| ComesTo.andThen (p := exprAt eof .lowest rest)
              (comesTo_run (expression .lowest)) fun value there _ => ?_
            exact comesTo_semicolons rfl
      | leftBrace => exact ComesTo.map (p := Parser.block eof t rest) (comesTo_run (block t))
      | _ =>
          refine ComesTo.andThen (p := expr eof .lowest t rest) (comesTo_expr .lowest t rest)
            fun value there _ => ?_
          cases hsemicolon : take? .semicolon there.tail with
          | none => exact comesTo_ifNext_none rfl hsemicolon (comesTo_done rfl)
          | some _ =>
              exact comesTo_ifNext_some rfl hsemicolon fun there' hthere => comesTo_done hthere

theorem block_reads (brace : Token) (here : List Token) :
    (text eof (block brace)).ComesTo eof here (read eof (block brace) here) := by
  show ComesTo eof _ here (Parser.block eof brace here).outcome
  rw [Parser.block]
  exact ComesTo.map (comesTo_run (statements true))

theorem semicolons_reads (here : List Token) :
    (text eof semicolons).ComesTo eof here (read eof semicolons here) := by
  show ComesTo eof (.ifNext .semicolon (run semicolons) (.done ())) here
    ⟨(), here.tail.dropWhile fun token => token.kind = .semicolon, []⟩
  cases hsemicolon : take? .semicolon here.tail with
  | none =>
      refine comesTo_ifNext_none rfl hsemicolon ?_
      refine comesTo_done (.symm ?_)
      cases htail : here.tail with
      | nil => rfl
      | cons t rest =>
          have hkind : t.kind ≠ .semicolon := kind_ne_of_take? (by rwa [htail] at hsemicolon)
          exact List.dropWhile_cons_of_neg (by simpa using hkind)
  | some found =>
      obtain ⟨rest, hlt⟩ := found
      refine comesTo_ifNext_some rfl hsemicolon fun there hthere => ?_
      obtain ⟨t, hkind, htail⟩ := eq_cons_of_take? hsemicolon
      rw [htail, List.dropWhile_cons, if_pos (by simpa using hkind), ← hthere]
      exact comesTo_run semicolons

theorem expression_reads (level : Precedence) (here : List Token) :
    (text eof (expression level)).ComesTo eof here (read eof (expression level) here) := by
  show ComesTo eof ((run operand).andThen _) here (exprAt eof level here).outcome
  cases here with
  | nil =>
      rw [exprAt]
      exact ComesTo.andThen (p := .report none [] ⟨eof, .noExpression .eof⟩)
        (k := fun left rest _ => Parser.continuations eof level left rest) (comesTo_run operand)
        fun left there _ => comesTo_run (continuations level left)
  | cons t rest =>
      rw [exprAt]
      show ComesTo eof _ _ (expr eof level t rest).outcome
      rw [expr]
      refine ComesTo.andThen (p := Parser.operand eof t rest) (comesTo_run operand)
        fun left there _ => ?_
      exact comesTo_run (continuations level left)

theorem operand_reads (here : List Token) :
    (text eof operand).ComesTo eof here (read eof operand here) := by
  cases here with
  | nil => exact comesTo_look (comesTo_report rfl)
  | cons t rest =>
      show (operandText eof t).ComesTo eof (t :: rest) (Parser.operand eof t rest).outcome
      rw [Parser.operand]
      unfold operandText
      cases t.kind with
      | integer =>
          dsimp only
          unfold integerLiteral
          cases wordValue? t.literal with
          | none => exact comesTo_report rfl
          | some value => exact comesTo_done rfl
      | bang | minus =>
          refine comesTo_next <| ComesTo.andThen (p := exprAt eof .unary rest)
            (comesTo_run (expression .unary)) fun right there _ => ?_
          exact comesTo_done rfl
      | leftParen =>
          refine comesTo_next <| ComesTo.andThen (p := exprAt eof .lowest rest)
            (comesTo_run (expression .lowest)) fun inner there _ => ?_
          exact (comesTo_expectNext .rightParen rfl).andThen fun _ there' _ => comesTo_done rfl
      | leftBracket =>
          exact comesTo_next <| ComesTo.map (p := Parser.elements eof rest) (comesTo_run elements)
      | leftObject =>
          exact comesTo_next <| ComesTo.map (p := Parser.pairs eof rest) (comesTo_run pairs)
      | ifWord =>
          refine ComesTo.andThen (p := Parser.condition eof rest) (comesTo_run condition)
            fun found there _ => ?_
          obtain ⟨test, brace⟩ := found
          refine comesTo_next <| ComesTo.bind (p := Parser.block eof brace there.tail)
            (comesTo_run (block brace)) fun consequence there' _ => ?_
          cases helse : take? .elseWord there'.tail with
          | none => exact comesTo_ifNext_none rfl helse (comesTo_done rfl)
          | some found =>
              obtain ⟨rest', hlt⟩ := found
              refine comesTo_ifNext_some rfl helse fun there'' hthere => ?_
              subst hthere
              dsimp only [Parsed.weaken]
              refine ComesTo.andThen (p := expect eof .leftBrace there''.tail)
                (comesTo_expectNext .leftBrace rfl) fun brace ahead _ => ?_
              exact comesTo_next <| ComesTo.map (p := Parser.block eof brace ahead.tail)
                (comesTo_run (block brace))
      | forWord =>
          refine ComesTo.andThen (p := Parser.condition eof rest) (comesTo_run condition)
            fun found there _ => ?_
          obtain ⟨test, brace⟩ := found
          exact comesTo_next <| ComesTo.map (p := Parser.block eof brace there.tail)
            (comesTo_run (block brace))
      | fnWord =>
          refine (comesTo_expectNext .leftParen rfl).andThen fun _ there _ => ?_
          refine ComesTo.andThen (p := Parser.params eof there.tail) (comesTo_run params)
            fun names there' _ => ?_
          refine (comesTo_expectNext .leftBrace rfl).andThen fun brace there'' _ => ?_
          exact comesTo_next <| ComesTo.map (p := Parser.block eof brace there''.tail)
            (comesTo_run (block brace))
      | identifier | string | trueWord | falseWord => exact comesTo_done rfl
      | _ => exact comesTo_report rfl

theorem continuations_reads (level : Precedence) (left : Expr) (here : List Token) :
    (text eof (continuations level left)).ComesTo eof here
      (read eof (continuations level left) here) := by
  show ComesTo eof _ here (Parser.continuations eof level left here.tail).outcome
  refine comesTo_look ?_
  cases htail : here.tail with
  | nil =>
      rw [Parser.continuations]
      exact comesTo_done htail
  | cons t rest =>
      rw [Parser.continuations]
      dsimp only [List.head?_cons]
      cases Continuation.above? level t.kind with
      | none => exact comesTo_done htail
      | some c =>
          cases c with
          | binary op =>
              refine comesTo_next (comesTo_next ?_)
              rw [htail]
              dsimp only [Parsed.weaken, List.tail_cons]
              refine ComesTo.andThen (p := exprAt eof op.precedence rest)
                (comesTo_run (expression op.precedence)) fun right there _ => ?_
              exact comesTo_run (continuations level (.binary t.pos op left right))
          | call =>
              refine comesTo_next ?_
              rw [htail]
              dsimp only [Parsed.weaken]
              have hitems : (run arguments).ComesTo eof (t :: rest)
                  (Parser.arguments eof rest).outcome := comesTo_run arguments
              refine hitems.andThen fun items there _ => ?_
              exact comesTo_run (continuations level (.call t.pos left items))
          | index =>
              refine comesTo_next (comesTo_next ?_)
              rw [htail]
              dsimp only [Parsed.weaken, List.tail_cons]
              refine ComesTo.andThen (p := exprAt eof .lowest rest)
                (comesTo_run (expression .lowest)) fun place there _ => ?_
              refine (comesTo_expectNext .rightBracket rfl).andThen fun _ there' _ => ?_
              exact comesTo_run (continuations level (.index t.pos left place))

theorem condition_reads (here : List Token) :
    (text eof condition).ComesTo eof here (read eof condition here) := by
  show ComesTo eof _ here (Parser.condition eof here.tail).outcome
  rw [Parser.condition]
  refine (comesTo_expectNext .leftParen rfl).andThen fun _ there _ => ?_
  refine comesTo_next <| ComesTo.andThen (p := exprAt eof .lowest there.tail)
    (comesTo_run (expression .lowest)) fun test there' _ => ?_
  refine (comesTo_expectNext .rightParen rfl).andThen fun _ there'' _ => ?_
  exact (comesTo_expectNext .leftBrace rfl).andThen fun brace ahead _ => comesTo_done rfl

theorem params_reads (here : List Token) :
    (text eof params).ComesTo eof here (read eof params here) := by
  show ComesTo eof (.ifNext .rightParen (.done (some [])) (run moreParams)) here
    (Parser.params eof here.tail).outcome
  unfold Parser.params
  cases hclose : take? .rightParen here.tail with
  | none => exact comesTo_ifNext_none rfl hclose (comesTo_run moreParams)
  | some _ => exact comesTo_ifNext_some rfl hclose fun there hthere => comesTo_done hthere

theorem moreParams_reads (here : List Token) :
    (text eof moreParams).ComesTo eof here (read eof moreParams here) := by
  show ComesTo eof _ here (Parser.moreParams eof here.tail).outcome
  rw [Parser.moreParams]
  refine (comesTo_expectNext .identifier rfl).andThen fun name there _ => ?_
  cases hcomma : take? .comma there.tail with
  | none =>
      refine comesTo_ifNext_none rfl hcomma ?_
      exact (comesTo_expectNext .rightParen rfl).andThen fun _ there' _ => comesTo_done rfl
  | some found =>
      obtain ⟨rest', hlt⟩ := found
      refine comesTo_ifNext_some rfl hcomma fun there' hthere => ?_
      subst hthere
      exact ComesTo.map (p := Parser.moreParams eof there'.tail) (comesTo_run moreParams)

theorem arguments_reads (here : List Token) :
    (text eof arguments).ComesTo eof here (read eof arguments here) := by
  show ComesTo eof (.ifNext .rightParen (.done (some [])) (.next (run moreArguments))) here
    (Parser.arguments eof here.tail).outcome
  rw [Parser.arguments]
  cases hclose : take? .rightParen here.tail with
  | none => exact comesTo_ifNext_none rfl hclose (comesTo_next (comesTo_run moreArguments))
  | some _ => exact comesTo_ifNext_some rfl hclose fun there hthere => comesTo_done hthere

theorem moreArguments_reads (here : List Token) :
    (text eof moreArguments).ComesTo eof here (read eof moreArguments here) := by
  show ComesTo eof _ here (Parser.moreArguments eof here).outcome
  rw [Parser.moreArguments]
  refine ComesTo.andThen (p := exprAt eof .lowest here) (comesTo_run (expression .lowest))
    fun item there _ => ?_
  cases hcomma : take? .comma there.tail with
  | none =>
      refine comesTo_ifNext_none rfl hcomma ?_
      exact (comesTo_expectNext .rightParen rfl).andThen fun _ there' _ => comesTo_done rfl
  | some found =>
      obtain ⟨rest', hlt⟩ := found
      refine comesTo_ifNext_some rfl hcomma fun there' hthere => ?_
      subst hthere
      exact comesTo_next <| ComesTo.map (p := Parser.moreArguments eof there'.tail)
        (comesTo_run moreArguments)

theorem elements_reads (here : List Token) :
    (text eof elements).ComesTo eof here (read eof elements here) := by
  show ComesTo eof _ here (Parser.elements eof here).outcome
  refine comesTo_look ?_
  cases here with
  | nil =>
      rw [Parser.elements]
      exact comesTo_report rfl
  | cons t rest =>
      dsimp only [List.head?_cons]
      by_cases hclose : t.kind = .rightBracket
      · rw [elements_close rest hclose, if_pos hclose]
        exact comesTo_done rfl
      · rw [elements_of_other rest hclose, if_neg hclose]
        refine ComesTo.bind (p := exprAt eof .lowest (t :: rest)) (comesTo_run (expression .lowest))
          fun item? there _ => ?_
        cases item? with
        | none => exact comesTo_done rfl
        | some item =>
            refine (comesTo_behindItem .array .rightBracket rfl).bind fun more there' _ => ?_
            cases more with
            | false => exact comesTo_done rfl
            | true =>
                exact comesTo_next <| ComesTo.map (p := Parser.elements eof there'.tail)
                  (comesTo_run elements)

theorem pairs_reads (here : List Token) :
    (text eof pairs).ComesTo eof here (read eof pairs here) := by
  show ComesTo eof _ here (Parser.pairs eof here).outcome
  refine comesTo_look ?_
  cases here with
  | nil =>
      rw [Parser.pairs]
      exact comesTo_report rfl
  | cons t rest =>
      dsimp only [List.head?_cons]
      by_cases hclose : t.kind = .rightObject
      · rw [pairs_close rest hclose, if_pos hclose]
        exact comesTo_done rfl
      · rw [pairs_of_other rest hclose, if_neg hclose]
        refine ComesTo.bind (p := exprAt eof .lowest (t :: rest)) (comesTo_run (expression .lowest))
          fun key? there _ => ?_
        cases key? with
        | none => exact comesTo_done rfl
        | some key =>
            dsimp only
            cases hcolon : take? .colon there.tail with
            | none => exact comesTo_ifNext_none rfl hcolon (comesTo_reportNext rfl)
            | some found =>
                obtain ⟨rest', hlt⟩ := found
                refine comesTo_ifNext_some rfl hcolon fun there' hthere => ?_
                subst hthere
                dsimp only [Parsed.weaken]
                refine comesTo_next <| ComesTo.bind (p := exprAt eof .lowest there'.tail)
                  (comesTo_run (expression .lowest)) fun value? there'' _ => ?_
                cases value? with
                | none => exact comesTo_done rfl
                | some value =>
                    refine (comesTo_behindItem .object .rightObject rfl).bind fun more ahead _ => ?_
                    cases more with
                    | false => exact comesTo_done rfl
                    | true =>
                        exact comesTo_next <| ComesTo.map (p := Parser.pairs eof ahead.tail)
                          (comesTo_run pairs)

/-- **Every routine reads what the grammar says**, as long as the others do. -/
theorem text_reads (routine : Routine) (here : List Token) :
    (text eof routine).ComesTo eof here (read eof routine here) := by
  cases routine with
  | statements inBlock => exact statements_reads inBlock here
  | statement => exact statement_reads here
  | block brace => exact block_reads brace here
  | semicolons => exact semicolons_reads here
  | expression level => exact expression_reads level here
  | operand => exact operand_reads here
  | continuations level left => exact continuations_reads level left here
  | condition => exact condition_reads here
  | params => exact params_reads here
  | moreParams => exact moreParams_reads here
  | arguments => exact arguments_reads here
  | moreArguments => exact moreArguments_reads here
  | elements => exact elements_reads here
  | pairs => exact pairs_reads here

end Routine

/-- **A run reads what the grammar says.** -/
theorem Runs.reads {eof : Position} {routine : Routine} {here there : List Token}
    {moves : List Move} {node : routine.Node}
    (h : Runs (Routine.text eof) (routine.text eof) here moves node there) :
    routine.read eof here = ⟨node, there.tail, Move.reports moves⟩ :=
  h.post (fun callee entry => Routine.text_reads callee entry) (Routine.text_reads routine here)

end ExprMachine.Parser
