import ExprMachine.Proofs.Parser.Clean
import ExprMachine.Proofs.Parser.Passage

/-!
# Where trees and reports come from

Whatever a text looks like, and however much of it is dropped, the leaves of the tree that is read
are tokens of the text, and every report stands at the token that it names, which is one of the text
or its end. Both are one fact about reading, `Parsed.Within`: from tokens of a kind come nodes whose
leaves are tokens of that kind, reports about tokens of that kind, and what is left are tokens of
that kind again. Error recovery needs no argument of its own, since nothing in it makes a token.

`Parsed.Traced` says this together with the way that the reading takes along the tokens, so that
there is one induction over the grammar for all of it.
-/

namespace ExprMachine

/-! ## Trees over tokens -/

/-- The name is that of a token of `T`. -/
def Identifier.MadeOf (T : Token → Prop) (id : Identifier) : Prop :=
  ∃ t, T t ∧ t.kind = .identifier ∧ id = .ofToken t

mutual

/-- The names, numbers and strings of the expression are tokens of `T`. -/
def Expr.MadeOf (T : Token → Prop) : Expr → Prop
  | .identifier id => id.MadeOf T
  | .integer pos digits value => ∃ t, T t ∧ t.kind = .integer ∧ t.pos = pos ∧ t.literal = digits ∧
      Parser.wordValue? digits = some value
  | .string pos value => ∃ t, T t ∧ t.kind = .string ∧ t.pos = pos ∧ t.literal = value
  | .bool .. => True
  | .array _ elements => exprsMadeOf T elements
  | .object _ pairs => pairsMadeOf T pairs
  | .unary _ _ right => right.MadeOf T
  | .binary _ _ left right => left.MadeOf T ∧ right.MadeOf T
  | .branch _ condition consequence none => condition.MadeOf T ∧ consequence.MadeOf T
  | .branch _ condition consequence (some alternative) =>
    condition.MadeOf T ∧ consequence.MadeOf T ∧ alternative.MadeOf T
  | .loop _ condition body => condition.MadeOf T ∧ body.MadeOf T
  | .function _ params body => (∀ id ∈ params, id.MadeOf T) ∧ body.MadeOf T
  | .call _ callee arguments => callee.MadeOf T ∧ exprsMadeOf T arguments
  | .index _ left index => left.MadeOf T ∧ index.MadeOf T

/-- The same for the statements of a block. -/
def Block.MadeOf (T : Token → Prop) : Block → Prop
  | ⟨_, stmts⟩ => stmtsMadeOf T stmts

/-- The same for a statement. -/
def Stmt.MadeOf (T : Token → Prop) : Stmt → Prop
  | .binding _ name value => name.MadeOf T ∧ value.MadeOf T
  | .exit _ none => True
  | .exit _ (some value) => value.MadeOf T
  | .expression _ value => value.MadeOf T
  | .block body => body.MadeOf T

/-- The same for expressions. -/
def exprsMadeOf (T : Token → Prop) : List Expr → Prop
  | [] => True
  | expr :: exprs => expr.MadeOf T ∧ exprsMadeOf T exprs

/-- The same for the pairs of an object. -/
def pairsMadeOf (T : Token → Prop) : List (Expr × Expr) → Prop
  | [] => True
  | (key, value) :: pairs => (key.MadeOf T ∧ value.MadeOf T) ∧ pairsMadeOf T pairs

/-- The same for statements. -/
def stmtsMadeOf (T : Token → Prop) : List Stmt → Prop
  | [] => True
  | stmt :: stmts => stmt.MadeOf T ∧ stmtsMadeOf T stmts

end

/-- The same for the statements of a program. -/
def Program.MadeOf (T : Token → Prop) (program : Program) : Prop := stmtsMadeOf T program.statements

theorem stmtsMadeOf_append {T : Token → Prop} {xs ys : List Stmt} (hx : stmtsMadeOf T xs)
    (hy : stmtsMadeOf T ys) : stmtsMadeOf T (xs ++ ys) := by
  induction xs with
  | nil => exact hy
  | cons x xs ih => exact ⟨hx.1, ih hx.2⟩

theorem stmtsMadeOf_toList {T : Token → Prop} {stmt? : Option Stmt}
    (h : ∀ stmt, stmt? = some stmt → stmt.MadeOf T) : stmtsMadeOf T stmt?.toList := by
  cases stmt? with
  | none => trivial
  | some stmt => exact ⟨h stmt rfl, trivial⟩

/-! ## Readings over tokens -/

/-- What the fault says of a token is true of `t`: its kind, or that it is a number with such
digits. -/
def SyntaxFault.Names : SyntaxFault → Token → Prop
  | unexpected _ got, t | noExpression got, t | missingComma _ got, t | missingColon got, t =>
    t.kind = got
  | integerRange digits, t => t.kind = .integer ∧ t.literal = digits

/-- The report stands at a token that it names, which is one of `T` or the end. -/
def Diagnostic.About (T : Token → Prop) (eof : Position) (d : Diagnostic) : Prop :=
  ∃ t, (T t ∨ t = .ending eof) ∧ d.fault.Names t ∧ t.pos = d.pos

theorem Diagnostic.about_ending {T : Token → Prop} {eof : Position} {fault : SyntaxFault}
    (h : fault.Names (.ending eof)) : About T eof ⟨eof, fault⟩ :=
  ⟨.ending eof, .inr rfl, h, rfl⟩

theorem Diagnostic.about_token {T : Token → Prop} {eof : Position} {t : Token}
    {fault : SyntaxFault} (ht : T t) (h : fault.Names t) : About T eof ⟨t.pos, fault⟩ :=
  ⟨t, .inl ht, h, rfl⟩

open ExprMachine.Parser

namespace Parsed

variable {α β : Type} {m n : Nat} {T : Token → Prop} {eof : Position} {ts : List Token}

/-- A node as promised, tokens of `T` behind it, and reports about tokens of `T` or the end. -/
structure Within (T : Token → Prop) (eof : Position) (p : Parsed α n) (Q : α → Prop) : Prop where
  rest : ∀ t ∈ p.outcome.rest, T t
  places : ∀ d ∈ p.outcome.diagnostics, d.About T eof
  value : Q p.outcome.value

/-- The same for a node that may be missing. -/
def WithinSome (T : Token → Prop) (eof : Position) (p : Attempt α n) (Q : α → Prop) : Prop :=
  p.Within T eof fun value? => ∀ value, value? = some value → Q value

/-- If the tokens from `ts` on are tokens of `T`, the reading passes along them and gives a node as
promised, with reports about them. -/
def Traced (T : Token → Prop) (eof : Position) (ts : List Token) (p : Parsed α n)
    (Q : α → Prop) : Prop :=
  (∀ t ∈ ts, T t) → p.Along eof ts ∧ p.Within T eof Q

/-- The same for a node that may be missing. -/
def TracedSome (T : Token → Prop) (eof : Position) (ts : List Token) (p : Attempt α n)
    (Q : α → Prop) : Prop :=
  (∀ t ∈ ts, T t) → p.Along eof ts ∧ p.WithinSome T eof Q

variable {P Q : α → Prop}

theorem Traced.congr {p : Parsed α m} {q : Parsed α n} (h : p.outcome = q.outcome)
    (hq : q.Traced T eof ts Q) : p.Traced T eof ts Q := by
  intro hts
  obtain ⟨halong, hwithin⟩ := hq hts
  unfold Along at halong
  rw [← h] at halong
  exact ⟨halong, h ▸ hwithin.rest, h ▸ hwithin.places, h ▸ hwithin.value⟩

theorem traced_done {value : α} (h : Q value) : (done value ts).Traced T eof ts Q :=
  fun hts => ⟨.stay ts, hts, List.forall_mem_nil _, h⟩

theorem tracedSome_done {value : α} (h : Q value) :
    (done (some value) ts).TracedSome T eof ts Q := by
  refine traced_done ?_
  rintro _ ⟨⟩
  exact h

/-- A report about the next token, or about the end if there is none. -/
theorem traced_report {value : α} {fault : SyntaxFault}
    (hnames : ∀ t, t.kind = nextKind ts → fault.Names t) (h : Q value) :
    (report value ts ⟨nextPos eof ts, fault⟩).Traced T eof ts Q := by
  intro hts
  refine ⟨.report fault (.stay ts), hts, List.forall_mem_singleton.mpr ?_, h⟩
  cases ts with
  | nil => exact Diagnostic.about_ending (hnames _ rfl)
  | cons t rest => exact Diagnostic.about_token (hts t List.mem_cons_self) (hnames t rfl)

theorem tracedSome_report {fault : SyntaxFault}
    (hnames : ∀ t, t.kind = nextKind ts → fault.Names t) :
    (report none ts ⟨nextPos eof ts, fault⟩).TracedSome T eof ts Q :=
  traced_report hnames fun _ h => nomatch h

/-- A token that has been taken may still be reported where it stands. -/
theorem tracedSome_reportTaken {t : Token} {fault : SyntaxFault} (hnames : fault.Names t) :
    (report none ts ⟨t.pos, fault⟩).TracedSome T eof (t :: ts) Q := by
  intro hts
  obtain ⟨ht, hrest⟩ := List.forall_mem_cons.mp hts
  exact ⟨.report fault (.take (.stay ts)), hrest,
    List.forall_mem_singleton.mpr (Diagnostic.about_token ht hnames), fun _ h => nomatch h⟩

theorem Traced.take {p : Parsed α n} {t : Token} (h : T t → p.Traced T eof ts Q) :
    p.Traced T eof (t :: ts) Q := by
  intro hts
  obtain ⟨ht, hrest⟩ := List.forall_mem_cons.mp hts
  obtain ⟨halong, hwithin⟩ := h ht hrest
  exact ⟨.take halong, hwithin⟩

theorem TracedSome.take {p : Attempt α n} {t : Token} (h : T t → p.TracedSome T eof ts Q) :
    p.TracedSome T eof (t :: ts) Q := Traced.take h

theorem Traced.of_take? {p : Parsed α n} {kind : Token.Kind} {rest : List Token}
    {hlt : rest.length < ts.length} (htake : take? kind ts = some ⟨rest, hlt⟩)
    (h : p.Traced T eof rest Q) : p.Traced T eof ts Q := by
  obtain ⟨t, -, rfl⟩ := eq_cons_of_take? htake
  exact .take fun _ => h

theorem TracedSome.of_take? {p : Attempt α n} {kind : Token.Kind} {rest : List Token}
    {hlt : rest.length < ts.length} (htake : take? kind ts = some ⟨rest, hlt⟩)
    (h : p.TracedSome T eof rest Q) : p.TracedSome T eof ts Q := Traced.of_take? htake h

theorem Traced.mono {p : Parsed α n} (h : p.Traced T eof ts P)
    (hPQ : ∀ value, P value → Q value) : p.Traced T eof ts Q := by
  intro hts
  obtain ⟨halong, hwithin⟩ := h hts
  exact ⟨halong, hwithin.rest, hwithin.places, hPQ _ hwithin.value⟩

theorem TracedSome.mono {p : Attempt α n} (h : p.TracedSome T eof ts P)
    (hPQ : ∀ value, P value → Q value) : p.TracedSome T eof ts Q :=
  Traced.mono h fun _ hP value hv => hPQ value (hP value hv)

theorem Traced.weaken {p : Parsed α m} {hmn : m ≤ n} (h : p.Traced T eof ts Q) :
    (p.weaken hmn).Traced T eof ts Q := Traced.congr (q := p) rfl h

theorem TracedSome.weaken {p : Attempt α m} {hmn : m ≤ n} (h : p.TracedSome T eof ts Q) :
    (Parsed.weaken p hmn).TracedSome T eof ts Q := Traced.weaken h

theorem Traced.map {p : Parsed α n} {f : α → β} {Q : β → Prop}
    (h : p.Traced T eof ts fun value => Q (f value)) : (p.map f).Traced T eof ts Q := by
  intro hts
  obtain ⟨halong, hwithin⟩ := h hts
  exact ⟨halong, hwithin.rest, hwithin.places, hwithin.value⟩

theorem Traced.mapSome {p : Parsed α n} {f : α → β} {Q : β → Prop}
    (h : p.Traced T eof ts fun value => Q (f value)) :
    TracedSome T eof ts (p.map fun value => some (f value)) Q := by
  refine Traced.map (h.mono ?_)
  rintro value hQ _ ⟨⟩
  exact hQ

theorem TracedSome.mapSome {p : Attempt α n} {f : α → β} {Q : β → Prop}
    (h : p.TracedSome T eof ts fun value => Q (f value)) :
    TracedSome T eof ts (Parsed.map (Option.map f) p) Q := by
  refine Traced.map (Traced.mono h ?_)
  intro value? hQ _ hv
  obtain ⟨value, hvalue, rfl⟩ := Option.map_eq_some_iff.mp hv
  exact hQ value hvalue

/-- What the first part leaves are tokens of `T` again, so nothing has to be said of them. -/
theorem Traced.bind {p : Parsed α n}
    {k : α → (rest : List Token) → rest.length ≤ n → Parsed β rest.length} {Q : β → Prop}
    (h : p.Traced T eof ts P)
    (hk : ∀ value rest hle, P value → (k value rest hle).Traced T eof rest Q) :
    (p.bind k).Traced T eof ts Q := by
  intro hts
  obtain ⟨halong, hwithin⟩ := h hts
  obtain ⟨halong', hwithin'⟩ := hk _ _ p.rest_le hwithin.value hwithin.rest
  refine ⟨Passes.trans halong halong', hwithin'.rest, ?_, hwithin'.value⟩
  intro d hd
  rcases List.mem_append.mp hd with hd | hd
  · exact hwithin.places d hd
  · exact hwithin'.places d hd

theorem TracedSome.andThen {p : Attempt α n}
    {k : α → (rest : List Token) → rest.length ≤ n → Attempt β rest.length} {Q : β → Prop}
    (h : p.TracedSome T eof ts P)
    (hk : ∀ value rest hle, P value → (k value rest hle).TracedSome T eof rest Q) :
    (p.andThen k).TracedSome T eof ts Q := by
  refine Traced.bind h ?_
  intro value? rest hle hP
  cases value? with
  | none => exact traced_done fun _ h => nomatch h
  | some value => exact hk value rest hle (hP value rfl)

end Parsed

namespace Parser

open Parsed

variable {T : Token → Prop} {eof : Position}

/-! ## Single tokens -/

theorem expect_traced (kind : Token.Kind) (ts : List Token) :
    (expect eof kind ts).TracedSome T eof ts fun t => T t ∧ t.kind = kind := by
  unfold expect
  split
  · exact tracedSome_report fun _ h => h
  · next t rest =>
    split
    · next hkind => exact .take fun ht => (tracedSome_done ⟨ht, hkind⟩).weaken
    · exact tracedSome_report fun _ h => h

theorem closed_traced {α : Type} {value : α} {Q : α → Prop} (ts : List Token) (h : Q value) :
    (closed (some value) ts).TracedSome T eof ts Q := by
  intro hts
  refine ⟨passes_dropWhile _ ts, ?_, List.forall_mem_nil _, ?_⟩
  · intro t ht
    exact hts t ((List.dropWhile_sublist _).subset ht)
  · rintro _ ⟨⟩
    exact h

theorem afterItem_traced (collection : Collection) (close : Token.Kind) (ts : List Token) :
    (afterItem eof collection close ts).Traced T eof ts fun _ => True := by
  unfold afterItem
  split
  · next hcomma => exact .of_take? hcomma (traced_done trivial).weaken
  · split
    · next hclose => exact .of_take? hclose (traced_done trivial).weaken
    · exact traced_report (fun _ h => h) trivial

theorem integerLiteral_traced {t : Token} (hkind : t.kind = .integer) (ts : List Token) :
    (integerLiteral t ts).TracedSome T eof (t :: ts) (Expr.MadeOf T) := by
  unfold integerLiteral
  split
  · next value hvalue =>
    exact .take fun ht => tracedSome_done ⟨t, ht, hkind, rfl, rfl, hvalue⟩
  · exact tracedSome_reportTaken ⟨hkind, rfl⟩

theorem moreParams_traced (ts : List Token) :
    (moreParams eof ts).TracedSome T eof ts fun names => ∀ id ∈ names, id.MadeOf T := by
  rw [moreParams]
  refine (expect_traced .identifier ts).andThen ?_
  rintro name rest hle ⟨hname, hkind⟩
  have hid : Identifier.MadeOf T (.ofToken name) := ⟨name, hname, hkind, rfl⟩
  split
  · next rest' hlt hcomma =>
    refine .of_take? hcomma (TracedSome.weaken (TracedSome.mapSome ?_))
    refine (moreParams_traced rest').mono ?_
    intro names hnames
    exact List.forall_mem_cons.mpr ⟨hid, hnames⟩
  · refine (expect_traced .rightParen rest).andThen ?_
    intro _ last _ _
    exact tracedSome_done (List.forall_mem_singleton.mpr hid)
termination_by ts.length

theorem params_traced (ts : List Token) :
    (params eof ts).TracedSome T eof ts fun names => ∀ id ∈ names, id.MadeOf T := by
  unfold params
  split
  · next hclose =>
    exact .of_take? hclose (tracedSome_done (List.forall_mem_nil _)).weaken
  · exact moreParams_traced ts

/-! ## The functions of the grammar -/

mutual

theorem expr_traced (level : Precedence) (t : Token) (ts : List Token) :
    (expr eof level t ts).TracedSome T eof (t :: ts) (Expr.MadeOf T) := by
  rw [expr]
  refine (operand_traced t ts).andThen ?_
  intro left rest hle hleft
  exact continuations_traced level hleft rest
termination_by (ts.length + 1, 1)

theorem exprAt_traced (level : Precedence) (ts : List Token) :
    (exprAt eof level ts).TracedSome T eof ts (Expr.MadeOf T) := by
  cases ts with
  | nil =>
      rw [exprAt]
      exact tracedSome_report fun _ h => h
  | cons t rest =>
      rw [exprAt]
      exact (expr_traced level t rest).weaken
termination_by (ts.length, 2)

theorem operand_traced (t : Token) (ts : List Token) :
    (operand eof t ts).TracedSome T eof (t :: ts) (Expr.MadeOf T) := by
  rw [operand]
  cases hkind : t.kind with
  | identifier => exact .take fun ht => tracedSome_done ⟨t, ht, hkind, rfl⟩
  | integer => exact integerLiteral_traced hkind ts
  | string => exact .take fun ht => tracedSome_done ⟨t, ht, hkind, rfl, rfl⟩
  | trueWord | falseWord => exact .take fun _ => tracedSome_done trivial
  | bang | minus =>
      refine .take fun _ => (exprAt_traced .unary ts).andThen ?_
      intro right rest _ hright
      exact tracedSome_done hright
  | leftParen =>
      refine .take fun _ => (exprAt_traced .lowest ts).andThen ?_
      intro inner rest _ hinner
      refine (expect_traced .rightParen rest).andThen ?_
      intro _ last _ _
      exact tracedSome_done hinner
  | leftBracket => exact .take fun _ => Traced.mapSome (elements_traced ts)
  | leftObject => exact .take fun _ => Traced.mapSome (pairs_traced ts)
  | ifWord =>
      refine .take fun _ => (condition_traced ts).andThen ?_
      intro read rest hle hread
      refine (block_traced read.2 rest).bind ?_
      intro consequence rest' hle' hconsequence
      split
      · exact tracedSome_done ⟨hread, hconsequence⟩
      · next rest'' hlt helse =>
        refine .of_take? helse (TracedSome.weaken ((expect_traced .leftBrace rest'').andThen ?_))
        intro brace last hle'' _
        refine Traced.mapSome ((block_traced brace last).mono ?_)
        intro alternative halternative
        exact ⟨hread, hconsequence, halternative⟩
  | forWord =>
      refine .take fun _ => (condition_traced ts).andThen ?_
      intro read rest hle hread
      refine Traced.mapSome ((block_traced read.2 rest).mono ?_)
      intro body hbody
      exact ⟨hread, hbody⟩
  | fnWord =>
      refine .take fun _ => (expect_traced .leftParen ts).andThen ?_
      intro _ rest hle _
      refine (params_traced rest).andThen ?_
      intro names rest' hle' hnames
      refine (expect_traced .leftBrace rest').andThen ?_
      intro brace rest'' hle'' _
      refine Traced.mapSome ((block_traced brace rest'').mono ?_)
      intro body hbody
      exact ⟨hnames, hbody⟩
  | _ =>
      -- nothing else begins an operand; the token is taken and reported
      exact tracedSome_reportTaken hkind
termination_by (ts.length + 1, 0)

theorem continuations_traced (level : Precedence) {left : Expr} (hleft : left.MadeOf T)
    (ts : List Token) : (continuations eof level left ts).TracedSome T eof ts (Expr.MadeOf T) := by
  cases ts with
  | nil =>
      rw [continuations]
      exact tracedSome_done hleft
  | cons t rest =>
      rw [continuations]
      split
      · exact tracedSome_done hleft
      · next op hop =>
        refine .take fun _ => TracedSome.weaken ((exprAt_traced op.precedence rest).andThen ?_)
        intro right rest' hle hright
        have hmade : Expr.MadeOf T (.binary t.pos op left right) := ⟨hleft, hright⟩
        exact continuations_traced level hmade rest'
      · refine .take fun _ => TracedSome.weaken ((arguments_traced rest).andThen ?_)
        intro items rest' hle hitems
        have hmade : Expr.MadeOf T (.call t.pos left items) := ⟨hleft, hitems⟩
        exact continuations_traced level hmade rest'
      · refine .take fun _ => TracedSome.weaken ((exprAt_traced .lowest rest).andThen ?_)
        intro place rest' hle hplace
        refine (expect_traced .rightBracket rest').andThen ?_
        intro _ rest'' hle' _
        have hmade : Expr.MadeOf T (.index t.pos left place) := ⟨hleft, hplace⟩
        exact continuations_traced level hmade rest''
termination_by (ts.length, 0)

theorem arguments_traced (ts : List Token) :
    (arguments eof ts).TracedSome T eof ts (exprsMadeOf T) := by
  rw [arguments]
  split
  · next hclose => exact .of_take? hclose (tracedSome_done trivial).weaken
  · exact moreArguments_traced ts
termination_by (ts.length, 4)

theorem moreArguments_traced (ts : List Token) :
    (moreArguments eof ts).TracedSome T eof ts (exprsMadeOf T) := by
  rw [moreArguments]
  refine (exprAt_traced .lowest ts).andThen ?_
  intro item rest hle hitem
  split
  · next rest' hlt hcomma =>
    refine .of_take? hcomma (TracedSome.weaken (TracedSome.mapSome ?_))
    refine (moreArguments_traced rest').mono ?_
    intro items hitems
    exact ⟨hitem, hitems⟩
  · refine (expect_traced .rightParen rest).andThen ?_
    intro _ last _ _
    exact tracedSome_done ⟨hitem, trivial⟩
termination_by (ts.length, 3)

theorem elements_traced (ts : List Token) :
    (elements eof ts).Traced T eof ts (exprsMadeOf T) := by
  cases ts with
  | nil =>
      rw [elements]
      exact traced_report (fun _ h => h) trivial
  | cons t rest =>
      rw [elements]
      split
      · exact .take fun _ => (traced_done trivial).weaken
      · refine Traced.weaken (Traced.bind (expr_traced .lowest t rest) ?_)
        intro item? rest' hle hitem
        cases item? with
        | none => exact traced_done trivial
        | some item =>
            have hmade : item.MadeOf T := hitem item rfl
            refine (afterItem_traced .array .rightBracket rest').bind ?_
            intro more rest'' hle' _
            cases more with
            | true =>
                refine Traced.map ((elements_traced rest'').mono ?_)
                intro items hitems
                exact ⟨hmade, hitems⟩
            | false => exact traced_done ⟨hmade, trivial⟩
termination_by (ts.length, 3)

theorem pairs_traced (ts : List Token) : (pairs eof ts).Traced T eof ts (pairsMadeOf T) := by
  cases ts with
  | nil =>
      rw [pairs]
      exact traced_report (fun _ h => h) trivial
  | cons t rest =>
      rw [pairs]
      split
      · exact .take fun _ => (traced_done trivial).weaken
      · refine Traced.weaken (Traced.bind (expr_traced .lowest t rest) ?_)
        intro key? rest' hle hkey
        cases key? with
        | none => exact traced_done trivial
        | some key =>
            dsimp only
            split
            · exact traced_report (fun _ h => h) trivial
            · next ts' hlt hcolon =>
              refine .of_take? hcolon (Traced.weaken (Traced.bind (exprAt_traced .lowest ts') ?_))
              intro value? rest'' hle' hvalue
              cases value? with
              | none => exact traced_done trivial
              | some value =>
                  have hmade : key.MadeOf T ∧ value.MadeOf T := ⟨hkey key rfl, hvalue value rfl⟩
                  refine (afterItem_traced .object .rightObject rest'').bind ?_
                  intro more last hle'' _
                  cases more with
                  | true =>
                      refine Traced.map ((pairs_traced last).mono ?_)
                      intro items hitems
                      exact ⟨hmade, hitems⟩
                  | false => exact traced_done ⟨hmade, trivial⟩
termination_by (ts.length, 3)

theorem condition_traced (ts : List Token) :
    (condition eof ts).TracedSome T eof ts fun read => read.1.MadeOf T := by
  rw [condition]
  refine (expect_traced .leftParen ts).andThen ?_
  intro _ rest hle _
  refine (exprAt_traced .lowest rest).andThen ?_
  intro test rest' _ htest
  refine (expect_traced .rightParen rest').andThen ?_
  intro _ rest'' _ _
  refine (expect_traced .leftBrace rest'').andThen ?_
  intro brace last _ _
  exact tracedSome_done htest
termination_by (ts.length, 3)
decreasing_by exact measure_lt_of_le ‹_› (by decide)

theorem block_traced (brace : Token) (ts : List Token) :
    (block eof brace ts).Traced T eof ts (Block.MadeOf T) := by
  rw [block]
  exact Traced.map (statements_traced true ts)
termination_by (ts.length, 4)

theorem statement_traced (t : Token) (ts : List Token) :
    (statement eof t ts).TracedSome T eof (t :: ts) (Stmt.MadeOf T) := by
  rw [statement]
  cases t.kind with
  | letWord =>
      refine .take fun _ => (expect_traced .identifier ts).andThen ?_
      rintro name rest hle ⟨hname, hkind⟩
      refine (expect_traced .assign rest).andThen ?_
      intro _ rest' hle' _
      refine (exprAt_traced .lowest rest').andThen ?_
      intro value rest'' hle'' hvalue
      exact closed_traced rest'' ⟨⟨name, hname, hkind, rfl⟩, hvalue⟩
  | returnWord =>
      dsimp only
      split
      · exact .take fun _ => closed_traced ts trivial
      · refine .take fun _ => (exprAt_traced .lowest ts).andThen ?_
        intro value rest hle hvalue
        exact closed_traced rest hvalue
  | leftBrace => exact .take fun _ => Traced.mapSome (block_traced t ts)
  | _ =>
      refine (expr_traced .lowest t ts).andThen ?_
      intro value rest hle hvalue
      have hmade : Stmt.MadeOf T (.expression t value) := hvalue
      split
      · next hsemicolon => exact .of_take? hsemicolon (tracedSome_done hmade).weaken
      · exact tracedSome_done hmade
termination_by (ts.length + 1, 2)

theorem statements_traced (inBlock : Bool) (ts : List Token) :
    (statements eof inBlock ts [] []).Traced T eof ts (stmtsMadeOf T) := by
  cases ts with
  | nil =>
      rw [statements]
      exact traced_done trivial
  | cons t rest =>
      by_cases hclose : inBlock ∧ t.kind = .rightBrace
      · obtain ⟨rfl, hkind⟩ := hclose
        have hends : (Parsed.done [] rest).Traced T eof (t :: rest) (stmtsMadeOf T) :=
          .take fun _ => traced_done trivial
        exact hends.congr (statements_close hkind)
      · -- the statement and those behind it are read in a row, as if by `bind`
        have hrow : ((statement eof t rest).bind fun stmt? behind _ =>
            (statements eof inBlock behind [] []).map (stmt?.toList ++ ·)).Traced T eof (t :: rest)
              (stmtsMadeOf T) := by
          refine Traced.bind (statement_traced t rest) ?_
          intro stmt? behind hle hstmt
          have hlt : behind.length < rest.length + 1 := Nat.lt_succ_of_le hle
          refine Traced.map ((statements_traced inBlock behind).mono ?_)
          intro stmts hstmts
          exact stmtsMadeOf_append (stmtsMadeOf_toList hstmt) hstmts
        exact hrow.congr (statements_cons hclose)
termination_by (ts.length, 3)

end

end Parser

/-! ## Whole texts -/

/--
**Nothing is made up, whatever goes wrong.** The names, numbers and strings of the program that is
read are tokens of the stream, and every report stands at the token that it names.
-/
theorem ParsedProgram.within_ofTokens {T : Token → Prop} (stream : TokenStream)
    (h : ∀ t ∈ stream.tokens, T t) :
    (ofTokens stream).program.MadeOf T ∧
    ∀ d ∈ (ofTokens stream).diagnostics, d.About T stream.eof := by
  have hread : (Parser.statements stream.eof false stream.tokens [] []).Within T stream.eof
      (stmtsMadeOf T) := (Parser.statements_traced false stream.tokens h).2
  exact ⟨hread.value, hread.places⟩

/-- **Reading a text** passes along all its tokens. -/
theorem ParsedProgram.passes_ofTokens (stream : TokenStream) :
    Passes stream.eof stream.tokens [] (ofTokens stream).diagnostics := by
  have hread : Passes stream.eof stream.tokens
      (Parser.statements stream.eof false stream.tokens [] []).outcome.rest
      (ofTokens stream).diagnostics :=
    (Parser.statements_traced (T := fun _ => True) false stream.tokens fun _ _ => trivial).1
  rwa [Parser.rest_statements] at hread

end ExprMachine
