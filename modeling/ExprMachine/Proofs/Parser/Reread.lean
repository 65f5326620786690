import ExprMachine.Proofs.Ast.Legible
import ExprMachine.Proofs.Parser.Success

/-!
# The canonical tokens are read as the tree

The tokens that `spelling` lists for a legible tree are read back as that tree, up to places, and
nothing is reported. An expression is read as far as its own tokens go and then meets what follows:
at every level below that of calls it ends up where the continuations behind it are read with the
expression on their left (`Expr.Readable`). That form is what a callee needs, whose arguments are
such a continuation, and it gives the plain statement wherever a token follows that continues
nothing. Statements are read to their end because each is closed by a semicolon, by a brace of its
own or by the end of the list.
-/

namespace ExprMachine

open ExprMachine.Parser

/-! ## Tokens that are spelled in a certain way -/

/-- The tokens in front of `rest` are spelled `sp`. -/
def Spells (ts : List Token) (sp : List Spelling) (rest : List Token) : Prop :=
  ∃ front, ts = front ++ rest ∧ front.map Token.spelling = sp

theorem spells_nil {ts rest : List Token} : Spells ts [] rest ↔ ts = rest := by
  constructor
  · rintro ⟨front, rfl, hfront⟩
    rw [List.map_eq_nil_iff.mp hfront]
    rfl
  · rintro rfl
    exact ⟨[], rfl, rfl⟩

theorem spells_cons {ts rest : List Token} {s : Spelling} {sp : List Spelling} :
    Spells ts (s :: sp) rest ↔ ∃ t mid, ts = t :: mid ∧ t.spelling = s ∧ Spells mid sp rest := by
  constructor
  · rintro ⟨front, rfl, hfront⟩
    obtain ⟨t, front, rfl, ht, hfront⟩ := List.map_eq_cons_iff.mp hfront
    exact ⟨t, front ++ rest, rfl, ht, front, rfl, hfront⟩
  · rintro ⟨t, mid, rfl, rfl, front, rfl, rfl⟩
    exact ⟨t :: front, rfl, rfl⟩

theorem spells_append {ts rest : List Token} {a b : List Spelling} :
    Spells ts (a ++ b) rest ↔ ∃ mid, Spells ts a mid ∧ Spells mid b rest := by
  constructor
  · rintro ⟨front, rfl, hfront⟩
    obtain ⟨xs, ys, rfl, rfl, rfl⟩ := List.map_eq_append_iff.mp hfront
    exact ⟨ys ++ rest, ⟨xs, List.append_assoc xs ys rest, rfl⟩, ys, rfl, rfl⟩
  · rintro ⟨mid, ⟨xs, rfl, rfl⟩, ys, rfl, rfl⟩
    exact ⟨xs ++ ys, (List.append_assoc xs ys rest).symm, List.map_append⟩

theorem Token.kind_of_spelling {t : Token} {s : Spelling} (h : t.spelling = s) : t.kind = s.1 :=
  congrArg Prod.fst h

theorem Token.literal_of_spelling {t : Token} {s : Spelling} (h : t.spelling = s) :
    t.literal = s.2 :=
  congrArg Prod.snd h

theorem commaSeparated_one (sp : List Spelling) : Spelling.commaSeparated [sp] = sp := by
  simp [Spelling.commaSeparated]

theorem commaSeparated_cons (sp next : List Spelling) (sps : List (List Spelling)) :
    Spelling.commaSeparated (sp :: next :: sps) =
      sp ++ .sign ',' :: Spelling.commaSeparated (next :: sps) := by
  simp [Spelling.commaSeparated]

theorem commaSeparated_head (s : Spelling) (sp : List Spelling) (sps : List (List Spelling)) :
    ∃ more, Spelling.commaSeparated ((s :: sp) :: sps) = s :: more := by
  cases sps with
  | nil => exact ⟨sp, commaSeparated_one _⟩
  | cons next sps => exact ⟨_, commaSeparated_cons _ next sps⟩

/-- A list begins with its first part. -/
theorem first_of_commaSeparated {s : Spelling} {sp : List Spelling} {sps : List (List Spelling)}
    {ts rest : List Token}
    (hs : Spells ts (Spelling.commaSeparated ((s :: sp) :: sps)) rest) :
    ∃ t mid, ts = t :: mid ∧ t.spelling = s := by
  obtain ⟨more, hmore⟩ := commaSeparated_head s sp sps
  rw [hmore] at hs
  obtain ⟨t, mid, rfl, ht, -⟩ := spells_cons.mp hs
  exact ⟨t, mid, rfl, ht⟩

/-! ## How constructs begin -/

/-- The kinds that an expression begins with. -/
def startsExpr (kind : Token.Kind) : Bool :=
  kind ∈ [Token.Kind.identifier, .integer, .string, .trueWord, .falseWord, .leftParen,
    .leftBracket, .leftObject, .ifWord, .forWord, .fnWord]

/-- The kinds that a statement begins with. -/
def startsStmt (kind : Token.Kind) : Bool :=
  startsExpr kind || kind ∈ [Token.Kind.letWord, .returnWord, .leftBrace]

theorem ne_of_startsExpr {kind other : Token.Kind} (h : startsExpr kind)
    (hother : ¬startsExpr other) : kind ≠ other := by
  rintro rfl
  exact hother h

theorem ne_of_startsStmt {kind other : Token.Kind} (h : startsStmt kind)
    (hother : ¬startsStmt other) : kind ≠ other := by
  rintro rfl
  exact hother h

theorem Expr.head_spelling {expr : Expr} (h : expr.MadeOf Token.Legible) :
    ∃ s sp, expr.spelling = s :: sp ∧ startsExpr s.1 := by
  cases expr with
  | identifier id =>
      obtain ⟨t, ht, hkind, rfl⟩ := h
      refine ⟨_, _, rfl, ?_⟩
      simp [Spelling.word, Identifier.ofToken, (ht.word hkind).2, startsExpr]
  | bool pos value => cases value <;> exact ⟨_, _, rfl, rfl⟩
  | branch pos condition consequence alternative? =>
      cases alternative? <;> exact ⟨_, _, rfl, rfl⟩
  | call pos callee arguments =>
      have hcallee : callee.MadeOf Token.Legible := h.1
      obtain ⟨s, sp, hsp, hs⟩ := Expr.head_spelling hcallee
      exact ⟨s, _, by rw [Expr.spelling, hsp, List.cons_append], hs⟩
  | _ => exact ⟨_, _, rfl, rfl⟩

theorem Stmt.head_spelling {stmt : Stmt} (h : stmt.MadeOf Token.Legible) :
    ∃ s sp, stmt.spelling = s :: sp ∧ startsStmt s.1 := by
  cases stmt with
  | exit pos value? => cases value? <;> exact ⟨_, _, rfl, rfl⟩
  | expression start value =>
      have hvalue : value.MadeOf Token.Legible := h
      obtain ⟨s, sp, hsp, hs⟩ := Expr.head_spelling hvalue
      exact ⟨s, sp, hsp, by simp [startsStmt, hs]⟩
  | block body =>
      obtain ⟨pos, stmts⟩ := body
      exact ⟨_, _, rfl, rfl⟩
  | _ => exact ⟨_, _, rfl, rfl⟩

theorem Expr.first_of_spells {expr : Expr} (h : expr.MadeOf Token.Legible) {ts rest : List Token}
    (hs : Spells ts expr.spelling rest) : ∃ t mid, ts = t :: mid ∧ startsExpr t.kind := by
  obtain ⟨s, sp, hsp, hstart⟩ := Expr.head_spelling h
  rw [hsp] at hs
  obtain ⟨t, mid, rfl, rfl, -⟩ := spells_cons.mp hs
  exact ⟨t, mid, rfl, hstart⟩

theorem Stmt.first_of_spells {stmt : Stmt} (h : stmt.MadeOf Token.Legible) {ts rest : List Token}
    (hs : Spells ts stmt.spelling rest) : ∃ t mid, ts = t :: mid ∧ startsStmt t.kind := by
  obtain ⟨s, sp, hsp, hstart⟩ := Stmt.head_spelling h
  rw [hsp] at hs
  obtain ⟨t, mid, rfl, rfl, -⟩ := spells_cons.mp hs
  exact ⟨t, mid, rfl, hstart⟩

/-! ## What is owed -/

/-- Read at a level below that of calls, the expression is what the continuations behind it find
on their left. -/
def Expr.Readable (expr : Expr) : Prop :=
  ∀ (eof : Position) (level : Precedence) (ts rest : List Token), level < .call →
    Spells ts expr.spelling rest → nextKind rest ≠ .elseWord →
    ∃ e, e.erase = expr.erase ∧
      (exprAt eof level ts).outcome = (continuations eof level e rest).outcome

/-- The block is read from its opening brace to its closing one. -/
def Block.Readable (block : Block) : Prop :=
  ∀ (eof : Position) (ts rest : List Token), Spells ts block.spelling rest →
    ∃ brace mid b, ts = brace :: mid ∧ brace.kind = .leftBrace ∧ b.erase = block.erase ∧
      (Parser.block eof brace mid).outcome = ⟨b, rest, []⟩

/-- What may stand behind a statement: its terminator in front of another one, or nothing at the
end of a list. -/
def Stmt.ClosedBy (stmt : Stmt) (closing : List Spelling) (rest : List Token) : Prop :=
  (closing = stmt.terminatorSpelling ∧ nextKind rest ≠ .semicolon) ∨
    (closing = [] ∧ nextKind rest ∈ [Token.Kind.rightBrace, .eof])

/-- The statement is read with what closes it. -/
def Stmt.Readable (stmt : Stmt) : Prop :=
  ∀ (eof : Position) (t : Token) (ts rest : List Token) (closing : List Spelling),
    stmt.ClosedBy closing rest → Spells (t :: ts) (stmt.spelling ++ closing) rest →
    ∃ s, s.erase = stmt.erase ∧ (statement eof t ts).outcome = ⟨some s, rest, []⟩

/-- The next token continues nothing. -/
def Stops (rest : List Token) : Prop :=
  Continuation.ofKind? (nextKind rest) = none ∧ nextKind rest ≠ .elseWord

theorem stops_cons {t : Token} {kind : Token.Kind} (rest : List Token) (h : t.kind = kind)
    (hkind : Continuation.ofKind? kind = none ∧ kind ≠ .elseWord) :
    Stops (t :: rest) := by
  subst h
  exact hkind

/-- An expression in front of a token that continues nothing is read as it is. -/
theorem Expr.Readable.stop {expr : Expr} (h : expr.Readable) (eof : Position)
    (level : Precedence) (hl : level < .call) {ts rest : List Token}
    (hs : Spells ts expr.spelling rest) (hrest : Stops rest) :
    ∃ e, e.erase = expr.erase ∧ (exprAt eof level ts).outcome = ⟨some e, rest, []⟩ := by
  obtain ⟨e, he, hread⟩ := h eof level ts rest hl hs hrest.2
  exact ⟨e, he, hread.trans (continuations_stop hrest.1)⟩

theorem Expr.Readable.lowest {expr : Expr} (h : expr.Readable) (eof : Position)
    {ts rest : List Token} (hs : Spells ts expr.spelling rest) (hrest : Stops rest) :
    ∃ e, e.erase = expr.erase ∧ (exprAt eof .lowest ts).outcome = ⟨some e, rest, []⟩ :=
  h.stop eof .lowest (by decide) hs hrest

/-! ## Lists -/

theorem Identifier.of_spelling {id : Identifier} (h : id.MadeOf Token.Legible) {t : Token}
    (ht : t.spelling = .word id.name) :
    t.kind = .identifier ∧ (Identifier.ofToken t).erase = id.erase := by
  have hkind := Token.kind_of_spelling ht
  have hliteral : t.literal = id.name := Token.literal_of_spelling ht
  obtain ⟨t', ht', hkind', rfl⟩ := h
  refine ⟨hkind.trans (ht'.word hkind').2, ?_⟩
  rw [Identifier.erase, Identifier.erase, ← hliteral]
  rfl

theorem moreParams_readable {id : Identifier} {ids : List Identifier}
    (h : ∀ i ∈ id :: ids, i.MadeOf Token.Legible) (eof : Position) {ts rest : List Token}
    {c : Token} (hc : c.kind = .rightParen)
    (hs : Spells ts (Spelling.commaSeparated ((id :: ids).map fun i => [.word i.name]))
      (c :: rest)) :
    ∃ names, names.map Identifier.erase = (id :: ids).map Identifier.erase ∧
      (moreParams eof ts).outcome = ⟨some names, rest, []⟩ := by
  obtain ⟨hid, hids⟩ := List.forall_mem_cons.mp h
  induction ids generalizing id ts with
  | nil =>
      rw [List.map_cons, List.map_nil, commaSeparated_one] at hs
      obtain ⟨t, mid, rfl, ht, hs⟩ := spells_cons.mp hs
      obtain rfl := spells_nil.mp hs
      obtain ⟨hkind, herase⟩ := Identifier.of_spelling hid ht
      exact ⟨[.ofToken t], by simp [herase], moreParams_last hkind hc⟩
  | cons next ids ih =>
      rw [List.map_cons, List.map_cons, commaSeparated_cons] at hs
      obtain ⟨t, mid, rfl, ht, hs⟩ := spells_cons.mp hs
      obtain ⟨comma, mid', rfl, hcomma, hs⟩ := spells_cons.mp hs
      obtain ⟨hkind, herase⟩ := Identifier.of_spelling hid ht
      obtain ⟨hnext, hothers⟩ := List.forall_mem_cons.mp hids
      obtain ⟨names, hnames, hread⟩ := ih hids hs hnext hothers
      refine ⟨.ofToken t :: names, ?_, ?_⟩
      · rw [List.map_cons, hnames, herase]
        rfl
      · exact moreParams_cons hkind (Token.kind_of_spelling hcomma) hread

theorem params_readable {ids : List Identifier} (h : ∀ i ∈ ids, i.MadeOf Token.Legible)
    (eof : Position) {ts rest : List Token} {c : Token} (hc : c.kind = .rightParen)
    (hs : Spells ts (Spelling.commaSeparated (ids.map fun i => [.word i.name])) (c :: rest)) :
    ∃ names, names.map Identifier.erase = ids.map Identifier.erase ∧
      (params eof ts).outcome = ⟨some names, rest, []⟩ := by
  cases ids with
  | nil =>
      obtain rfl := spells_nil.mp hs
      refine ⟨[], rfl, ?_⟩
      rw [params, take?_cons rest hc]
      rfl
  | cons id ids =>
      obtain ⟨names, hnames, hread⟩ := moreParams_readable h eof hc hs
      obtain ⟨t, mid, rfl, ht⟩ := first_of_commaSeparated hs
      have hkind := (Identifier.of_spelling (h id List.mem_cons_self) ht).1
      have hfirst : nextKind (t :: mid) ≠ .rightParen := by simp [nextKind, hkind]
      refine ⟨names, hnames, ?_⟩
      rw [params, take?_none hfirst]
      exact hread

theorem moreArguments_readable {expr : Expr} {exprs : List Expr}
    (h : ∀ e ∈ expr :: exprs, e.Readable) (eof : Position) {ts rest : List Token} {c : Token}
    (hc : c.kind = .rightParen)
    (hs : Spells ts (Spelling.commaSeparated (exprSpellings (expr :: exprs))) (c :: rest)) :
    ∃ items, eraseExprs items = eraseExprs (expr :: exprs) ∧
      (moreArguments eof ts).outcome = ⟨some items, rest, []⟩ := by
  obtain ⟨hexpr, hexprs⟩ := List.forall_mem_cons.mp h
  induction exprs generalizing expr ts with
  | nil =>
      rw [exprSpellings, exprSpellings, commaSeparated_one] at hs
      obtain ⟨e, he, hread⟩ := hexpr.lowest eof hs (stops_cons rest hc (by decide))
      exact ⟨[e], by rw [eraseExprs, he]; rfl, moreArguments_last hread hc⟩
  | cons next exprs ih =>
      rw [exprSpellings, exprSpellings, commaSeparated_cons] at hs
      obtain ⟨mid, hs, hmore⟩ := spells_append.mp hs
      obtain ⟨comma, mid', rfl, hcomma, hmore⟩ := spells_cons.mp hmore
      have hkind : comma.kind = .comma := Token.kind_of_spelling hcomma
      obtain ⟨e, he, hread⟩ := hexpr.lowest eof hs (stops_cons mid' hkind (by decide))
      obtain ⟨hnext, hothers⟩ := List.forall_mem_cons.mp hexprs
      obtain ⟨items, hitems, hreads⟩ := ih hexprs hmore hnext hothers
      refine ⟨e :: items, ?_, moreArguments_cons hread hkind hreads⟩
      rw [eraseExprs, he, hitems]
      rfl

/-- The first token of a list of expressions begins one. -/
theorem first_of_exprSpellings {expr : Expr} {exprs : List Expr} (h : expr.MadeOf Token.Legible)
    {ts rest : List Token}
    (hs : Spells ts (Spelling.commaSeparated (exprSpellings (expr :: exprs))) rest) :
    ∃ t mid, ts = t :: mid ∧ startsExpr t.kind := by
  obtain ⟨s, sp, hsp, hstart⟩ := Expr.head_spelling h
  rw [exprSpellings, hsp] at hs
  obtain ⟨t, mid, rfl, rfl⟩ := first_of_commaSeparated hs
  exact ⟨t, mid, rfl, hstart⟩

theorem arguments_readable {exprs : List Expr} (hmade : exprsMadeOf Token.Legible exprs)
    (h : ∀ e ∈ exprs, e.Readable) (eof : Position) {ts rest : List Token} {c : Token}
    (hc : c.kind = .rightParen)
    (hs : Spells ts (Spelling.commaSeparated (exprSpellings exprs)) (c :: rest)) :
    ∃ items, eraseExprs items = eraseExprs exprs ∧
      (arguments eof ts).outcome = ⟨some items, rest, []⟩ := by
  cases exprs with
  | nil =>
      obtain rfl := spells_nil.mp hs
      refine ⟨[], rfl, ?_⟩
      rw [arguments, take?_cons rest hc]
      rfl
  | cons expr exprs =>
      obtain ⟨items, hitems, hread⟩ := moreArguments_readable h eof hc hs
      obtain ⟨t, mid, rfl, hstart⟩ := first_of_exprSpellings hmade.1 hs
      have hfirst : nextKind (t :: mid) ≠ .rightParen := ne_of_startsExpr hstart (by decide)
      refine ⟨items, hitems, ?_⟩
      rw [arguments, take?_none hfirst]
      exact hread

/-- Elements are read as they are up to the last one, and what becomes of the list then depends on
what the last one meets. -/
theorem elements_until {expr : Expr} {exprs : List Expr}
    (hmade : exprsMadeOf Token.Legible (expr :: exprs)) (h : ∀ e ∈ expr :: exprs, e.Readable)
    {eof : Position} {ts rest last : List Token} {ds : List Diagnostic} (hrest : Stops rest)
    (hlast : ∀ {t mid item}, t.kind ≠ .rightBracket →
      (exprAt eof .lowest (t :: mid)).outcome = ⟨some item, rest, []⟩ →
      (elements eof (t :: mid)).outcome = ⟨[item], last, ds⟩)
    (hs : Spells ts (Spelling.commaSeparated (exprSpellings (expr :: exprs))) rest) :
    ∃ items, eraseExprs items = eraseExprs (expr :: exprs) ∧
      (elements eof ts).outcome = ⟨items, last, ds⟩ := by
  induction exprs generalizing expr ts with
  | nil =>
      obtain ⟨t, mid, rfl, hstart⟩ := first_of_exprSpellings hmade.1 hs
      rw [exprSpellings, exprSpellings, commaSeparated_one] at hs
      obtain ⟨e, he, hread⟩ := (h expr List.mem_cons_self).lowest eof hs hrest
      exact ⟨[e], by rw [eraseExprs, he]; rfl,
        hlast (ne_of_startsExpr hstart (by decide)) hread⟩
  | cons next exprs ih =>
      obtain ⟨t, mid, rfl, hstart⟩ := first_of_exprSpellings hmade.1 hs
      rw [exprSpellings, exprSpellings, commaSeparated_cons] at hs
      obtain ⟨mid', hs, hmore⟩ := spells_append.mp hs
      obtain ⟨comma, mid'', rfl, hcomma, hmore⟩ := spells_cons.mp hmore
      obtain ⟨hexpr, hexprs⟩ := List.forall_mem_cons.mp h
      have hkind : comma.kind = .comma := Token.kind_of_spelling hcomma
      obtain ⟨e, he, hread⟩ := hexpr.lowest eof hs (stops_cons mid'' hkind (by decide))
      obtain ⟨items, hitems, hreads⟩ := ih hmade.2 hexprs hmore
      refine ⟨e :: items, ?_,
        elements_cons (ne_of_startsExpr hstart (by decide)) hread hkind hreads⟩
      rw [eraseExprs, he, hitems]
      rfl

theorem elements_readable {exprs : List Expr} (hmade : exprsMadeOf Token.Legible exprs)
    (h : ∀ e ∈ exprs, e.Readable) (eof : Position) {ts rest : List Token} {c : Token}
    (hc : c.kind = .rightBracket)
    (hs : Spells ts (Spelling.commaSeparated (exprSpellings exprs)) (c :: rest)) :
    ∃ items, eraseExprs items = eraseExprs exprs ∧
      (elements eof ts).outcome = ⟨items, rest, []⟩ := by
  cases exprs with
  | nil =>
      obtain rfl := spells_nil.mp hs
      exact ⟨[], rfl, elements_close rest hc⟩
  | cons expr exprs =>
      exact elements_until hmade h (stops_cons rest hc (by decide))
        (fun ht hread => elements_last ht hread hc) hs

/-- A pair begins with its key. -/
theorem first_of_pairSpellings {key value : Expr} {items : List (Expr × Expr)}
    (h : key.MadeOf Token.Legible) {ts rest : List Token}
    (hs : Spells ts (Spelling.commaSeparated (pairSpellings ((key, value) :: items))) rest) :
    ∃ t mid, ts = t :: mid ∧ startsExpr t.kind := by
  obtain ⟨s, sp, hsp, hstart⟩ := Expr.head_spelling h
  rw [pairSpellings, hsp, List.cons_append] at hs
  obtain ⟨t, mid, rfl, rfl⟩ := first_of_commaSeparated hs
  exact ⟨t, mid, rfl, hstart⟩

/-- Pairs are read as they are up to the last one, and what becomes of the list then depends on what
the last one meets. -/
theorem pairs_until {pair : Expr × Expr} {items : List (Expr × Expr)}
    (hmade : pairsMadeOf Token.Legible (pair :: items))
    (h : ∀ p ∈ pair :: items, p.1.Readable ∧ p.2.Readable) {eof : Position}
    {ts rest last : List Token} {ds : List Diagnostic} (hrest : Stops rest)
    (hlast : ∀ {t mid colon mid' key value}, t.kind ≠ .rightObject →
      (exprAt eof .lowest (t :: mid)).outcome = ⟨some key, colon :: mid', []⟩ →
      colon.kind = .colon → (exprAt eof .lowest mid').outcome = ⟨some value, rest, []⟩ →
      (pairs eof (t :: mid)).outcome = ⟨[(key, value)], last, ds⟩)
    (hs : Spells ts (Spelling.commaSeparated (pairSpellings (pair :: items))) rest) :
    ∃ read, erasePairs read = erasePairs (pair :: items) ∧
      (pairs eof ts).outcome = ⟨read, last, ds⟩ := by
  induction items generalizing pair ts with
  | nil =>
      obtain ⟨key, value⟩ := pair
      obtain ⟨hkey, hvalue⟩ := h (key, value) List.mem_cons_self
      obtain ⟨t, mid, rfl, hstart⟩ := first_of_pairSpellings hmade.1.1 hs
      rw [pairSpellings, pairSpellings, commaSeparated_one] at hs
      obtain ⟨mid', hs, hmore⟩ := spells_append.mp hs
      obtain ⟨colon, mid'', rfl, hcolon, hmore⟩ := spells_cons.mp hmore
      have hkind : colon.kind = .colon := Token.kind_of_spelling hcolon
      obtain ⟨k, hk, hread⟩ := hkey.lowest eof hs (stops_cons mid'' hkind (by decide))
      obtain ⟨v, hv, hread'⟩ := hvalue.lowest eof hmore hrest
      refine ⟨[(k, v)], ?_, hlast (ne_of_startsExpr hstart (by decide)) hread hkind hread'⟩
      rw [erasePairs, hk, hv]
      rfl
  | cons next items ih =>
      obtain ⟨key, value⟩ := pair
      obtain ⟨⟨hkey, hvalue⟩, hitems⟩ := List.forall_mem_cons.mp h
      obtain ⟨t, mid, rfl, hstart⟩ := first_of_pairSpellings hmade.1.1 hs
      -- a comma is written only in front of a further pair
      obtain ⟨sp', hnext⟩ : ∃ sp', pairSpellings (next :: items) = sp' :: pairSpellings items :=
        ⟨_, rfl⟩
      rw [pairSpellings, hnext, commaSeparated_cons, List.append_assoc] at hs
      obtain ⟨mid', hs, hmore⟩ := spells_append.mp hs
      obtain ⟨colon, mid'', rfl, hcolon, hmore⟩ := spells_cons.mp hmore
      obtain ⟨mid₃, hs', hmore⟩ := spells_append.mp hmore
      obtain ⟨comma, mid₄, rfl, hcomma, hmore⟩ := spells_cons.mp hmore
      have hkind : colon.kind = .colon := Token.kind_of_spelling hcolon
      have hkind' : comma.kind = .comma := Token.kind_of_spelling hcomma
      obtain ⟨k, hk, hread⟩ := hkey.lowest eof hs (stops_cons mid'' hkind (by decide))
      obtain ⟨v, hv, hread'⟩ := hvalue.lowest eof hs' (stops_cons mid₄ hkind' (by decide))
      rw [← hnext] at hmore
      obtain ⟨read, hreads, hread''⟩ := ih hmade.2 hitems hmore
      refine ⟨(k, v) :: read, ?_, pairs_cons (ne_of_startsExpr hstart (by decide)) hread hkind
        hread' hkind' hread''⟩
      rw [erasePairs, hk, hv, hreads]
      rfl

theorem pairs_readable {items : List (Expr × Expr)} (hmade : pairsMadeOf Token.Legible items)
    (h : ∀ p ∈ items, p.1.Readable ∧ p.2.Readable) (eof : Position) {ts rest : List Token}
    {c : Token} (hc : c.kind = .rightObject)
    (hs : Spells ts (Spelling.commaSeparated (pairSpellings items)) (c :: rest)) :
    ∃ read, erasePairs read = erasePairs items ∧
      (pairs eof ts).outcome = ⟨read, rest, []⟩ := by
  cases items with
  | nil =>
      obtain rfl := spells_nil.mp hs
      exact ⟨[], rfl, pairs_close rest hc⟩
  | cons pair items =>
      exact pairs_until hmade h (stops_cons rest hc (by decide))
        (fun ht hread hcolon hread' => pairs_last ht hread hcolon hread' hc) hs

/-! ## Statements -/

/-- A statement that brings its own end needs no terminator. -/
theorem Stmt.ClosedBy.plain {stmt : Stmt} {closing : List Spelling} {rest : List Token}
    (h : stmt.ClosedBy closing rest) (hstmt : stmt.terminatorSpelling = []) :
    closing = [] ∧ nextKind rest ≠ .semicolon := by
  rcases h with ⟨rfl, hrest⟩ | ⟨rfl, hrest⟩
  · exact ⟨hstmt, hrest⟩
  · refine ⟨rfl, ?_⟩
    intro heq
    rw [heq] at hrest
    revert hrest
    decide

theorem stops_of_end {rest : List Token} (h : nextKind rest ∈ [Token.Kind.rightBrace, .eof]) :
    Stops rest ∧ nextKind rest ≠ .semicolon := by
  unfold Stops
  simp only [List.mem_cons, List.not_mem_nil, or_false] at h
  rcases h with h | h <;> rw [h] <;> decide

/-- An expression begins like no statement of another form. -/
theorem Expr.first_not_stmt {value : Expr} (hmade : value.MadeOf Token.Legible) {t : Token}
    {ts rest : List Token} (hs : Spells (t :: ts) value.spelling rest) :
    t.kind ∉ [Token.Kind.letWord, .returnWord, .leftBrace] := by
  obtain ⟨_, _, ⟨⟩, hstart⟩ := Expr.first_of_spells hmade hs
  intro hmem
  simp only [List.mem_cons, List.not_mem_nil, or_false] at hmem
  rcases hmem with hmem | hmem | hmem <;> exact ne_of_startsExpr hstart (by decide) hmem

theorem Stmt.erase_expression {start t : Token} {value e : Expr} (he : e.erase = value.erase) :
    (Stmt.expression t e).erase = (Stmt.expression start value).erase := by
  rw [Stmt.erase, Stmt.erase, he]

/-- An expression with a semicolon behind it is read whatever follows, also another semicolon. -/
theorem Stmt.expression_terminated {start : Token} {value : Expr}
    (hmade : value.MadeOf Token.Legible) (h : value.Readable) (eof : Position) {t : Token}
    {ts rest : List Token} (hs : Spells (t :: ts) (value.spelling ++ [.sign ';']) rest) :
    ∃ s, s.erase = (Stmt.expression start value).erase ∧
      (statement eof t ts).outcome = ⟨some s, rest, []⟩ := by
  obtain ⟨mid, hvalue, hclosing⟩ := spells_append.mp hs
  obtain ⟨semi, last, rfl, hsemi, hlast⟩ := spells_cons.mp hclosing
  obtain rfl := spells_nil.mp hlast
  have hkind : semi.kind = .semicolon := Token.kind_of_spelling hsemi
  obtain ⟨e, he, hread⟩ := h.lowest eof hvalue (stops_cons last hkind (by decide))
  exact ⟨_, erase_expression he,
    statement_expressionClosed (Expr.first_not_stmt hmade hvalue) hread hkind⟩

theorem Stmt.readable_expression {start : Token} {value : Expr}
    (hmade : value.MadeOf Token.Legible) (h : value.Readable) :
    (Stmt.expression start value).Readable := by
  intro eof t ts rest closing hclosed hs
  rcases hclosed with ⟨rfl, -⟩ | ⟨rfl, hend⟩
  · exact Stmt.expression_terminated hmade h eof hs
  · rw [List.append_nil, Stmt.spelling] at hs
    obtain ⟨hstop, hne⟩ := stops_of_end hend
    obtain ⟨e, he, hread⟩ := h.lowest eof hs hstop
    exact ⟨_, erase_expression he,
      statement_expression (Expr.first_not_stmt hmade hs) hread hne⟩

theorem Stmt.readable_binding {pos : Position} {name : Identifier} {value : Expr}
    (hname : name.MadeOf Token.Legible) (h : value.Readable) :
    (Stmt.binding pos name value).Readable := by
  intro eof t ts rest closing hclosed hs
  obtain ⟨rfl, hne⟩ := hclosed.plain rfl
  rw [List.append_nil, Stmt.spelling] at hs
  obtain ⟨_, _, ⟨⟩, hlet, hs⟩ := spells_cons.mp hs
  obtain ⟨n, ts, rfl, hn, hs⟩ := spells_cons.mp hs
  obtain ⟨a, ts, rfl, ha, hs⟩ := spells_cons.mp hs
  obtain ⟨mid, hvalue, hs⟩ := spells_append.mp hs
  obtain ⟨semi, last, rfl, hsemi, hlast⟩ := spells_cons.mp hs
  obtain rfl := spells_nil.mp hlast
  have hkind : semi.kind = .semicolon := Token.kind_of_spelling hsemi
  obtain ⟨hnkind, hnerase⟩ := Identifier.of_spelling hname hn
  obtain ⟨e, he, hread⟩ := h.lowest eof hvalue (stops_cons last hkind (by decide))
  refine ⟨_, ?_, statement_binding ((Token.kind_of_spelling hlet).trans rfl) hnkind
    (Token.kind_of_spelling ha) hread hkind hne⟩
  rw [Stmt.erase, Stmt.erase, hnerase, he]

theorem Stmt.readable_exit (pos : Position) : (Stmt.exit pos none).Readable := by
  intro eof t ts rest closing hclosed hs
  obtain ⟨rfl, hne⟩ := hclosed.plain rfl
  rw [List.append_nil, Stmt.spelling] at hs
  obtain ⟨_, _, ⟨⟩, hreturn, hs⟩ := spells_cons.mp hs
  obtain ⟨semi, last, rfl, hsemi, hlast⟩ := spells_cons.mp hs
  obtain rfl := spells_nil.mp hlast
  exact ⟨.exit t.pos none, rfl,
    statement_exit (Token.kind_of_spelling hreturn) (Token.kind_of_spelling hsemi) hne⟩

theorem Stmt.readable_exitWith {pos : Position} {value : Expr}
    (hmade : value.MadeOf Token.Legible) (h : value.Readable) :
    (Stmt.exit pos (some value)).Readable := by
  intro eof t ts rest closing hclosed hs
  obtain ⟨rfl, hne⟩ := hclosed.plain rfl
  rw [List.append_nil, Stmt.spelling] at hs
  obtain ⟨_, _, ⟨⟩, hreturn, hs⟩ := spells_cons.mp hs
  obtain ⟨mid, hvalue, hs⟩ := spells_append.mp hs
  obtain ⟨semi, last, rfl, hsemi, hlast⟩ := spells_cons.mp hs
  obtain rfl := spells_nil.mp hlast
  have hkind : semi.kind = .semicolon := Token.kind_of_spelling hsemi
  obtain ⟨e, he, hread⟩ := h.lowest eof hvalue (stops_cons last hkind (by decide))
  obtain ⟨t', mid', rfl, hstart⟩ := Expr.first_of_spells hmade hvalue
  have hfirst : nextKind (t' :: mid') ∉ [Token.Kind.semicolon, .rightBrace, .eof] := by
    intro hmem
    simp only [nextKind, List.mem_cons, List.not_mem_nil, or_false] at hmem
    rcases hmem with hmem | hmem | hmem <;> exact ne_of_startsExpr hstart (by decide) hmem
  refine ⟨_, ?_, statement_exitWith (Token.kind_of_spelling hreturn) hfirst hread hkind hne⟩
  rw [Stmt.erase, Stmt.erase, he]

theorem Stmt.readable_block {body : Block} (h : body.Readable) : (Stmt.block body).Readable := by
  intro eof t ts rest closing hclosed hs
  obtain ⟨rfl, hne⟩ := hclosed.plain rfl
  rw [List.append_nil, Stmt.spelling] at hs
  obtain ⟨brace, mid, b, ⟨⟩, hbrace, hb, hread⟩ := h eof (t :: ts) rest hs
  refine ⟨_, ?_, statement_block hbrace hread⟩
  rw [Stmt.erase, Stmt.erase, hb]

/-- The first token of a list of statements begins one. -/
theorem first_of_stmtSpellings {stmt : Stmt} {stmts : List Stmt}
    (h : stmt.MadeOf Token.Legible) {ts rest : List Token}
    (hs : Spells ts (stmtSpellings (stmt :: stmts)).flatten rest) :
    ∃ t mid, ts = t :: mid ∧ startsStmt t.kind := by
  cases stmts with
  | nil =>
      rw [stmtSpellings, List.flatten_cons] at hs
      obtain ⟨mid, hs, -⟩ := spells_append.mp hs
      exact Stmt.first_of_spells h hs
  | cons next stmts =>
      rw [stmtSpellings, List.flatten_cons, List.append_assoc] at hs
      obtain ⟨mid, hs, -⟩ := spells_append.mp hs
      exact Stmt.first_of_spells h hs

theorem statements_readable {stmts : List Stmt} (hmade : stmtsMadeOf Token.Legible stmts)
    (h : ∀ s ∈ stmts, s.Readable) (eof : Position) {inBlock : Bool} {ts rest last : List Token}
    (hend : nextKind rest ∈ [Token.Kind.rightBrace, .eof])
    (hlast : (statements eof inBlock rest [] []).outcome = ⟨[], last, []⟩)
    (hs : Spells ts (stmtSpellings stmts).flatten rest) :
    ∃ read, eraseStmts read = eraseStmts stmts ∧
      (statements eof inBlock ts [] []).outcome = ⟨read, last, []⟩ := by
  induction stmts generalizing ts with
  | nil =>
      obtain rfl := spells_nil.mp hs
      exact ⟨[], rfl, hlast⟩
  | cons stmt stmts ih =>
      obtain ⟨t, mid, rfl, hstart⟩ := first_of_stmtSpellings hmade.1 hs
      have hfirst : t.kind ≠ .rightBrace := ne_of_startsStmt hstart (by decide)
      obtain ⟨hstmt, hstmts⟩ := List.forall_mem_cons.mp h
      cases stmts with
      | nil =>
          -- an expression may leave out its semicolon where the list ends
          rw [stmtSpellings, List.flatten_cons] at hs
          obtain ⟨s, hs', hread⟩ := hstmt eof t mid rest [] (.inr ⟨rfl, hend⟩) hs
          exact ⟨[s], by rw [eraseStmts, hs']; rfl, statements_step hfirst hread hlast⟩
      | cons next stmts =>
          rw [stmtSpellings, List.flatten_cons] at hs
          obtain ⟨mid', hs, hmore⟩ := spells_append.mp hs
          obtain ⟨t', mid'', rfl, hstart'⟩ := first_of_stmtSpellings hmade.2.1 hmore
          have hne : nextKind (t' :: mid'') ≠ .semicolon := ne_of_startsStmt hstart' (by decide)
          obtain ⟨s, hs', hread⟩ := hstmt eof t mid _ _ (.inl ⟨rfl, hne⟩) hs
          obtain ⟨read, hreads, hread'⟩ := ih hmade.2 hstmts hmore
          refine ⟨s :: read, ?_, statements_step hfirst hread hread'⟩
          rw [eraseStmts, hs', hreads]
          rfl

theorem Block.readable_of_stmts {pos : Position} {stmts : List Stmt}
    (hmade : stmtsMadeOf Token.Legible stmts) (h : ∀ s ∈ stmts, s.Readable) :
    (Block.mk pos stmts).Readable := by
  intro eof ts rest hs
  rw [Block.spelling] at hs
  obtain ⟨brace, ts, rfl, hbrace, hs⟩ := spells_cons.mp hs
  obtain ⟨mid, hstmts, hs⟩ := spells_append.mp hs
  obtain ⟨c, last, rfl, hc, hlast⟩ := spells_cons.mp hs
  obtain rfl := spells_nil.mp hlast
  have hkind : c.kind = .rightBrace := Token.kind_of_spelling hc
  have hend : nextKind (c :: last) ∈ [Token.Kind.rightBrace, .eof] := by simp [nextKind, hkind]
  obtain ⟨read, hreads, hread⟩ :=
    statements_readable hmade h eof hend (statements_close hkind) hstmts
  refine ⟨brace, ts, ⟨brace.pos, read⟩, rfl, Token.kind_of_spelling hbrace, ?_,
    block_outcome hread⟩
  rw [Block.erase, Block.erase, hreads]

/-! ## Expressions -/

theorem UnaryOp.ofKind?_spelling (op : UnaryOp) : ofKind? op.spelling.1 = some op := by
  cases op <;> rfl

theorem BinaryOp.ofKind?_spelling (op : BinaryOp) : ofKind? op.spelling.1 = some op := by
  cases op with
  | arith op => cases op <;> rfl
  | compare op => cases op <;> rfl

/-- What is read as an operand meets what follows it. -/
theorem Expr.readable_of_operand {expr : Expr}
    (h : ∀ (eof : Position) (ts rest : List Token), Spells ts expr.spelling rest →
      nextKind rest ≠ .elseWord → ∃ t mid e, ts = t :: mid ∧ e.erase = expr.erase ∧
        (operand eof t mid).outcome = ⟨some e, rest, []⟩) : expr.Readable := by
  intro eof level ts rest _ hs helse
  obtain ⟨t, mid, e, rfl, he, hread⟩ := h eof ts rest hs helse
  exact ⟨e, he, exprAt_of_operand hread⟩

theorem Expr.readable_identifier {id : Identifier} (h : id.MadeOf Token.Legible) :
    (Expr.identifier id).Readable := by
  refine Expr.readable_of_operand fun eof ts rest hs _ => ?_
  obtain ⟨t, mid, rfl, ht, hs⟩ := spells_cons.mp hs
  obtain rfl := spells_nil.mp hs
  obtain ⟨hkind, herase⟩ := Identifier.of_spelling h ht
  refine ⟨t, mid, _, rfl, ?_, operand_identifier mid hkind⟩
  rw [Expr.erase, Expr.erase, herase]

theorem Expr.readable_integer {pos : Position} {digits : String} {value : Int64}
    (h : (Expr.integer pos digits value).MadeOf Token.Legible) :
    (Expr.integer pos digits value).Readable := by
  refine Expr.readable_of_operand fun eof ts rest hs _ => ?_
  obtain ⟨t, mid, rfl, ht, hs⟩ := spells_cons.mp hs
  obtain rfl := spells_nil.mp hs
  have hliteral : t.literal = digits := Token.literal_of_spelling ht
  obtain ⟨-, -, -, -, -, hvalue⟩ := h
  rw [← hliteral] at hvalue
  refine ⟨t, mid, _, rfl, ?_, operand_integer mid (Token.kind_of_spelling ht) hvalue⟩
  rw [Expr.erase, Expr.erase, hliteral]

theorem Expr.readable_string (pos : Position) (value : String) :
    (Expr.string pos value).Readable := by
  refine Expr.readable_of_operand fun eof ts rest hs _ => ?_
  obtain ⟨t, mid, rfl, ht, hs⟩ := spells_cons.mp hs
  obtain rfl := spells_nil.mp hs
  have hliteral : t.literal = value := Token.literal_of_spelling ht
  refine ⟨t, mid, _, rfl, ?_, operand_string mid (Token.kind_of_spelling ht)⟩
  rw [Expr.erase, Expr.erase, hliteral]

theorem Expr.readable_bool (pos : Position) (value : Bool) : (Expr.bool pos value).Readable := by
  refine Expr.readable_of_operand fun eof ts rest hs _ => ?_
  obtain ⟨t, mid, rfl, ht, hs⟩ := spells_cons.mp hs
  obtain rfl := spells_nil.mp hs
  have hkind : t.kind = if value then .trueWord else .falseWord := by
    rw [Token.kind_of_spelling ht]
    cases value <;> rfl
  exact ⟨t, mid, .bool t.pos value, rfl, rfl, operand_bool mid hkind⟩

theorem Expr.readable_array {pos : Position} {exprs : List Expr}
    (hmade : exprsMadeOf Token.Legible exprs) (h : ∀ e ∈ exprs, e.Readable) :
    (Expr.array pos exprs).Readable := by
  refine Expr.readable_of_operand fun eof ts rest hs _ => ?_
  rw [Expr.spelling] at hs
  obtain ⟨t, ts, rfl, ht, hs⟩ := spells_cons.mp hs
  obtain ⟨mid, hexprs, hs⟩ := spells_append.mp hs
  obtain ⟨c, last, rfl, hc, hs⟩ := spells_cons.mp hs
  obtain rfl := spells_nil.mp hs
  obtain ⟨items, hitems, hread⟩ :=
    elements_readable hmade h eof (Token.kind_of_spelling hc) hexprs
  refine ⟨t, ts, _, rfl, ?_, operand_array (Token.kind_of_spelling ht) hread⟩
  rw [Expr.erase, Expr.erase, hitems]

theorem Expr.readable_object {pos : Position} {items : List (Expr × Expr)}
    (hmade : pairsMadeOf Token.Legible items)
    (h : ∀ p ∈ items, p.1.Readable ∧ p.2.Readable) : (Expr.object pos items).Readable := by
  refine Expr.readable_of_operand fun eof ts rest hs _ => ?_
  rw [Expr.spelling] at hs
  obtain ⟨t, ts, rfl, ht, hs⟩ := spells_cons.mp hs
  obtain ⟨mid, hitems, hs⟩ := spells_append.mp hs
  obtain ⟨c, last, rfl, hc, hs⟩ := spells_cons.mp hs
  obtain rfl := spells_nil.mp hs
  obtain ⟨read, hreads, hread⟩ := pairs_readable hmade h eof (Token.kind_of_spelling hc) hitems
  refine ⟨t, ts, _, rfl, ?_, operand_object (Token.kind_of_spelling ht) hread⟩
  rw [Expr.erase, Expr.erase, hreads]

theorem Expr.readable_unary {pos : Position} {op : UnaryOp} {right : Expr} (h : right.Readable) :
    (Expr.unary pos op right).Readable := by
  refine Expr.readable_of_operand fun eof ts rest hs _ => ?_
  rw [Expr.spelling] at hs
  obtain ⟨o, ts, rfl, ho, hs⟩ := spells_cons.mp hs
  obtain ⟨t, ts, rfl, ht, hs⟩ := spells_cons.mp hs
  obtain ⟨mid, hright, hs⟩ := spells_append.mp hs
  obtain ⟨c, last, rfl, hc, hs⟩ := spells_cons.mp hs
  obtain rfl := spells_nil.mp hs
  have hclose : c.kind = .rightParen := Token.kind_of_spelling hc
  have hstop : Stops (c :: last) := stops_cons last hclose (by decide)
  obtain ⟨r, hr, hread⟩ := h.stop eof .unary (by decide) hright hstop
  have hop : UnaryOp.ofKind? t.kind = some op := by
    rw [Token.kind_of_spelling ht, UnaryOp.ofKind?_spelling]
  have hinner : (exprAt eof .lowest (t :: ts)).outcome =
      ⟨some (.unary t.pos op r), c :: last, []⟩ :=
    (exprAt_of_operand (operand_unary hop hread)).trans (continuations_stop hstop.1)
  refine ⟨o, t :: ts, _, rfl, ?_, operand_group (Token.kind_of_spelling ho) hinner hclose⟩
  rw [Expr.erase, Expr.erase, hr]

theorem Expr.readable_binary {pos : Position} {op : BinaryOp} {left right : Expr}
    (hleft : left.Readable) (hright : right.Readable) :
    (Expr.binary pos op left right).Readable := by
  refine Expr.readable_of_operand fun eof ts rest hs _ => ?_
  rw [Expr.spelling] at hs
  obtain ⟨o, ts, rfl, ho, hs⟩ := spells_cons.mp hs
  obtain ⟨mid, hl, hs⟩ := spells_append.mp hs
  obtain ⟨t, mid, rfl, ht, hs⟩ := spells_cons.mp hs
  obtain ⟨mid', hr, hs⟩ := spells_append.mp hs
  obtain ⟨c, last, rfl, hc, hs⟩ := spells_cons.mp hs
  obtain rfl := spells_nil.mp hs
  have hclose : c.kind = .rightParen := Token.kind_of_spelling hc
  have hstop : Stops (c :: last) := stops_cons last hclose (by decide)
  have hop : BinaryOp.ofKind? t.kind = some op := by
    rw [Token.kind_of_spelling ht, BinaryOp.ofKind?_spelling]
  have helse : nextKind (t :: mid) ≠ .elseWord := by
    intro heq
    rw [show t.kind = .elseWord from heq] at hop
    cases hop
  obtain ⟨hlow, hhigh⟩ := op.precedence_bounds
  obtain ⟨l, hle, hreadl⟩ := hleft eof .lowest ts (t :: mid) (by decide) hl helse
  have hcall : op.precedence < .call := Nat.lt_trans hhigh (by decide)
  obtain ⟨r, hre, hreadr⟩ := hright.stop eof op.precedence hcall hr hstop
  have hinner : (exprAt eof .lowest ts).outcome =
      ⟨some (.binary t.pos op l r), c :: last, []⟩ :=
    hreadl.trans ((continuations_binary hop hlow hreadr).trans (continuations_stop hstop.1))
  refine ⟨o, ts, _, rfl, ?_, operand_group (Token.kind_of_spelling ho) hinner hclose⟩
  rw [Expr.erase, Expr.erase, hle, hre]

theorem Expr.readable_index {pos : Position} {left place : Expr} (hleft : left.Readable)
    (hplace : place.Readable) : (Expr.index pos left place).Readable := by
  refine Expr.readable_of_operand fun eof ts rest hs _ => ?_
  rw [Expr.spelling] at hs
  obtain ⟨o, ts, rfl, ho, hs⟩ := spells_cons.mp hs
  obtain ⟨mid, hl, hs⟩ := spells_append.mp hs
  obtain ⟨t, mid, rfl, ht, hs⟩ := spells_cons.mp hs
  obtain ⟨mid', hp, hs⟩ := spells_append.mp hs
  obtain ⟨b, last, rfl, hb, hs⟩ := spells_cons.mp hs
  obtain ⟨c, last, rfl, hc, hs⟩ := spells_cons.mp hs
  obtain rfl := spells_nil.mp hs
  have hopen : t.kind = .leftBracket := Token.kind_of_spelling ht
  have hbracket : b.kind = .rightBracket := Token.kind_of_spelling hb
  have hclose : c.kind = .rightParen := Token.kind_of_spelling hc
  have helse : nextKind (t :: mid) ≠ .elseWord := by simp [nextKind, hopen]
  obtain ⟨l, hle, hreadl⟩ := hleft eof .lowest ts (t :: mid) (by decide) hl helse
  obtain ⟨p, hpe, hreadp⟩ := hplace.lowest eof hp (stops_cons (c :: last) hbracket (by decide))
  have hinner : (exprAt eof .lowest ts).outcome = ⟨some (.index t.pos l p), c :: last, []⟩ :=
    hreadl.trans ((continuations_index hopen (by decide) hreadp hbracket).trans
      (continuations_stop (stops_cons last hclose (by decide)).1))
  refine ⟨o, ts, _, rfl, ?_, operand_group (Token.kind_of_spelling ho) hinner hclose⟩
  rw [Expr.erase, Expr.erase, hle, hpe]

/-- A callee ends in front of its arguments, which continue it at every level that it is read at. -/
theorem Expr.readable_call {pos : Position} {callee : Expr} {exprs : List Expr}
    (hcallee : callee.Readable) (hmade : exprsMadeOf Token.Legible exprs)
    (h : ∀ e ∈ exprs, e.Readable) : (Expr.call pos callee exprs).Readable := by
  intro eof level ts rest hlevel hs _
  rw [Expr.spelling] at hs
  obtain ⟨mid, hf, hs⟩ := spells_append.mp hs
  obtain ⟨t, mid, rfl, ht, hs⟩ := spells_cons.mp hs
  obtain ⟨mid', hargs, hs⟩ := spells_append.mp hs
  obtain ⟨c, last, rfl, hc, hs⟩ := spells_cons.mp hs
  obtain rfl := spells_nil.mp hs
  have hopen : t.kind = .leftParen := Token.kind_of_spelling ht
  have helse : nextKind (t :: mid) ≠ .elseWord := by simp [nextKind, hopen]
  obtain ⟨f, hfe, hreadf⟩ := hcallee eof level ts (t :: mid) hlevel hf helse
  obtain ⟨items, hitems, hreads⟩ :=
    arguments_readable hmade h eof (Token.kind_of_spelling hc) hargs
  refine ⟨_, ?_, hreadf.trans (continuations_call hopen hlevel hreads)⟩
  rw [Expr.erase, Expr.erase, hfe, hitems]

/-- A condition in parentheses and the brace behind it. -/
theorem condition_readable {test : Expr} {body : Block} (htest : test.Readable)
    (hbody : body.Readable) (eof : Position) {ts rest : List Token}
    (hs : Spells ts (.sign '(' :: (test.spelling ++ .sign ')' :: body.spelling)) rest) :
    ∃ brace mid e b, e.erase = test.erase ∧ b.erase = body.erase ∧
      (condition eof ts).outcome = ⟨some (e, brace), mid, []⟩ ∧
      (block eof brace mid).outcome = ⟨b, rest, []⟩ := by
  obtain ⟨o, ts, rfl, ho, hs⟩ := spells_cons.mp hs
  obtain ⟨mid, ht, hs⟩ := spells_append.mp hs
  obtain ⟨c, mid, rfl, hc, hs⟩ := spells_cons.mp hs
  have hclose : c.kind = .rightParen := Token.kind_of_spelling hc
  obtain ⟨e, he, hread⟩ := htest.lowest eof ht (stops_cons mid hclose (by decide))
  obtain ⟨brace, mid', b, rfl, hbrace, hb, hreadb⟩ := hbody eof mid rest hs
  exact ⟨brace, mid', e, b, he, hb,
    condition_outcome (Token.kind_of_spelling ho) hread hclose hbrace, hreadb⟩

theorem Expr.readable_branch {pos : Position} {test : Expr} {consequence : Block}
    (htest : test.Readable) (hconsequence : consequence.Readable) :
    (Expr.branch pos test consequence none).Readable := by
  refine Expr.readable_of_operand fun eof ts rest hs helse => ?_
  rw [Expr.spelling] at hs
  obtain ⟨t, ts, rfl, ht, hs⟩ := spells_cons.mp hs
  obtain ⟨brace, mid, e, b, he, hb, hcondition, hblock⟩ :=
    condition_readable htest hconsequence eof hs
  refine ⟨t, ts, _, rfl, ?_,
    operand_branch (Token.kind_of_spelling ht) hcondition hblock helse⟩
  rw [Expr.erase, Expr.erase, he, hb]

theorem Expr.readable_branchElse {pos : Position} {test : Expr} {consequence alternative : Block}
    (htest : test.Readable) (hconsequence : consequence.Readable)
    (halternative : alternative.Readable) :
    (Expr.branch pos test consequence (some alternative)).Readable := by
  refine Expr.readable_of_operand fun eof ts rest hs _ => ?_
  rw [Expr.spelling] at hs
  obtain ⟨t, ts, rfl, ht, hs⟩ := spells_cons.mp hs
  have hsplit : Spelling.sign '(' :: (test.spelling ++ .sign ')' :: (consequence.spelling ++
      .word "else" :: alternative.spelling)) =
      (.sign '(' :: (test.spelling ++ .sign ')' :: consequence.spelling)) ++
        .word "else" :: alternative.spelling := by
    simp
  rw [hsplit] at hs
  obtain ⟨mid, hfirst, hs⟩ := spells_append.mp hs
  obtain ⟨w, mid, rfl, hw, hs⟩ := spells_cons.mp hs
  obtain ⟨brace, mid', e, b, he, hb, hcondition, hblock⟩ :=
    condition_readable htest hconsequence eof hfirst
  obtain ⟨brace', mid'', a, rfl, hbrace', ha, halt⟩ := halternative eof mid rest hs
  refine ⟨t, ts, _, rfl, ?_, operand_branchElse (Token.kind_of_spelling ht) hcondition hblock
    (Token.kind_of_spelling hw) hbrace' halt⟩
  rw [Expr.erase, Expr.erase, he, hb, ha]

theorem Expr.readable_loop {pos : Position} {test : Expr} {body : Block} (htest : test.Readable)
    (hbody : body.Readable) : (Expr.loop pos test body).Readable := by
  refine Expr.readable_of_operand fun eof ts rest hs _ => ?_
  rw [Expr.spelling] at hs
  obtain ⟨t, ts, rfl, ht, hs⟩ := spells_cons.mp hs
  obtain ⟨brace, mid, e, b, he, hb, hcondition, hblock⟩ := condition_readable htest hbody eof hs
  refine ⟨t, ts, _, rfl, ?_, operand_loop (Token.kind_of_spelling ht) hcondition hblock⟩
  rw [Expr.erase, Expr.erase, he, hb]

theorem Expr.readable_function {pos : Position} {params : List Identifier} {body : Block}
    (hparams : ∀ id ∈ params, id.MadeOf Token.Legible) (hbody : body.Readable) :
    (Expr.function pos params body).Readable := by
  refine Expr.readable_of_operand fun eof ts rest hs _ => ?_
  rw [Expr.spelling] at hs
  obtain ⟨t, ts, rfl, ht, hs⟩ := spells_cons.mp hs
  obtain ⟨o, ts, rfl, ho, hs⟩ := spells_cons.mp hs
  obtain ⟨mid, hids, hs⟩ := spells_append.mp hs
  obtain ⟨c, mid, rfl, hc, hs⟩ := spells_cons.mp hs
  obtain ⟨names, hnames, hread⟩ := params_readable hparams eof (Token.kind_of_spelling hc) hids
  obtain ⟨brace, mid', b, rfl, hbrace, hb, hreadb⟩ := hbody eof mid rest hs
  refine ⟨t, o :: ts, _, rfl, ?_, operand_function (Token.kind_of_spelling ht)
    (Token.kind_of_spelling ho) hread hbrace hreadb⟩
  rw [Expr.erase, Expr.erase, hnames, hb]

/-! ## Every tree -/

mutual

theorem Expr.readable (expr : Expr) (h : expr.MadeOf Token.Legible) : expr.Readable := by
  cases expr with
  | identifier id => exact Expr.readable_identifier h
  | integer pos digits value => exact Expr.readable_integer h
  | string pos value => exact Expr.readable_string pos value
  | bool pos value => exact Expr.readable_bool pos value
  | array pos elements => exact Expr.readable_array h (exprs_readable elements h)
  | object pos pairs => exact Expr.readable_object h (exprPairs_readable pairs h)
  | unary pos op right => exact Expr.readable_unary (right.readable h)
  | binary pos op left right =>
      exact Expr.readable_binary (left.readable h.1) (right.readable h.2)
  | branch pos condition consequence alternative? =>
      cases alternative? with
      | none => exact Expr.readable_branch (condition.readable h.1) (consequence.readable h.2)
      | some alternative =>
          exact Expr.readable_branchElse (condition.readable h.1) (consequence.readable h.2.1)
            (alternative.readable h.2.2)
  | loop pos condition body =>
      exact Expr.readable_loop (condition.readable h.1) (body.readable h.2)
  | function pos params body => exact Expr.readable_function h.1 (body.readable h.2)
  | call pos callee arguments =>
      exact Expr.readable_call (callee.readable h.1) h.2 (exprs_readable arguments h.2)
  | index pos left index => exact Expr.readable_index (left.readable h.1) (index.readable h.2)

theorem Block.readable (block : Block) (h : block.MadeOf Token.Legible) : block.Readable := by
  cases block with
  | mk pos stmts => exact Block.readable_of_stmts h (stmts_readable stmts h)

theorem Stmt.readable (stmt : Stmt) (h : stmt.MadeOf Token.Legible) : stmt.Readable := by
  cases stmt with
  | binding pos name value => exact Stmt.readable_binding h.1 (value.readable h.2)
  | exit pos value? =>
      cases value? with
      | none => exact Stmt.readable_exit pos
      | some value => exact Stmt.readable_exitWith h (value.readable h)
  | expression start value => exact Stmt.readable_expression h (value.readable h)
  | block body => exact Stmt.readable_block (body.readable h)

theorem exprs_readable (exprs : List Expr) (h : exprsMadeOf Token.Legible exprs) :
    ∀ e ∈ exprs, e.Readable := by
  cases exprs with
  | nil => exact List.forall_mem_nil _
  | cons expr exprs =>
      exact List.forall_mem_cons.mpr ⟨expr.readable h.1, exprs_readable exprs h.2⟩

theorem exprPairs_readable (items : List (Expr × Expr)) (h : pairsMadeOf Token.Legible items) :
    ∀ p ∈ items, p.1.Readable ∧ p.2.Readable := by
  cases items with
  | nil => exact List.forall_mem_nil _
  | cons pair items =>
      obtain ⟨key, value⟩ := pair
      exact List.forall_mem_cons.mpr
        ⟨⟨key.readable h.1.1, value.readable h.1.2⟩, exprPairs_readable items h.2⟩

theorem stmts_readable (stmts : List Stmt) (h : stmtsMadeOf Token.Legible stmts) :
    ∀ s ∈ stmts, s.Readable := by
  cases stmts with
  | nil => exact List.forall_mem_nil _
  | cons stmt stmts =>
      exact List.forall_mem_cons.mpr ⟨stmt.readable h.1, stmts_readable stmts h.2⟩

end

end ExprMachine
