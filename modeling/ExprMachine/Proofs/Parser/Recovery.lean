import ExprMachine.Proofs.Parser.RoundTrip

/-!
# What is left of a collection that breaks off

An array or an object is read item by item, and a fault ends the list: the items that were complete
are kept, whatever they are made of, and nothing but the fault is reported. The faults behind an
item are the same in both collections (`BreaksOff`); an object can break off within a pair as well,
behind its key (`BreaksOffAtKey`), and that pair is dropped. Both say where the fault is reported
and in which words.

Each fault is a rule for the last item, and the items in front of it are read as the canonical
tokens they are (`elements_until`, `pairs_until`). What a missing comma or colon is reported at
stays unread, so whoever reads on finds it there.
-/

namespace ExprMachine

open ExprMachine.Parser

/-! ## How a collection breaks off -/

/-- The token that ends a collection. -/
def Collection.close : Collection → Token.Kind
  | array => .rightBracket
  | object => .rightObject

/-- The report about a token of the kind where a comma is missing. -/
def Collection.commaText : Collection → Token.Kind → String
  | array, got => "no comma after element in array, got " ++ got.name
  | object, got => "no comma after element in object, got " ++ got.name

/-- The report about a text that ends behind a comma. -/
def Collection.endText : Collection → String
  | array => "expected next token to be RBRACKET, got EOF instead"
  | object => "expected next token to be ROBJECT_BRACE, got EOF instead"

/-- `BreaksOff eof collection ts last ds texts`: the tokens `ts` behind an item of a collection
neither end it nor bring another item. The tokens from `last` on are left, and `ds` is reported,
which reads `texts`. -/
inductive BreaksOff (eof : Position) (collection : Collection) :
    List Token → List Token → List Diagnostic → List String → Prop where
  /-- A token that continues no expression, or the end of the text. It is reported and left. -/
  | missing {rest : List Token} (hlowest : Precedence.ofKind (nextKind rest) = .lowest)
      (hcomma : nextKind rest ≠ .comma) (hclose : nextKind rest ≠ collection.close)
      (helse : nextKind rest ≠ .elseWord) :
      BreaksOff eof collection rest rest
        [⟨nextPos eof rest, .missingComma collection (nextKind rest)⟩]
        [collection.commaText (nextKind rest)]
  /-- A comma with nothing behind it. -/
  | ended {comma : Token} (hcomma : comma.kind = .comma) :
      BreaksOff eof collection [comma] [] [⟨eof, .unexpected collection.close .eof⟩]
        [collection.endText]
  /-- A comma, and behind it what could not be read as an expression. -/
  | failed {comma t : Token} {more last : List Token} {ds : List Diagnostic}
      (hcomma : comma.kind = .comma) (hclose : t.kind ≠ collection.close)
      (hfails : (exprAt eof .lowest (t :: more)).outcome = ⟨none, last, ds⟩) :
      BreaksOff eof collection (comma :: t :: more) last ds (ds.map Diagnostic.message)

/-- `BreaksOffAtKey eof ts last ds texts`: the tokens `ts` behind a key do not make a pair of it.
The tokens from `last` on are left, and `ds` is reported, which reads `texts`. -/
inductive BreaksOffAtKey (eof : Position) :
    List Token → List Token → List Diagnostic → List String → Prop where
  /-- A token that continues no expression, or the end of the text. It is reported and left. -/
  | missing {rest : List Token} (hlowest : Precedence.ofKind (nextKind rest) = .lowest)
      (hcolon : nextKind rest ≠ .colon) (helse : nextKind rest ≠ .elseWord) :
      BreaksOffAtKey eof rest rest [⟨nextPos eof rest, .missingColon (nextKind rest)⟩]
        ["no separator found between key and value, got " ++ (nextKind rest).name]
  /-- A colon, and behind it what could not be read as an expression. -/
  | failed {colon : Token} {more last : List Token} {ds : List Diagnostic}
      (hcolon : colon.kind = .colon)
      (hfails : (exprAt eof .lowest more).outcome = ⟨none, last, ds⟩) :
      BreaksOffAtKey eof (colon :: more) last ds (ds.map Diagnostic.message)

/-! The reports read as they are written out above. -/

theorem Diagnostic.message_missingComma (pos : Position) (collection : Collection)
    (got : Token.Kind) :
    (Diagnostic.mk pos (.missingComma collection got)).message = collection.commaText got := by
  -- what stands in front of the kind is a text of its own
  cases collection with
  | array => exact congrArg (· ++ got.name) (by decide)
  | object => exact congrArg (· ++ got.name) (by decide)

theorem Diagnostic.message_unexpected_close (pos : Position) (collection : Collection) :
    (Diagnostic.mk pos (.unexpected collection.close .eof)).message = collection.endText := by
  cases collection <;> rfl

theorem BreaksOff.messages {eof : Position} {collection : Collection} {ts last : List Token}
    {ds : List Diagnostic} {texts : List String} (h : BreaksOff eof collection ts last ds texts) :
    ds.map Diagnostic.message = texts := by
  cases h with
  | missing => rw [List.map_singleton, Diagnostic.message_missingComma]
  | ended => rw [List.map_singleton, Diagnostic.message_unexpected_close]
  | failed => rfl

theorem BreaksOffAtKey.messages {eof : Position} {ts last : List Token} {ds : List Diagnostic}
    {texts : List String} (h : BreaksOffAtKey eof ts last ds texts) :
    ds.map Diagnostic.message = texts := by
  cases h <;> rfl

theorem Continuation.ofKind?_of_lowest {kind : Token.Kind} (h : Precedence.ofKind kind = .lowest) :
    ofKind? kind = none := by
  unfold Precedence.ofKind at h
  cases hkind : ofKind? kind with
  | none => rfl
  | some continuation =>
      rw [hkind] at h
      cases continuation with
      | binary op =>
          obtain ⟨hlow, -⟩ := op.precedence_bounds
          rw [show op.precedence = .lowest from h] at hlow
          exact absurd hlow (by decide)
      | call => cases h
      | index => cases h

theorem BreaksOff.stops {eof : Position} {collection : Collection} {ts last : List Token}
    {ds : List Diagnostic} {texts : List String} (h : BreaksOff eof collection ts last ds texts) :
    Stops ts := by
  cases h with
  | missing hlowest _ _ helse => exact ⟨Continuation.ofKind?_of_lowest hlowest, helse⟩
  | ended hcomma => exact stops_cons [] hcomma (by decide)
  | failed hcomma hclose hfails => exact stops_cons _ hcomma (by decide)

theorem BreaksOffAtKey.stops {eof : Position} {ts last : List Token} {ds : List Diagnostic}
    {texts : List String} (h : BreaksOffAtKey eof ts last ds texts) : Stops ts := by
  cases h with
  | missing hlowest _ helse => exact ⟨Continuation.ofKind?_of_lowest hlowest, helse⟩
  | failed hcolon hfails => exact stops_cons _ hcolon (by decide)

/-! ## The last item -/

/-- What is read behind a construct, where that is nothing, keeps the reports of the construct. -/
theorem Parsed.outcome_bind_done {α β : Type} {n : Nat} {p : Parsed α n}
    {k : α → (rest : List Token) → rest.length ≤ n → Parsed β rest.length} {value : α} {result : β}
    {rest : List Token} {ds : List Diagnostic} (h : p.outcome = ⟨value, rest, ds⟩)
    (hk : ∀ hle, k value rest hle = .done result rest) :
    (p.bind k).outcome = ⟨result, rest, ds⟩ := by
  obtain ⟨o, hle⟩ := p
  subst h
  simp only [bind, hk, done, List.append_nil]

namespace Parser

variable {eof : Position}

theorem afterItem_missing {collection : Collection} {close : Token.Kind} {ts : List Token}
    (hcomma : nextKind ts ≠ .comma) (hclose : nextKind ts ≠ close) :
    (afterItem eof collection close ts).outcome =
      ⟨false, ts, [⟨nextPos eof ts, .missingComma collection (nextKind ts)⟩]⟩ := by
  rw [afterItem, take?_none hcomma, take?_none hclose]
  rfl

theorem elements_nil :
    (elements eof []).outcome = ⟨[], [], [⟨eof, .unexpected .rightBracket .eof⟩]⟩ := by
  rw [elements]
  rfl

theorem elements_failed {t : Token} {ts last : List Token} {ds : List Diagnostic}
    (ht : t.kind ≠ .rightBracket) (h : (exprAt eof .lowest (t :: ts)).outcome = ⟨none, last, ds⟩) :
    (elements eof (t :: ts)).outcome = ⟨[], last, ds⟩ := by
  rw [elements_of_other ts ht]
  exact Parsed.outcome_bind_done h fun _ => rfl

/-- The last element is kept however the array breaks off behind it. -/
theorem elements_broken {item : Expr} {t : Token} {ts rest last : List Token}
    {ds : List Diagnostic} {texts : List String}
    (hbreak : BreaksOff eof .array rest last ds texts) (ht : t.kind ≠ .rightBracket)
    (h : (exprAt eof .lowest (t :: ts)).outcome = ⟨some item, rest, []⟩) :
    (elements eof (t :: ts)).outcome = ⟨[item], last, ds⟩ := by
  cases hbreak with
  | missing hlowest hcomma hclose helse =>
      rw [elements_of_other ts ht]
      refine (Parsed.outcome_bind h).trans ?_
      exact Parsed.outcome_bind_done (afterItem_missing hcomma hclose) fun _ => rfl
  | ended hcomma => exact elements_cons ht h hcomma elements_nil
  | failed hcomma hclose hfails => exact elements_cons ht h hcomma (elements_failed hclose hfails)

theorem pairs_nil :
    (pairs eof []).outcome = ⟨[], [], [⟨eof, .unexpected .rightObject .eof⟩]⟩ := by
  rw [pairs]
  rfl

theorem pairs_failed {t : Token} {ts last : List Token} {ds : List Diagnostic}
    (ht : t.kind ≠ .rightObject) (h : (exprAt eof .lowest (t :: ts)).outcome = ⟨none, last, ds⟩) :
    (pairs eof (t :: ts)).outcome = ⟨[], last, ds⟩ := by
  rw [pairs_of_other ts ht]
  exact Parsed.outcome_bind_done h fun _ => rfl

/-- The last pair is kept however the object breaks off behind it. -/
theorem pairs_broken {key value : Expr} {t colon : Token} {ts ts' rest last : List Token}
    {ds : List Diagnostic} {texts : List String}
    (hbreak : BreaksOff eof .object rest last ds texts) (ht : t.kind ≠ .rightObject)
    (hk : (exprAt eof .lowest (t :: ts)).outcome = ⟨some key, colon :: ts', []⟩)
    (hcolon : colon.kind = .colon)
    (hv : (exprAt eof .lowest ts').outcome = ⟨some value, rest, []⟩) :
    (pairs eof (t :: ts)).outcome = ⟨[(key, value)], last, ds⟩ := by
  cases hbreak with
  | missing hlowest hcomma hclose helse =>
      rw [pairs_of_other ts ht]
      refine (Parsed.outcome_bind hk).trans ?_
      dsimp only
      rw [take?_cons ts' hcolon]
      dsimp only [Parsed.weaken]
      refine (Parsed.outcome_bind hv).trans ?_
      exact Parsed.outcome_bind_done (afterItem_missing hcomma hclose) fun _ => rfl
  | ended hcomma => exact pairs_cons ht hk hcolon hv hcomma pairs_nil
  | failed hcomma hclose hfails =>
      exact pairs_cons ht hk hcolon hv hcomma (pairs_failed hclose hfails)

/-- A key that no pair is made of is dropped. -/
theorem pairs_brokenAtKey {key : Expr} {t : Token} {ts rest last : List Token}
    {ds : List Diagnostic} {texts : List String}
    (hbreak : BreaksOffAtKey eof rest last ds texts) (ht : t.kind ≠ .rightObject)
    (hk : (exprAt eof .lowest (t :: ts)).outcome = ⟨some key, rest, []⟩) :
    (pairs eof (t :: ts)).outcome = ⟨[], last, ds⟩ := by
  rw [pairs_of_other ts ht]
  refine (Parsed.outcome_bind hk).trans ?_
  dsimp only
  cases hbreak with
  | missing hlowest hcolon helse =>
      rw [take?_none hcolon]
      rfl
  | failed hcolon hfails =>
      rw [take?_cons _ hcolon]
      dsimp only [Parsed.weaken]
      exact Parsed.outcome_bind_done hfails fun _ => rfl

end Parser

/-! ## Items that can be read alone -/

/-- The canonical text of the expression is read as that expression and nothing else. -/
def Expr.ReadsAlone (expr : Expr) : Prop :=
  ∃ start read, ParsedProgram.ofSource expr.render = ⟨⟨[.expression start read]⟩, []⟩ ∧
    read.erase = expr.erase

/-- The tokens are those of the text, wherever they stand. -/
def AreTokensOf (ts : List Token) (text : String) : Prop :=
  ts.map Token.spelling = (TokenStream.ofSource text).tokens.map Token.spelling

/-- An expression statement is one up to places. -/
theorem eq_expression_of_eraseStmts {stmts : List Stmt} {start : Token} {expr : Expr}
    (h : eraseStmts stmts = [.expression start expr]) :
    ∃ start' value, stmts = [.expression start' value] ∧ value.erase = expr := by
  cases stmts with
  | nil => cases h
  | cons stmt others =>
      obtain ⟨hstmt, hothers⟩ := List.cons.inj h
      cases others with
      | cons => cases hothers
      | nil =>
          cases stmt with
          | expression start' value => exact ⟨start', value, rfl, (Stmt.expression.inj hstmt).2⟩
          | exit pos value? => cases value? <;> cases hstmt
          | binding => cases hstmt
          | block => cases hstmt

/-- **The expressions that can be read alone** are, up to places, those that are made of legible
tokens, and so is whatever the parser returns. -/
theorem Expr.readsAlone_iff {expr : Expr} :
    expr.ReadsAlone ↔ ∃ read : Expr, read.MadeOf Token.Legible ∧ read.erase = expr.erase := by
  constructor
  · rintro ⟨start, read, hread, herase⟩
    have hmade : (ParsedProgram.ofSource expr.render).program.MadeOf Token.Legible :=
      (ParsedProgram.within_ofTokens _ (TokenStream.legible_ofSource expr.render)).1
    rw [hread] at hmade
    exact ⟨read, hmade.1, herase⟩
  · rintro ⟨read, hmade, herase⟩
    have hlegible : (Program.mk [.expression (.ending .start) read]).MadeOf Token.Legible :=
      ⟨hmade, trivial⟩
    obtain ⟨hclean, hprogram⟩ := Program.reread_of_legible hlegible
    have hrender : (Program.mk [.expression (.ending .start) read]).render = expr.render := by
      rw [← expr.render_erase, ← herase, read.render_erase]
      simp [Program.render, renderStmts, Stmt.render]
    rw [Program.reread, hrender] at hclean hprogram
    unfold ReadsAlone
    generalize ParsedProgram.ofSource expr.render = parsed at hclean hprogram
    obtain ⟨⟨stmts⟩, ds⟩ := parsed
    obtain rfl : ds = [] := hclean
    obtain ⟨start, value, rfl, hvalue⟩ :=
      eq_expression_of_eraseStmts (congrArg Program.statements hprogram)
    exact ⟨start, value, rfl, hvalue.trans herase⟩

theorem exists_legibleExprs {exprs : List Expr} (h : ∀ e ∈ exprs, e.ReadsAlone) :
    ∃ items, exprsMadeOf Token.Legible items ∧ eraseExprs items = eraseExprs exprs := by
  induction exprs with
  | nil => exact ⟨[], trivial, rfl⟩
  | cons expr exprs ih =>
      obtain ⟨hexpr, hexprs⟩ := List.forall_mem_cons.mp h
      obtain ⟨item, hitem, herase⟩ := Expr.readsAlone_iff.mp hexpr
      obtain ⟨items, hitems, herases⟩ := ih hexprs
      refine ⟨item :: items, ⟨hitem, hitems⟩, ?_⟩
      rw [eraseExprs, eraseExprs, herase, herases]

theorem exists_legiblePairs {pairs : List (Expr × Expr)}
    (h : ∀ p ∈ pairs, p.1.ReadsAlone ∧ p.2.ReadsAlone) :
    ∃ items, pairsMadeOf Token.Legible items ∧ erasePairs items = erasePairs pairs := by
  induction pairs with
  | nil => exact ⟨[], trivial, rfl⟩
  | cons pair pairs ih =>
      obtain ⟨key, value⟩ := pair
      obtain ⟨⟨hkey, hvalue⟩, hpairs⟩ := List.forall_mem_cons.mp h
      obtain ⟨k, hk, hkerase⟩ := Expr.readsAlone_iff.mp hkey
      obtain ⟨v, hv, hverase⟩ := Expr.readsAlone_iff.mp hvalue
      obtain ⟨items, hitems, herases⟩ := ih hpairs
      refine ⟨(k, v) :: items, ⟨⟨hk, hv⟩, hitems⟩, ?_⟩
      rw [erasePairs, erasePairs, hkerase, hverase, herases]

/-- The tokens of a list of items are the canonical ones. -/
theorem AreTokensOf.spells {front : List Token} {texts : List String} {sps : List (List Spelling)}
    (h : AreTokensOf front (Text.commaSeparated texts)) (hreads : AllReadAs texts sps)
    (rest : List Token) : Spells (front ++ rest) (Spelling.commaSeparated sps) rest := by
  have hread := hreads.commaSeparated [] separated_nil
  rw [List.append_nil, spellings_nil, List.append_nil] at hread
  exact ⟨front, rfl, h.trans hread⟩

/-! ## The items in front -/

theorem AllReadAs.concat {texts : List String} {sps : List (List Spelling)} {text : String}
    {sp : List Spelling} (h : AllReadAs texts sps) (hlast : ReadsAs text sp) :
    AllReadAs (texts ++ [text]) (sps ++ [sp]) := by
  induction h with
  | nil => exact .cons hlast .nil
  | cons hfirst _ ih => exact .cons hfirst ih

theorem commaSeparated_concat (first : List Spelling) (sps : List (List Spelling))
    (last : List Spelling) :
    Spelling.commaSeparated (first :: sps ++ [last]) =
      Spelling.commaSeparated (first :: sps) ++ .sign ',' :: last := by
  induction sps generalizing first with
  | nil =>
      rw [List.singleton_append, commaSeparated_cons, commaSeparated_one, commaSeparated_one]
  | cons next sps ih =>
      have hnext := ih next
      rw [List.cons_append] at hnext ⊢
      rw [List.cons_append, commaSeparated_cons, hnext, commaSeparated_cons, List.append_assoc,
        List.cons_append]

namespace Parser

variable {eof : Position} {opening : Token} {front ts last : List Token} {ds : List Diagnostic}
  {texts : List String}

/-- Pairs in front of a key that no pair is made of. -/
theorem pairs_untilKey {items : List (Expr × Expr)} (hmade : pairsMadeOf Token.Legible items)
    {key : Expr} (hkey : key.MadeOf Token.Legible) {rest : List Token}
    (hbreak : BreaksOffAtKey eof rest last ds texts)
    (hs : Spells ts (Spelling.commaSeparated (pairSpellings items ++ [key.spelling])) rest) :
    ∃ read, erasePairs read = erasePairs items ∧ (pairs eof ts).outcome = ⟨read, last, ds⟩ := by
  -- the key alone, which is what is left behind the last comma
  have hdropped : ∀ mid, Spells mid key.spelling rest →
      (pairs eof mid).outcome = ⟨[], last, ds⟩ := by
    intro mid hmid
    obtain ⟨t, mid', rfl, hstart⟩ := Expr.first_of_spells hkey hmid
    obtain ⟨k, -, hread⟩ := (key.readable hkey).lowest eof hmid hbreak.stops
    exact pairs_brokenAtKey hbreak (ne_of_startsExpr hstart (by decide)) hread
  cases items with
  | nil =>
      rw [pairSpellings, List.nil_append, commaSeparated_one] at hs
      exact ⟨[], rfl, hdropped ts hs⟩
  | cons pair items =>
      obtain ⟨sp, sps, hsplit⟩ : ∃ sp sps, pairSpellings (pair :: items) = sp :: sps := ⟨_, _, rfl⟩
      rw [hsplit, commaSeparated_concat, ← hsplit] at hs
      obtain ⟨mid, hitems, hs⟩ := spells_append.mp hs
      obtain ⟨comma, mid', rfl, hcomma, hs⟩ := spells_cons.mp hs
      have hkind : comma.kind = .comma := Token.kind_of_spelling hcomma
      -- the last pair meets that comma, so it is read like the ones in front of it
      exact pairs_until hmade (exprPairs_readable _ hmade) (stops_cons mid' hkind (by decide))
        (fun ht hk hcolon hv => pairs_cons ht hk hcolon hv hkind (hdropped mid' hs)) hitems

/-- An array that breaks off behind an element. -/
theorem operand_array_broken {items : List Expr} (hne : items ≠ [])
    (halone : ∀ e ∈ items, e.ReadsAlone) (hopening : opening.kind = .leftBracket)
    (hfront : AreTokensOf front (Text.commaSeparated (renderExprs items)))
    (hbreak : BreaksOff eof .array ts last ds texts) :
    ∃ read, eraseExprs read = eraseExprs items ∧
      (operand eof opening (front ++ ts)).outcome =
        ⟨some (.array opening.pos read), last, ds⟩ := by
  -- the items may have any places, so others are taken that were read from their texts
  obtain ⟨exprs, hmade, herase⟩ := exists_legibleExprs halone
  rw [← renderExprs_erase, ← herase, renderExprs_erase] at hfront
  have hs := hfront.spells (exprs_readAs exprs hmade) ts
  cases exprs with
  | nil =>
      cases items with
      | nil => exact absurd rfl hne
      | cons => cases herase
  | cons expr exprs =>
      obtain ⟨read, hread, helements⟩ := elements_until hmade (exprs_readable _ hmade)
        hbreak.stops (fun ht h => elements_broken hbreak ht h) hs
      exact ⟨read, hread.trans herase, operand_array hopening helements⟩

/-- An object that breaks off behind a pair. -/
theorem operand_object_broken {items : List (Expr × Expr)} (hne : items ≠ [])
    (halone : ∀ p ∈ items, p.1.ReadsAlone ∧ p.2.ReadsAlone) (hopening : opening.kind = .leftObject)
    (hfront : AreTokensOf front (Text.commaSeparated (renderPairs items)))
    (hbreak : BreaksOff eof .object ts last ds texts) :
    ∃ read, erasePairs read = erasePairs items ∧
      (operand eof opening (front ++ ts)).outcome =
        ⟨some (.object opening.pos read), last, ds⟩ := by
  obtain ⟨entries, hmade, herase⟩ := exists_legiblePairs halone
  rw [← renderPairs_erase, ← herase, renderPairs_erase] at hfront
  have hs := hfront.spells (pairs_readAs entries hmade) ts
  cases entries with
  | nil =>
      cases items with
      | nil => exact absurd rfl hne
      | cons => cases herase
  | cons pair entries =>
      obtain ⟨read, hread, hpairs⟩ := pairs_until hmade (exprPairs_readable _ hmade)
        hbreak.stops (fun ht hk hcolon hv => pairs_broken hbreak ht hk hcolon hv) hs
      exact ⟨read, hread.trans herase, operand_object hopening hpairs⟩

/-- An object that breaks off within a pair, behind its key. -/
theorem operand_object_brokenAtKey {items : List (Expr × Expr)} {key : Expr}
    (halone : ∀ p ∈ items, p.1.ReadsAlone ∧ p.2.ReadsAlone) (hkey : key.ReadsAlone)
    (hopening : opening.kind = .leftObject)
    (hfront : AreTokensOf front (Text.commaSeparated (renderPairs items ++ [key.render])))
    (hbreak : BreaksOffAtKey eof ts last ds texts) :
    ∃ read, erasePairs read = erasePairs items ∧
      (operand eof opening (front ++ ts)).outcome =
        ⟨some (.object opening.pos read), last, ds⟩ := by
  obtain ⟨entries, hmade, herase⟩ := exists_legiblePairs halone
  obtain ⟨k, hk, hkerase⟩ := Expr.readsAlone_iff.mp hkey
  rw [← renderPairs_erase, ← herase, renderPairs_erase, ← key.render_erase, ← hkerase,
    k.render_erase] at hfront
  have hs := hfront.spells ((pairs_readAs entries hmade).concat (k.readsAs hk)) ts
  obtain ⟨read, hread, hpairs⟩ := pairs_untilKey hmade hk hbreak hs
  exact ⟨read, hread.trans herase, operand_object hopening hpairs⟩

/--
**A collection that breaks off keeps its complete items.**

The items stand in their canonical text, each of them can be read alone, and they are in no way
restricted otherwise. An array keeps exactly the elements in front of the fault. An object keeps
exactly the pairs in front of it, without the last key if the fault stands between that and its
value or in the value. Only the fault is reported, in its words, and what is left to read is what
the fault left.
-/
theorem operand_keeps_complete (eof : Position) (opening : Token) (front ts last : List Token)
    (ds : List Diagnostic) (texts : List String) :
    (∀ items : List Expr, items ≠ [] → (∀ e ∈ items, e.ReadsAlone) →
      opening.kind = .leftBracket → AreTokensOf front (Text.commaSeparated (renderExprs items)) →
      BreaksOff eof .array ts last ds texts →
      ds.map Diagnostic.message = texts ∧ ∃ read, eraseExprs read = eraseExprs items ∧
        (operand eof opening (front ++ ts)).outcome =
          ⟨some (.array opening.pos read), last, ds⟩) ∧
    (∀ items : List (Expr × Expr), items ≠ [] →
      (∀ p ∈ items, p.1.ReadsAlone ∧ p.2.ReadsAlone) →
      opening.kind = .leftObject → AreTokensOf front (Text.commaSeparated (renderPairs items)) →
      BreaksOff eof .object ts last ds texts →
      ds.map Diagnostic.message = texts ∧ ∃ read, erasePairs read = erasePairs items ∧
        (operand eof opening (front ++ ts)).outcome =
          ⟨some (.object opening.pos read), last, ds⟩) ∧
    (∀ (items : List (Expr × Expr)) (key : Expr),
      (∀ p ∈ items, p.1.ReadsAlone ∧ p.2.ReadsAlone) → key.ReadsAlone →
      opening.kind = .leftObject →
      AreTokensOf front (Text.commaSeparated (renderPairs items ++ [key.render])) →
      BreaksOffAtKey eof ts last ds texts →
      ds.map Diagnostic.message = texts ∧ ∃ read, erasePairs read = erasePairs items ∧
        (operand eof opening (front ++ ts)).outcome =
          ⟨some (.object opening.pos read), last, ds⟩) := by
  refine ⟨?_, ?_, ?_⟩
  · intro items hne halone hopening hfront hbreak
    exact ⟨hbreak.messages, operand_array_broken hne halone hopening hfront hbreak⟩
  · intro items hne halone hopening hfront hbreak
    exact ⟨hbreak.messages, operand_object_broken hne halone hopening hfront hbreak⟩
  · intro items key halone hkey hopening hfront hbreak
    exact ⟨hbreak.messages, operand_object_brokenAtKey halone hkey hopening hfront hbreak⟩

/-- The texts `[1 2]`, `{{ "a": 1,` and `{{ "a" 1`. -/
theorem operand_keeps_complete_first :
    ([Diagnostic.mk ⟨1, 4⟩ (.missingComma .array .integer)].map Diagnostic.message =
        ["no comma after element in array, got INTEGER"] ∧
      ∃ read, eraseExprs read = [.integer .start "1" 1] ∧
      (operand ⟨1, 6⟩ ⟨.leftBracket, "[", ⟨1, 1⟩⟩ [⟨.integer, "1", ⟨1, 2⟩⟩,
        ⟨.integer, "2", ⟨1, 4⟩⟩, ⟨.rightBracket, "]", ⟨1, 5⟩⟩]).outcome =
        ⟨some (.array ⟨1, 1⟩ read), [⟨.integer, "2", ⟨1, 4⟩⟩, ⟨.rightBracket, "]", ⟨1, 5⟩⟩],
          [⟨⟨1, 4⟩, .missingComma .array .integer⟩]⟩) ∧
    ([Diagnostic.mk ⟨1, 11⟩ (.unexpected .rightObject .eof)].map Diagnostic.message =
        ["expected next token to be ROBJECT_BRACE, got EOF instead"] ∧
      ∃ read, erasePairs read = [(.string .start "a", .integer .start "1" 1)] ∧
      (operand ⟨1, 11⟩ ⟨.leftObject, "\x7b\x7b", ⟨1, 1⟩⟩ [⟨.string, "a", ⟨1, 4⟩⟩,
        ⟨.colon, ":", ⟨1, 7⟩⟩, ⟨.integer, "1", ⟨1, 9⟩⟩, ⟨.comma, ",", ⟨1, 10⟩⟩]).outcome =
        ⟨some (.object ⟨1, 1⟩ read), [], [⟨⟨1, 11⟩, .unexpected .rightObject .eof⟩]⟩) ∧
    ([Diagnostic.mk ⟨1, 8⟩ (.missingColon .integer)].map Diagnostic.message =
        ["no separator found between key and value, got INTEGER"] ∧
      ∃ read, erasePairs read = [] ∧
      (operand ⟨1, 9⟩ ⟨.leftObject, "\x7b\x7b", ⟨1, 1⟩⟩ [⟨.string, "a", ⟨1, 4⟩⟩,
        ⟨.integer, "1", ⟨1, 8⟩⟩]).outcome =
        ⟨some (.object ⟨1, 1⟩ read), [⟨.integer, "1", ⟨1, 8⟩⟩],
          [⟨⟨1, 8⟩, .missingColon .integer⟩]⟩) := by
  have hone : (Expr.integer .start "1" 1).ReadsAlone :=
    ⟨⟨.integer, "1", ⟨1, 1⟩⟩, .integer ⟨1, 1⟩ "1" 1, by cbv, rfl⟩
  have hname : (Expr.string .start "a").ReadsAlone :=
    ⟨⟨.string, "a", ⟨1, 1⟩⟩, .string ⟨1, 1⟩ "a", by cbv, rfl⟩
  refine ⟨?_, ?_, ?_⟩
  · exact (operand_keeps_complete ⟨1, 6⟩ ⟨.leftBracket, "[", ⟨1, 1⟩⟩ [⟨.integer, "1", ⟨1, 2⟩⟩]
      [⟨.integer, "2", ⟨1, 4⟩⟩, ⟨.rightBracket, "]", ⟨1, 5⟩⟩] _ _ _).1 [.integer .start "1" 1]
      (List.cons_ne_nil _ _) (List.forall_mem_singleton.mpr hone) rfl (by unfold AreTokensOf; cbv)
      (.missing rfl (by decide) (by decide) (by decide))
  · exact (operand_keeps_complete ⟨1, 11⟩ ⟨.leftObject, "\x7b\x7b", ⟨1, 1⟩⟩ [⟨.string, "a", ⟨1, 4⟩⟩,
      ⟨.colon, ":", ⟨1, 7⟩⟩, ⟨.integer, "1", ⟨1, 9⟩⟩] [⟨.comma, ",", ⟨1, 10⟩⟩] _ _
      _).2.1
      [(.string .start "a", .integer .start "1" 1)] (List.cons_ne_nil _ _)
      (List.forall_mem_singleton.mpr ⟨hname, hone⟩) rfl (by unfold AreTokensOf; cbv) (.ended rfl)
  · exact (operand_keeps_complete ⟨1, 9⟩ ⟨.leftObject, "\x7b\x7b", ⟨1, 1⟩⟩ [⟨.string, "a", ⟨1, 4⟩⟩]
      [⟨.integer, "1", ⟨1, 8⟩⟩] _ _ _).2.2 [] (.string .start "a") (List.forall_mem_nil _) hname rfl
      (by unfold AreTokensOf; cbv) (.missing rfl (by decide) (by decide))

end Parser

end ExprMachine
