import ExprMachine.Proofs.Ast.Canonical
import ExprMachine.Proofs.Parser.Origin

/-!
# The canonical text has the tokens it is meant to have

A tree whose names, numbers and strings are legible can be written down: the text that `render`
gives is cut into exactly the tokens that `spelling` lists. Two things could go wrong. A token could
go on with the first character of what is written behind it, so each text is only claimed to be
read as it should where something that separates follows (`Separated`); and the sign in front of an
operand could become one of two characters with the operand's first, which no operand begins with
(`Expr.head_render`).
-/

namespace ExprMachine

/-- Whether no token that a construct ends with goes on with the character. -/
def separates (c : Char) : Bool := !Lexeme.isLetter c && !Lexeme.isDigit c && c != '\x7d'

/-- The text does not go on with the token in front of it. -/
def Separated (rest : List Char) : Prop := ∀ c ∈ rest.head?, separates c

theorem separated_nil : Separated [] := by
  intro c hc
  cases hc

theorem separated_cons (c : Char) (rest : List Char) (h : separates c := by decide) :
    Separated (c :: rest) := by
  rintro _ ⟨⟩
  exact h

/-- The text gives the tokens wherever something that separates follows. -/
def ReadsAs (text : String) (sp : List Spelling) : Prop :=
  ∀ rest, Separated rest → spellings (text.toList ++ rest) = sp ++ spellings rest

/-- Texts that are read part by part. -/
inductive AllReadAs : List String → List (List Spelling) → Prop
  | nil : AllReadAs [] []
  | cons {text : String} {texts : List String} {sp : List Spelling} {sps : List (List Spelling)}
      (h : ReadsAs text sp) (hs : AllReadAs texts sps) : AllReadAs (text :: texts) (sp :: sps)

theorem spellings_space (rest : List Char) : spellings (' ' :: rest) = spellings rest :=
  spellings_blank rfl rest

theorem AllReadAs.commaSeparated {texts : List String} {sps : List (List Spelling)}
    (h : AllReadAs texts sps) :
    ReadsAs (Text.commaSeparated texts) (Spelling.commaSeparated sps) := by
  unfold Text.commaSeparated Spelling.commaSeparated
  induction h with
  | nil => exact fun rest _ => rfl
  | @cons text texts sp sps h hs ih =>
    cases hs with
    | nil => simpa using h
    | @cons next texts sp' sps h' hs =>
      intro rest hrest
      have htext : (", ".intercalate (text :: next :: texts)).toList ++ rest =
          text.toList ++ ',' :: ' ' :: ((", ".intercalate (next :: texts)).toList ++ rest) := by
        simp [String.toList_intercalate]
      rw [htext, h _ (separated_cons ',' _), spellings_alone ',', spellings_space, ih rest hrest]
      simp

theorem AllReadAs.spaced {texts : List String} {sps : List (List Spelling)}
    (h : AllReadAs texts sps) : ReadsAs (" ".intercalate texts) sps.flatten := by
  induction h with
  | nil => exact fun rest _ => rfl
  | @cons text texts sp sps h hs ih =>
    cases hs with
    | nil => simpa using h
    | @cons next texts sp' sps h' hs =>
      intro rest hrest
      have htext : (" ".intercalate (text :: next :: texts)).toList ++ rest =
          text.toList ++ ' ' :: ((" ".intercalate (next :: texts)).toList ++ rest) := by
        simp [String.toList_intercalate]
      rw [htext, h _ (separated_cons ' ' _), spellings_space, ih rest hrest]
      simp

/-! ## Words and signs -/

theorem Separated.not_letter {rest : List Char} (h : Separated rest) :
    ∀ c ∈ rest.head?, ¬Lexeme.isLetter c := by
  intro c hc hletter
  have := h c hc
  simp [separates, hletter] at this

theorem Separated.not_digit {rest : List Char} (h : Separated rest) :
    ∀ c ∈ rest.head?, ¬Lexeme.isDigit c := by
  intro c hc hdigit
  have := h c hc
  simp [separates, hdigit] at this

theorem readsAs_word {w : String} (h : IsWord w) : ReadsAs w [.word w] :=
  fun _ hrest => spellings_word h hrest.not_letter

/-- A keyword in front of a separating character. -/
theorem spellings_keyword (w : String) (c : Char) (rest : List Char)
    (hw : w.toList ≠ [] ∧ w.toList.all Lexeme.isLetter := by decide)
    (hc : separates c := by decide) :
    spellings (w.toList ++ c :: rest) = .word w :: spellings (c :: rest) :=
  readsAs_word ⟨hw.1, List.all_eq_true.mp hw.2⟩ _ (separated_cons c rest hc)

/-- A sign in front of a space. -/
theorem spellings_sign_space (c : Char) (rest : List Char)
    (hc : Lexeme.single c ≠ .illegal := by decide)
    (hpair : Lexeme.pair? c ' ' = none := by rfl) :
    spellings (c :: ' ' :: rest) = .sign c :: spellings rest := by
  rw [spellings_sign hc (by rintro _ ⟨⟩; exact hpair), spellings_space]

/-- A closing brace does not meet another one. -/
theorem spellings_closeBrace {rest : List Char} (h : Separated rest) :
    spellings ('\x7d' :: rest) = .sign '\x7d' :: spellings rest := by
  refine spellings_sign (by decide) ?_
  intro c hc
  have hne : c ≠ '\x7d' := by
    rintro rfl
    cases h _ hc
  unfold Lexeme.pair?
  split <;> simp_all

theorem spellings_openObject (rest : List Char) :
    spellings ('\x7b' :: '\x7b' :: rest) = .openObject :: spellings rest :=
  spellings_pair rfl rest

theorem spellings_closeObject (rest : List Char) :
    spellings ('\x7d' :: '\x7d' :: rest) = .closeObject :: spellings rest :=
  spellings_pair rfl rest

theorem UnaryOp.spellings_symbol (op : UnaryOp) {c : Char} (rest : List Char) (hminus : c ≠ '-')
    (hassign : c ≠ '=') :
    spellings (op.symbol.toList ++ c :: rest) = op.spelling :: spellings (c :: rest) := by
  cases op with
  | not =>
    have hpair : Lexeme.pair? '!' c = none := by
      unfold Lexeme.pair?
      split <;> simp_all
    exact spellings_sign (by decide) (by rintro _ ⟨⟩; exact hpair)
  | negate =>
    have hpair : Lexeme.pair? '-' c = none := by
      unfold Lexeme.pair?
      split <;> simp_all
    exact spellings_sign (by decide) (by rintro _ ⟨⟩; exact hpair)

theorem BinaryOp.spellings_symbol (op : BinaryOp) (rest : List Char) :
    spellings (op.symbol.toList ++ ' ' :: rest) = op.spelling :: spellings rest := by
  have hpair : ∀ c d kind, Lexeme.pair? c d = some kind →
      spellings (c :: d :: ' ' :: rest) = (kind, String.ofList [c, d]) :: spellings rest := by
    intro c d kind h
    rw [spellings_pair h, spellings_space]
  cases op with
  | arith op =>
    cases op with
    | add => exact spellings_sign_space '+' rest
    | sub => exact spellings_sign_space '-' rest
    | mul => exact spellings_sign_space '*' rest
    | div => exact spellings_sign_space '/' rest
  | compare op =>
    cases op with
    | equal => exact hpair '=' '=' _ rfl
    | notEqual => exact hpair '!' '=' _ rfl
    | less => exact spellings_sign_space '<' rest
    | greater => exact spellings_sign_space '>' rest

/-! ## Leaves -/

theorem Identifier.MadeOf.isWord {id : Identifier} (h : id.MadeOf Token.Legible) :
    IsWord id.name := by
  obtain ⟨t, ht, hkind, rfl⟩ := h
  exact (ht.word hkind).1

theorem Expr.isNumber_of_legible {pos : Position} {digits : String} {value : Int64}
    (h : (Expr.integer pos digits value).MadeOf Token.Legible) : IsNumber digits := by
  obtain ⟨t, ht, hkind, -, rfl, -⟩ := h
  exact ht.number hkind

theorem Expr.no_quote_of_legible {pos : Position} {value : String}
    (h : (Expr.string pos value).MadeOf Token.Legible) : '"' ∉ value.toList := by
  obtain ⟨t, ht, hkind, -, rfl⟩ := h
  exact ht.text hkind

/-! ## Expressions, blocks and statements -/

theorem head_alphanumeric {cs : List Char} (hne : cs ≠ [])
    (h : ∀ c ∈ cs, Lexeme.isLetter c ∨ Lexeme.isDigit c) :
    ∃ c, cs.head? = some c ∧ c ≠ '-' ∧ c ≠ '=' := by
  cases cs with
  | nil => exact absurd rfl hne
  | cons c cs =>
      have hc := h c List.mem_cons_self
      refine ⟨c, rfl, ?_, ?_⟩
      · rintro rfl
        rcases hc with hc | hc <;> cases hc
      · rintro rfl
        rcases hc with hc | hc <;> cases hc

/-- No expression begins with what a sign in front of it would take along. -/
theorem Expr.head_render {expr : Expr} (h : expr.MadeOf Token.Legible) :
    ∃ c, expr.render.toList.head? = some c ∧ c ≠ '-' ∧ c ≠ '=' := by
  cases expr with
  | identifier id =>
      have hword : IsWord id.name := Identifier.MadeOf.isWord h
      exact head_alphanumeric hword.1 fun c hc => .inl (hword.2 c hc)
  | integer pos digits value =>
      have hnumber := Expr.isNumber_of_legible h
      exact head_alphanumeric hnumber.1 fun c hc => .inr (hnumber.2 c hc)
  | string pos value => exact ⟨'"', by simp [Expr.render], by decide, by decide⟩
  | bool pos value =>
      cases value with
      | true => exact ⟨'t', by simp [Expr.render], by decide, by decide⟩
      | false => exact ⟨'f', by simp [Expr.render], by decide, by decide⟩
  | array pos elements => exact ⟨'[', by simp [Expr.render], by decide, by decide⟩
  | object pos pairs =>
      cases pairs with
      | nil => exact ⟨'{', by simp [Expr.render], by decide, by decide⟩
      | cons pair pairs => exact ⟨'{', by simp [Expr.render], by decide, by decide⟩
  | branch pos condition consequence alternative? =>
      cases alternative? with
      | none => exact ⟨'i', by simp [Expr.render], by decide, by decide⟩
      | some alternative => exact ⟨'i', by simp [Expr.render], by decide, by decide⟩
  | loop pos condition body => exact ⟨'f', by simp [Expr.render], by decide, by decide⟩
  | function pos params body => exact ⟨'f', by simp [Expr.render], by decide, by decide⟩
  | call pos callee arguments =>
      have hcallee : callee.MadeOf Token.Legible := h.1
      obtain ⟨c, hc, hne⟩ := Expr.head_render hcallee
      exact ⟨c, by simp [Expr.render, hc], hne⟩
  | unary pos op right => exact ⟨'(', by simp [Expr.render], by decide, by decide⟩
  | binary pos op left right => exact ⟨'(', by simp [Expr.render], by decide, by decide⟩
  | index pos left index => exact ⟨'(', by simp [Expr.render], by decide, by decide⟩

/-- A statement keeps its tokens when it is closed for another one to follow. -/
theorem Stmt.readsAs_terminated {stmt : Stmt} (h : ReadsAs stmt.render stmt.spelling) :
    ReadsAs (stmt.render ++ stmt.terminator) (stmt.spelling ++ stmt.terminatorSpelling) := by
  cases stmt with
  | expression start value =>
      intro rest hrest
      simp only [Stmt.terminator, Stmt.terminatorSpelling, String.toList_append,
        String.reduceToList, List.append_assoc, List.cons_append, List.nil_append]
      rw [h _ (separated_cons ';' _), spellings_alone ';']
  | _ => simpa [Stmt.terminator, Stmt.terminatorSpelling] using h

theorem readsAs_names {params : List Identifier} (h : ∀ id ∈ params, id.MadeOf Token.Legible) :
    AllReadAs (params.map (·.name)) (params.map fun id => [.word id.name]) := by
  induction params with
  | nil => exact .nil
  | cons id params ih =>
      obtain ⟨hid, hparams⟩ := List.forall_mem_cons.mp h
      exact .cons (readsAs_word (Identifier.MadeOf.isWord hid)) (ih hparams)

mutual

theorem Expr.readsAs (expr : Expr) (h : expr.MadeOf Token.Legible) :
    ReadsAs expr.render expr.spelling := by
  intro rest hrest
  cases expr with
  | identifier id =>
      exact readsAs_word (Identifier.MadeOf.isWord h) rest hrest
  | integer pos digits value =>
      exact spellings_number (Expr.isNumber_of_legible h) hrest.not_digit
  | string pos value =>
      simp only [Expr.render, String.toList_append, String.reduceToList, List.append_assoc,
        List.cons_append, List.nil_append]
      exact spellings_text (Expr.no_quote_of_legible h) rest
  | bool pos value =>
      cases value with
      | true =>
          have hword : IsWord "true" := ⟨by decide, List.all_eq_true.mp (by decide)⟩
          exact readsAs_word hword rest hrest
      | false =>
          have hword : IsWord "false" := ⟨by decide, List.all_eq_true.mp (by decide)⟩
          exact readsAs_word hword rest hrest
  | array pos elements =>
      simp only [Expr.render, Expr.spelling, String.toList_append, String.reduceToList,
        List.append_assoc, List.cons_append, List.nil_append]
      rw [spellings_alone '[', (exprs_readAs elements h).commaSeparated _ (separated_cons ']' _),
        spellings_alone ']']
  | object pos pairs =>
      cases pairs with
      | nil =>
          simp only [Expr.render, Expr.spelling, String.reduceToList, List.cons_append,
            List.nil_append]
          rw [spellings_openObject, spellings_space, spellings_closeObject]
          rfl
      | cons pair pairs =>
          simp only [Expr.render, Expr.spelling, String.toList_append, String.reduceToList,
            List.append_assoc, List.cons_append, List.nil_append]
          rw [spellings_openObject, spellings_space,
            (pairs_readAs (pair :: pairs) h).commaSeparated _ (separated_cons ' ' _),
            spellings_space, spellings_closeObject]
  | unary pos op right =>
      have hright : right.MadeOf Token.Legible := h
      -- nothing stands between the sign and its operand, so the two must not run together
      obtain ⟨c, hc, hminus, hassign⟩ := Expr.head_render hright
      obtain ⟨cs, hcs⟩ := List.head?_eq_some_iff.mp hc
      have hread := right.readsAs hright (')' :: rest) (separated_cons ')' rest)
      rw [spellings_alone ')', hcs, List.cons_append] at hread
      simp only [Expr.render, Expr.spelling, String.toList_append, String.reduceToList, hcs,
        List.append_assoc, List.cons_append, List.nil_append]
      rw [spellings_alone '(', op.spellings_symbol _ hminus hassign, hread]
  | binary pos op left right =>
      simp only [Expr.render, Expr.spelling, String.toList_append, String.reduceToList,
        List.append_assoc, List.cons_append, List.nil_append]
      rw [spellings_alone '(', left.readsAs h.1 _ (separated_cons ' ' _), spellings_space,
        op.spellings_symbol, right.readsAs h.2 _ (separated_cons ')' _), spellings_alone ')']
  | branch pos condition consequence alternative? =>
      have hif := fun rest => spellings_keyword "if" ' ' rest
      have helse := fun rest => spellings_keyword "else" ' ' rest
      simp only [String.reduceToList, List.cons_append, List.nil_append] at hif helse
      cases alternative? with
      | none =>
          simp only [Expr.render, Expr.spelling, String.toList_append, String.reduceToList,
            List.append_assoc, List.cons_append, List.nil_append]
          rw [hif, spellings_space, spellings_alone '(',
            condition.readsAs h.1 _ (separated_cons ')' _), spellings_alone ')', spellings_space,
            consequence.readsAs h.2 rest hrest]
      | some alternative =>
          simp only [Expr.render, Expr.spelling, String.toList_append, String.reduceToList,
            List.append_assoc, List.cons_append, List.nil_append]
          rw [hif, spellings_space, spellings_alone '(',
            condition.readsAs h.1 _ (separated_cons ')' _), spellings_alone ')', spellings_space,
            consequence.readsAs h.2.1 _ (separated_cons ' ' _), spellings_space, helse,
            spellings_space, alternative.readsAs h.2.2 rest hrest]
  | loop pos condition body =>
      have hfor := fun rest => spellings_keyword "for" ' ' rest
      simp only [String.reduceToList, List.cons_append, List.nil_append] at hfor
      simp only [Expr.render, Expr.spelling, String.toList_append, String.reduceToList,
        List.append_assoc, List.cons_append, List.nil_append]
      rw [hfor, spellings_space, spellings_alone '(',
        condition.readsAs h.1 _ (separated_cons ')' _), spellings_alone ')', spellings_space,
        body.readsAs h.2 rest hrest]
  | function pos params body =>
      have hfn := fun rest => spellings_keyword "fn" '(' rest
      simp only [String.reduceToList, List.cons_append, List.nil_append] at hfn
      simp only [Expr.render, Expr.spelling, String.toList_append, String.reduceToList,
        List.append_assoc, List.cons_append, List.nil_append]
      rw [hfn, spellings_alone '(',
        (readsAs_names h.1).commaSeparated _ (separated_cons ')' _), spellings_alone ')',
        spellings_space, body.readsAs h.2 rest hrest]
  | call pos callee arguments =>
      simp only [Expr.render, Expr.spelling, String.toList_append, String.reduceToList,
        List.append_assoc, List.cons_append, List.nil_append]
      rw [callee.readsAs h.1 _ (separated_cons '(' _), spellings_alone '(',
        (exprs_readAs arguments h.2).commaSeparated _ (separated_cons ')' _), spellings_alone ')']
  | index pos left index =>
      simp only [Expr.render, Expr.spelling, String.toList_append, String.reduceToList,
        List.append_assoc, List.cons_append, List.nil_append]
      rw [spellings_alone '(', left.readsAs h.1 _ (separated_cons '[' _), spellings_alone '[',
        index.readsAs h.2 _ (separated_cons ']' _), spellings_alone ']', spellings_alone ')']

theorem Block.readsAs (block : Block) (h : block.MadeOf Token.Legible) :
    ReadsAs block.render block.spelling := by
  intro rest hrest
  cases block with
  | mk pos stmts =>
    cases stmts with
    | nil =>
        simp only [Block.render, Block.spelling, String.reduceToList, List.cons_append,
          List.nil_append]
        rw [spellings_sign_space '\x7b', spellings_closeBrace hrest]
        rfl
    | cons stmt stmts =>
        simp only [Block.render, Block.spelling, String.toList_append, String.reduceToList,
          List.append_assoc, List.cons_append, List.nil_append]
        rw [spellings_sign_space '\x7b',
          (stmts_readAs (stmt :: stmts) h).spaced _ (separated_cons ' ' _), spellings_space,
          spellings_closeBrace hrest]

theorem Stmt.readsAs (stmt : Stmt) (h : stmt.MadeOf Token.Legible) :
    ReadsAs stmt.render stmt.spelling := by
  intro rest hrest
  cases stmt with
  | binding pos name value =>
      have hlet := fun rest => spellings_keyword "let" ' ' rest
      simp only [String.reduceToList, List.cons_append, List.nil_append] at hlet
      simp only [Stmt.render, Stmt.spelling, String.toList_append, String.reduceToList,
        List.append_assoc, List.cons_append, List.nil_append]
      rw [hlet, spellings_space,
        readsAs_word (Identifier.MadeOf.isWord h.1) _ (separated_cons ' ' _), spellings_space,
        spellings_sign_space '=', value.readsAs h.2 _ (separated_cons ';' _), spellings_alone ';']
      rfl
  | exit pos value? =>
      cases value? with
      | none =>
          have hreturn := fun rest => spellings_keyword "return" ';' rest
          simp only [String.reduceToList, List.cons_append, List.nil_append] at hreturn
          simp only [Stmt.render, Stmt.spelling, String.reduceToList, List.cons_append,
            List.nil_append]
          rw [hreturn, spellings_alone ';']
      | some value =>
          have hreturn := fun rest => spellings_keyword "return" ' ' rest
          simp only [String.reduceToList, List.cons_append, List.nil_append] at hreturn
          simp only [Stmt.render, Stmt.spelling, String.toList_append, String.reduceToList,
            List.append_assoc, List.cons_append, List.nil_append]
          rw [hreturn, spellings_space, value.readsAs h _ (separated_cons ';' _),
            spellings_alone ';']
  | expression start value => exact value.readsAs h rest hrest
  | block body => exact body.readsAs h rest hrest

theorem exprs_readAs (exprs : List Expr) (h : exprsMadeOf Token.Legible exprs) :
    AllReadAs (renderExprs exprs) (exprSpellings exprs) := by
  cases exprs with
  | nil => exact .nil
  | cons expr exprs => exact .cons (expr.readsAs h.1) (exprs_readAs exprs h.2)

theorem pairs_readAs (pairs : List (Expr × Expr)) (h : pairsMadeOf Token.Legible pairs) :
    AllReadAs (renderPairs pairs) (pairSpellings pairs) := by
  cases pairs with
  | nil => exact .nil
  | cons pair pairs =>
      obtain ⟨key, value⟩ := pair
      refine .cons ?_ (pairs_readAs pairs h.2)
      intro rest hrest
      simp only [String.toList_append, String.reduceToList, List.append_assoc, List.cons_append,
        List.nil_append]
      rw [key.readsAs h.1.1 _ (separated_cons ':' _), spellings_alone ':', spellings_space,
        value.readsAs h.1.2 rest hrest]

theorem stmts_readAs (stmts : List Stmt) (h : stmtsMadeOf Token.Legible stmts) :
    AllReadAs (renderStmts stmts) (stmtSpellings stmts) := by
  cases stmts with
  | nil => exact .nil
  | cons stmt stmts =>
      have hstmts := stmts_readAs stmts h.2
      -- only in front of another statement is a statement closed
      cases stmts with
      | nil => exact .cons (stmt.readsAs h.1) .nil
      | cons next stmts => exact .cons (Stmt.readsAs_terminated (stmt.readsAs h.1)) hstmts

end

end ExprMachine
