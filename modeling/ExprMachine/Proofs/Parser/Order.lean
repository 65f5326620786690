import ExprMachine.Proofs.Parser.Origin
import ExprMachine.Proofs.Token.Tiling

/-!
# Reports come in the order of the text

Places are ordered as they are read, by lines and within a line by columns. The tokens of a text
stand in that order, with its end behind all of them, since each begins behind the characters of the
one before. Reading passes along the tokens and reports only what is next, so a report never stands
in front of an earlier one, however deep in the text the constructs are nested that were given up.
-/

namespace ExprMachine

open ExprMachine.Parser

/-! ## The order of places -/

namespace Position

/-- By lines, and within a line by columns. -/
instance : Preorder Position := Preorder.lift fun p => toLex (p.line, p.col)

theorem le_iff {p q : Position} : p ≤ q ↔ p.line < q.line ∨ p.line = q.line ∧ p.col ≤ q.col :=
  Prod.Lex.toLex_le_toLex

theorem le_after (p : Position) (c : Char) : p ≤ p.after c := by
  rw [le_iff]
  unfold after
  split
  · exact .inl (Nat.lt_succ_self _)
  · exact .inr ⟨rfl, Nat.le_succ _⟩

theorem le_afterAll (p : Position) (cs : List Char) : p ≤ p.afterAll cs := by
  induction cs generalizing p with
  | nil => exact le_refl p
  | cons c cs ih => exact le_trans (le_after p c) (ih _)

theorem behind_le (front cs : List Char) : behind front ≤ behind (front ++ cs) := by
  rw [← afterAll_behind]
  exact le_afterAll _ _

/-- A text ends behind its last character or further on. -/
theorem behind_le_ending (text : List Char) (isOpen : Bool) : behind text ≤ ending text isOpen := by
  cases isOpen with
  | false => exact le_refl _
  | true => exact le_iff.mpr (.inr ⟨rfl, Nat.le_succ _⟩)

end Position

/-! ## The order of tokens -/

/-- The tokens stand in order, and the end of the text behind them. -/
def InOrder (eof : Position) (ts : List Token) : Prop :=
  (ts ++ [Token.ending eof]).Pairwise fun t u => t.pos ≤ u.pos

theorem inOrder_cons {eof : Position} {t : Token} {ts : List Token} :
    InOrder eof (t :: ts) ↔ (∀ u ∈ ts ++ [Token.ending eof], t.pos ≤ u.pos) ∧ InOrder eof ts :=
  List.pairwise_cons

/-- **Lexemes stand in order**, and none of them in front of the text that they tile. -/
theorem Tiles.inOrder {front cs : List Char} {tokens : List Token} {isOpen : Bool}
    (h : Tiles front cs tokens isOpen) :
    InOrder (.ending (front ++ cs) isOpen) tokens ∧
      ∀ t ∈ tokens ++ [Token.ending (.ending (front ++ cs) isOpen)], .behind front ≤ t.pos := by
  -- a text without tokens only has its end
  have hend : ∀ (front cs : List Char) (isOpen : Bool),
      Position.behind front ≤ .ending (front ++ cs) isOpen := fun front cs isOpen =>
    le_trans (Position.behind_le front cs) (Position.behind_le_ending _ isOpen)
  induction h with
  | ending | openComment =>
      exact ⟨List.pairwise_singleton _ _, List.forall_mem_singleton.mpr (hend _ _ _)⟩
  | @openString front trivia body htrivia hbody =>
      have hlast := hend (front ++ trivia) ('"' :: body) true
      rw [List.append_assoc] at hlast
      refine ⟨inOrder_cons.mpr ⟨List.forall_mem_singleton.mpr hlast,
        List.pairwise_singleton _ _⟩, List.forall_mem_cons.mpr
        ⟨Position.behind_le front trivia, List.forall_mem_singleton.mpr (hend _ _ _)⟩⟩
  | @lexeme front trivia extent literal rest kind tokens isOpen htrivia hlexeme hends hrest ih =>
      have hsplit : front ++ (trivia ++ extent ++ rest) = front ++ trivia ++ extent ++ rest := by
        simp
      rw [hsplit]
      obtain ⟨horder, hbehind⟩ := ih
      have hfirst : ∀ u ∈ tokens ++
          [Token.ending (.ending (front ++ trivia ++ extent ++ rest) isOpen)],
          Position.behind (front ++ trivia) ≤ u.pos := fun u hu =>
        le_trans (Position.behind_le _ extent) (hbehind u hu)
      refine ⟨inOrder_cons.mpr ⟨hfirst, horder⟩, List.forall_mem_cons.mpr
        ⟨Position.behind_le front trivia, fun u hu => ?_⟩⟩
      exact le_trans (Position.behind_le front trivia) (hfirst u hu)

/-! ## The order of reports -/

/-- The next token is the first of all that are left. -/
theorem nextPos_le {eof pos : Position} {ts : List Token}
    (h : ∀ u ∈ ts ++ [Token.ending eof], pos ≤ u.pos) : pos ≤ nextPos eof ts := by
  cases ts with
  | nil => exact h (.ending eof) (List.mem_singleton_self _)
  | cons t rest => exact h t List.mem_cons_self

/-- **Along tokens in order** the reports are in order, and none stands in front of the first
token. -/
theorem Passes.inOrder {eof : Position} {ts rest : List Token} {ds : List Diagnostic}
    (h : Passes eof ts rest ds) (hts : InOrder eof ts) :
    ds.Pairwise (fun d e => d.pos ≤ e.pos) ∧ ∀ d ∈ ds, nextPos eof ts ≤ d.pos := by
  induction h with
  | stay => exact ⟨.nil, List.forall_mem_nil _⟩
  | take _ ih =>
      obtain ⟨hfirst, hothers⟩ := inOrder_cons.mp hts
      obtain ⟨horder, hbehind⟩ := ih hothers
      exact ⟨horder, fun d hd => le_trans (nextPos_le hfirst) (hbehind d hd)⟩
  | report fault _ ih =>
      obtain ⟨horder, hbehind⟩ := ih hts
      exact ⟨.cons hbehind horder, List.forall_mem_cons.mpr ⟨le_refl _, hbehind⟩⟩

/--
**Reports come in the order of the text.**

Whatever the text, and however its constructs are nested that could not be read: no report stands in
front of an earlier one, by lines and within a line by columns.
-/
theorem ParsedProgram.inOrder_ofSource (source : String) :
    (ofSource source).diagnostics.Pairwise fun d e =>
      d.pos.line < e.pos.line ∨ d.pos.line = e.pos.line ∧ d.pos.col ≤ e.pos.col := by
  obtain ⟨tokens, isOpen, htiles⟩ := exists_tiles [] source.toList
  have hpasses : Passes (TokenStream.ofSource source).eof (TokenStream.ofSource source).tokens []
      (ofSource source).diagnostics := passes_ofTokens (.ofSource source)
  rw [htiles.ofSource] at hpasses
  exact (hpasses.inOrder htiles.inOrder.1).1.imp Position.le_iff.mp

/-- Both arrays report the string behind the number that neither of them goes on with, and the
statement that begins with it is read to the end. -/
example : (ParsedProgram.ofSource "[[1 \"a\" +").diagnostics
    = [⟨⟨1, 5⟩, .missingComma .array .string⟩, ⟨⟨1, 5⟩, .missingComma .array .string⟩,
      ⟨⟨1, 10⟩, .noExpression .eof⟩] := by
  cbv

end ExprMachine
