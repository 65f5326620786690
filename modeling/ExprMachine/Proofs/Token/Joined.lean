import ExprMachine.Proofs.Parser.Relocation
import ExprMachine.Proofs.Token.Spacing

/-!
# The tokens of joined texts

A text that leaves no string and no comment open can be followed by any other text: with a blank or
a comment between them, neither goes on into the other. Their tilings are put one behind the other
(`Tiles.append`), after the second has been moved to where it now begins (`Tiles.moved`), and the
lexer finds the tiling of a text. So the whole has the tokens of the first text and then those of
the second, each as far from its beginning as before (`Position.shift`).
-/

namespace ExprMachine

/-! ## Places in a text behind another one -/

namespace Position

/-- The place that `p` becomes when the text it belongs to begins at `base`: only what stands on the
first line of the text moves to the right. -/
def shift (base p : Position) : Position :=
  ⟨base.line + (p.line - 1), if p.line = 1 then base.col + (p.col - 1) else p.col⟩

theorem shift_after (base : Position) {p : Position} (hline : 0 < p.line) (hcol : 0 < p.col)
    (c : Char) : base.shift (p.after c) = (base.shift p).after c := by
  unfold shift after
  by_cases hnewline : c = '\n'
  · simp only [if_pos hnewline, mk.injEq]
    constructor
    · omega
    · rw [if_neg (by omega)]
  · simp only [if_neg hnewline, mk.injEq, true_and]
    split
    · omega
    · rfl

theorem shift_pastMissing (base : Position) {p : Position} (hcol : 0 < p.col) :
    base.shift p.pastMissing = (base.shift p).pastMissing := by
  unfold shift pastMissing
  simp only [mk.injEq, true_and]
  split
  · omega
  · rfl

/-- Places are counted on behind the first text. -/
theorem behind_append (front cs : List Char) :
    behind (front ++ cs) = (behind front).shift (behind cs) := by
  induction cs using List.reverseRecOn with
  | nil =>
      rw [List.append_nil]
      rfl
  | append_singleton cs c ih =>
      rw [← List.append_assoc, behind_concat, behind_concat, ih]
      exact (shift_after _ (Nat.succ_pos _) (Nat.succ_pos _) c).symm

theorem ending_append (front cs : List Char) (isOpen : Bool) :
    ending (front ++ cs) isOpen = (behind front).shift (ending cs isOpen) := by
  cases isOpen with
  | false => exact behind_append front cs
  | true =>
      have hcol : 0 < (behind cs).col := Nat.succ_pos _
      show (behind (front ++ cs)).pastMissing = (behind front).shift (behind cs).pastMissing
      rw [behind_append, shift_pastMissing _ hcol]

end Position

/-! ## Tilings one behind the other -/

/-- The tiling of a text is its tiling behind any other text, with the places counted from there. -/
theorem Tiles.moved {front cs : List Char} {tokens : List Token} {isOpen : Bool}
    (h : Tiles front cs tokens isOpen) (before : List Char) :
    Tiles (before ++ front) cs (tokens.map (Token.relocate (Position.behind before).shift))
      isOpen := by
  have hplace : ∀ front trivia : List Char,
      (Position.behind before).shift (.behind (front ++ trivia)) =
        .behind (before ++ front ++ trivia) := by
    intro front trivia
    rw [← Position.behind_append, List.append_assoc]
  induction h with
  | ending htrivia => exact .ending htrivia
  | openComment htrivia hbody => exact .openComment htrivia hbody
  | openString htrivia hbody =>
      rw [List.map_singleton, Token.relocate, hplace]
      exact .openString htrivia hbody
  | @lexeme front trivia extent literal rest kind tokens isOpen htrivia hlexeme hends hrest ih =>
      have hbehind :
          before ++ (front ++ trivia ++ extent) = before ++ front ++ trivia ++ extent := by
        simp
      rw [List.map_cons, Token.relocate, hplace]
      rw [hbehind] at ih
      exact .lexeme htrivia hlexeme hends ih

theorem IsTrivia.append {xs ys : List Char} (hx : IsTrivia xs) (hy : IsTrivia ys) :
    IsTrivia (xs ++ ys) := by
  induction hx with
  | nil => exact hy
  | blank hblank _ ih => exact .blank hblank ih
  | comment hbody _ ih =>
      rw [List.cons_append, List.append_assoc, List.cons_append]
      exact .comment hbody ih

/-- Blanks and comments in front of a tiling belong to it. -/
theorem Tiles.behind_trivia {front trivia cs : List Char} {tokens : List Token} {isOpen : Bool}
    (htrivia : IsTrivia trivia) (h : Tiles (front ++ trivia) cs tokens isOpen) :
    Tiles front (trivia ++ cs) tokens isOpen := by
  cases h with
  | ending hmore => exact .ending (htrivia.append hmore)
  | openComment hmore hbody =>
      rw [← List.append_assoc]
      exact .openComment (htrivia.append hmore) hbody
  | openString hmore hbody =>
      rw [← List.append_assoc, List.append_assoc front]
      exact .openString (htrivia.append hmore) hbody
  | lexeme hmore hlexeme hends hrest =>
      rw [List.append_assoc front] at hrest ⊢
      rw [← List.append_assoc, ← List.append_assoc]
      exact .lexeme (htrivia.append hmore) hlexeme hends hrest

theorem EndsBefore.append {extent rest more : List Char} (h : EndsBefore extent rest)
    (hmore : ∀ d ∈ more.head?, d = '#' ∨ Lexeme.isBlank d) : EndsBefore extent (rest ++ more) := by
  cases rest with
  | nil => exact .of_separator hmore
  | cons c rest => exact ⟨h.word, h.number, h.sign⟩

/-- **A text that leaves nothing open** is tiled in front of a blank or a comment as it is alone. -/
theorem Tiles.append {front cs more : List Char} {xs ys : List Token} {isOpen : Bool}
    (h : Tiles front cs xs false) (hmore : ∀ d ∈ more.head?, d = '#' ∨ Lexeme.isBlank d)
    (hbehind : Tiles (front ++ cs) more ys isOpen) :
    Tiles front (cs ++ more) (xs ++ ys) isOpen := by
  generalize hclosed : false = closed at h
  induction h with
  | ending htrivia =>
      -- the trivia at the end of the first text are trivia in front of the second
      exact hbehind.behind_trivia htrivia
  | openComment | openString => cases hclosed
  | @lexeme front trivia extent literal rest kind tokens isOpen' htrivia hlexeme hends hrest ih =>
      have hplace : front ++ (trivia ++ extent ++ rest) = front ++ trivia ++ extent ++ rest := by
        simp
      rw [hplace] at hbehind
      rw [List.append_assoc]
      exact .lexeme htrivia hlexeme (hends.append hmore) (ih hbehind hclosed)

/-- **The tokens of joined texts.** The text in front leaves nothing open, and something stands
between the two; nothing is asked of the text behind. -/
theorem TokenStream.ofSource_joined {front trivia : String} {tokens : List Token}
    (hfront : Tiles [] front.toList tokens false) (htrivia : IsTrivia trivia.toList)
    (hne : trivia.toList ≠ []) (text : String) :
    ofSource (front ++ trivia ++ text) =
      let moved := (ofSource text).relocate (Position.behind (front ++ trivia).toList).shift
      ⟨tokens ++ moved.tokens, moved.eof⟩ := by
  -- the second text may leave something open: that is then open at the end of the whole
  obtain ⟨found, isOpen, htext⟩ := exists_tiles [] text.toList
  have hmoved := htext.moved (front.toList ++ trivia.toList)
  rw [List.append_nil] at hmoved
  have hseparated : ∀ d ∈ (trivia.toList ++ text.toList).head?, d = '#' ∨ Lexeme.isBlank d := by
    rw [List.head?_append_of_ne_nil _ hne]
    exact htrivia.head
  have hall := hfront.append hseparated (hmoved.behind_trivia htrivia)
  have hsource : (front ++ trivia ++ text).toList =
      front.toList ++ (trivia.toList ++ text.toList) := by
    simp
  rw [← hsource] at hall
  rw [hall.ofSource, htext.ofSource]
  simp only [TokenStream.relocate, String.toList_append, Position.ending_append]

end ExprMachine
