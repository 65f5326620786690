import ExprMachine.Proofs.Token.Lexical

/-!
# A text is tiled by its tokens

Nothing of a text is lost between its tokens. `Tiles` lays it out from left to right: blanks and
closed comments, then a lexeme that goes as far as the lexical rules allow, and so on to the end,
with each token standing where its lexeme begins. Only at the very end may something be left open, a
string or a comment, and it then takes all that is left.

Places are not counted along the way here. The place of a token is read off the characters in front
of it (`Position.behind`): the newlines among them, and how many follow the last one.

**Every text has a tiling** (`exists_tiles`), by induction on its length.

**The lexer finds the tiling** (`Tiles.readAll`), by induction on the tiling. So a text has
only one.
-/

namespace ExprMachine

/-! ## Places -/

namespace Position

/-- The place behind the first characters of a text: one line more than there are newlines, one
column more than there are characters behind the last of them. -/
def behind (front : List Char) : Position :=
  ⟨front.count '\n' + 1, (front.reverse.takeWhile (· ≠ '\n')).length + 1⟩

theorem behind_concat (front : List Char) (c : Char) :
    behind (front ++ [c]) = (behind front).after c := by
  unfold behind after
  by_cases h : c = '\n'
  · simp [h]
  · simp [h]

theorem afterAll_behind (front cs : List Char) :
    (behind front).afterAll cs = behind (front ++ cs) := by
  induction cs generalizing front with
  | nil => rw [afterAll_nil, List.append_nil]
  | cons c cs ih =>
      rw [afterAll_cons, ← behind_concat, ih, List.append_assoc, List.singleton_append]

/-- The place where a text ends for the lexer, which counts a missing quote or comment sign too. -/
def ending (text : List Char) (isOpen : Bool) : Position :=
  if isOpen then (behind text).pastMissing else behind text

theorem ending_injective {text : List Char} {isOpen isOpen' : Bool}
    (h : ending text isOpen = ending text isOpen') : isOpen = isOpen' := by
  have hcol := congrArg Position.col h
  cases isOpen <;> cases isOpen' <;> simp [ending, pastMissing] at hcol ⊢

end Position

/-! ## What stands between tokens -/

/-- Blanks and closed comments. -/
inductive IsTrivia : List Char → Prop
  | nil : IsTrivia []
  | blank {c : Char} {cs : List Char} (hblank : c ∈ [' ', '\t', '\n', '\r'])
      (htrivia : IsTrivia cs) : IsTrivia (c :: cs)
  | comment {body cs : List Char} (hbody : '#' ∉ body) (htrivia : IsTrivia cs) :
      IsTrivia ('#' :: (body ++ '#' :: cs))

/-- `Tiles front cs tokens isOpen`: behind the characters `front` of a text, the rest `cs` of it is
made up of the lexemes of `tokens` in order and of trivia between them, and `isOpen` says whether it
ends within a string or a comment. -/
inductive Tiles : List Char → List Char → List Token → Bool → Prop
  | ending {front trivia : List Char} (htrivia : IsTrivia trivia) : Tiles front trivia [] false
  | openComment {front trivia body : List Char} (htrivia : IsTrivia trivia) (hbody : '#' ∉ body) :
      Tiles front (trivia ++ '#' :: body) [] true
  | openString {front trivia body : List Char} (htrivia : IsTrivia trivia) (hbody : '"' ∉ body) :
      Tiles front (trivia ++ '"' :: body)
        [⟨.string, String.ofList body, .behind (front ++ trivia)⟩] true
  | lexeme {front trivia extent literal rest : List Char} {kind : Token.Kind} {tokens : List Token}
      {isOpen : Bool} (htrivia : IsTrivia trivia) (hlexeme : IsLexeme kind literal extent)
      (hends : EndsBefore extent rest)
      (hrest : Tiles (front ++ trivia ++ extent) rest tokens isOpen) :
      Tiles front (trivia ++ extent ++ rest)
        (⟨kind, String.ofList literal, .behind (front ++ trivia)⟩ :: tokens) isOpen

theorem Lexeme.isBlank_iff {c : Char} : isBlank c ↔ c ∈ [' ', '\t', '\n', '\r'] := by
  simp [isBlank, or_assoc]

/-- Trivia goes up to the end, to a comment that is never closed, or to a lexeme. -/
theorem exists_trivia (cs : List Char) :
    ∃ trivia rest, cs = trivia ++ rest ∧ IsTrivia trivia ∧
      (rest = [] ∨ (∃ body, rest = '#' :: body ∧ '#' ∉ body) ∨
        ∃ c more, rest = c :: more ∧ c ≠ '#' ∧ ¬Lexeme.isBlank c) := by
  -- a comment is passed as a whole, so the induction is on the length of the text
  induction hn : cs.length using Nat.strongRecOn generalizing cs with
  | ind n ih =>
    cases cs with
    | nil => exact ⟨[], [], rfl, .nil, .inl rfl⟩
    | cons c cs =>
        rw [List.length_cons] at hn
        by_cases hblank : Lexeme.isBlank c
        · obtain ⟨trivia, rest, rfl, htrivia, hrest⟩ := ih cs.length (by omega) cs rfl
          exact ⟨c :: trivia, rest, rfl, .blank (Lexeme.isBlank_iff.mp hblank) htrivia, hrest⟩
        by_cases hsign : c = '#'
        · subst hsign
          by_cases hclosed : '#' ∈ cs
          · obtain ⟨body, more, rfl, hbody⟩ := List.eq_append_cons_of_mem hclosed
            rw [List.length_append, List.length_cons] at hn
            obtain ⟨trivia, rest, rfl, htrivia, hrest⟩ := ih more.length (by omega) more rfl
            exact ⟨_, rest, by simp, .comment hbody htrivia, hrest⟩
          · exact ⟨[], '#' :: cs, rfl, .nil, .inr (.inl ⟨cs, rfl, hclosed⟩)⟩
        · exact ⟨[], c :: cs, rfl, .nil, .inr (.inr ⟨c, cs, rfl, hsign, hblank⟩)⟩

/-- **Every text has a tiling.** -/
theorem exists_tiles (front cs : List Char) : ∃ tokens isOpen, Tiles front cs tokens isOpen := by
  induction hn : cs.length using Nat.strongRecOn generalizing front cs with
  | ind n ih =>
    obtain ⟨trivia, rest, rfl, htrivia, hend | ⟨body, hcomment, hbody⟩ | ⟨c, more, hlexeme, hsign,
      hblank⟩⟩ := exists_trivia cs
    · rw [hend, List.append_nil]
      exact ⟨[], false, .ending htrivia⟩
    · rw [hcomment]
      exact ⟨[], true, .openComment htrivia hbody⟩
    · obtain ⟨hsplit, hclosed, hunclosed⟩ := Lexeme.ruled_first hblank hsign more
      have hshorter := Lexeme.length_rest_first_le c more
      rcases hopen : (Lexeme.first c more).isOpen with _ | _
      · obtain ⟨hkind, hends⟩ := hclosed hopen
        have hlt : (Lexeme.first c more).rest.length < n := by
          rw [← hn, hlexeme, List.length_append, List.length_cons]
          omega
        obtain ⟨tokens, isOpen, htiles⟩ :=
          ih _ hlt (front ++ trivia ++ (Lexeme.first c more).extent) (Lexeme.first c more).rest rfl
        rw [hlexeme, hsplit, ← List.append_assoc]
        exact ⟨_, isOpen, .lexeme htrivia hkind hends htiles⟩
      · -- a string without its closing quote goes to the end
        obtain ⟨-, hbody, hextent, hrest⟩ := hunclosed hopen
        rw [hlexeme, hsplit, hextent, hrest, List.append_nil]
        exact ⟨_, true, .openString htrivia hbody⟩

/-! ## The lexer along a tiling -/

namespace Cursor

variable {cs body trivia : List Char} {p : Position}

theorem skip_comment (h : '#' ∉ body) :
    skip true p (body ++ '#' :: cs) = skip false (p.afterAll (body ++ ['#'])) cs := by
  induction body generalizing p with
  | nil => rfl
  | cons c body ih =>
      obtain ⟨hc, hbody⟩ := not_or.mp (List.mem_cons.not.mp h)
      rw [List.cons_append, skip, if_neg (Ne.symm hc), Bool.true_or, if_pos rfl, ih hbody]
      rfl

theorem skip_openComment (h : '#' ∉ body) :
    skip true p body = ⟨[], (p.afterAll body).pastMissing⟩ := by
  induction body generalizing p with
  | nil => rfl
  | cons c body ih =>
      obtain ⟨hc, hbody⟩ := not_or.mp (List.mem_cons.not.mp h)
      rw [skip, if_neg (Ne.symm hc), Bool.true_or, if_pos rfl, ih hbody]
      rfl

theorem skip_trivia (h : IsTrivia trivia) :
    skip false p (trivia ++ cs) = skip false (p.afterAll trivia) cs := by
  induction h generalizing p with
  | nil => rfl
  | @blank c trivia hblank htrivia ih =>
      have hsign : c ≠ '#' := by
        rintro rfl
        simp at hblank
      rw [List.cons_append, skip, if_neg hsign, Bool.false_or,
        if_pos (Lexeme.isBlank_iff.mpr hblank), ih]
      rfl
  | @comment body trivia hbody htrivia ih =>
      rw [List.cons_append, List.append_assoc, List.cons_append, skip, if_pos rfl, Bool.not_false,
        skip_comment hbody, ih, ← Position.afterAll_append, Position.afterAll_cons,
        List.append_assoc, List.singleton_append]

theorem skipTrivia_lexeme {c : Char} (h : IsTrivia trivia) (hsign : c ≠ '#')
    (hblank : ¬Lexeme.isBlank c) :
    skipTrivia ⟨trivia ++ c :: cs, p⟩ = ⟨c :: cs, p.afterAll trivia⟩ := by
  rw [skipTrivia, skip_trivia h, skip, if_neg hsign, Bool.false_or, if_neg hblank]

theorem readAll_of_skip {cur : Cursor} (h : cur.skipTrivia = ⟨[], p⟩) (seen : List Token) :
    readAll cur seen = ⟨seen.reverse, p⟩ := by
  have hrest : cur.skipTrivia.rest = [] := by rw [h]
  rw [readAll, dif_pos hrest, h]

theorem readAll_of_lexeme {cur : Cursor} {c : Char} (h : cur.skipTrivia = ⟨c :: cs, p⟩)
    (seen : List Token) :
    readAll cur seen = readAll ⟨(Lexeme.first c cs).rest, (Lexeme.first c cs).endPos p⟩
      (⟨(Lexeme.first c cs).kind, String.ofList (Lexeme.first c cs).literal, p⟩ :: seen) := by
  have hne : cur.skipTrivia.rest ≠ [] := by rw [h]; exact List.cons_ne_nil c cs
  rw [readAll_of_next hne, next, h]

end Cursor

/-- **The lexer finds the tiling.** -/
theorem Tiles.readAll {front cs : List Char} {tokens : List Token} {isOpen : Bool}
    (h : Tiles front cs tokens isOpen) (seen : List Token) :
    Cursor.readAll ⟨cs, .behind front⟩ seen =
      ⟨seen.reverse ++ tokens, .ending (front ++ cs) isOpen⟩ := by
  induction h generalizing seen with
  | @ending front trivia htrivia =>
      have hskip : Cursor.skipTrivia ⟨trivia, .behind front⟩ = ⟨[], .behind (front ++ trivia)⟩ := by
        rw [Cursor.skipTrivia, ← List.append_nil trivia, Cursor.skip_trivia htrivia, Cursor.skip,
          Position.afterAll_behind]
        simp
      rw [Cursor.readAll_of_skip hskip, List.append_nil]
      rfl
  | @openComment front trivia body htrivia hbody =>
      have hskip : Cursor.skipTrivia ⟨trivia ++ '#' :: body, .behind front⟩ =
          ⟨[], (Position.behind (front ++ (trivia ++ '#' :: body))).pastMissing⟩ := by
        rw [Cursor.skipTrivia, Cursor.skip_trivia htrivia, Cursor.skip, if_pos rfl, Bool.not_false,
          Cursor.skip_openComment hbody, ← Position.afterAll_cons, ← Position.afterAll_append,
          Position.afterAll_behind]
      rw [Cursor.readAll_of_skip hskip, List.append_nil]
      rfl
  | @openString front trivia body htrivia hbody =>
      obtain ⟨htake, hdrop⟩ := @span_quoted _ [] hbody (by simp)
      rw [List.append_nil] at htake hdrop
      have hfirst : Lexeme.first '"' body =
          { kind := .string, literal := body, extent := '"' :: body, rest := [],
            isOpen := true } := by
        simp only [Lexeme.first, if_true, Lexeme.quoted, htake, hdrop]
      have hplace : (Lexeme.first '"' body).endPos ((Position.behind front).afterAll trivia) =
          .ending (front ++ (trivia ++ '"' :: body)) true := by
        rw [hfirst, Lexeme.endPos, ← Position.afterAll_append, Position.afterAll_behind]
        rfl
      rw [Cursor.readAll_of_lexeme (Cursor.skipTrivia_lexeme htrivia (by decide) (by decide)),
        hplace, hfirst, Cursor.readAll_of_skip rfl, Position.afterAll_behind]
      simp
  | @lexeme front trivia extent literal rest kind tokens isOpen htrivia hlexeme hends hrest ih =>
      obtain ⟨c, more, rfl, hsign, hblank, hfirst⟩ := Lexeme.first_of_isLexeme hlexeme hends
      have hplace :
          (Lexeme.first c (more ++ rest)).endPos ((Position.behind front).afterAll trivia)
            = .behind (front ++ trivia ++ c :: more) := by
        rw [hfirst, Position.afterAll_behind]
        exact Position.afterAll_behind _ _
      rw [List.append_assoc, List.cons_append, Cursor.readAll_of_lexeme
        (Cursor.skipTrivia_lexeme htrivia hsign hblank), hplace, hfirst, ih,
        Position.afterAll_behind]
      simp

/-- A text has one tiling. -/
theorem Tiles.unique {front cs : List Char} {tokens tokens' : List Token} {isOpen isOpen' : Bool}
    (h : Tiles front cs tokens isOpen) (h' : Tiles front cs tokens' isOpen') :
    tokens = tokens' ∧ isOpen = isOpen' := by
  have hsame := (h.readAll []).symm.trans (h'.readAll [])
  exact ⟨congrArg TokenStream.tokens hsame,
    Position.ending_injective (congrArg TokenStream.eof hsame)⟩

/-- The stream of a text is its tiling, and the place where it ends. -/
theorem Tiles.ofSource {source : String} {tokens : List Token} {isOpen : Bool}
    (h : Tiles [] source.toList tokens isOpen) :
    TokenStream.ofSource source = ⟨tokens, .ending source.toList isOpen⟩ := h.readAll []

theorem IsLexeme.kind_ne_eof {kind : Token.Kind} {literal extent : List Char}
    (h : IsLexeme kind literal extent) : kind ≠ .eof := by
  rintro rfl
  cases h with
  | fixed hspelling => cases hspelling

/-- No token but the last is the end. -/
theorem Tiles.kind_ne_eof {front cs : List Char} {tokens : List Token} {isOpen : Bool}
    (h : Tiles front cs tokens isOpen) : ∀ t ∈ tokens, t.kind ≠ .eof := by
  induction h with
  | ending | openComment => simp
  | openString => simp
  | lexeme htrivia hlexeme hends hrest ih =>
      exact List.forall_mem_cons.mpr ⟨hlexeme.kind_ne_eof, ih⟩

/--
**Reading tokens loses nothing.**

The tokens of a text end with one end token, and the others tile the text: between their lexemes is
nothing but blanks and comments, each has the kind and the text that the lexical rules give its
lexeme, no lexeme could go on into what follows it, and each token stands where its lexeme begins.
Only the last lexeme may be a string without its closing quote, and only behind the last lexeme may
a comment be open; both then go to the end of the text. There is no other way to tile the text.
-/
theorem TokenStream.tiles_ofSource (source : String) :
    ∃ tokens last isOpen, (ofSource source).toList = tokens ++ [last] ∧ last.kind = .eof ∧
      (∀ t ∈ tokens, t.kind ≠ .eof) ∧ Tiles [] source.toList tokens isOpen ∧
      ∀ tokens' isOpen', Tiles [] source.toList tokens' isOpen' →
        tokens' = tokens ∧ isOpen' = isOpen := by
  obtain ⟨tokens, isOpen, htiles⟩ := exists_tiles [] source.toList
  refine ⟨tokens, .ending (.ending source.toList isOpen), isOpen, ?_, rfl, htiles.kind_ne_eof,
    htiles, fun tokens' isOpen' htiles' => htiles'.unique htiles⟩
  rw [htiles.ofSource]
  rfl

end ExprMachine
