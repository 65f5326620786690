import ExprMachine.Proofs.Parser.Origin
import ExprMachine.Proofs.Token.Tiling

/-!
# Where reports point

A report stands at the token that it names, and a token stands where its lexeme begins, so a report
about a token points at a character of the text. A report about the end points behind the last
character, but only where nothing is left open: to the lexer, a string or a comment that is never
closed ends behind the sign that is missing, one column further on than the text goes.
-/

namespace ExprMachine

/-- The text ends within a string or a comment. -/
def Unclosed (text : List Char) : Prop := ∃ tokens, Tiles [] text tokens true

/-- A token stands at the first character of its lexeme, which may be a string that is never
closed. -/
theorem Tiles.exists_extent {front cs : List Char} {tokens : List Token} {isOpen : Bool}
    (h : Tiles front cs tokens isOpen) :
    ∀ t ∈ tokens, ∃ lead c extent rest, cs = lead ++ c :: extent ++ rest ∧
      (IsLexeme t.kind t.literal.toList (c :: extent) ∨
        (t.kind = .string ∧ c :: extent = '"' :: t.literal.toList ∧ rest = [])) ∧
      t.pos = .behind (front ++ lead) := by
  induction h with
  | ending | openComment => simp
  | @openString front trivia body htrivia hbody =>
      intro t ht
      obtain rfl := List.mem_singleton.mp ht
      refine ⟨trivia, '"', body, [], (List.append_nil _).symm, .inr ⟨rfl, ?_, rfl⟩, rfl⟩
      rw [String.toList_ofList]
  | @lexeme front trivia extent literal rest kind tokens isOpen htrivia hlexeme hends hrest ih =>
      obtain ⟨c, more, rfl, -⟩ := Lexeme.first_of_isLexeme hlexeme hends
      intro t ht
      rcases List.mem_cons.mp ht with rfl | ht
      · refine ⟨trivia, c, more, rest, rfl, .inl ?_, rfl⟩
        rwa [String.toList_ofList]
      · obtain ⟨lead, d, extent, behind, rfl, hextent, hpos⟩ := ih t ht
        refine ⟨trivia ++ c :: more ++ lead, d, extent, behind, by simp, hextent, ?_⟩
        rw [hpos]
        simp

/-- A text ends behind its last character, or one column further on if it is left open. -/
theorem Tiles.ending_eq {text : List Char} {tokens : List Token} {isOpen : Bool}
    (h : Tiles [] text tokens isOpen) :
    (¬Unclosed text → Position.ending text isOpen = .behind text) ∧
      (Unclosed text → Position.ending text isOpen = (Position.behind text).pastMissing) := by
  constructor
  · intro hclosed
    cases isOpen with
    | false => rfl
    | true => exact absurd ⟨tokens, h⟩ hclosed
  · rintro ⟨tokens', h'⟩
    rw [(h.unique h').2]
    rfl

/--
**Reports point into the text.**

Every report stands at the first character of a token that it names, or else it names the end of the
text and stands there: behind the last character if every string and comment is closed, and one
column further on if one is not.
-/
theorem ParsedProgram.places_ofSource (source : String) :
    ∀ d ∈ (ofSource source).diagnostics,
      (∃ t ∈ (TokenStream.ofSource source).tokens, t.kind ≠ .eof ∧ d.fault.Names t ∧
        ∃ front c extent rest, source.toList = front ++ c :: extent ++ rest ∧
          (IsLexeme t.kind t.literal.toList (c :: extent) ∨
            (t.kind = .string ∧ c :: extent = '"' :: t.literal.toList ∧ rest = [])) ∧
          d.pos = .behind front) ∨
      (d.fault.Names (.ending d.pos) ∧
        (¬Unclosed source.toList → d.pos = .behind source.toList) ∧
        (Unclosed source.toList → d.pos = (Position.behind source.toList).pastMissing)) := by
  intro d hd
  obtain ⟨tokens, isOpen, htiles⟩ := exists_tiles [] source.toList
  have hsource := htiles.ofSource
  obtain ⟨t, hwhich, hnames, hpos⟩ :=
    (within_ofTokens (.ofSource source) (T := (· ∈ tokens)) (by rw [hsource]; exact fun _ h => h)).2
      d hd
  rcases hwhich with ht | rfl
  · obtain ⟨front, c, extent, rest, hsplit, hextent, hbehind⟩ := htiles.exists_extent t ht
    refine .inl ⟨t, by rw [hsource]; exact ht, htiles.kind_ne_eof t ht, hnames, front, c, extent,
      rest, hsplit, hextent, ?_⟩
    rw [← hpos, hbehind]
    rfl
  · have heof : d.pos = .ending source.toList isOpen := by
      rw [← hpos, hsource]
      rfl
    rw [heof]
    refine .inr ⟨?_, htiles.ending_eq⟩
    rw [hsource] at hnames
    exact hnames

/-- A report about a parenthesis, which stands at the parenthesis. -/
theorem ParsedProgram.places_ofSource_parenthesis :
    (ofSource " )").diagnostics = [⟨⟨1, 2⟩, .noExpression .rightParen⟩] ∧
      ∃ front c extent rest, " )".toList = front ++ c :: extent ++ rest ∧
        IsLexeme .rightParen ")".toList (c :: extent) ∧ Position.behind front = ⟨1, 2⟩ := by
  have hreport : (ofSource " )").diagnostics = [⟨⟨1, 2⟩, .noExpression .rightParen⟩] := by cbv
  refine ⟨hreport, ?_⟩
  rcases places_ofSource " )" _ (by rw [hreport]; exact List.mem_singleton_self _) with
    ⟨t, ht, -, hnames, front, c, extent, rest, hsplit, hextent, hpos⟩ | ⟨hnames, -⟩
  · have htokens : (TokenStream.ofSource " )").tokens = [⟨.rightParen, ")", ⟨1, 2⟩⟩] := by cbv
    rw [htokens] at ht
    obtain rfl := List.mem_singleton.mp ht
    rcases hextent with hextent | ⟨hkind, -⟩
    · exact ⟨front, c, extent, rest, hsplit, hextent, hpos.symm⟩
    · cases hkind
  · cases hnames

/-- A comment that is never closed moves the end of the text by a column. -/
theorem ParsedProgram.places_ofSource_comment :
    (ofSource "-#").diagnostics = [⟨⟨1, 4⟩, .noExpression .eof⟩] ∧
      Position.behind "-#".toList = ⟨1, 3⟩ := by
  constructor
  · cbv
  · decide

end ExprMachine
