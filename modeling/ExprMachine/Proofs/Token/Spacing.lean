import ExprMachine.Proofs.Token.Tiling

/-!
# The tokens of a text that is laid out

A text can be made from tokens: each one is written out, with blanks and comments behind it, and
more of them in front of the first. The lexer then finds these tokens again, no matter what blanks
and comments they are. It takes a single character between two tokens to keep the one from going on
into the other, as a blank or a `#` belongs to no token, except within a string, which its quotes
keep together.

`Layout` is such a text. That its tiling has the tokens it was made from is an induction on their
list (`Layout.exists_tiles`), and the lexer finds the tiling of a text.
-/

namespace ExprMachine

namespace Spelling

/-- The token written out. -/
def extent (s : Spelling) : List Char :=
  if s.1 = .string then '"' :: (s.2.toList ++ ['"']) else s.2.toList

/-- The text is one that a token of the kind can have. -/
def IsLegal (s : Spelling) : Prop := IsLexeme s.1 s.2.toList s.extent

end Spelling

/-- Tokens with blanks and comments around them. -/
structure Layout (tokens : List Spelling) where
  /-- What stands in front of the first token. -/
  lead : List Char
  /-- The tokens, each with what stands between it and the next one, or behind the last one. -/
  entries : List (Spelling × List Char)
  tokens_eq : entries.map Prod.fst = tokens
  trivia_lead : IsTrivia lead
  trivia : ∀ entry ∈ entries, IsTrivia entry.2
  /-- Something stands between neighbours. -/
  apart : ∀ entry ∈ entries.dropLast, entry.2 ≠ []

namespace Layout

/-- Tokens written out, each with what stands behind it. -/
def textOf (entries : List (Spelling × List Char)) : List Char :=
  entries.flatMap fun entry => entry.1.extent ++ entry.2

/-- The text. -/
def source {tokens : List Spelling} (layout : Layout tokens) : String :=
  String.ofList (layout.lead ++ textOf layout.entries)

end Layout

/-! ## Where tokens end -/

/-- What is not empty begins with a blank or opens a comment. -/
theorem IsTrivia.head {trivia : List Char} (h : IsTrivia trivia) :
    ∀ d ∈ trivia.head?, d = '#' ∨ Lexeme.isBlank d := by
  intro d hd
  cases h with
  | nil => cases hd
  | blank hblank htrivia =>
      obtain rfl := Option.some.inj hd
      exact .inr (Lexeme.isBlank_iff.mpr hblank)
  | comment hbody htrivia =>
      obtain rfl := Option.some.inj hd
      exact .inl rfl

/-- The second character of a sign of two. -/
theorem Lexeme.second_of_pair {c d : Char} {kind : Token.Kind} (h : pair? c d = some kind) :
    d ≠ '#' ∧ ¬isBlank d := by
  have htable : ∀ sign ∈ pairs, sign.2.1 ≠ '#' ∧ ¬isBlank sign.2.1 := by decide
  exact htable _ (mem_pairs h)

/-- No token goes on into a blank or a comment. -/
theorem EndsBefore.of_separator {extent rest : List Char}
    (h : ∀ d ∈ rest.head?, d = '#' ∨ Lexeme.isBlank d) : EndsBefore extent rest := by
  have hneither : ∀ d ∈ rest.head?, ¬(Lexeme.isLetter d ∨ Lexeme.isDigit d) := by
    intro d hd hclass
    obtain ⟨hsign, hblank, -⟩ := Lexeme.alphanumeric_plain hclass
    rcases h d hd with hd | hd
    · exact hsign hd
    · exact hblank hd
  refine ⟨fun _ d hd hletter => hneither d hd (.inl hletter),
    fun _ d hd hdigit => hneither d hd (.inr hdigit), fun c _ d hd kind hkind => ?_⟩
  rcases Lexeme.letters_or_pair hkind with ⟨-, hletter⟩ | hpair
  · exact hneither d hd (.inl hletter)
  · obtain ⟨hsign, hblank⟩ := Lexeme.second_of_pair hpair
    rcases h d hd with hd | hd
    · exact hsign hd
    · exact hblank hd

namespace Layout

/-- **A text is tiled by the tokens that it was made from.** -/
theorem exists_tiles (front : List Char) {entries : List (Spelling × List Char)} {lead : List Char}
    (hlegal : ∀ entry ∈ entries, entry.1.IsLegal) (hlead : IsTrivia lead)
    (htrivia : ∀ entry ∈ entries, IsTrivia entry.2)
    (hapart : ∀ entry ∈ entries.dropLast, entry.2 ≠ []) :
    ∃ tokens, Tiles front (lead ++ textOf entries) tokens false ∧
      tokens.map Token.spelling = entries.map Prod.fst := by
  induction entries generalizing front lead with
  | nil =>
      refine ⟨[], ?_, rfl⟩
      rw [textOf, List.flatMap_nil, List.append_nil]
      exact .ending hlead
  | cons entry entries ih =>
      obtain ⟨⟨kind, literal⟩, behind⟩ := entry
      obtain ⟨hlexeme, hlegals⟩ := List.forall_mem_cons.mp hlegal
      obtain ⟨hbehind, htrivias⟩ := List.forall_mem_cons.mp htrivia
      have hseparator : ∀ d ∈ (behind ++ textOf entries).head?, d = '#' ∨ Lexeme.isBlank d := by
        cases entries with
        | nil =>
            -- behind the last token there may be nothing at all
            rw [textOf, List.flatMap_nil, List.append_nil]
            exact hbehind.head
        | cons next entries =>
            have hne : behind ≠ [] := hapart _ List.mem_cons_self
            rw [List.head?_append_of_ne_nil _ hne]
            exact hbehind.head
      have haparts : ∀ entry ∈ entries.dropLast, entry.2 ≠ [] := by
        cases entries with
        | nil => exact nofun
        | cons next entries => exact fun entry he => hapart entry (List.mem_cons_of_mem _ he)
      obtain ⟨tokens, htiles, htokens⟩ :=
        ih (front ++ lead ++ Spelling.extent (kind, literal)) hlegals hbehind htrivias haparts
      have hall := Tiles.lexeme hlead hlexeme (.of_separator hseparator) htiles
      rw [String.ofList_toList] at hall
      refine ⟨⟨kind, literal, .behind (front ++ lead)⟩ :: tokens, ?_,
        congrArg ((kind, literal) :: ·) htokens⟩
      rw [textOf, List.flatMap_cons, List.append_assoc, ← List.append_assoc]
      exact hall

variable {tokens : List Spelling}

/-- **The lexer finds the tokens of a layout**, and the end token behind them. -/
theorem spelling_ofSource (hlegal : ∀ s ∈ tokens, s.IsLegal) (layout : Layout tokens) :
    (TokenStream.ofSource layout.source).tokens.map Token.spelling = tokens := by
  have hentries : ∀ entry ∈ layout.entries, entry.1.IsLegal := by
    intro entry he
    refine hlegal entry.1 ?_
    rw [← layout.tokens_eq]
    exact List.mem_map_of_mem he
  obtain ⟨found, htiles, hfound⟩ :=
    exists_tiles [] hentries layout.trivia_lead layout.trivia layout.apart
  have htext : layout.source.toList = layout.lead ++ textOf layout.entries := String.toList_ofList
  rw [← htext] at htiles
  rw [htiles.ofSource, hfound, layout.tokens_eq]

end Layout

end ExprMachine
