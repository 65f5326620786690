import ExprMachine.Proofs.Token.Spelling

/-!
# The lexical rules

What a token looks like in a text, said without a lexer. A keyword or a sign has one spelling. A
name is a run of letters that spells no keyword, a number is a run of digits, and a string is what
stands between two quotes. A character that begins none of these is a token by itself. `IsLexeme` is
that table, and `EndsBefore` says that a lexeme goes as far as it can.

`Lexeme.first` keeps the rules in both directions: what it takes off a text is a lexeme or a string
that is never closed (`ruled_first`), and a lexeme that ends where the text goes on with something
else is what it takes (`first_of_isLexeme`).
-/

namespace ExprMachine

namespace Token.Kind

/-- The spelling of a keyword or a sign. The other kinds have many. -/
def fixed? : Kind → Option String
  | letWord => some "let"
  | fnWord => some "fn"
  | trueWord => some "true"
  | falseWord => some "false"
  | ifWord => some "if"
  | elseWord => some "else"
  | forWord => some "for"
  | returnWord => some "return"
  | plus => some "+"
  | minus => some "-"
  | slash => some "/"
  | asterisk => some "*"
  | less => some "<"
  | greater => some ">"
  | bang => some "!"
  | assign => some "="
  | equal => some "=="
  | notEqual => some "!="
  | increment => some "++"
  | decrement => some "--"
  | comma => some ","
  | semicolon => some ";"
  | colon => some ":"
  | leftParen => some "("
  | rightParen => some ")"
  | leftBrace => some "\x7b"
  | rightBrace => some "\x7d"
  | leftObject => some "\x7b\x7b"
  | rightObject => some "\x7d\x7d"
  | leftBracket => some "["
  | rightBracket => some "]"
  | identifier | integer | string | illegal | eof => none

end Token.Kind

namespace Lexeme

/-- The character separates no tokens and begins no token of another kind. -/
structure IsStray (c : Char) : Prop where
  blank : ¬isBlank c
  comment : c ≠ '#'
  quote : c ≠ '"'
  letter : ¬isLetter c
  digit : ¬isDigit c
  fixed : ∀ kind spelling, Token.Kind.fixed? kind = some spelling → spelling.toList.head? ≠ some c

end Lexeme

open Lexeme in
/-- `IsLexeme kind literal extent`: the characters `extent` are a token of the kind in full, and its
text is `literal`. -/
inductive IsLexeme : Token.Kind → List Char → List Char → Prop
  | fixed {kind : Token.Kind} {spelling : String} (hspelling : kind.fixed? = some spelling) :
      IsLexeme kind spelling.toList spelling.toList
  | identifier {cs : List Char} (hne : cs ≠ []) (hletters : ∀ c ∈ cs, isLetter c)
      (hother : ∀ kind, Token.Kind.fixed? kind ≠ some (String.ofList cs)) :
      IsLexeme .identifier cs cs
  | integer {cs : List Char} (hne : cs ≠ []) (hdigits : ∀ c ∈ cs, isDigit c) :
      IsLexeme .integer cs cs
  | string {cs : List Char} (hquote : '"' ∉ cs) : IsLexeme .string cs ('"' :: (cs ++ ['"']))
  | illegal {c : Char} (hstray : IsStray c) : IsLexeme .illegal [c] [c]

open Lexeme in
/-- The text `rest` does not go on with the token `extent` in front of it: no letter follows a word,
no digit a number, and no sign of one character is followed by the one that makes it a sign of
two. -/
structure EndsBefore (extent rest : List Char) : Prop where
  word : (∀ c ∈ extent, isLetter c) → ∀ d ∈ rest.head?, ¬isLetter d
  number : (∀ c ∈ extent, isDigit c) → ∀ d ∈ rest.head?, ¬isDigit d
  sign : ∀ c, extent = [c] → ∀ d ∈ rest.head?, ∀ kind,
    Token.Kind.fixed? kind ≠ some (String.ofList [c, d])

/-! ## The tables of the lexer -/

namespace Lexeme

theorem fixed?_single {c : Char} (h : single c ≠ .illegal) :
    (single c).fixed? = some (String.ofList [c]) := by
  have htable : ∀ sign ∈ singles, sign.2.fixed? = some (String.ofList [sign.1]) := by decide
  exact htable _ (mem_singles h)

theorem fixed?_pair {c d : Char} {kind : Token.Kind} (h : pair? c d = some kind) :
    kind.fixed? = some (String.ofList [c, d]) := by
  have htable : ∀ sign ∈ pairs, sign.2.2.fixed? = some (String.ofList [sign.1, sign.2.1]) := by
    decide
  exact htable _ (mem_pairs h)

theorem fixed?_ofWord {w : String} (h : Token.Kind.ofWord w ≠ .identifier) :
    (Token.Kind.ofWord w).fixed? = some w := by
  have htable : ∀ entry ∈ Token.Kind.keywords, entry.2.fixed? = some entry.1 := by decide
  unfold Token.Kind.ofWord at h ⊢
  cases hlookup : Token.Kind.keywords.lookup w with
  | none => exact absurd (by rw [hlookup]; rfl) h
  | some kind =>
      obtain ⟨front, behind, hsplit, -⟩ := List.lookup_eq_some_iff.mp hlookup
      exact htable (w, kind) (hsplit ▸ List.mem_append_right front List.mem_cons_self)

/-- The kinds with one spelling are the keywords and the signs. -/
theorem fixed?_cases {kind : Token.Kind} {spelling : String} (h : kind.fixed? = some spelling) :
    (IsWord spelling ∧ Token.Kind.ofWord spelling = kind) ∨
      (∃ c, spelling = String.ofList [c] ∧ single c = kind ∧ kind ≠ .illegal) ∨
      ∃ c d, spelling = String.ofList [c, d] ∧ pair? c d = some kind := by
  cases kind with
  | letWord | fnWord | trueWord | falseWord | ifWord | elseWord | forWord | returnWord =>
      cases h
      exact .inl ⟨⟨by decide, List.all_eq_true.mp (by decide)⟩, by decide⟩
  | equal | notEqual | increment | decrement | leftObject | rightObject =>
      cases h
      exact .inr (.inr ⟨_, _, rfl, rfl⟩)
  | identifier | integer | string | illegal | eof => cases h
  | _ =>
      cases h
      exact .inr (.inl ⟨_, rfl, rfl, nofun⟩)

/-- The spellings that begin with a letter are the keywords. -/
theorem ofWord_of_fixed {c : Char} {cs : List Char} {kind : Token.Kind} (hc : isLetter c)
    (h : kind.fixed? = some (String.ofList (c :: cs))) :
    Token.Kind.ofWord (String.ofList (c :: cs)) = kind := by
  rcases fixed?_cases h with ⟨-, hword⟩ | ⟨c', hspelling, hsingle, hlegal⟩
    | ⟨c', d', hspelling, hpair⟩
  · exact hword
  · obtain ⟨rfl, -⟩ := List.cons.inj (String.ofList_injective hspelling)
    subst hsingle
    exact absurd hc (sign_plain hlegal).2.2.2.1
  · obtain ⟨rfl, -⟩ := List.cons.inj (String.ofList_injective hspelling)
    exact absurd hc (sign_plain (single_of_pair hpair)).2.2.2.1

/-- The spellings of two characters that are no keywords are the signs of two. -/
theorem letters_or_pair {c d : Char} {kind : Token.Kind}
    (h : kind.fixed? = some (String.ofList [c, d])) :
    (isLetter c ∧ isLetter d) ∨ pair? c d = some kind := by
  rcases fixed?_cases h with ⟨⟨-, hletters⟩, -⟩ | ⟨c', hspelling, -⟩ | ⟨c', d', hspelling, hpair⟩
  · rw [String.toList_ofList] at hletters
    exact .inl ⟨hletters c (by simp), hletters d (by simp)⟩
  · cases String.ofList_injective hspelling
  · cases String.ofList_injective hspelling
    exact .inr hpair

/-! ## What the lexer takes off a text is ruled -/

/-- What is taken off a text is a lexeme in full that goes as far as it can, or a string that is
never closed. -/
structure Ruled (l : Lexeme) : Prop where
  closed : l.isOpen = false → IsLexeme l.kind l.literal l.extent ∧ EndsBefore l.extent l.rest
  unclosed : l.isOpen = true →
    l.kind = .string ∧ '"' ∉ l.literal ∧ l.extent = '"' :: l.literal ∧ l.rest = []

theorem head_dropWhile (p : Char → Bool) (cs : List Char) :
    ∀ d ∈ (cs.dropWhile p).head?, ¬p d = true := by
  intro d hd
  have h := List.head?_dropWhile_not p cs
  rw [hd] at h
  simpa using h

theorem ruled_quoted (cs : List Char) :
    '"' :: cs = (quoted cs).extent ++ (quoted cs).rest ∧ Ruled (quoted cs) := by
  have hbody := quote_not_mem cs
  have hsplit := List.takeWhile_append_dropWhile (p := fun c => decide (c ≠ '"')) (l := cs)
  have hhead := head_dropWhile (fun c => decide (c ≠ '"')) cs
  unfold quoted
  dsimp only
  split
  · next hrest =>
    rw [hrest, List.append_nil] at hsplit
    refine ⟨by simpa using hsplit.symm, nofun, fun _ => ⟨rfl, hbody, rfl, rfl⟩⟩
  · next quote rest hrest =>
    rw [hrest] at hsplit hhead
    obtain rfl : quote = '"' := by simpa using hhead quote rfl
    refine ⟨by simpa using hsplit.symm, fun _ => ⟨.string hbody, ?_⟩, nofun⟩
    -- a quote is no letter, no digit and no sign
    refine ⟨fun hletters => ?_, fun hdigits => ?_, fun c hone => ?_⟩
    · exact absurd (hletters '"' List.mem_cons_self) (by decide)
    · exact absurd (hdigits '"' List.mem_cons_self) (by decide)
    · simp at hone

theorem ruled_word {c : Char} (hc : isLetter c) (cs : List Char) :
    Ruled (run (fun word => .ofWord (String.ofList word)) isLetter c cs) := by
  have hletters : ∀ d ∈ c :: cs.takeWhile isLetter, isLetter d := fun d hd => mem_takeWhile hc hd
  have hhead := head_dropWhile isLetter cs
  refine ⟨fun _ => ⟨?_, fun _ => hhead, fun hdigits => ?_, fun c' hone d hd kind hpair => ?_⟩,
    nofun⟩
  · dsimp only [run]
    by_cases hkind : Token.Kind.ofWord (String.ofList (c :: cs.takeWhile isLetter)) = .identifier
    · rw [hkind]
      refine .identifier (List.cons_ne_nil _ _) hletters fun kind hfixed => ?_
      -- a keyword would have been found in the table
      obtain rfl := ofWord_of_fixed hc hfixed
      rw [hkind] at hfixed
      cases hfixed
    · have hword := fixed?_ofWord hkind
      have h := IsLexeme.fixed hword
      rwa [String.toList_ofList] at h
  · exact absurd hc (not_letter_of_digit (hdigits c List.mem_cons_self))
  · obtain rfl : c = c' := (List.cons.inj hone).1
    rcases letters_or_pair hpair with ⟨-, hd'⟩ | hpair
    · exact hhead d hd hd'
    · exact (sign_plain (single_of_pair hpair)).2.2.2.1 hc

theorem ruled_number {c : Char} (hc : isDigit c) (cs : List Char) :
    Ruled (run (fun _ => .integer) isDigit c cs) := by
  have hdigits : ∀ d ∈ c :: cs.takeWhile isDigit, isDigit d := fun d hd => mem_takeWhile hc hd
  refine ⟨fun _ => ⟨.integer (List.cons_ne_nil _ _) hdigits, fun hletters => ?_,
    fun _ => head_dropWhile isDigit cs, fun c' hone d hd kind hpair => ?_⟩, nofun⟩
  · exact absurd (hletters c List.mem_cons_self) (not_letter_of_digit hc)
  · obtain rfl : c = c' := (List.cons.inj hone).1
    rcases letters_or_pair hpair with ⟨hc', -⟩ | hpair
    · exact not_letter_of_digit hc hc'
    · exact (sign_plain (single_of_pair hpair)).2.2.2.2 hc

theorem isStray_of_single {c : Char} (hblank : ¬isBlank c) (hsign : c ≠ '#') (hquote : c ≠ '"')
    (hletter : ¬isLetter c) (hdigit : ¬isDigit c) (h : single c = .illegal) : IsStray c := by
  refine ⟨hblank, hsign, hquote, hletter, hdigit, fun kind spelling hfixed hhead => ?_⟩
  rcases fixed?_cases hfixed with ⟨⟨-, hletters⟩, -⟩ | ⟨c', rfl, rfl, hlegal⟩ | ⟨c', d', rfl, hpair⟩
  · exact hletter (hletters c (List.mem_of_mem_head? hhead))
  · rw [String.toList_ofList] at hhead
    obtain rfl : c' = c := Option.some.inj hhead
    exact hlegal h
  · rw [String.toList_ofList] at hhead
    obtain rfl : c' = c := Option.some.inj hhead
    exact single_of_pair hpair h

theorem ruled_symbol {c : Char} (hblank : ¬isBlank c) (hsign : c ≠ '#') (hquote : c ≠ '"')
    (hletter : ¬isLetter c) (hdigit : ¬isDigit c) (cs : List Char) :
    c :: cs = (first c cs).extent ++ (first c cs).rest ∧ Ruled (first c cs) := by
  by_cases hpair : ∃ d ds kind, cs = d :: ds ∧ pair? c d = some kind
  · obtain ⟨d, ds, kind, rfl, hkind⟩ := hpair
    have hlexeme := IsLexeme.fixed (fixed?_pair hkind)
    rw [String.toList_ofList] at hlexeme
    rw [first_pair hkind]
    refine ⟨rfl, fun _ => ⟨hlexeme, fun hletters => ?_, fun hdigits => ?_, fun c' hone => ?_⟩,
      nofun⟩
    · exact absurd (hletters c List.mem_cons_self) hletter
    · exact absurd (hdigits c List.mem_cons_self) hdigit
    · simp at hone
  · have hnone : ∀ d ∈ cs.head?, pair? c d = none := by
      intro d hd
      obtain ⟨ds, rfl⟩ := List.head?_eq_some_iff.mp hd
      exact Option.eq_none_iff_forall_ne_some.mpr fun kind hkind => hpair ⟨d, ds, kind, rfl, hkind⟩
    -- a sign on its own is in the table or stray
    rw [first_alone hquote hletter hdigit hnone]
    refine ⟨rfl, fun _ => ⟨?_, fun hletters => ?_, fun hdigits => ?_, ?_⟩, nofun⟩
    · by_cases hillegal : single c = .illegal
      · rw [hillegal]
        exact .illegal (isStray_of_single hblank hsign hquote hletter hdigit hillegal)
      · have hlexeme := IsLexeme.fixed (fixed?_single hillegal)
        rwa [String.toList_ofList] at hlexeme
    · exact absurd (hletters c List.mem_cons_self) hletter
    · exact absurd (hdigits c List.mem_cons_self) hdigit
    · intro c' hone d hd kind hfixed
      obtain rfl : c = c' := (List.cons.inj hone).1
      rcases letters_or_pair hfixed with ⟨hc, -⟩ | hsome
      · exact hletter hc
      · rw [hnone d hd] at hsome
        cases hsome

/-- **The lexer keeps the rules.** At a character that is no blank and opens no comment, it takes a
lexeme off the text. -/
theorem ruled_first {c : Char} (hblank : ¬isBlank c) (hsign : c ≠ '#') (cs : List Char) :
    c :: cs = (first c cs).extent ++ (first c cs).rest ∧ Ruled (first c cs) := by
  by_cases hquote : c = '"'
  · subst hquote
    exact ruled_quoted cs
  by_cases hletter : isLetter c
  · rw [first_of_letter hletter]
    refine ⟨?_, ruled_word hletter cs⟩
    exact congrArg (c :: ·) List.takeWhile_append_dropWhile.symm
  by_cases hdigit : isDigit c
  · rw [first_of_digit hdigit]
    refine ⟨?_, ruled_number hdigit cs⟩
    exact congrArg (c :: ·) List.takeWhile_append_dropWhile.symm
  · exact ruled_symbol hblank hsign hquote hletter hdigit cs

/-! ## What the rules allow is what the lexer takes -/

theorem first_of_run {kind : List Char → Token.Kind} {inClass : Char → Bool}
    (hfirst : ∀ c, inClass c → ∀ cs, first c cs = run kind inClass c cs)
    {cs rest : List Char} (hne : cs ≠ []) (h : ∀ c ∈ cs, inClass c)
    (hrest : ∀ d ∈ rest.head?, ¬inClass d = true) :
    ∃ c tail, cs = c :: tail ∧ inClass c ∧
      first c (tail ++ rest) =
        { kind := kind cs, literal := cs, extent := cs, rest := rest } := by
  cases cs with
  | nil => exact absurd rfl hne
  | cons c tail =>
      obtain ⟨hc, htail⟩ := List.forall_mem_cons.mp h
      obtain ⟨htake, hdrop⟩ := span_append htail hrest
      refine ⟨c, tail, rfl, hc, ?_⟩
      rw [hfirst c hc]
      simp only [run, htake, hdrop]

/-- **The rules leave no choice.** A lexeme that ends in front of the rest is what the lexer takes
off the text. -/
theorem first_of_isLexeme {kind : Token.Kind} {literal extent rest : List Char}
    (h : IsLexeme kind literal extent) (hends : EndsBefore extent rest) :
    ∃ c cs, extent = c :: cs ∧ c ≠ '#' ∧ ¬isBlank c ∧
      first c (cs ++ rest) = { kind, literal, extent, rest } := by
  -- what ends a sign on its own is that the next one does not make a pair of it
  have hsigns : ∀ c, extent = [c] → ∀ d ∈ rest.head?, pair? c d = none := fun c hone d hd =>
    Option.eq_none_iff_forall_ne_some.mpr fun kind hpair =>
      hends.sign c hone d hd kind (fixed?_pair hpair)
  cases h with
  | @fixed _ spelling hspelling =>
      rcases fixed?_cases hspelling with ⟨⟨hne, hletters⟩, rfl⟩ | ⟨c, rfl, rfl, hlegal⟩
        | ⟨c, d, rfl, hpair⟩
      · obtain ⟨c, cs, hcs, hc, hfirst⟩ := first_of_run (fun c hc cs => first_of_letter hc cs) hne
          hletters (hends.word hletters)
        obtain ⟨hsign, hblank, -⟩ := alphanumeric_plain (.inl hc)
        rw [String.ofList_toList] at hfirst
        exact ⟨c, cs, hcs, hsign, hblank, hfirst⟩
      · rw [String.toList_ofList] at hsigns ⊢
        obtain ⟨hsign, hblank, hquote, hletter, hdigit⟩ := sign_plain hlegal
        exact ⟨c, [], rfl, hsign, hblank, first_alone hquote hletter hdigit (hsigns c rfl)⟩
      · rw [String.toList_ofList]
        obtain ⟨hsign, hblank, -⟩ := sign_plain (single_of_pair hpair)
        exact ⟨c, [d], rfl, hsign, hblank, first_pair hpair rest⟩
  | identifier hne hletters hother =>
      obtain ⟨c, cs, hcs, hc, hfirst⟩ := first_of_run (fun c hc cs => first_of_letter hc cs) hne
        hletters (hends.word hletters)
      obtain ⟨hsign, hblank, -⟩ := alphanumeric_plain (.inl hc)
      -- a keyword would be one of the fixed spellings
      have hkind : Token.Kind.ofWord (String.ofList literal) = .identifier := by
        by_contra hkeyword
        exact hother _ (fixed?_ofWord hkeyword)
      rw [hkind] at hfirst
      exact ⟨c, cs, hcs, hsign, hblank, hfirst⟩
  | integer hne hdigits =>
      obtain ⟨c, cs, hcs, hc, hfirst⟩ := first_of_run (fun c hc cs => first_of_digit hc cs) hne
        hdigits (hends.number hdigits)
      obtain ⟨hsign, hblank, -⟩ := alphanumeric_plain (.inr hc)
      exact ⟨c, cs, hcs, hsign, hblank, hfirst⟩
  | string hquote =>
      obtain ⟨htake, hdrop⟩ := @span_quoted _ ('"' :: rest) hquote (by simp)
      refine ⟨'"', literal ++ ['"'], rfl, by decide, by decide, ?_⟩
      have hclosed : literal ++ ['"'] ++ rest = literal ++ '"' :: rest := by simp
      rw [hclosed]
      simp only [first, if_true, quoted, htake, hdrop, List.cons_append]
  | @illegal c hstray =>
      have hillegal : single c = .illegal := by
        by_contra hsingle
        exact hstray.fixed _ _ (fixed?_single hsingle) (by rw [String.toList_ofList]; rfl)
      have hfirst := first_alone hstray.quote hstray.letter hstray.digit (hsigns c rfl)
      rw [hillegal] at hfirst
      exact ⟨c, [], rfl, hstray.comment, hstray.blank, hfirst⟩

end Lexeme

end ExprMachine
