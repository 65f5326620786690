import ExprMachine.Token.Lexer
import Mathlib

/-!
# Which tokens a text has

The tokens of a text, apart from their places, depend on its characters alone. `spellings` is that
dependence, and the rules below read it off from the front of a text: blanks are passed over, and a
word, a number, a string or a sign gives its own token if the character behind it does not go on
with it. A text that is put together from such pieces therefore has the tokens of the pieces.
-/

namespace ExprMachine

/-- A token without its place. -/
abbrev Spelling : Type := Token.Kind × String

/-- The token without its place. -/
def Token.spelling (t : Token) : Spelling := (t.kind, t.literal)

/-- The token that a lexeme gives, without its place. -/
def Lexeme.spelling (l : Lexeme) : Spelling := (l.kind, String.ofList l.literal)

/-- The tokens of a text without their places. -/
def spellings (cs : List Char) : List Spelling :=
  (Cursor.remaining ⟨cs, .start⟩).tokens.map Token.spelling

/-! ## Places do not matter -/

namespace Cursor

theorem rest_skip (inComment : Bool) (p q : Position) (cs : List Char) :
    (skip inComment p cs).rest = (skip inComment q cs).rest := by
  induction cs generalizing inComment p q with
  | nil => rfl
  | cons c cs ih =>
    unfold skip
    split
    · exact ih _ _ _
    split
    · exact ih _ _ _
    · rfl

theorem next_eq {cur : Cursor} {c : Char} {cs : List Char} (h : cur.skipTrivia.rest = c :: cs) :
    ∃ pos, cur.next =
      (⟨(Lexeme.first c cs).kind, String.ofList (Lexeme.first c cs).literal, cur.skipTrivia.pos⟩,
        ⟨(Lexeme.first c cs).rest, pos⟩) := by
  refine ⟨(Lexeme.first c cs).endPos cur.skipTrivia.pos, ?_⟩
  unfold next
  dsimp only
  rw [h]

theorem readAll_of_end {cur : Cursor} (h : cur.skipTrivia.rest = []) (seen : List Token) :
    (readAll cur seen).tokens = seen.reverse := by
  rw [readAll, dif_pos h]

theorem readAll_of_next {cur : Cursor} (h : cur.skipTrivia.rest ≠ []) (seen : List Token) :
    readAll cur seen = readAll cur.next.2 (cur.next.1 :: seen) := by
  rw [readAll, dif_neg h]

/-- What is read depends on what is left behind the blanks and comments. -/
theorem readAll_congr {a b : Cursor} (h : a.skipTrivia = b.skipTrivia) (seen : List Token) :
    readAll a seen = readAll b seen := by
  have hnext : a.next = b.next := by
    unfold next
    rw [h]
  rw [readAll.eq_def a, readAll.eq_def b, h, hnext]

/-- Neither the place of the cursor nor what was read before has a say in what is read. -/
theorem spelling_readAll (cs : List Char) (p q : Position) (seen : List Token) :
    (readAll ⟨cs, p⟩ seen).tokens.map Token.spelling =
      seen.reverse.map Token.spelling ++ (readAll ⟨cs, q⟩ []).tokens.map Token.spelling := by
  have hskip : (skipTrivia ⟨cs, p⟩).rest = (skipTrivia ⟨cs, q⟩).rest := rest_skip false p q cs
  cases hrest : (skipTrivia ⟨cs, p⟩).rest with
  | nil =>
      have hrest' : (skipTrivia ⟨cs, q⟩).rest = [] := hskip.symm.trans hrest
      rw [readAll_of_end hrest, readAll_of_end hrest']
      simp
  | cons c rest =>
      have hrest' : (skipTrivia ⟨cs, q⟩).rest = c :: rest := hskip.symm.trans hrest
      have hne : (skipTrivia ⟨cs, p⟩).rest ≠ [] := by simp [hrest]
      have hne' : (skipTrivia ⟨cs, q⟩).rest ≠ [] := by simp [hrest']
      obtain ⟨p', hp⟩ := next_eq hrest
      obtain ⟨q', hq⟩ := next_eq hrest'
      have hlt : (Lexeme.first c rest).rest.length < cs.length := by
        have h := rest_next_lt hne
        rwa [hp] at h
      rw [readAll_of_next hne, readAll_of_next hne', hp, hq]
      dsimp only
      rw [spelling_readAll _ p' .start, spelling_readAll _ q' .start]
      simp [Token.spelling]
termination_by cs.length

/-- The tokens of a text from any place on. -/
theorem spelling_remaining (cur : Cursor) :
    cur.remaining.tokens.map Token.spelling = spellings cur.rest :=
  spelling_readAll cur.rest cur.pos .start []

end Cursor

/-- The tokens of a source text. -/
theorem TokenStream.spelling_ofSource (source : String) :
    (TokenStream.ofSource source).tokens.map Token.spelling = spellings source.toList := rfl

/-! ## The front of a text -/

theorem spellings_nil : spellings [] = [] := by
  unfold spellings Cursor.remaining
  rw [Cursor.readAll_of_end rfl]
  rfl

/-- Blanks give no token. -/
theorem spellings_blank {c : Char} (h : Lexeme.isBlank c) (cs : List Char) :
    spellings (c :: cs) = spellings cs := by
  have hsign : c ≠ '#' := by
    rintro rfl
    cases h
  have hskip : Cursor.skipTrivia ⟨c :: cs, .start⟩ =
      Cursor.skipTrivia ⟨cs, Position.start.after c⟩ := by
    simp [Cursor.skipTrivia, Cursor.skip, hsign, h]
  unfold spellings Cursor.remaining
  rw [Cursor.readAll_congr hskip]
  exact Cursor.spelling_remaining _

/-- The first lexeme gives the first token. -/
theorem spellings_cons {c : Char} (hsign : c ≠ '#') (hblank : ¬Lexeme.isBlank c)
    (cs : List Char) :
    spellings (c :: cs) = (Lexeme.first c cs).spelling :: spellings (Lexeme.first c cs).rest := by
  have hskip : (Cursor.skipTrivia ⟨c :: cs, .start⟩).rest = c :: cs := by
    simp [Cursor.skipTrivia, Cursor.skip, hsign, hblank]
  have hne : (Cursor.skipTrivia ⟨c :: cs, .start⟩).rest ≠ [] := by simp [hskip]
  obtain ⟨pos, hnext⟩ := Cursor.next_eq hskip
  unfold spellings Cursor.remaining
  rw [Cursor.readAll_of_next hne, hnext]
  dsimp only
  rw [Cursor.spelling_readAll _ _ .start]
  rfl

/-! ## Words, numbers and strings -/

namespace Spelling

/-- A run of letters: a keyword or a name. -/
def word (text : String) : Spelling := (.ofWord text, text)

/-- A run of digits. -/
def number (digits : String) : Spelling := (.integer, digits)

/-- A string, by the text between its quotes. -/
def text (value : String) : Spelling := (.string, value)

/-- A sign of one character. -/
def sign (c : Char) : Spelling := (Lexeme.single c, String.ofList [c])

end Spelling

/-- The characters that `inClass` takes end where `rest` begins. -/
theorem span_append {inClass : Char → Bool} {cs rest : List Char}
    (h : ∀ c ∈ cs, inClass c = true) (hrest : ∀ c ∈ rest.head?, ¬inClass c = true) :
    (cs ++ rest).takeWhile inClass = cs ∧ (cs ++ rest).dropWhile inClass = rest := by
  rw [List.takeWhile_append_of_pos h, List.dropWhile_append_of_pos h]
  cases rest with
  | nil => simp
  | cons d ds => simp [hrest d rfl]

/-- The characters between two quotes end where the second quote stands. -/
theorem span_quoted {body rest : List Char} (h : '"' ∉ body) (hrest : ∀ c ∈ rest.head?, c = '"') :
    (body ++ rest).takeWhile (· ≠ '"') = body ∧ (body ++ rest).dropWhile (· ≠ '"') = rest := by
  refine span_append (fun c hc => ?_) fun c hc => ?_
  · exact decide_eq_true fun heq => h (heq ▸ hc)
  · simpa using hrest c hc

namespace Lexeme

theorem not_letter_of_digit {c : Char} (h : isDigit c) : ¬isLetter c := by
  obtain ⟨-, hnine⟩ := isDigit_iff.mp h
  intro hletter
  rcases isLetter_iff.mp hletter with ⟨hfirst, -⟩ | ⟨hfirst, -⟩
  · exact absurd (Char.le_trans hfirst hnine) (by decide)
  · exact absurd (Char.le_trans hfirst hnine) (by decide)

/-- A letter or a digit begins neither a blank, a comment nor a string. -/
theorem alphanumeric_plain {c : Char} (h : isLetter c ∨ isDigit c) :
    c ≠ '#' ∧ ¬isBlank c ∧ c ≠ '"' := by
  refine ⟨?_, ?_, ?_⟩
  · rintro rfl
    rcases h with h | h <;> cases h
  · intro hblank
    simp only [isBlank, Bool.or_eq_true, beq_iff_eq] at hblank
    rcases h with h | h <;> rcases hblank with ((rfl | rfl) | rfl) | rfl <;> cases h
  · rintro rfl
    rcases h with h | h <;> cases h

theorem first_of_letter {c : Char} (h : isLetter c) (cs : List Char) :
    first c cs = run (fun word => .ofWord (String.ofList word)) isLetter c cs := by
  have hquote := (alphanumeric_plain (.inl h)).2.2
  simp [first, hquote, h]

theorem first_of_digit {c : Char} (h : isDigit c) (cs : List Char) :
    first c cs = run (fun _ => .integer) isDigit c cs := by
  have hquote := (alphanumeric_plain (.inr h)).2.2
  simp [first, hquote, not_letter_of_digit h, h]

/-- The signs of one character with their kinds. -/
def singles : List (Char × Token.Kind) :=
  [('=', .assign), ('!', .bang), ('+', .plus), ('-', .minus), ('{', .leftBrace),
    ('}', .rightBrace), ('*', .asterisk), ('/', .slash), ('<', .less), ('>', .greater),
    (',', .comma), (';', .semicolon), (':', .colon), ('(', .leftParen), (')', .rightParen),
    ('[', .leftBracket), (']', .rightBracket)]

/-- The signs of two characters with their kinds. -/
def pairs : List (Char × Char × Token.Kind) :=
  [('=', '=', .equal), ('!', '=', .notEqual), ('+', '+', .increment), ('-', '-', .decrement),
    ('{', '{', .leftObject), ('}', '}', .rightObject)]

theorem illegal_or_mem_singles (c : Char) : single c = .illegal ∨ (c, single c) ∈ singles := by
  unfold single
  split
  case h_18 => exact .inl rfl
  all_goals exact .inr (by decide)

theorem mem_singles {c : Char} (h : single c ≠ .illegal) : (c, single c) ∈ singles :=
  (illegal_or_mem_singles c).resolve_left h

theorem mem_pairs {c d : Char} {kind : Token.Kind} (h : pair? c d = some kind) :
    (c, d, kind) ∈ pairs := by
  unfold pair? at h
  split at h
  case h_7 => cases h
  all_goals
    obtain rfl := Option.some.inj h
    decide

/-- The character of a sign belongs to no other class. -/
theorem sign_plain {c : Char} (h : single c ≠ .illegal) :
    c ≠ '#' ∧ ¬isBlank c ∧ c ≠ '"' ∧ ¬isLetter c ∧ ¬isDigit c := by
  have htable : ∀ sign ∈ singles,
      sign.1 ≠ '#' ∧ ¬isBlank sign.1 ∧ sign.1 ≠ '"' ∧ ¬isLetter sign.1 ∧ ¬isDigit sign.1 := by
    decide
  exact htable _ (mem_singles h)

end Lexeme

/-- A run of letters is one word. -/
def IsWord (w : String) : Prop := w.toList ≠ [] ∧ ∀ c ∈ w.toList, Lexeme.isLetter c

/-- A run of digits is one number. -/
def IsNumber (digits : String) : Prop :=
  digits.toList ≠ [] ∧ ∀ c ∈ digits.toList, Lexeme.isDigit c

/-- A run of one class is read as a whole where a character of another class follows. -/
theorem spellings_run {kind : List Char → Token.Kind} {inClass : Char → Bool}
    (hplain : ∀ c, inClass c → c ≠ '#' ∧ ¬Lexeme.isBlank c ∧ c ≠ '"')
    (hfirst : ∀ c, inClass c → ∀ cs, Lexeme.first c cs = Lexeme.run kind inClass c cs)
    {cs rest : List Char} (hne : cs ≠ []) (h : ∀ c ∈ cs, inClass c)
    (hrest : ∀ c ∈ rest.head?, ¬inClass c = true) :
    spellings (cs ++ rest) = (kind cs, String.ofList cs) :: spellings rest := by
  cases cs with
  | nil => exact absurd rfl hne
  | cons c cs =>
      have hc := h c List.mem_cons_self
      obtain ⟨hsign, hblank, -⟩ := hplain c hc
      obtain ⟨htake, hdrop⟩ := span_append (fun d hd => h d (List.mem_cons_of_mem c hd)) hrest
      rw [List.cons_append, spellings_cons hsign hblank, hfirst c hc]
      simp only [Lexeme.run, Lexeme.spelling, htake, hdrop]

theorem spellings_word {w : String} (h : IsWord w) {rest : List Char}
    (hrest : ∀ c ∈ rest.head?, ¬Lexeme.isLetter c) :
    spellings (w.toList ++ rest) = .word w :: spellings rest := by
  rw [spellings_run (fun c hc => Lexeme.alphanumeric_plain (.inl hc))
    (fun c hc => Lexeme.first_of_letter hc) h.1 h.2 hrest, String.ofList_toList]
  rfl

theorem spellings_number {digits : String} (h : IsNumber digits) {rest : List Char}
    (hrest : ∀ c ∈ rest.head?, ¬Lexeme.isDigit c) :
    spellings (digits.toList ++ rest) = .number digits :: spellings rest := by
  rw [spellings_run (fun c hc => Lexeme.alphanumeric_plain (.inr hc))
    (fun c hc => Lexeme.first_of_digit hc) h.1 h.2 hrest, String.ofList_toList]
  rfl

theorem spellings_text {value : String} (h : '"' ∉ value.toList) (rest : List Char) :
    spellings ('"' :: (value.toList ++ '"' :: rest)) = .text value :: spellings rest := by
  obtain ⟨htake, hdrop⟩ := @span_quoted _ ('"' :: rest) h (by simp)
  rw [spellings_cons (by decide) (by decide)]
  simp only [Lexeme.first, Lexeme.quoted, if_true, htake, hdrop, Lexeme.spelling,
    String.ofList_toList]
  rfl

/-! ## Signs -/

/-- A character that begins no other lexeme is taken alone where the next one makes no sign of two
of it. -/
theorem Lexeme.first_alone {c : Char} (hquote : c ≠ '"') (hletter : ¬isLetter c)
    (hdigit : ¬isDigit c) {rest : List Char} (hrest : ∀ d ∈ rest.head?, pair? c d = none) :
    first c rest = { kind := single c, literal := [c], extent := [c], rest := rest } := by
  simp only [first, if_neg hquote, if_neg hletter, if_neg hdigit, symbol]
  cases rest with
  | nil => rfl
  | cons d ds => simp only [hrest d rfl]

/-- The first character of a sign of two is a sign too. -/
theorem Lexeme.single_of_pair {c d : Char} {kind : Token.Kind} (h : pair? c d = some kind) :
    single c ≠ .illegal := by
  have htable : ∀ sign ∈ pairs, single sign.1 ≠ .illegal := by decide
  exact htable _ (mem_pairs h)

theorem Lexeme.first_pair {c d : Char} {kind : Token.Kind} (h : pair? c d = some kind)
    (rest : List Char) :
    first c (d :: rest) = { kind := kind, literal := [c, d], extent := [c, d], rest := rest } := by
  obtain ⟨-, -, hquote, hletter, hdigit⟩ := sign_plain (single_of_pair h)
  simp only [first, if_neg hquote, if_neg hletter, if_neg hdigit, symbol, h]

/-- A sign is read alone where the next character does not make it one of two characters. -/
theorem spellings_sign {c : Char} (h : Lexeme.single c ≠ .illegal) {rest : List Char}
    (hrest : ∀ d ∈ rest.head?, Lexeme.pair? c d = none) :
    spellings (c :: rest) = .sign c :: spellings rest := by
  obtain ⟨hsign, hblank, hquote, hletter, hdigit⟩ := Lexeme.sign_plain h
  rw [spellings_cons hsign hblank, Lexeme.first_alone hquote hletter hdigit hrest]
  rfl

/-- The signs that begin no sign of two characters. -/
def Lexeme.standsAlone (c : Char) : Bool := c ∈ "*/<>,;:()[]".toList

theorem spellings_alone (c : Char) (rest : List Char) (h : Lexeme.standsAlone c := by decide) :
    spellings (c :: rest) = .sign c :: spellings rest := by
  simp only [Lexeme.standsAlone, String.reduceToList, decide_eq_true_eq, List.mem_cons,
    List.not_mem_nil, or_false] at h
  refine spellings_sign ?_ fun d _ => ?_
  · rcases h with rfl | rfl | rfl | rfl | rfl | rfl | rfl | rfl | rfl | rfl | rfl <;> decide
  · rcases h with rfl | rfl | rfl | rfl | rfl | rfl | rfl | rfl | rfl | rfl | rfl <;> rfl

/-- A sign of two characters is read whatever follows it. -/
theorem spellings_pair {c d : Char} {kind : Token.Kind} (h : Lexeme.pair? c d = some kind)
    (rest : List Char) :
    spellings (c :: d :: rest) = (kind, String.ofList [c, d]) :: spellings rest := by
  obtain ⟨hsign, hblank, -⟩ := Lexeme.sign_plain (Lexeme.single_of_pair h)
  rw [spellings_cons hsign hblank, Lexeme.first_pair h]
  rfl

/-! ## What the tokens of a text look like -/

/-- What is certain about the text of a token that is a name, a number or a string. -/
structure Token.Legible (t : Token) : Prop where
  word : t.kind = .identifier → IsWord t.literal ∧ Token.Kind.ofWord t.literal = .identifier
  number : t.kind = .integer → IsNumber t.literal
  text : t.kind = .string → '"' ∉ t.literal.toList

theorem Token.Kind.ofWord_cases (w : String) :
    ofWord w = .identifier ∨ ofWord w ∈ keywords.map (·.2) := by
  unfold ofWord
  cases h : keywords.lookup w with
  | none => exact .inl rfl
  | some kind =>
      refine .inr ?_
      obtain ⟨_, _, heq, -⟩ := List.lookup_eq_some_iff.mp h
      simp [heq]

theorem Token.Kind.ofWord_ne_literal (w : String) : ofWord w ≠ .integer ∧ ofWord w ≠ .string := by
  rcases ofWord_cases w with h | h
  · simp [h]
  · constructor
    · intro heq
      rw [heq] at h
      revert h
      decide
    · intro heq
      rw [heq] at h
      revert h
      decide

/-- The characters of a run are of its class. -/
theorem mem_takeWhile {inClass : Char → Bool} {c d : Char} {cs : List Char}
    (hc : inClass c = true) (hd : d ∈ c :: cs.takeWhile inClass) : inClass d = true := by
  rcases List.mem_cons.mp hd with rfl | hd
  · exact hc
  · exact List.all_eq_true.mp List.all_takeWhile d hd

namespace Lexeme

theorem legible_word {c : Char} {cs : List Char} {pos : Position} (hc : isLetter c) :
    Token.Legible ⟨.ofWord (String.ofList (c :: cs.takeWhile isLetter)),
      String.ofList (c :: cs.takeWhile isLetter), pos⟩ := by
  obtain ⟨hinteger, hstring⟩ :=
    Token.Kind.ofWord_ne_literal (String.ofList (c :: cs.takeWhile isLetter))
  refine ⟨fun hkind => ⟨⟨?_, ?_⟩, hkind⟩, fun hkind => absurd hkind hinteger,
    fun hkind => absurd hkind hstring⟩
  · simp
  · intro d hd
    rw [String.toList_ofList] at hd
    exact mem_takeWhile hc hd

theorem legible_number {c : Char} {cs : List Char} {pos : Position} (hc : isDigit c) :
    Token.Legible ⟨.integer, String.ofList (c :: cs.takeWhile isDigit), pos⟩ := by
  refine ⟨fun hkind => (nomatch hkind), fun _ => ⟨?_, ?_⟩, fun hkind => (nomatch hkind)⟩
  · simp
  · intro d hd
    rw [String.toList_ofList] at hd
    exact mem_takeWhile hc hd

theorem quote_not_mem (cs : List Char) : '"' ∉ cs.takeWhile (· ≠ '"') := by
  intro hmem
  have h := List.all_eq_true.mp (List.all_takeWhile (p := fun c => decide (c ≠ '"'))) '"' hmem
  exact of_decide_eq_true h rfl

theorem legible_text {cs : List Char} {pos : Position} :
    Token.Legible ⟨.string, String.ofList (cs.takeWhile (· ≠ '"')), pos⟩ := by
  refine ⟨fun hkind => (nomatch hkind), fun hkind => (nomatch hkind), fun _ hmem => ?_⟩
  rw [String.toList_ofList] at hmem
  exact quote_not_mem cs hmem

/-- The kinds that carry no text of their own. -/
theorem legible_of_sign {kind : Token.Kind} {literal : String} {pos : Position}
    (h : kind ∉ [.identifier, .integer, .string]) : Token.Legible ⟨kind, literal, pos⟩ := by
  simp only [List.mem_cons, List.not_mem_nil, or_false, not_or] at h
  exact ⟨fun hkind => absurd hkind h.1, fun hkind => absurd hkind h.2.1,
    fun hkind => absurd hkind h.2.2⟩

theorem single_sign (c : Char) : single c ∉ [.identifier, .integer, .string] := by
  have htable : ∀ sign ∈ singles, sign.2 ∉ [.identifier, .integer, .string] := by decide
  rcases illegal_or_mem_singles c with hillegal | hsign
  · rw [hillegal]
    decide
  · exact htable _ hsign

theorem pair?_sign {c d : Char} {kind : Token.Kind} (h : pair? c d = some kind) :
    kind ∉ [.identifier, .integer, .string] := by
  have htable : ∀ sign ∈ pairs, sign.2.2 ∉ [.identifier, .integer, .string] := by decide
  exact htable _ (mem_pairs h)

theorem legible_symbol (c : Char) (cs : List Char) (pos : Position) :
    Token.Legible ⟨(symbol c cs).kind, String.ofList (symbol c cs).literal, pos⟩ := by
  unfold symbol
  cases cs with
  | nil => exact legible_of_sign (single_sign c)
  | cons d ds =>
      dsimp only
      split
      · next kind hpair => exact legible_of_sign (pair?_sign hpair)
      · exact legible_of_sign (single_sign c)

/-- The lexeme at the front of a text gives a legible token. -/
theorem legible_first (c : Char) (cs : List Char) (pos : Position) :
    Token.Legible ⟨(first c cs).kind, String.ofList (first c cs).literal, pos⟩ := by
  unfold first
  split
  · unfold quoted
    split <;> exact legible_text
  split
  · next hletter => exact legible_word hletter
  split
  · next hdigit => exact legible_number hdigit
  · exact legible_symbol c cs pos

end Lexeme

namespace Cursor

theorem legible_readAll (cur : Cursor) (seen : List Token) (h : ∀ t ∈ seen, t.Legible) :
    ∀ t ∈ (readAll cur seen).tokens, t.Legible := by
  cases hrest : cur.skipTrivia.rest with
  | nil =>
      rw [readAll_of_end hrest]
      simpa using h
  | cons c cs =>
      have hne : cur.skipTrivia.rest ≠ [] := by simp [hrest]
      have hlt := rest_next_lt hne
      rw [readAll_of_next hne]
      refine legible_readAll _ _ ?_
      obtain ⟨pos, hnext⟩ := next_eq hrest
      rw [hnext]
      intro t ht
      rcases List.mem_cons.mp ht with rfl | ht
      · exact Lexeme.legible_first c cs _
      · exact h t ht
termination_by cur.rest.length

end Cursor

/-- **Tokens are legible.** Whatever the text, its names, numbers and strings can be written as
they are and read again. -/
theorem TokenStream.legible_ofSource (source : String) :
    ∀ t ∈ (TokenStream.ofSource source).tokens, t.Legible :=
  Cursor.legible_readAll _ [] (by simp)

end ExprMachine
