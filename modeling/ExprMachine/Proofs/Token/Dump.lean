import ExprMachine.Proofs.Text.Quoted
import ExprMachine.Proofs.Token.Tiling
import ExprMachine.Token.Dump

/-!
# What a listing of tokens tells

A listing has one line for each token, in the plain view and in the pretty one. The pretty view
shows tokens as they stand in the source, so this rests on what a token can be: only a string goes
over a newline, and strings are shown in quotes.

The plain view tells the tokens. A line is taken apart from the left, the line number up to the
colon, the column up to the bracket, and the group and the kind up to the parenthesis. What is left
is the text in quotes and what closes every line.
-/

namespace ExprMachine

namespace Text

/-- What is filled up with spaces is made of the text's characters and of spaces. -/
theorem not_mem_padRight {c : Char} {s : String} (width : Nat) (hc : c ≠ ' ') (h : c ∉ s.toList) :
    c ∉ (padRight width s).toList := by
  rw [padRight, String.toList_append, String.toList_ofList]
  intro hmem
  rcases List.mem_append.mp hmem with hs | hspace
  · exact h hs
  · exact hc (List.eq_of_mem_replicate hspace)

/-- A number is digits. -/
theorem not_mem_zeroFill {c : Char} (hc : ¬c.isDigit = true) (width n : Nat) :
    c ∉ (zeroFill width n).toList := fun h => hc (isDigit_of_mem_zeroFill h)

/-- Two columns begin behind the last character that neither of them holds. -/
theorem append_cons_inj_last {c : Char} {xs ys xs' ys' : List Char} (hxs : c ∉ xs') (hys : c ∉ ys')
    (h : xs ++ c :: xs' = ys ++ c :: ys') : xs' = ys' := by
  have hreversed := congrArg List.reverse h
  rw [List.reverse_append, List.reverse_append, List.reverse_cons, List.reverse_cons,
    List.append_assoc, List.append_assoc] at hreversed
  have hback := append_cons_inj (mt List.mem_reverse.mp hxs) (mt List.mem_reverse.mp hys) hreversed
  exact List.reverse_injective hback.1

end Text

namespace Token

/-! ## Words of a line -/

/-- The name of a kind is one word. -/
theorem Kind.not_mem_name (kind : Kind) : ∀ c ∈ ['\n', ' ', '('], c ∉ kind.name.toList := by
  cases kind <;> simp [name]

theorem Kind.name_injective {kind kind' : Kind} (h : kind.name = kind'.name) : kind = kind' := by
  have htable : ∀ kind ∈ all, ∀ kind' ∈ all, kind.name = kind'.name → kind = kind' := by decide
  exact htable kind kind.mem_all kind' kind'.mem_all h

theorem Group.not_mem_name (group : Group) : ∀ c ∈ ['\n', '('], c ∉ group.name.toList := by
  cases group <;> simp [name]

theorem DumpStyle.not_mem_groupColor (group : Group) :
    ∀ c ∈ ['\n', '('], c ∉ (groupColor group).toList := by
  cases group <;> simp [groupColor, reset, sequence]

namespace DumpStyle

/-- What stands in front of a token on its line: its colour and its group. -/
def label (style : DumpStyle) (kind : Kind) : String :=
  (if style.color then groupColor (Group.ofKind kind) else "") ++
    Text.padRight 8 (Group.ofKind kind).name

/-- What closes a line: back to the terminal's own colours. -/
def closing (style : DumpStyle) : String := if style.color then reset else ""

/-- The line of a token without the newline. -/
def content (style : DumpStyle) (token : Token) : String :=
  "[" ++ (Text.zeroFill 2 token.pos.line ++ ":" ++ Text.zeroFill 2 token.pos.col) ++ "] " ++
    style.label token.kind ++ " " ++ style.body token ++ style.closing

theorem line_eq (style : DumpStyle) (token : Token) :
    style.line token = style.content token ++ "\n" := by
  rcases style with ⟨color, pretty⟩
  unfold line content label closing
  cases color
  · simp only [String.append_assoc]
    rfl
  · simp only [String.append_assoc]
    rfl

theorem not_mem_label (style : DumpStyle) (kind : Kind) :
    ∀ c ∈ ['\n', '('], c ∉ (style.label kind).toList := by
  intro c hc
  have hspace : c ≠ ' ' := by
    rintro rfl
    exact absurd hc (by decide)
  have hname := Text.not_mem_padRight 8 hspace ((Group.ofKind kind).not_mem_name c hc)
  have hcolor := not_mem_groupColor (Group.ofKind kind) c hc
  rw [label, String.toList_append, List.mem_append, not_or]
  refine ⟨?_, hname⟩
  split
  · exact hcolor
  · exact List.not_mem_nil

theorem newline_not_mem_closing (style : DumpStyle) : '\n' ∉ style.closing.toList := by
  unfold closing
  split
  · simp [reset, sequence]
  · exact List.not_mem_nil

end DumpStyle

/-! ## One line for each token -/

/-- Only the text of a string goes over a newline. -/
def OneLine (token : Token) : Prop := token.kind ≠ .string → '\n' ∉ token.literal.toList

theorem newline_not_mem_fixed {kind : Kind} {spelling : String}
    (h : kind.fixed? = some spelling) : '\n' ∉ spelling.toList := by
  cases kind <;> cases h <;> simp

theorem newline_not_mem_lexeme {kind : Kind} {literal extent : List Char}
    (h : IsLexeme kind literal extent) (hkind : kind ≠ .string) : '\n' ∉ literal := by
  cases h with
  | fixed hspelling => exact newline_not_mem_fixed hspelling
  | identifier _ hletters _ => exact fun hmem => absurd (hletters _ hmem) (by decide)
  | integer _ hdigits => exact fun hmem => absurd (hdigits _ hmem) (by decide)
  | string _ => exact absurd rfl hkind
  | illegal hstray =>
      intro hmem
      obtain rfl := List.mem_singleton.mp hmem
      exact hstray.blank (by decide)

theorem oneLine_of_tiles {front cs : List Char} {tokens : List Token} {isOpen : Bool}
    (h : Tiles front cs tokens isOpen) : ∀ t ∈ tokens, t.OneLine := by
  induction h with
  | ending | openComment => simp
  | openString =>
      intro t ht hkind
      rw [List.mem_singleton.mp ht] at hkind
      exact absurd rfl hkind
  | lexeme htrivia hlexeme hends hrest ih =>
      refine List.forall_mem_cons.mpr ⟨fun hkind => ?_, ih⟩
      rw [String.toList_ofList]
      exact newline_not_mem_lexeme hlexeme hkind

/-- **The tokens of a text fit a line**, but for strings. -/
theorem oneLine_of_mem_ofSource (source : String) :
    ∀ t ∈ (TokenStream.ofSource source).toList, t.OneLine := by
  obtain ⟨tokens, isOpen, htiles⟩ := exists_tiles [] source.toList
  intro t ht
  rw [htiles.ofSource] at ht
  rcases List.mem_append.mp ht with htoken | hend
  · exact oneLine_of_tiles htiles t htoken
  · rw [List.mem_singleton.mp hend]
    exact fun _ => List.not_mem_nil

namespace DumpStyle

theorem newline_not_mem_body (style : DumpStyle) {token : Token} (h : token.OneLine) :
    '\n' ∉ (style.body token).toList := by
  have hquoted := Text.newline_not_mem_quoted token.literal
  unfold body
  split
  · split
    · simp
    · exact hquoted
    · next hstring => exact h hstring
  · have hname := token.kind.not_mem_name '\n' (by decide)
    simp [hname, hquoted]

/-- **A token takes one line.** -/
theorem newline_not_mem_content (style : DumpStyle) {token : Token} (h : token.OneLine) :
    '\n' ∉ (style.content token).toList := by
  have hline := Text.not_mem_zeroFill (c := '\n') (by decide) 2 token.pos.line
  have hcol := Text.not_mem_zeroFill (c := '\n') (by decide) 2 token.pos.col
  have hlabel := style.not_mem_label token.kind '\n' (by decide)
  have hbody := style.newline_not_mem_body h
  have hclosing := style.newline_not_mem_closing
  simp [content, hline, hcol, hlabel, hbody, hclosing]

theorem dump_eq (style : DumpStyle) (stream : TokenStream) :
    style.dump stream = String.join ((stream.toList.map style.content).map (· ++ "\n")) := by
  rw [List.map_map]
  exact congrArg String.join (List.map_congr_left fun token _ => style.line_eq token)

/-- The lines of a listing are those of its tokens. -/
theorem lines_dump (style : DumpStyle) {stream : TokenStream}
    (h : ∀ t ∈ stream.toList, t.OneLine) :
    Text.lines (style.dump stream) = stream.toList.map style.content := by
  rw [dump_eq]
  refine Text.lines_join fun l hl => ?_
  obtain ⟨token, htoken, rfl⟩ := List.mem_map.mp hl
  exact style.newline_not_mem_content (h token htoken)

/-! ## The plain view tells the token -/

/-- The line of the plain view, column by column. -/
theorem toList_content_plain (color : Bool) (token : Token) :
    (content ⟨color, false⟩ token).toList =
      '[' :: ((Text.zeroFill 2 token.pos.line).toList ++ ':' ::
        ((Text.zeroFill 2 token.pos.col).toList ++ ']' :: ' ' ::
          (((label ⟨color, false⟩ token.kind).toList ++ ' ' :: token.kind.name.toList) ++ '(' ::
            ((Text.quoted token.literal).toList ++
              (')' :: (closing ⟨color, false⟩).toList))))) := by
  simp [content, body]

/-- The label and the name in front of the parenthesis tell the kind. -/
theorem kind_of_header {style : DumpStyle} {kind kind' : Kind}
    (h : (style.label kind).toList ++ ' ' :: kind.name.toList =
      (style.label kind').toList ++ ' ' :: kind'.name.toList) : kind = kind' :=
  Kind.name_injective (String.toList_injective
    (Text.append_cons_inj_last (kind.not_mem_name ' ' (by decide))
      (kind'.not_mem_name ' ' (by decide)) h))

theorem parenthesis_not_mem_header (style : DumpStyle) (kind : Kind) :
    '(' ∉ (style.label kind).toList ++ ' ' :: kind.name.toList := by
  have hlabel := style.not_mem_label kind '(' (by decide)
  have hname := kind.not_mem_name '(' (by decide)
  simp [hlabel, hname]

/-- **A line of the plain view** tells the token. -/
theorem content_plain_injective {color : Bool} {token token' : Token}
    (h : content ⟨color, false⟩ token = content ⟨color, false⟩ token') : token = token' := by
  have hlist := congrArg String.toList h
  rw [toList_content_plain, toList_content_plain] at hlist
  -- the columns are taken off from the left, each up to the character that ends it
  obtain ⟨hline, hlist⟩ := Text.append_cons_inj (Text.not_mem_zeroFill (by decide) 2 _)
    (Text.not_mem_zeroFill (by decide) 2 _) (List.cons.inj hlist).2
  obtain ⟨hcol, hlist⟩ := Text.append_cons_inj (Text.not_mem_zeroFill (by decide) 2 _)
    (Text.not_mem_zeroFill (by decide) 2 _) hlist
  obtain ⟨hheader, hlist⟩ := Text.append_cons_inj (parenthesis_not_mem_header _ _)
    (parenthesis_not_mem_header _ _) (List.cons.inj hlist).2
  have hkind : token.kind = token'.kind := kind_of_header hheader
  have hliteral : token.literal = token'.literal :=
    Text.quoted_injective (String.toList_injective (List.append_cancel_right hlist))
  have hline' := Text.zeroFill_injective (String.toList_injective hline)
  have hcol' := Text.zeroFill_injective (String.toList_injective hcol)
  obtain ⟨kind, literal, line, col⟩ := token
  obtain ⟨kind', literal', line', col'⟩ := token'
  cases hkind
  cases hliteral
  cases hline'
  cases hcol'
  rfl

/--
**A listing of tokens is faithful.**

In every style the listing of a source has as many newlines as the source has tokens, the end token
included, and they end its lines, so a line is a token. The plain view, coloured or not, tells the
tokens: sources with one listing have the same kinds, texts and places, token by token.
-/
theorem dump_faithful :
    (∀ (style : DumpStyle) (source : String),
      (style.dump (.ofSource source)).toList.count '\n'
        = (TokenStream.ofSource source).toList.length ∧
      style.dump (.ofSource source) =
        String.join ((Text.lines (style.dump (.ofSource source))).map (· ++ "\n")) ∧
      Text.lines (style.dump (.ofSource source)) =
        (TokenStream.ofSource source).toList.map style.content) ∧
    ∀ (color : Bool) (source source' : String),
      dump ⟨color, false⟩ (.ofSource source) = dump ⟨color, false⟩ (.ofSource source') →
      (TokenStream.ofSource source).toList = (TokenStream.ofSource source').toList := by
  have hlines (style : DumpStyle) (source : String) :
      Text.lines (style.dump (.ofSource source)) =
        (TokenStream.ofSource source).toList.map style.content :=
    style.lines_dump (oneLine_of_mem_ofSource source)
  refine ⟨fun style source => ⟨?_, ?_, hlines style source⟩, fun color source source' h => ?_⟩
  · have hplain : ∀ l ∈ (TokenStream.ofSource source).toList.map style.content,
        '\n' ∉ l.toList := by
      intro l hl
      obtain ⟨token, htoken, rfl⟩ := List.mem_map.mp hl
      exact style.newline_not_mem_content (oneLine_of_mem_ofSource source token htoken)
    rw [dump_eq, Text.count_newline_join hplain, List.length_map]
  · rw [hlines]
    exact style.dump_eq _
  · have hcontents := congrArg Text.lines h
    rw [hlines, hlines] at hcontents
    exact (List.map_inj_right fun _ _ => content_plain_injective).mp hcontents

/-- A tab and a blank in front of a token are listed alike, since the tokens are the same. A string
with a newline in it and one with the escape of a newline are not. -/
theorem dump_faithful_escapes :
    (TokenStream.ofSource "\t1").toList = (TokenStream.ofSource " 1").toList ∧
      dump ⟨false, false⟩ (.ofSource "\"\n\"") ≠ dump ⟨false, false⟩ (.ofSource "\"\\n\"") := by
  constructor
  · have hstream : TokenStream.ofSource "\t1" = TokenStream.ofSource " 1" := by cbv
    have hlisted :
        dump ⟨false, false⟩ (.ofSource "\t1") = dump ⟨false, false⟩ (.ofSource " 1") :=
      congrArg (dump ⟨false, false⟩) hstream
    exact dump_faithful.2 false _ _ hlisted
  · intro h
    have hsame := dump_faithful.2 false _ _ h
    exact absurd hsame (by cbv; decide)

end DumpStyle

end Token

end ExprMachine
