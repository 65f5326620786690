import ExprMachine.Repl
import ExprMachine.Proofs.Text.Lines
import ExprMachine.Proofs.Text.Utf8
import Mathlib

/-!
# A conversation is made of its lines

An input has one way of being cut into lines (`LinesOf`), and what is cut behind a newline can be
cut separately (`LinesOf.append`). Bytes that are a text are cut into texts, since the byte of a
newline is part of no other character.

The answer to a line is made from that line, so a conversation is a row of exchanges, each of them
the prompt and one line's answer. A line that cannot be read or run ends its own exchange and
nothing else; only a line that is no text ends the conversation. Whoever goes on behind a newline
therefore hears what a new conversation would have said.
-/

namespace ExprMachine.Repl

/-! ## Lines -/

/-- The lines of some bytes: each goes on to the next newline and includes it, and what stands
behind the last newline is a line if there is anything. -/
inductive LinesOf : List UInt8 → List (List UInt8) → Prop where
  | nil : LinesOf [] []
  | last {line : List UInt8} : line ≠ [] → 10 ∉ line → LinesOf line [line]
  | cons {line rest : List UInt8} {ls : List (List UInt8)} :
      10 ∉ line → LinesOf rest ls → LinesOf (line ++ 10 :: rest) ((line ++ [10]) :: ls)

/-- Nothing is left of the last line. -/
def Ended (input : List UInt8) : Prop := ∀ b ∈ input.getLast?, b = 10

/-- The loop cuts what is left behind the beginning of a line that it has. -/
theorem linesFrom_spec (input : List UInt8) {line : List UInt8} (hline : 10 ∉ line)
    (seen : List (List UInt8)) :
    ∃ ls, linesFrom line seen input = seen.reverse ++ ls ∧ LinesOf (line.reverse ++ input) ls := by
  induction input generalizing line seen with
  | nil =>
      rw [List.append_nil]
      cases line with
      | nil => exact ⟨[], (List.append_nil _).symm, .nil⟩
      | cons b line =>
          -- the input ends within a line, which counts all the same
          refine ⟨[(b :: line).reverse], List.reverse_cons, .last (by simp) ?_⟩
          rwa [List.mem_reverse]
  | cons b rest ih =>
      rw [linesFrom]
      split
      · next hb =>
        subst hb
        obtain ⟨ls, hls, hlines⟩ := ih List.not_mem_nil ((10 :: line).reverse :: seen)
        refine ⟨(line.reverse ++ [10]) :: ls, ?_, .cons ?_ hlines⟩
        · rw [hls, List.reverse_cons, List.reverse_cons, List.append_assoc, List.singleton_append]
        · rwa [List.mem_reverse]
      · next hb =>
        have hopen : 10 ∉ b :: line := by simp [Ne.symm hb, hline]
        obtain ⟨ls, hls, hlines⟩ := ih hopen seen
        refine ⟨ls, hls, ?_⟩
        rwa [List.reverse_cons, List.append_assoc] at hlines

theorem linesOf_lines (input : List UInt8) : LinesOf input (lines input) := by
  obtain ⟨ls, hls, hlines⟩ := linesFrom_spec input List.not_mem_nil []
  rw [lines, hls]
  exact hlines

/-- There is one way to cut an input into lines. -/
theorem LinesOf.unique {input : List UInt8} {ls ms : List (List UInt8)} (h : LinesOf input ls)
    (h' : LinesOf input ms) : ls = ms := by
  induction h generalizing ms with
  | nil =>
      generalize hinput : ([] : List UInt8) = input at h'
      cases h' with
      | nil => rfl
      | last hne => exact absurd hinput.symm hne
      | cons => simp at hinput
  | @last line hne hline =>
      cases h' with
      | nil => exact absurd rfl hne
      | last => rfl
      | cons => simp at hline
  | @cons line rest ls hline hrest ih =>
      generalize hinput : line ++ 10 :: rest = input at h'
      cases h' with
      | nil => simp at hinput
      | last _ hnone => simp [← hinput] at hnone
      | @cons line' rest' ms hline' hrest' =>
          obtain ⟨rfl, rfl⟩ := Text.append_cons_inj hline hline' hinput
          rw [ih hrest']

/-- What is cut behind a newline can be cut separately. -/
theorem LinesOf.append {a b : List UInt8} {ls ms : List (List UInt8)} (ha : LinesOf a ls)
    (hended : Ended a) (hb : LinesOf b ms) : LinesOf (a ++ b) (ls ++ ms) := by
  induction ha with
  | nil => exact hb
  | last hne hline =>
      have hnewline := hended _ (List.getLast?_eq_some_getLast hne)
      exact absurd (hnewline ▸ List.getLast_mem hne) hline
  | @cons line rest ls hline hrest ih =>
      have hrest : Ended rest := by
        intro b hb
        exact hended b (by simp [List.getLast?_append, List.getLast?_cons, Option.mem_def.mp hb])
      rw [List.append_assoc, List.cons_append]
      exact .cons hline (ih hrest)

theorem lines_append {a : List UInt8} (hended : Ended a) (b : List UInt8) :
    lines (a ++ b) = lines a ++ lines b :=
  (linesOf_lines (a ++ b)).unique ((linesOf_lines a).append hended (linesOf_lines b))

/-- A text is cut into texts. -/
theorem LinesOf.exists_texts {input : List UInt8} {ls : List (List UInt8)} (h : LinesOf input ls)
    {s : String} (hs : Text.utf8 s = input) : ∃ texts : List String, ls = texts.map Text.utf8 := by
  induction h generalizing s with
  | nil => exact ⟨[], rfl⟩
  | last => exact ⟨[s], by rw [List.map_singleton, hs]⟩
  | cons hline hrest ih =>
      obtain ⟨line, others, hfirst, hothers⟩ := Text.utf8_eq_append_newline hs
      obtain ⟨texts, rfl⟩ := ih hothers
      exact ⟨line :: texts, by rw [List.map_cons, hfirst]⟩

/-- Lines are texts up to the first that is none. -/
theorem exists_texts_append (ls : List (List UInt8)) :
    ∃ (texts : List String) (rest : List (List UInt8)), ls = texts.map Text.utf8 ++ rest ∧
      ∀ line ∈ rest.head?, Text.ofUtf8? line = none := by
  induction ls with
  | nil => exact ⟨[], [], rfl, by simp⟩
  | cons line ls ih =>
      cases hline : Text.ofUtf8? line with
      | none => exact ⟨[], line :: ls, rfl, by simpa using hline⟩
      | some text =>
          obtain ⟨texts, rest, rfl, hrest⟩ := ih
          refine ⟨text :: texts, rest, ?_, hrest⟩
          rw [List.map_cons, Text.utf8_of_ofUtf8? hline, List.cons_append]

/-! ## Exchanges -/

/-- What is written about a line that is a text. -/
def exchange (limits : Limits) (line : String) : String := prompt ++ respond line limits

/-- What is written about lines that are texts. -/
def exchanges (limits : Limits) (texts : List String) : String :=
  String.join (texts.map (exchange limits))

variable {limits : Limits}

@[simp]
theorem exchanges_nil : exchanges limits [] = "" := rfl

@[simp]
theorem exchanges_cons (text : String) (texts : List String) :
    exchanges limits (text :: texts) = exchange limits text ++ exchanges limits texts :=
  String.join_cons

/-- Lines that are texts are answered one after the other, whatever has been written before. -/
theorem answer_texts (output : String) (texts : List String) (rest : List (List UInt8)) :
    answer limits output (texts.map Text.utf8 ++ rest) =
      answer limits (output ++ exchanges limits texts) rest := by
  induction texts generalizing output with
  | nil => simp
  | cons text texts ih =>
      rw [List.map_cons, List.cons_append, answer, Text.ofUtf8?_utf8]
      dsimp only
      rw [ih, exchanges_cons, exchange, String.append_assoc, String.append_assoc,
        String.append_assoc]

/-- What has been written before is not looked at. -/
theorem answer_output (output : String) (ls : List (List UInt8)) :
    answer limits output ls =
      ⟨output ++ (answer limits "" ls).output, (answer limits "" ls).broken⟩ := by
  induction ls generalizing output with
  | nil => simp [answer]
  | cons line ls ih =>
      rw [answer, answer]
      cases Text.ofUtf8? line with
      | none => simp
      | some text =>
          dsimp only
          rw [ih (output ++ prompt ++ respond text limits), ih ("" ++ prompt ++ respond text limits)]
          simp [String.append_assoc]

/-- Nothing is written about a line that is no text, nor about any behind it. -/
theorem answer_stop {ls : List (List UInt8)} (h : ∀ line ∈ ls.head?, Text.ofUtf8? line = none)
    (output : String) : answer limits output ls = ⟨output ++ prompt, !ls.isEmpty⟩ := by
  cases ls with
  | nil => rfl
  | cons line ls =>
      rw [answer, h line rfl]
      rfl

theorem converse_eq (limits : Limits) {input : List UInt8} {texts : List String} {rest : List (List UInt8)}
    (hlines : lines input = texts.map Text.utf8 ++ rest)
    (hrest : ∀ line ∈ rest.head?, Text.ofUtf8? line = none) :
    converse input limits = ⟨exchanges limits texts ++ prompt, !rest.isEmpty⟩ := by
  rw [converse, hlines, answer_texts, answer_stop hrest, String.empty_append]

theorem ended_utf8 {s : String} (hs : s = "" ∨ ∃ front, s = front ++ "\n") :
    Ended (Text.utf8 s) := by
  rcases hs with rfl | ⟨front, rfl⟩
  · simp [Ended, Text.utf8_eq_flatMap]
  · simp [Ended, Text.utf8_append, Text.utf8_newline]

/-- Behind a text that ends with a newline, the conversation starts anew. -/
theorem converse_append {s : String} {texts : List String} (hended : Ended (Text.utf8 s))
    (hlines : lines (Text.utf8 s) = texts.map Text.utf8) (input : List UInt8) :
    converse (Text.utf8 s ++ input) limits =
      ⟨exchanges limits texts ++ (converse input limits).output,
        (converse input limits).broken⟩ := by
  rw [converse, lines_append hended, hlines, answer_texts, answer_output, String.empty_append]
  rfl

/-- A text without a newline is a line of its own once it has one. -/
theorem lines_line {line : String} (h : '\n' ∉ line.toList) :
    lines (Text.utf8 (line ++ "\n")) = [line ++ "\n"].map Text.utf8 := by
  have hline : 10 ∉ Text.utf8 line := by
    intro hmem
    rw [Text.utf8_eq_flatMap] at hmem
    obtain ⟨c, hc, hmem⟩ := List.mem_flatMap.mp hmem
    exact h (Text.eq_newline_of_mem_encode hmem ▸ hc)
  have hlines := LinesOf.cons hline .nil
  rw [← Text.utf8_newline, ← Text.utf8_append] at hlines
  exact (linesOf_lines _).unique hlines

/--
**A conversation is answered line by line.**

Its input is cut into lines, and up to the first that is no text each is answered behind a prompt
of its own; one more prompt follows. The conversation is broken if some line is no text.

So a text that ends with a newline, or is empty, can be spoken first and any input afterwards: what
is written is what is written about the text, but for its last prompt, and then what is written
about the input, which also says how the whole ends. And what is written about the lines in front of
a line and behind it is the same whatever stands in the line.
-/
theorem converse_line_by_line (limits : Limits) :
    (∀ input, ∃ (texts : List String) (rest : List (List UInt8)),
      LinesOf input (texts.map Text.utf8 ++ rest) ∧
      (∀ line ∈ rest.head?, Text.ofUtf8? line = none) ∧
      (converse input limits).output =
        String.join (texts.map fun line => prompt ++ respond line limits) ++ prompt ∧
      ((converse input limits).broken ↔
        ∃ line ∈ texts.map Text.utf8 ++ rest, Text.ofUtf8? line = none)) ∧
    (∀ (s : String) (input : List UInt8), (s = "" ∨ ∃ front, s = front ++ "\n") →
      ∃ written, converse (Text.utf8 s) limits = ⟨written ++ prompt, false⟩ ∧
        converse (Text.utf8 s ++ input) limits =
          ⟨written ++ (converse input limits).output, (converse input limits).broken⟩) ∧
    (∀ (s : String) (input : List UInt8), (s = "" ∨ ∃ front, s = front ++ "\n") →
      ∃ before behind broken, ∀ line : String, '\n' ∉ line.toList →
        converse (Text.utf8 s ++ (Text.utf8 (line ++ "\n") ++ input)) limits =
          ⟨before ++ (prompt ++ respond (line ++ "\n") limits) ++ behind, broken⟩) := by
  refine ⟨fun input => ?_, fun s input hs => ?_, fun s input hs => ?_⟩
  · obtain ⟨texts, rest, hlines, hrest⟩ := exists_texts_append (lines input)
    have hconverse := converse_eq limits hlines hrest
    refine ⟨texts, rest, hlines ▸ linesOf_lines input, hrest, by rw [hconverse]; rfl, ?_⟩
    rw [hconverse]
    cases rest with
    | nil => simp [Text.ofUtf8?_utf8]
    | cons line rest =>
        exact iff_of_true rfl
          ⟨line, List.mem_append_right _ List.mem_cons_self, hrest line rfl⟩
  · obtain ⟨texts, hlines⟩ := (linesOf_lines (Text.utf8 s)).exists_texts rfl
    refine ⟨exchanges limits texts, ?_, converse_append (ended_utf8 hs) hlines input⟩
    have hall : lines (Text.utf8 s) = texts.map Text.utf8 ++ [] := by rw [hlines, List.append_nil]
    exact converse_eq limits hall (by simp)
  · obtain ⟨texts, hlines⟩ := (linesOf_lines (Text.utf8 s)).exists_texts rfl
    refine ⟨exchanges limits texts, (converse input limits).output,
      (converse input limits).broken, fun line hline => ?_⟩
    have hended : Ended (Text.utf8 (line ++ "\n")) := ended_utf8 (.inr ⟨line, rfl⟩)
    rw [converse_append (ended_utf8 hs) hlines, converse_append hended (lines_line hline)]
    simp [exchange, String.append_assoc]

/-- A sum is answered between a parenthesis that is not closed and a byte that is no text. -/
theorem converse_line_by_line_unclosed :
    (∃ front, "(\n" = front ++ "\n") ∧ '\n' ∉ "1 + 2".toList ∧
      ∃ written before behind broken,
        converse (Text.utf8 "(\n") ⟨2, none⟩ = ⟨written ++ ">> ", false⟩ ∧
        converse (Text.utf8 "(\n" ++ [255]) ⟨2, none⟩ = ⟨written ++ ">> ", true⟩ ∧
        converse (Text.utf8 "(\n" ++ (Text.utf8 "1 + 2\n" ++ [255])) ⟨2, none⟩ =
          ⟨before ++ ">> 3\n" ++ behind, broken⟩ := by
  have hs : ∃ front, "(\n" = front ++ "\n" := ⟨"(", rfl⟩
  have hline : '\n' ∉ "1 + 2".toList := by decide
  have hbyte : converse [255] ⟨2, none⟩ = ⟨">> ", true⟩ := by cbv
  have hsum : prompt ++ respond "1 + 2\n" ⟨2, none⟩ = ">> 3\n" := by cbv
  obtain ⟨written, halone, hbroken⟩ :=
    (converse_line_by_line ⟨2, none⟩).2.1 "(\n" [255] (.inr hs)
  obtain ⟨before, behind, broken, hbetween⟩ :=
    (converse_line_by_line ⟨2, none⟩).2.2 "(\n" [255] (.inr hs)
  rw [hbyte] at hbroken
  have hanswered := hbetween "1 + 2" hline
  rw [show "1 + 2" ++ "\n" = "1 + 2\n" from rfl, hsum] at hanswered
  exact ⟨hs, hline, written, before, behind, broken, halone, hbroken, hanswered⟩

end ExprMachine.Repl
