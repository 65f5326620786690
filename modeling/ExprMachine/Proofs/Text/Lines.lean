import ExprMachine.Text.Layout

/-!
# Lines and columns

Output is laid out in lines, and in columns within a line. What was laid out can be taken apart
again: lines at their newlines (`lines_join`), columns at the first character that cannot be part of
them (`append_cons_inj`). A number in a column is read off its digits, and the zeros in front of
them do not count (`zeroFill_injective`).
-/

namespace ExprMachine

namespace Text

/-- The lines of a text whose lines all end with a newline. -/
def lines (text : String) : List String := (text.toList.splitOn '\n').dropLast.map String.ofList

/-- Lines that are written one below the other are the lines of the text. -/
theorem lines_join {ls : List String} (h : ∀ l ∈ ls, '\n' ∉ l.toList) :
    lines (String.join (ls.map (· ++ "\n"))) = ls := by
  -- behind the last newline there is an empty piece, which is no line
  have htext : (String.join (ls.map (· ++ "\n"))).toList =
      ['\n'].intercalate (ls.map String.toList ++ [[]]) := by
    rw [String.toList_join]
    induction ls with
    | nil => rfl
    | cons l ls ih =>
        have hrest := ih fun l' hl' => h l' (List.mem_cons_of_mem l hl')
        have hnewline : "\n".toList = ['\n'] := by simp
        rw [List.map_cons, List.flatMap_cons, hrest, String.toList_append, hnewline, List.map_cons,
          List.cons_append]
        cases ls with
        | nil => exact (List.intercalate_cons_cons ..).symm
        | cons l' ls => exact (List.intercalate_cons_cons ..).symm
  have hpieces : ∀ piece ∈ ls.map String.toList ++ [[]], '\n' ∉ piece := by
    intro piece hpiece
    rcases List.mem_append.mp hpiece with hline | hlast
    · obtain ⟨l, hl, rfl⟩ := List.mem_map.mp hline
      exact h l hl
    · rw [List.mem_singleton.mp hlast]
      exact List.not_mem_nil
  have hne : ls.map String.toList ++ [[]] ≠ [] := by simp
  rw [lines, htext, List.splitOn_intercalate '\n' hpieces hne, List.dropLast_concat, List.map_map]
  simp [Function.comp_def]

/-- Lines that are written one below the other have a newline each. -/
theorem count_newline_join {ls : List String} (h : ∀ l ∈ ls, '\n' ∉ l.toList) :
    (String.join (ls.map (· ++ "\n"))).toList.count '\n' = ls.length := by
  induction ls with
  | nil => rfl
  | cons l ls ih =>
      obtain ⟨hl, hls⟩ := List.forall_mem_cons.mp h
      have hrest := ih hls
      rw [String.toList_join] at hrest ⊢
      have hline : l.toList.count '\n' = 0 := List.count_eq_zero.mpr hl
      simp [hline, hrest]

theorem zeroFill_injective {width m n : Nat} (h : zeroFill width m = zeroFill width n) : m = n := by
  rw [← ofDigitChars_zeroFill width m, h, ofDigitChars_zeroFill]

/-- Two columns end where the first character stands that neither of them holds. -/
theorem append_cons_inj {α : Type} {c : α} {xs ys xs' ys' : List α} (hxs : c ∉ xs) (hys : c ∉ ys)
    (h : xs ++ c :: xs' = ys ++ c :: ys') : xs = ys ∧ xs' = ys' := by
  rcases List.append_eq_append_iff.mp h with ⟨more, rfl, hrest⟩ | ⟨more, rfl, hrest⟩
  · cases more with
    | nil => exact ⟨(List.append_nil xs).symm, (List.cons.inj hrest).2⟩
    | cons d more =>
        obtain ⟨rfl, -⟩ := List.cons.inj hrest
        exact absurd (List.mem_append_right xs List.mem_cons_self) hys
  · cases more with
    | nil => exact ⟨List.append_nil ys, (List.cons.inj hrest).2.symm⟩
    | cons d more =>
        obtain ⟨rfl, -⟩ := List.cons.inj hrest
        exact absurd (List.mem_append_right ys List.mem_cons_self) hxs

end Text

end ExprMachine
