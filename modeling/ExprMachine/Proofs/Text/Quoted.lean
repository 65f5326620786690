import ExprMachine.Proofs.Text.Lines
import ExprMachine.Text.Quoted

/-!
# Quoting loses nothing

A text between quotes is shown on one line, and the text can be read off what is shown. Characters
are shown one by one, so it is enough that the escape of a character can be told from the escape of
every other, whatever follows it (`escape_append_inj`). What is no backslash stands for itself.
Behind a backslash a mark says which character is meant, or the mark `u` that its number follows,
and the closing brace ends the number.
-/

namespace ExprMachine.Text

/-! ## Hexadecimal digits -/

theorem digitChar_of_mem_toDigits {n : Nat} {c : Char} (h : c ∈ Nat.toDigits 16 n) :
    ∃ k < 16, c = Nat.digitChar k := by
  induction n using Nat.strongRecOn with
  | ind n ih =>
    rw [Nat.toDigits_eq_if (by decide)] at h
    split at h
    · next hlt => exact ⟨n, hlt, List.mem_singleton.mp h⟩
    · rcases List.mem_append.mp h with hfront | hlast
      · exact ih (n / 16) (by omega) hfront
      · exact ⟨n % 16, Nat.mod_lt n (by decide), List.mem_singleton.mp hlast⟩

theorem digitChar_injective {j k : Nat} (hj : j < 16) (hk : k < 16)
    (h : Nat.digitChar j = Nat.digitChar k) : j = k := by
  have htable : ∀ j < 16, ∀ k < 16, Nat.digitChar j = Nat.digitChar k → j = k := by decide
  exact htable j hj k hk h

theorem toDigits_injective {m n : Nat} (h : Nat.toDigits 16 m = Nat.toDigits 16 n) : m = n := by
  have hlong : ∀ {k : Nat} {c d : Char}, [] ++ [c] ≠ Nat.toDigits 16 k ++ [d] := fun hsame =>
    Nat.toDigits_ne_nil (List.append_inj' hsame rfl).1.symm
  induction m using Nat.strongRecOn generalizing n with
  | ind m ih =>
    rw [Nat.toDigits_eq_if (by decide), Nat.toDigits_eq_if (n := n) (by decide)] at h
    split at h
    · next hm =>
      split at h
      · next hn => exact digitChar_injective hm hn (List.cons.inj h).1
      · exact absurd h hlong
    · split at h
      · exact absurd h.symm hlong
      -- the last digit is the remainder, and the digits in front are those of the quotient
      · obtain ⟨hfront, hlast⟩ := List.append_inj' h rfl
        have hquotient := ih (m / 16) (by omega) hfront
        have hrest := digitChar_injective (Nat.mod_lt m (by decide)) (Nat.mod_lt n (by decide))
          (List.cons.inj hlast).1
        omega

/-- What ends a number, and what ends a line, is no digit. -/
theorem not_mem_toDigits {c : Char} (h : c = '\x7d' ∨ c = '\n') (n : Nat) :
    c ∉ Nat.toDigits 16 n := by
  intro hmem
  obtain ⟨k, hk, rfl⟩ := digitChar_of_mem_toDigits hmem
  have htable : ∀ k < 16, ¬(Nat.digitChar k = '\x7d' ∨ Nat.digitChar k = '\n') := by decide
  exact htable k hk h

/-! ## Escapes -/

/-- The characters that have an escape of their own, and the mark behind the backslash. -/
def shortEscapes : List (Char × Char) :=
  [('"', '"'), ('\\', '\\'), ('\n', 'n'), ('\r', 'r'), ('\t', 't'), ('\x00', '0')]

/-- `Escapes c shown`: this is how a character is shown. -/
inductive Escapes (c : Char) : List Char → Prop
  | itself (hbackslash : c ≠ '\\') (hquote : c ≠ '"') (hnewline : c ≠ '\n') : Escapes c [c]
  | short {mark : Char} (h : (c, mark) ∈ shortEscapes) : Escapes c ['\\', mark]
  | numbered : Escapes c (numberedEscape c)

theorem escapes_escape (c : Char) : Escapes c (escape c) := by
  unfold escape
  split
  case h_7 hquote hbackslash hnewline _ _ _ =>
    by_cases hprint : isUnprintable c
    · rw [if_pos hprint]
      exact .numbered
    · rw [if_neg hprint]
      exact .itself hbackslash hquote hnewline
  all_goals exact .short (by decide)

theorem mark_injective {c d mark : Char} (h : (c, mark) ∈ shortEscapes)
    (h' : (d, mark) ∈ shortEscapes) : c = d := by
  have htable : ∀ e ∈ shortEscapes, ∀ e' ∈ shortEscapes, e.2 = e'.2 → e.1 = e'.1 := by decide
  exact htable _ h _ h' rfl

/-- The mark of a number is that of no character. -/
theorem mark_ne {c mark : Char} (h : (c, mark) ∈ shortEscapes) : mark ≠ 'u' ∧ mark ≠ '\n' := by
  have htable : ∀ e ∈ shortEscapes, e.2 ≠ 'u' ∧ e.2 ≠ '\n' := by decide
  exact htable _ h

theorem numberedEscape_append (c : Char) (rest : List Char) :
    numberedEscape c ++ rest =
      '\\' :: 'u' :: '\x7b' :: (Nat.toDigits 16 c.toNat ++ '\x7d' :: rest) := by
  simp [numberedEscape]

/-- **The escape of a character** can be told from that of any other, whatever follows. -/
theorem escape_append_inj {c d : Char} {xs ys : List Char}
    (h : escape c ++ xs = escape d ++ ys) : c = d ∧ xs = ys := by
  have hc := escapes_escape c
  have hd := escapes_escape d
  generalize escape c = shown at h hc
  generalize escape d = shown' at h hd
  cases hc with
  | itself hbackslash _ _ =>
      cases hd with
      | itself _ _ _ => exact List.cons.inj h
      | short _ => exact absurd (List.cons.inj h).1 hbackslash
      | numbered =>
          rw [numberedEscape_append] at h
          exact absurd (List.cons.inj h).1 hbackslash
  | short hmark =>
      cases hd with
      | itself hbackslash _ _ => exact absurd (List.cons.inj h).1.symm hbackslash
      | short hmark' =>
          obtain ⟨hsame, hrest⟩ := List.cons.inj (List.cons.inj h).2
          exact ⟨mark_injective hmark (hsame ▸ hmark'), hrest⟩
      | numbered =>
          rw [numberedEscape_append] at h
          exact absurd (List.cons.inj (List.cons.inj h).2).1 (mark_ne hmark).1
  | numbered =>
      rw [numberedEscape_append] at h
      cases hd with
      | itself hbackslash _ _ => exact absurd (List.cons.inj h).1.symm hbackslash
      | short hmark => exact absurd (List.cons.inj (List.cons.inj h).2).1.symm (mark_ne hmark).1
      | numbered =>
          rw [numberedEscape_append] at h
          -- behind the backslash, the letter and the brace are the digits, up to a brace
          have hdigits := (List.cons.inj (List.cons.inj (List.cons.inj h).2).2).2
          obtain ⟨hnumber, hrest⟩ := append_cons_inj (not_mem_toDigits (.inl rfl) c.toNat)
            (not_mem_toDigits (.inl rfl) d.toNat) hdigits
          exact ⟨Char.toNat_inj.mp (toDigits_injective hnumber), hrest⟩

theorem newline_not_mem_escape (c : Char) : '\n' ∉ escape c := by
  have hc := escapes_escape c
  generalize escape c = shown at hc
  cases hc with
  | itself _ _ hnewline => exact fun h => hnewline (List.mem_singleton.mp h).symm
  | short hmark =>
      have hne := (mark_ne hmark).2
      simp [hne.symm]
  | numbered =>
      have hdigits := not_mem_toDigits (.inr rfl) c.toNat
      simp [numberedEscape, hdigits]

/-! ## Quoted texts -/

theorem escape_ne_nil (c : Char) : escape c ≠ [] := by
  have hc := escapes_escape c
  generalize escape c = shown at hc
  cases hc with
  | itself | short | numbered => exact List.cons_ne_nil _ _

theorem flatMap_escape_injective {cs ds : List Char} (h : cs.flatMap escape = ds.flatMap escape) :
    cs = ds := by
  induction cs generalizing ds with
  | nil =>
      cases ds with
      | nil => rfl
      | cons d ds => exact absurd (List.append_eq_nil_iff.mp h.symm).1 (escape_ne_nil d)
  | cons c cs ih =>
      cases ds with
      | nil => exact absurd (List.append_eq_nil_iff.mp h).1 (escape_ne_nil c)
      | cons d ds =>
          obtain ⟨rfl, hrest⟩ := escape_append_inj h
          rw [ih hrest]

/-- **What is shown between quotes** tells the text. -/
theorem quoted_injective {s t : String} (h : quoted s = quoted t) : s = t := by
  have hlist := String.ofList_injective h
  exact String.toList_injective (flatMap_escape_injective
    (List.append_cancel_right (List.cons.inj hlist).2))

/-- A text between quotes stands on one line. -/
theorem newline_not_mem_quoted (s : String) : '\n' ∉ (quoted s).toList := by
  rw [quoted, String.toList_ofList]
  intro h
  rcases List.mem_cons.mp h with hquote | h
  · exact absurd hquote (by decide)
  rcases List.mem_append.mp h with hbody | hquote
  · obtain ⟨c, -, hc⟩ := List.mem_flatMap.mp hbody
    exact newline_not_mem_escape c hc
  · exact absurd (List.mem_singleton.mp hquote) (by decide)

end ExprMachine.Text
