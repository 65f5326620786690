/-!
# Laying out a line of output

The dumps and listings align their columns: numbers are filled up with zeros on the left, names
with spaces on the right. A text that is already wide enough is left as it is.

Filling up a number changes nothing about its value (`zeroFill_spec`), and every text of digits is
one that was filled up (`exists_zeroFill`).
-/

namespace ExprMachine.Text

/-- The number `n` in decimal, with zeros in front up to `width` digits. -/
def zeroFill (width n : Nat) : String :=
  let digits := toString n
  String.ofList (List.replicate (width - digits.length) '0') ++ digits

/-- The text `s` with spaces behind it up to `width` characters. -/
def padRight (width : Nat) (s : String) : String :=
  s ++ String.ofList (List.replicate (width - s.length) ' ')

/-- The text `s` with spaces in front of it up to `width` characters. -/
def padLeft (width : Nat) (s : String) : String :=
  String.ofList (List.replicate (width - s.length) ' ') ++ s

/-- The items with a comma and a space between neighbours. -/
def commaSeparated (items : List String) : String := ", ".intercalate items

/-! ## Numbers in a column -/

theorem isDigit_of_mem_toString {n : Nat} {c : Char} (h : c ∈ (toString n).toList) :
    c.isDigit = true := by
  rw [Nat.toString_eq_ofList_toDigits, String.toList_ofList] at h
  exact Nat.isDigit_of_mem_toDigits (by decide) (by decide) h

theorem isDigit_of_mem_zeroFill {width n : Nat} {c : Char} (h : c ∈ (zeroFill width n).toList) :
    c.isDigit = true := by
  rw [zeroFill, String.toList_append, String.toList_ofList] at h
  rcases List.mem_append.mp h with hzero | hdigit
  · rw [List.eq_of_mem_replicate hzero]
    rfl
  · exact isDigit_of_mem_toString hdigit

theorem ofDigitChars_toString (n : Nat) : Nat.ofDigitChars 10 (toString n).toList 0 = n := by
  rw [Nat.toString_eq_ofList_toDigits, String.toList_ofList, Nat.ofDigitChars_ten_toDigits]

/-- Zeros in front of a number do not count. -/
theorem ofDigitChars_zeroFill (width n : Nat) :
    Nat.ofDigitChars 10 (zeroFill width n).toList 0 = n := by
  have hzeros (k : Nat) : Nat.ofDigitChars 10 (List.replicate k '0') 0 = 0 := by
    induction k with
    | zero => rfl
    | succ k ih => exact ih
  rw [zeroFill, String.toList_append, String.toList_ofList, Nat.ofDigitChars_append, hzeros,
    ofDigitChars_toString]

theorem length_zeroFill (width n : Nat) :
    (zeroFill width n).length = max width (toString n).length := by
  rw [zeroFill, String.length_append, String.length_ofList, List.length_replicate]
  omega

/-- **A filled number** is of digits, its value is the number, and it is as wide as it should be or
has no zero in front. -/
theorem zeroFill_spec (width n : Nat) :
    (∀ c ∈ (zeroFill width n).toList, c.isDigit) ∧
      Nat.ofDigitChars 10 (zeroFill width n).toList 0 = n ∧
      (zeroFill width n).length = max width (toString n).length :=
  ⟨fun _ hc => isDigit_of_mem_zeroFill hc, ofDigitChars_zeroFill width n, length_zeroFill width n⟩

/-- A number has a digit. -/
theorem zeroFill_ne_nil (width n : Nat) : (zeroFill width n).toList ≠ [] := by
  rw [zeroFill, String.toList_append, Nat.toString_eq_ofList_toDigits, String.toList_ofList,
    String.toList_ofList]
  intro hnil
  exact Nat.toDigits_ne_nil (List.append_eq_nil_iff.mp hnil).2

/-! ## Every text of digits is a filled number -/

theorem toDigits_of_isDigit {c : Char} (h : c.isDigit) :
    c.toNat - '0'.toNat < 10 ∧ Nat.toDigits 10 (c.toNat - '0'.toNat) = [c] := by
  obtain ⟨hlow, hhigh⟩ := Char.isDigit_iff_toNat.mp h
  have hzero : '0'.toNat = 48 := rfl
  have hnine : '9'.toNat = 57 := rfl
  have hlt : c.toNat - '0'.toNat < 10 := by omega
  refine ⟨hlt, ?_⟩
  rw [Nat.toDigits_of_lt_base hlt]
  have hcode : (c.toNat - '0'.toNat).digitChar.toNat = c.toNat := by
    rw [Nat.toNat_digitChar_of_lt_ten hlt]
    omega
  rw [Char.toNat_inj.mp hcode]

/-- Digits behind a number make it larger. -/
theorem toDigits_append_digits {n : Nat} (hn : 0 < n) {cs : List Char} (h : ∀ c ∈ cs, c.isDigit) :
    Nat.toDigits 10 n ++ cs = Nat.toDigits 10 (Nat.ofDigitChars 10 cs n) := by
  induction cs generalizing n with
  | nil => exact List.append_nil _
  | cons c cs ih =>
      obtain ⟨hc, hcs⟩ := List.forall_mem_cons.mp h
      obtain ⟨hlt, hdigit⟩ := toDigits_of_isDigit hc
      rw [Nat.ofDigitChars_cons, ← ih (by omega) hcs,
        ← Nat.toDigits_append_toDigits (by decide) hn hlt, hdigit, List.append_assoc,
        List.singleton_append]

/-- Digits are some zeros and the number that they stand for. -/
theorem exists_zeros_of_digits {cs : List Char} (hne : cs ≠ []) (h : ∀ c ∈ cs, c.isDigit) :
    ∃ k, cs = List.replicate k '0' ++ Nat.toDigits 10 (Nat.ofDigitChars 10 cs 0) := by
  induction cs with
  | nil => exact absurd rfl hne
  | cons c cs ih =>
      obtain ⟨hc, hcs⟩ := List.forall_mem_cons.mp h
      obtain ⟨hlt, hdigit⟩ := toDigits_of_isDigit hc
      rw [Nat.ofDigitChars_cons, Nat.mul_zero, Nat.zero_add]
      rcases Nat.eq_zero_or_pos (c.toNat - '0'.toNat) with hzero | hpos
      · rw [hzero] at hdigit ⊢
        obtain rfl : c = '0' := (List.cons.inj hdigit).1.symm
        cases cs with
        | nil => exact ⟨0, rfl⟩
        | cons d cs =>
            obtain ⟨k, hk⟩ := ih (List.cons_ne_nil d cs) hcs
            exact ⟨k + 1, congrArg ('0' :: ·) hk⟩
      · refine ⟨0, ?_⟩
        rw [← toDigits_append_digits hpos hcs, hdigit]
        rfl

theorem exists_zeroFill {s : String} (hne : s.toList ≠ []) (h : ∀ c ∈ s.toList, c.isDigit) :
    ∃ width, s = zeroFill width (Nat.ofDigitChars 10 s.toList 0) := by
  obtain ⟨k, hk⟩ := exists_zeros_of_digits hne h
  refine ⟨k + (toString (Nat.ofDigitChars 10 s.toList 0)).length, ?_⟩
  rw [zeroFill, Nat.add_sub_cancel, ← String.toList_inj, String.toList_append,
    String.toList_ofList, Nat.toString_eq_ofList_toDigits, String.toList_ofList]
  exact hk

end ExprMachine.Text
