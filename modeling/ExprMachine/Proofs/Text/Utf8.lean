import ExprMachine.Text.Utf8

/-!
# Bytes and the texts they spell

A text is spelled by one list of bytes, and those bytes spell no other text. Texts can be cut at
their newlines without looking at anything but the bytes: in UTF-8 the byte of a newline is part of
no other character, so what stands in front of one is a text, and so is what stands behind it
(`utf8_eq_append_newline`).
-/

namespace ExprMachine.Text

/-- The loop puts the bytes from `i` on behind those it has. -/
theorem loop_toList (bytes : ByteArray) (i : Nat) (seen : List UInt8) :
    ByteArray.toList.loop bytes i seen = seen.reverse ++ bytes.data.toList.drop i := by
  fun_induction ByteArray.toList.loop bytes i seen with
  | case1 i seen h ih =>
      have hlt : i < bytes.data.toList.length := h
      have hget : bytes.get! i = bytes.data.toList[i] := getElem!_pos bytes.data i h
      rw [ih, List.drop_eq_getElem_cons hlt, List.reverse_cons, List.append_assoc, hget]
      rfl
  | case2 i seen h =>
      have hle : bytes.data.toList.length ≤ i := Nat.le_of_not_lt h
      rw [List.drop_eq_nil_of_le hle, List.append_nil]

theorem utf8_eq (s : String) : utf8 s = s.toByteArray.data.toList := loop_toList s.toByteArray 0 []

theorem length_utf8 (s : String) : (utf8 s).length = s.utf8ByteSize := by
  rw [utf8_eq]
  rfl

/-- The bytes of a text spell it. -/
theorem ofUtf8?_utf8 (s : String) : ofUtf8? (utf8 s) = some s := by
  rw [utf8_eq]
  exact dif_pos s.isValidUTF8

/-- A text is spelled by one list of bytes. -/
theorem utf8_of_ofUtf8? {bytes : List UInt8} {s : String} (h : ofUtf8? bytes = some s) :
    utf8 s = bytes := by
  rw [utf8_eq]
  unfold ofUtf8? String.fromUTF8? at h
  split at h
  · cases h
    rfl
  · cases h

/-- A text is spelled character by character. -/
theorem utf8_eq_flatMap (s : String) : utf8 s = s.toList.flatMap String.utf8EncodeChar := by
  rw [utf8_eq, ← String.utf8Encode_toList, List.utf8Encode, List.toList_data_toByteArray]

theorem utf8_ofList (cs : List Char) :
    utf8 (String.ofList cs) = cs.flatMap String.utf8EncodeChar := by
  rw [utf8_eq_flatMap, String.toList_ofList]

theorem utf8_append (s t : String) : utf8 (s ++ t) = utf8 s ++ utf8 t := by
  rw [utf8_eq_flatMap, String.toList_append, List.flatMap_append, utf8_eq_flatMap s,
    utf8_eq_flatMap t]

/-! ## Newlines -/

theorem utf8_newline : utf8 "\n" = [10] := by decide +kernel

/-- The byte of a newline is part of no other character. -/
theorem eq_newline_of_mem_encode {c : Char} (h : 10 ∈ String.utf8EncodeChar c) : c = '\n' := by
  have hbyte {n : Nat} (hn : (10 : UInt8) = UInt8.ofNat n) : n % 256 = 10 := by
    have hnat := congrArg UInt8.toNat hn
    rw [UInt8.toNat_ofNat'] at hnat
    exact hnat.symm
  unfold String.utf8EncodeChar at h
  dsimp only at h
  split at h
  · next hle =>
    have hvalue : c.val.toNat = 10 := by
      have hmod := hbyte (List.mem_singleton.mp h)
      omega
    exact Char.ext (UInt32.toNat_inj.mp hvalue)
  · -- the bytes of a longer character are all 128 or more
    split at h
    · simp only [List.mem_cons, List.not_mem_nil, or_false] at h
      rcases h with h | h <;> have hmod := hbyte h <;> omega
    · split at h
      · simp only [List.mem_cons, List.not_mem_nil, or_false] at h
        rcases h with h | h | h <;> have hmod := hbyte h <;> omega
      · simp only [List.mem_cons, List.not_mem_nil, or_false] at h
        rcases h with h | h | h | h <;> have hmod := hbyte h <;> omega

theorem encode_eq_append_newline {cs : List Char} {front rest : List UInt8}
    (h : cs.flatMap String.utf8EncodeChar = front ++ 10 :: rest) :
    ∃ before behind, cs = before ++ '\n' :: behind ∧
      before.flatMap String.utf8EncodeChar = front ∧
      behind.flatMap String.utf8EncodeChar = rest := by
  induction cs generalizing front with
  | nil => simp at h
  | cons c cs ih =>
      rw [List.flatMap_cons] at h
      by_cases hc : c = '\n'
      · subst hc
        cases front with
        | nil =>
            obtain rfl := (List.cons.inj h).2
            exact ⟨[], cs, rfl, rfl, rfl⟩
        | cons b front =>
            obtain ⟨rfl, hcs⟩ := List.cons.inj h
            obtain ⟨before, behind, rfl, rfl, rfl⟩ := ih hcs
            exact ⟨'\n' :: before, behind, rfl, rfl, rfl⟩
      · obtain ⟨more, rfl, hcs⟩ : ∃ more, front = String.utf8EncodeChar c ++ more ∧
            cs.flatMap String.utf8EncodeChar = more ++ 10 :: rest := by
          rcases List.append_eq_append_iff.mp h with ⟨more, rfl, hcs⟩ | ⟨more, hfirst, hcs⟩
          · exact ⟨more, rfl, hcs⟩
          · cases more with
            | nil =>
                rw [List.append_nil] at hfirst
                exact ⟨[], by rw [hfirst, List.append_nil], hcs.symm⟩
            | cons b more =>
                -- the newline would be a byte of another character
                obtain ⟨rfl, -⟩ := List.cons.inj hcs
                refine absurd (eq_newline_of_mem_encode ?_) hc
                rw [hfirst]
                exact List.mem_append_right front List.mem_cons_self
        obtain ⟨before, behind, rfl, rfl, rfl⟩ := ih hcs
        exact ⟨c :: before, behind, rfl, rfl, rfl⟩

/-- **A text can be cut behind a newline byte**: what stands in front of the cut and what stands
behind it are texts. -/
theorem utf8_eq_append_newline {s : String} {front rest : List UInt8}
    (h : utf8 s = front ++ 10 :: rest) :
    ∃ line others, utf8 line = front ++ [10] ∧ utf8 others = rest := by
  rw [utf8_eq_flatMap] at h
  obtain ⟨before, behind, -, rfl, rfl⟩ := encode_eq_append_newline h
  refine ⟨String.ofList before ++ "\n", String.ofList behind, ?_, utf8_ofList behind⟩
  rw [utf8_append, utf8_ofList, utf8_newline]

end ExprMachine.Text
