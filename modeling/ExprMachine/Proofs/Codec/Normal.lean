import ExprMachine.Proofs.Codec.RoundTrip

/-!
# What is read has a shortest form

Bytes are read more freely than they are written. A number may be written with more bytes than it
needs, the entries of an object may come in any order and may repeat a key, of which the last one
counts, and there may be bytes behind the package. All of this costs bytes and none saves any:
whatever a reader makes a part of, it takes at least as many bytes as the part is written with
(`Takes`). So the written form of a package is as short as any bytes that are read as the package.

That is shown for the readers as they are put together. The reader of values calls itself, so how
many bytes there are is part of the statement, and a value within a value is read off fewer bytes.
-/

namespace ExprMachine

namespace Codec

variable {α β : Type} {n : Nat}

/-- From fewer than `n` bytes, the reader takes a number of them that suits what it makes of
them. -/
def Takes (n : Nat) (reader : Reader α) (suits : Nat → α → Prop) : Prop :=
  ∀ bytes rest a, bytes.length < n → reader.run bytes = .ok (a, rest) →
    ∃ taken, bytes.length = taken + rest.length ∧ suits taken a

/-- Something was written, and with at most `m` bytes. -/
def WrittenIn (m : Nat) (written : Except EncodeError (List UInt8)) : Prop :=
  ∃ bytes, written = .ok bytes ∧ bytes.length ≤ m

/-! ## Parts in a row -/

section Takes

variable {reader : Reader α} {k : α → Reader β} {p q : Nat → α → Prop} {r : Nat → β → Prop}

theorem takes_pure {a : α} (h : p 0 a) : Takes n (pure a) p := by
  intro bytes rest b _ hrun
  cases hrun
  exact ⟨0, (Nat.zero_add _).symm, h⟩

theorem takes_throw (e : DecodeError) : Takes n (throw e) p := by
  intro bytes rest b _ hrun
  cases hrun

theorem Takes.mono (h : Takes n reader p) (hpq : ∀ m a, p m a → q m a) : Takes n reader q := by
  intro bytes rest a hbytes hrun
  obtain ⟨taken, htaken, ha⟩ := h bytes rest a hbytes hrun
  exact ⟨taken, htaken, hpq taken a ha⟩

theorem Takes.of_le {m : Nat} (h : Takes n reader p) (hle : m ≤ n) : Takes m reader p :=
  fun bytes rest a hbytes => h bytes rest a (Nat.lt_of_lt_of_le hbytes hle)

/-- **Two parts in a row** take the bytes of both, the second one from those that are left. -/
theorem Takes.bind (h : Takes n reader p)
    (hk : ∀ m a, p m a → Takes (n - m) (k a) fun more b => r (m + more) b) :
    Takes n (reader >>= k) r := by
  intro bytes rest b hbytes hrun
  rcases hfirst : reader.run bytes with e | ⟨a, middle⟩
  · rw [run_bind_of_error hfirst] at hrun
    cases hrun
  · rw [run_bind_of_ok hfirst] at hrun
    obtain ⟨m, hm, ha⟩ := h bytes middle a hbytes hfirst
    obtain ⟨more, hmore, hb⟩ := hk m a ha middle rest b (by omega) hrun
    exact ⟨m + more, by omega, hb⟩

theorem Takes.map {f : α → β} (h : Takes n reader p) (hpr : ∀ m a, p m a → r m (f a)) :
    Takes n (f <$> reader) r :=
  h.bind (k := fun a => pure (f a)) fun m a ha => takes_pure (hpr m a ha)

end Takes

/-! ## Numbers -/

theorem length_encodeVarint_of_lt {k : Nat} (h : k < 128) : (encodeVarint k).length = 1 := by
  rw [encodeVarint, if_pos h]
  rfl

theorem length_encodeVarint_pos (k : Nat) : 0 < (encodeVarint k).length := by
  rw [encodeVarint]
  split
  · exact Nat.one_pos
  · exact Nat.succ_pos _

theorem length_encodeVarint_mono {m k : Nat} (h : m ≤ k) :
    (encodeVarint m).length ≤ (encodeVarint k).length := by
  induction k using encodeVarint.induct generalizing m with
  | case1 k hsmall =>
      rw [length_encodeVarint_of_lt hsmall, length_encodeVarint_of_lt (Nat.lt_of_le_of_lt h hsmall)]
  | case2 k hlarge ih =>
      by_cases hsmall : m < 128
      · rw [length_encodeVarint_of_lt hsmall]
        exact length_encodeVarint_pos k
      · rw [encodeVarint, if_neg hsmall, encodeVarint.eq_def k, if_neg hlarge]
        exact Nat.succ_le_succ (ih (Nat.div_le_div_right h))

/-- Another digit takes another byte at most, and none if there is nothing behind it. -/
theorem length_encodeVarint_digit {digit : Nat} (h : digit < 128) (k : Nat) :
    (encodeVarint (digit + 128 * k)).length ≤ 1 + (encodeVarint k).length := by
  have hdiv : (digit + 128 * k) / 128 = k := by omega
  rw [encodeVarint, hdiv]
  split
  · exact Nat.le_add_right 1 _
  · rw [List.length_cons]
    omega

theorem takes_byte : Takes n Reader.byte fun m _ => m = 1 := by
  intro bytes rest b _ hrun
  cases bytes with
  | nil => cases hrun
  | cons c bytes =>
      cases hrun
      exact ⟨1, Nat.add_comm _ 1, rfl⟩

/-- **A number** takes as many bytes as it is written with, and more if it is not written so. -/
theorem takes_digits (lastMax left : Nat) :
    Takes n (Reader.digits lastMax (left + 1)) fun m k =>
      k < (lastMax + 1) * 128 ^ left ∧ (encodeVarint k).length ≤ m := by
  induction left generalizing n with
  | zero =>
      rw [Reader.digits_succ]
      refine takes_byte.bind fun m b hm => ?_
      subst hm
      split
      · next hsmall =>
        split
        · exact takes_throw _
        · next hover =>
          exact takes_pure ⟨by omega, Nat.le_of_eq (length_encodeVarint_of_lt hsmall)⟩
      -- no further byte is allowed, so there is nothing to be said of the number
      · intro bytes rest k _ hrun
        cases hrun
  | succ left ih =>
      rw [Reader.digits_succ]
      refine takes_byte.bind fun m b hm => ?_
      subst hm
      have hpow : 0 < (lastMax + 1) * 128 ^ left := by positivity
      rw [Nat.pow_succ, ← Nat.mul_assoc]
      split
      · next hsmall =>
        rw [if_neg (fun h => Nat.succ_ne_zero left h.1)]
        exact takes_pure ⟨by omega, Nat.le_of_eq (length_encodeVarint_of_lt hsmall)⟩
      -- the byte is a digit, and the number behind it takes the bytes that are left
      · refine ih.map fun m k hk => ?_
        have hdigit : b.toNat - 128 < 128 := by
          have hbyte := b.toNat_lt
          omega
        have hlength := length_encodeVarint_digit hdigit k
        exact ⟨by omega, by omega⟩

theorem takes_word64 : Takes n (Reader.varint .word64) fun m k =>
    k < 2 ^ 64 ∧ (encodeVarint k).length ≤ m :=
  takes_digits 1 9

theorem takes_word32 : Takes n (Reader.varint .word32) fun m _ => 0 < m :=
  (takes_digits 15 4).mono fun _ k hk => Nat.lt_of_lt_of_le (length_encodeVarint_pos k) hk.2

/-! ## Texts and truth values -/

theorem takes_raw (count : Nat) : Takes n (Reader.raw count) fun m taken =>
    m = count ∧ taken.length = count := by
  intro bytes rest taken _ hrun
  have hread : outcome (readBytes count bytes) = .ok (taken, rest) := hrun
  rw [outcome_readBytes] at hread
  split at hread
  · next hle =>
    cases hread
    exact ⟨count, by rw [List.length_drop]; omega, rfl, List.length_take_of_le hle⟩
  · cases hread

/-- **A text** takes as many bytes as it is written with at least. -/
theorem takes_text : Takes n Reader.text fun m s =>
    s.utf8ByteSize < 2 ^ 64 ∧ (encodeText s).length ≤ m := by
  rw [Reader.text_eq]
  refine takes_word64.bind fun m count hcount => ?_
  refine (takes_raw count).bind fun m' taken htaken => ?_
  obtain ⟨rfl, htaken⟩ := htaken
  unfold Reader.spelled
  split
  · exact takes_throw _
  · next s hs =>
    have hutf8 : Text.utf8 s = taken := Text.utf8_of_ofUtf8? hs
    refine takes_pure ⟨?_, ?_⟩
    · rw [← Text.length_utf8, hutf8, htaken]
      exact hcount.1
    · rw [encodeText, List.length_append, hutf8, htaken]
      exact Nat.add_le_add_right hcount.2 _

theorem takes_bool : Takes n Reader.bool fun m _ => m = 1 := by
  intro bytes rest b _ hrun
  cases bytes with
  | nil => cases hrun
  | cons c bytes =>
      have hread : outcome (decodeBool (c :: bytes)) = .ok (b, rest) := hrun
      dsimp only [decodeBool, readByte] at hread
      split at hread
      · cases hread
        exact ⟨1, Nat.add_comm _ 1, rfl⟩
      · split at hread
        · cases hread
          exact ⟨1, Nat.add_comm _ 1, rfl⟩
        · cases hread

/-! ## What is written again -/

section Written

variable {m m' : Nat} {v : Value} {key : String} {items : List Value}
  {entries : List (String × Value)}

theorem WrittenIn.mono {written : Except EncodeError (List UInt8)} (h : WrittenIn m written)
    (hle : m ≤ m') : WrittenIn m' written := by
  obtain ⟨bytes, hbytes, hlength⟩ := h
  exact ⟨bytes, hbytes, Nat.le_trans hlength hle⟩

theorem writtenIn_items_nil : WrittenIn 0 (encodeItems []) :=
  ⟨[], by rw [encodeItems], Nat.le_refl 0⟩

theorem writtenIn_items_cons (hv : WrittenIn m (encodeValue v))
    (hitems : WrittenIn m' (encodeItems items)) :
    WrittenIn (m + m') (encodeItems (v :: items)) := by
  obtain ⟨first, hfirst, hm⟩ := hv
  obtain ⟨more, hmore, hm'⟩ := hitems
  refine ⟨first ++ more, by rw [encodeItems, hfirst, hmore], ?_⟩
  rw [List.length_append]
  exact Nat.add_le_add hm hm'

theorem writtenIn_entries_nil : WrittenIn 0 (encodeEntries []) :=
  ⟨[], by rw [encodeEntries], Nat.le_refl 0⟩

theorem writtenIn_entries_cons (hv : WrittenIn m (encodeValue v))
    (hentries : WrittenIn m' (encodeEntries entries)) :
    WrittenIn ((encodeText key).length + m + m') (encodeEntries ((key, v) :: entries)) := by
  obtain ⟨first, hfirst, hm⟩ := hv
  obtain ⟨more, hmore, hm'⟩ := hentries
  refine ⟨encodeText key ++ first ++ more, by rw [encodeEntries, hfirst, hmore], ?_⟩
  rw [List.length_append, List.length_append]
  omega

/-- **Filing an entry** adds at most its bytes to those of the others. -/
theorem writtenIn_insert (hv : WrittenIn m (encodeValue v))
    (hentries : WrittenIn m' (encodeEntries entries)) :
    WrittenIn ((encodeText key).length + m + m')
      (encodeEntries (Dictionary.insert key v entries)) := by
  induction entries generalizing m' with
  | nil => exact writtenIn_entries_cons hv hentries
  | cons entry entries ih =>
      -- the entry comes first, takes the place of the first one, or is filed behind it
      rw [Dictionary.insert]
      split
      · exact writtenIn_entries_cons hv hentries
      · obtain ⟨bytes, hbytes, hlength⟩ := hentries
        obtain ⟨first, more, hfirst, hmore, rfl⟩ := encodeEntries_cons_ok hbytes
        rw [List.length_append, List.length_append] at hlength
        split
        · refine (writtenIn_entries_cons hv ⟨more, hmore, Nat.le_refl _⟩).mono ?_
          omega
        · have hrest := ih ⟨more, hmore, Nat.le_refl _⟩
          refine (writtenIn_entries_cons ⟨first, hfirst, Nat.le_refl _⟩ hrest).mono ?_
          omega

theorem writtenIn_foldl_insert {filed : List (String × Value)}
    (hfiled : WrittenIn m (encodeEntries filed)) (hentries : WrittenIn m' (encodeEntries entries)) :
    WrittenIn (m + m') (encodeEntries
      (entries.foldl (fun filed entry => Dictionary.insert entry.1 entry.2 filed) filed)) := by
  induction entries generalizing filed m m' with
  | nil => exact hfiled.mono (Nat.le_add_right m m')
  | cons entry entries ih =>
      obtain ⟨bytes, hbytes, hlength⟩ := hentries
      obtain ⟨first, more, hfirst, hmore, rfl⟩ := encodeEntries_cons_ok hbytes
      rw [List.length_append, List.length_append] at hlength
      have hinsert : WrittenIn ((encodeText entry.1).length + first.length + m)
          (encodeEntries (Dictionary.insert entry.1 entry.2 filed)) :=
        writtenIn_insert ⟨first, hfirst, Nat.le_refl _⟩ hfiled
      refine (ih hinsert ⟨more, hmore, Nat.le_refl _⟩).mono ?_
      omega

theorem writtenIn_ofList (h : WrittenIn m (encodeEntries entries)) :
    WrittenIn m (encodeEntries (Dictionary.ofList entries)) :=
  (writtenIn_foldl_insert writtenIn_entries_nil h).mono (Nat.le_of_eq (Nat.zero_add m))

end Written

/-! ## Values -/

/-- The value is regular and is written with at most `m` bytes. -/
structure FitsIn (m : Nat) (v : Value) : Prop where
  regular : v.Regular
  written : WrittenIn m (encodeValue v)

theorem FitsIn.mono {m m' : Nat} {v : Value} (h : FitsIn m v) (hle : m ≤ m') : FitsIn m' v :=
  ⟨h.regular, h.written.mono hle⟩

/-- A value without parts is as long as what is written behind the number of its type. -/
theorem fitsIn_leaf {m : Nat} {v : Value} {b : UInt8} {bytes : List UInt8} (hleaf : v.IsLeaf)
    (hv : v.IsRegular) (hbytes : encodeValue v = .ok (b :: bytes)) (hm : bytes.length ≤ m) :
    FitsIn (m + 1) v :=
  ⟨Value.regular_of_leaf hleaf hv, b :: bytes, hbytes, Nat.succ_le_succ hm⟩

section Values

variable (hvalue : Takes n Reader.value FitsIn)

include hvalue

theorem takes_items (count : Nat) : Takes n (Reader.items count) fun m items =>
    items.length = count ∧ (∀ item ∈ items, item.Regular) ∧ WrittenIn m (encodeItems items) := by
  induction count generalizing n with
  | zero =>
      exact takes_pure ⟨rfl, fun _ h => absurd h List.not_mem_nil, writtenIn_items_nil⟩
  | succ count ih =>
      refine hvalue.bind fun m item hitem => ?_
      refine (ih (hvalue.of_le (Nat.sub_le n m))).map fun m' items hitems => ?_
      obtain ⟨hlength, hregular, hwritten⟩ := hitems
      exact ⟨congrArg (· + 1) hlength, List.forall_mem_cons.mpr ⟨hitem.regular, hregular⟩,
        writtenIn_items_cons hitem.written hwritten⟩

theorem takes_entries (count : Nat) : Takes n (Reader.entries count) fun m entries =>
    entries.length = count ∧
      (∀ entry ∈ entries, entry.1.utf8ByteSize < 2 ^ 64 ∧ entry.2.Regular) ∧
      WrittenIn m (encodeEntries entries) := by
  induction count generalizing n with
  | zero =>
      exact takes_pure ⟨rfl, fun _ h => absurd h List.not_mem_nil, writtenIn_entries_nil⟩
  | succ count ih =>
      refine takes_text.bind fun m key hkey => ?_
      refine (hvalue.of_le (Nat.sub_le n m)).bind fun m' v hv => ?_
      refine (ih (hvalue.of_le (by omega))).map fun m'' entries hentries => ?_
      obtain ⟨hlength, hregular, hwritten⟩ := hentries
      refine ⟨congrArg (· + 1) hlength,
        List.forall_mem_cons.mpr ⟨⟨hkey.1, hv.regular⟩, hregular⟩, ?_⟩
      refine (writtenIn_entries_cons hv.written hwritten).mono ?_
      have hm := hkey.2
      omega

/-- What stands behind the number of a value's type is written again with no more bytes. -/
theorem takes_payload (variant : Nat) :
    Takes n (Reader.payload variant) fun m v => FitsIn (m + 1) v := by
  match variant with
  | 0 =>
      refine takes_word64.map fun m k hk => ?_
      refine fitsIn_leaf (v := .int (unfoldSign k)) (b := 0) trivial trivial rfl ?_
      rw [foldSign_unfoldSign hk.1]
      exact hk.2
  | 1 => exact takes_text.map fun m s hs => fitsIn_leaf (v := .str s) (b := 1) trivial hs.1 rfl hs.2
  | 2 =>
      refine takes_bool.map fun m b hm => ?_
      exact fitsIn_leaf (v := .bool b) (b := 2) trivial trivial rfl (Nat.le_of_eq hm.symm)
  | 3 => exact takes_pure (fitsIn_leaf (v := .null) (b := 3) trivial trivial rfl (Nat.le_refl 0))
  | 4 =>
      refine takes_word64.bind fun m count hcount => ?_
      refine (takes_items (hvalue.of_le (Nat.sub_le n m)) count).map fun m' items hitems => ?_
      obtain ⟨rfl, hregular, bytes, hbytes, hlength⟩ := hitems
      refine ⟨Value.regular_arr hcount.1 hregular, _, by rw [encodeValue, hbytes], ?_⟩
      have hm := hcount.2
      rw [List.length_append, List.length_cons]
      omega
  | 5 =>
      refine takes_word64.bind fun m count hcount => ?_
      refine (takes_entries (hvalue.of_le (Nat.sub_le n m)) count).map fun m' entries hentries => ?_
      obtain ⟨rfl, hregular, hwritten⟩ := hentries
      obtain ⟨bytes, hbytes, hlength⟩ := writtenIn_ofList hwritten
      have hfewer := Dictionary.length_ofList_le entries
      have hentry : ∀ entry ∈ Dictionary.ofList entries,
          entry.1.utf8ByteSize < 2 ^ 64 ∧ entry.2.Regular :=
        fun entry he => hregular entry (Dictionary.mem_of_mem_ofList he)
      have hfiled : (Value.object entries).IsRegular :=
        ⟨Nat.lt_of_le_of_lt hfewer hcount.1, Dictionary.ordered_ofList entries,
          fun entry he => (hentry entry he).1⟩
      refine ⟨Value.regular_obj hfiled fun entry he => (hentry entry he).2, _,
        by rw [Value.object, encodeValue, hbytes], ?_⟩
      -- fewer entries are counted by a number that is no longer
      have hm := Nat.le_trans (length_encodeVarint_mono hfewer) hcount.2
      rw [List.length_append, List.length_cons]
      omega
  | 6 =>
      refine hvalue.map fun m v hv => ?_
      obtain ⟨bytes, hbytes, hlength⟩ := hv.written
      exact ⟨hv.regular.ret, 8 :: bytes, by rw [encodeValue, hbytes], Nat.succ_le_succ hlength⟩
  | 7 => exact takes_text.map fun m s hs => fitsIn_leaf (v := .err s) (b := 9) trivial hs.1 rfl hs.2
  | _ + 8 => exact takes_throw _

end Values

/-- **A value** is written again with no more bytes than it was read from. The induction is on how
many there are; the number of the type takes the first. -/
theorem takes_value (n : Nat) : Takes n Reader.value FitsIn := by
  induction n with
  | zero => exact fun bytes _ _ hbytes => absurd hbytes (Nat.not_lt_zero _)
  | succ n ih =>
      rw [Reader.value_eq]
      refine takes_word32.bind fun m variant hm => ?_
      -- at most `n` bytes are left behind the number, and the values in the payload lie in them
      refine (takes_payload (ih.of_le (by omega)) variant).mono fun m' v hv => ?_
      exact hv.mono (by omega)

end Codec

namespace Package

open Codec

/-- **A package** that is read is regular, and is written again with no more bytes. -/
theorem takes_package {n : Nat} : Takes n Reader.package fun m package =>
    package.Regular ∧ WrittenIn m package.toBytes := by
  refine takes_word64.bind fun m size hsize => ?_
  refine (takes_raw size).bind fun m' code hcode => ?_
  refine takes_word64.bind fun m'' count hcount => ?_
  refine (takes_items (takes_value _) count).map fun more items hitems => ?_
  obtain ⟨rfl, rfl⟩ := hcode
  obtain ⟨rfl, hregular, bytes, hbytes, hlength⟩ := hitems
  have hwritten : toBytes ⟨code.toArray, items.toArray⟩ =
      .ok (encodeVarint code.length ++ code ++ encodeVarint items.length ++ bytes) := by
    rw [toBytes_eq, hbytes]
    rfl
  refine ⟨⟨hsize.1, hcount.1, fun v hv => hregular v (by simpa using hv)⟩, _, hwritten, ?_⟩
  have hm := hsize.2
  have hm' := hcount.2
  simp only [List.length_append]
  omega

/-- What is read as a package has at least the bytes that the package is written with. -/
theorem regular_of_ofBytes {bytes : List UInt8} {package : Package}
    (h : ofBytes bytes = .ok package) :
    package.Regular ∧ WrittenIn bytes.length package.toBytes := by
  rw [ofBytes_eq] at h
  rcases hrun : Reader.package.run bytes with e | ⟨read, rest⟩
  · rw [hrun] at h
    cases h
  rw [hrun] at h
  cases h
  obtain ⟨taken, htaken, hregular, hwritten⟩ :=
    takes_package bytes rest read (length_lt_succ bytes) hrun
  exact ⟨hregular, hwritten.mono (by omega)⟩

/-- **What is read has a shortest form.** None of it is a function. Unless there is a signal in it,
it is written with no more bytes than it was read from, is read back from them, and is read from no
fewer bytes than that. -/
theorem normal_of_ofBytes {bytes : List UInt8} {package : Package}
    (h : ofBytes bytes = .ok package) :
    (∀ v ∈ package.constants, ¬v.Contains Value.IsFunction) ∧
    ((∀ v ∈ package.constants, ¬v.Contains Value.IsSignal) →
      ∃ normal, package.toBytes = .ok normal ∧ normal.length ≤ bytes.length ∧
        ofBytes normal = .ok package ∧
        ∀ other, ofBytes other = .ok package → normal.length ≤ other.length) := by
  obtain ⟨hregular, normal, hnormal, hlength⟩ := regular_of_ofBytes h
  constructor
  · intro v hv hfunction
    have herror := (toBytes_eq_error package).mpr ⟨v, hv, hfunction⟩
    rw [hnormal] at herror
    cases herror
  · intro hplain
    refine ⟨normal, hnormal, hlength, (ofBytes_toBytes hregular hnormal).1.mpr hplain, ?_⟩
    intro other hother
    -- the other bytes are written again with no more of them, and as the same bytes
    obtain ⟨-, same, hsame, hle⟩ := regular_of_ofBytes hother
    rw [hnormal] at hsame
    cases hsame
    exact hle

/-- An object of two entries, read from a length of two bytes and from its entries out of order, one
of them filed twice, with another byte behind the package. -/
theorem normal_of_ofBytes_object :
    let package : Package := ⟨#[3], #[.obj [("a", .int 1), ("b", .bool true)]]⟩
    let normal : List UInt8 := [1, 3, 1, 5, 2, 1, 97, 0, 2, 1, 98, 2, 1]
    ofBytes [129, 0, 3, 1, 5, 3, 1, 98, 3, 1, 97, 0, 2, 1, 98, 2, 1, 9] = .ok package ∧
      package.toBytes = .ok normal ∧ ofBytes normal = .ok package ∧
      ∀ other, ofBytes other = .ok package → normal.length ≤ other.length := by
  intro package normal
  have hread :
      ofBytes [129, 0, 3, 1, 5, 3, 1, 98, 3, 1, 97, 0, 2, 1, 98, 2, 1, 9] = .ok package := by
    cbv
  have hwritten : package.toBytes = .ok normal := by cbv
  have hplain : ∀ v ∈ package.constants, ¬v.Contains Value.IsSignal := by
    simp [package, Value.contains_obj, Value.contains_of_leaf (v := .int 1) trivial,
      Value.contains_of_leaf (v := .bool true) trivial, Value.IsSignal]
  obtain ⟨bytes, hbytes, -, hback, hshortest⟩ := (normal_of_ofBytes hread).2 hplain
  obtain rfl : bytes = normal := Except.ok.inj (hbytes.symm.trans hwritten)
  exact ⟨hread, hbytes, hback, hshortest⟩

end Package

end ExprMachine
