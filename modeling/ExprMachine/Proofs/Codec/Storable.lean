import ExprMachine.Proofs.Codec.Delimited
import Mathlib.Data.List.Basic

/-!
# Values that survive being written

A value has parts within parts, to any depth (`Value.PartOf`). Two sorts of them spoil it.

**Functions** have no written form. A value is refused by the writer exactly if it contains one.

**Signals**, which are returned values and errors, are written under numbers that the reader does
not know. A value that contains one is written, and whoever reads it gets as far as the first of
them.

Every other value delimits itself. The reader is taken apart here into readers in a row, which is
how the bytes of a value are put together, and then each sort of value is a matter of its parts.
-/

namespace ExprMachine

namespace Value

/-- A value itself and the parts of its parts. -/
inductive PartOf : Value → Value → Prop
  | whole (v : Value) : PartOf v v
  | item {items : List Value} {item part : Value} (h : item ∈ items) (hp : PartOf part item) :
      PartOf part (.arr items)
  | entry {entries : List (String × Value)} {entry : String × Value} {part : Value}
      (h : entry ∈ entries) (hp : PartOf part entry.2) : PartOf part (.obj entries)
  | inner {inner part : Value} (hp : PartOf part inner) : PartOf part (.ret inner)

/-- Some part of the value is as `p` says. -/
def Contains (v : Value) (p : Value → Prop) : Prop := ∃ part, PartOf part v ∧ p part

/-- A value that only exists while a program runs. -/
def IsFunction : Value → Prop
  | func _ | builtin _ => True
  | _ => False

/-- A value on its way out of the blocks around it, or an error. -/
def IsSignal : Value → Prop
  | ret _ | err _ => True
  | _ => False

/-- A value that is not made of values. -/
def IsLeaf : Value → Prop
  | arr _ | obj _ | ret _ => False
  | _ => True

/-- The lengths are words of 64 bits, and the entries of an object are in order of their keys. -/
def IsRegular : Value → Prop
  | str s | err s => s.utf8ByteSize < 2 ^ 64
  | arr items => items.length < 2 ^ 64
  | obj entries =>
    entries.length < 2 ^ 64 ∧ Dictionary.Ordered entries ∧
      ∀ entry ∈ entries, entry.1.utf8ByteSize < 2 ^ 64
  | _ => True

/-- Every part of the value is regular, as it is of every value in the memory of a machine. -/
def Regular (v : Value) : Prop := ∀ part, PartOf part v → part.IsRegular

section Parts

variable {p : Value → Prop} {items : List Value} {entries : List (String × Value)} {inner : Value}

theorem contains_arr :
    (arr items).Contains p ↔ p (.arr items) ∨ ∃ item ∈ items, item.Contains p := by
  constructor
  · rintro ⟨part, hpart, hp⟩
    cases hpart with
    | whole => exact .inl hp
    | item h hpart => exact .inr ⟨_, h, part, hpart, hp⟩
  · rintro (hp | ⟨item, h, part, hpart, hp⟩)
    · exact ⟨_, .whole _, hp⟩
    · exact ⟨part, .item h hpart, hp⟩

theorem contains_obj :
    (obj entries).Contains p ↔ p (.obj entries) ∨ ∃ entry ∈ entries, entry.2.Contains p := by
  constructor
  · rintro ⟨part, hpart, hp⟩
    cases hpart with
    | whole => exact .inl hp
    | entry h hpart => exact .inr ⟨_, h, part, hpart, hp⟩
  · rintro (hp | ⟨entry, h, part, hpart, hp⟩)
    · exact ⟨_, .whole _, hp⟩
    · exact ⟨part, .entry h hpart, hp⟩

theorem contains_ret : (ret inner).Contains p ↔ p (.ret inner) ∨ inner.Contains p := by
  constructor
  · rintro ⟨part, hpart, hp⟩
    cases hpart with
    | whole => exact .inl hp
    | inner hpart => exact .inr ⟨part, hpart, hp⟩
  · rintro (hp | ⟨part, hpart, hp⟩)
    · exact ⟨_, .whole _, hp⟩
    · exact ⟨part, .inner hpart, hp⟩

/-- A value without parts is its only part. -/
theorem contains_of_leaf {v : Value} (h : v.IsLeaf) : v.Contains p ↔ p v := by
  constructor
  · rintro ⟨part, hpart, hp⟩
    cases hpart with
    | whole => exact hp
    | item => exact h.elim
    | entry => exact h.elim
    | inner => exact h.elim
  · exact fun hp => ⟨v, .whole v, hp⟩

theorem not_contains_of_leaf {v : Value} (hleaf : v.IsLeaf) (hp : ¬p v) : ¬v.Contains p :=
  fun h => hp ((contains_of_leaf hleaf).mp h)

theorem regular_iff {v : Value} : v.Regular ↔ ¬v.Contains fun part => ¬part.IsRegular := by
  simp only [Regular, Contains, not_exists, not_and, not_not]

theorem sizeOf_lt_arr {item : Value} (h : item ∈ items) : sizeOf item < sizeOf (arr items) := by
  have hlt := List.sizeOf_lt_of_mem h
  rw [arr.sizeOf_spec]
  omega

theorem sizeOf_lt_obj {entry : String × Value} (h : entry ∈ entries) :
    sizeOf entry.2 < sizeOf (obj entries) := by
  have hlt := List.sizeOf_lt_of_mem h
  obtain ⟨key, value⟩ := entry
  rw [Prod.mk.sizeOf_spec] at hlt
  rw [obj.sizeOf_spec]
  show sizeOf value < _
  omega

theorem sizeOf_lt_ret (inner : Value) : sizeOf inner < sizeOf (ret inner) := by
  rw [ret.sizeOf_spec]
  omega

theorem Regular.self {v : Value} (h : v.Regular) : v.IsRegular := h v (.whole v)

theorem Regular.item (h : (arr items).Regular) {item : Value} (hi : item ∈ items) : item.Regular :=
  fun part hpart => h part (.item hi hpart)

theorem Regular.entry (h : (obj entries).Regular) {entry : String × Value} (he : entry ∈ entries) :
    entry.2.Regular :=
  fun part hpart => h part (.entry he hpart)

theorem regular_of_leaf {v : Value} (hleaf : v.IsLeaf) (h : v.IsRegular) : v.Regular :=
  regular_iff.mpr (not_contains_of_leaf hleaf (not_not.mpr h))

theorem regular_arr (hlength : items.length < 2 ^ 64) (h : ∀ item ∈ items, item.Regular) :
    (arr items).Regular := by
  intro part hpart
  cases hpart with
  | whole => exact hlength
  | item hi hpart => exact h _ hi part hpart

theorem regular_obj (h : (obj entries).IsRegular) (hparts : ∀ entry ∈ entries, entry.2.Regular) :
    (obj entries).Regular := by
  intro part hpart
  cases hpart with
  | whole => exact h
  | entry he hpart => exact hparts _ he part hpart

theorem Regular.ret (h : inner.Regular) : (Value.ret inner).Regular := by
  intro part hpart
  cases hpart with
  | whole => trivial
  | inner hpart => exact h part hpart

end Parts

end Value

namespace Dictionary

variable {α : Type}

/-- An entry behind all others is filed at the end. -/
theorem insert_last {key : String} {value : α} {filed : List (String × α)}
    (h : ∀ entry ∈ filed, entry.1 < key) : insert key value filed = filed ++ [(key, value)] := by
  induction filed with
  | nil => rfl
  | cons entry filed ih =>
      obtain ⟨hentry, hfiled⟩ := List.forall_mem_cons.mp h
      have hne : ¬key = entry.1 := fun heq => String.lt_irrefl _ (heq ▸ hentry)
      rw [insert, if_neg (String.lt_asymm hentry), if_neg hne, ih hfiled]
      rfl

theorem foldl_insert {filed entries : List (String × α)} (h : Ordered (filed ++ entries)) :
    entries.foldl (fun filed entry => insert entry.1 entry.2 filed) filed = filed ++ entries := by
  induction entries generalizing filed with
  | nil => exact (List.append_nil filed).symm
  | cons entry entries ih =>
      have hlast : ∀ e ∈ filed, e.1 < entry.1 := fun e he =>
        (List.pairwise_append.mp h).2.2 e he entry List.mem_cons_self
      have hsplit : filed ++ entry :: entries = (filed ++ [entry]) ++ entries := by simp
      rw [List.foldl_cons, insert_last hlast, hsplit]
      exact ih (hsplit ▸ h)

/-- Entries in order are the dictionary that they make. -/
theorem ofList_of_ordered {entries : List (String × α)} (h : Ordered entries) :
    ofList entries = entries := by
  have hempty : Ordered ([] ++ entries) := h
  exact foldl_insert hempty

end Dictionary

namespace Codec

/-! ## The reader of values -/

namespace Reader

/-- Reads a value. -/
def value : Reader Value := .of decodeValue

/-- Reads values in a row. -/
def items : Nat → Reader (List Value)
  | 0 => pure []
  | count + 1 => do
    let item ← value
    (item :: ·) <$> items count

/-- Reads keys and values in a row. -/
def entries : Nat → Reader (List (String × Value))
  | 0 => pure []
  | count + 1 => do
    let key ← text
    let value ← value
    ((key, value) :: ·) <$> entries count

/-- Reads what stands behind the number of a value's type. -/
def payload : Nat → Reader Value
  | 0 => (.int <| unfoldSign ·) <$> varint .word64
  | 1 => .str <$> text
  | 2 => .bool <$> bool
  | 3 => pure .null
  | 4 => do .arr <$> items (← varint .word64)
  | 5 => do .object <$> entries (← varint .word64)
  | 6 => .ret <$> value
  | 7 => .err <$> text
  | _ => throw .badVariant

theorem outcome_decodeItems (n count : Nat) (bytes : List UInt8) (fits : bytes.length < n)
    (seen : List Value) :
    outcome (decodeItems n count bytes fits seen) =
      ((seen.reverse ++ ·) <$> items count).run bytes := by
  induction count generalizing bytes seen with
  | zero =>
      rw [decodeItems]
      show Except.ok (seen.reverse, bytes) = .ok (seen.reverse ++ [], bytes)
      rw [List.append_nil]
  | succ count ih =>
      rw [decodeItems, items, map_bind]
      rcases hitem : decodeValue bytes with e | ⟨item, rest, _⟩
      · exact (run_of_bind_error hitem).symm
      · refine Eq.trans ?_ (run_of_bind_ok hitem).symm
        dsimp only
        rw [ih, Functor.map_map]
        simp only [List.reverse_cons, List.append_assoc, List.singleton_append]

theorem outcome_decodeEntries (n count : Nat) (bytes : List UInt8) (fits : bytes.length < n)
    (filed : List (String × Value)) :
    outcome (decodeEntries n count bytes fits filed) =
      ((List.foldl (fun filed entry => Dictionary.insert entry.1 entry.2 filed) filed ·) <$>
        entries count).run bytes := by
  induction count generalizing bytes filed with
  | zero =>
      rw [decodeEntries]
      rfl
  | succ count ih =>
      rw [decodeEntries, entries, map_bind]
      rcases hkey : decodeText bytes with e | ⟨key, rest, _⟩
      · exact (run_of_bind_error hkey).symm
      refine Eq.trans ?_ (run_of_bind_ok hkey).symm
      dsimp only
      rw [map_bind]
      rcases hvalue : decodeValue rest with e | ⟨value, rest', _⟩
      · exact (run_of_bind_error hvalue).symm
      refine Eq.trans ?_ (run_of_bind_ok hvalue).symm
      dsimp only
      rw [ih, Functor.map_map]
      rfl

/-- What a node makes of a part of it. -/
theorem outcome_asValue {α : Type} {m n : Nat} {wrap : α → Value} {h : m ≤ n}
    {reading : Reading α m} :
    outcome (reading.map (Decoded.asValue wrap h)) =
      (fun part => (wrap part.1, part.2)) <$> outcome reading := by
  cases reading <;> rfl

/-- A value is the number of its type and what belongs to it. -/
theorem value_eq : value = (do payload (← varint .word32)) := by
  funext bytes
  show outcome (decodeValue bytes) = (varint .word32 >>= payload).run bytes
  rw [decodeValue]
  rcases hvariant : VarintSize.word32.decode bytes with e | ⟨variant, rest, _⟩
  · exact (run_of_bind_error hvariant).symm
  refine Eq.trans ?_ (run_of_bind_ok hvariant).symm
  dsimp only
  -- the parts that the reader takes in one go and those that it counts
  match variant with
  | 0 | 1 | 2 | 6 | 7 => exact outcome_asValue
  | 3 => rfl
  | 4 =>
      rcases hcount : VarintSize.word64.decode rest with e | ⟨count, rest', _⟩
      · exact (run_of_bind_error hcount).symm
      refine Eq.trans ?_ (run_of_bind_ok hcount).symm
      show outcome ((decodeItems rest.length count rest' _ []).map _) = _
      rw [outcome_asValue, outcome_decodeItems, StateT.run_map, StateT.run_map, Functor.map_map]
      rfl
  | 5 =>
      rcases hcount : VarintSize.word64.decode rest with e | ⟨count, rest', _⟩
      · exact (run_of_bind_error hcount).symm
      refine Eq.trans ?_ (run_of_bind_ok hcount).symm
      show outcome ((decodeEntries rest.length count rest' _ []).map _) = _
      rw [outcome_asValue, outcome_decodeEntries, StateT.run_map, StateT.run_map, Functor.map_map]
      rfl
  | _ + 8 => rfl

end Reader

/-! ## What is written -/

theorem encodeItems_cons_ok {item : Value} {items : List Value} {bytes : List UInt8}
    (h : encodeItems (item :: items) = .ok bytes) :
    ∃ first more, encodeValue item = .ok first ∧ encodeItems items = .ok more ∧
      bytes = first ++ more := by
  rw [encodeItems] at h
  rcases hitem : encodeValue item with e | first
  · rw [hitem] at h
    cases h
  rcases hitems : encodeItems items with e | more
  · rw [hitem, hitems] at h
    cases h
  rw [hitem, hitems] at h
  cases h
  exact ⟨first, more, rfl, rfl, rfl⟩

theorem encodeEntries_cons_ok {entry : String × Value} {entries : List (String × Value)}
    {bytes : List UInt8} (h : encodeEntries (entry :: entries) = .ok bytes) :
    ∃ first more, encodeValue entry.2 = .ok first ∧ encodeEntries entries = .ok more ∧
      bytes = encodeText entry.1 ++ (first ++ more) := by
  rw [encodeEntries] at h
  rcases hvalue : encodeValue entry.2 with e | first
  · rw [hvalue] at h
    cases h
  rcases hentries : encodeEntries entries with e | more
  · rw [hvalue, hentries] at h
    cases h
  rw [hvalue, hentries] at h
  cases h
  exact ⟨first, more, rfl, rfl, List.append_assoc _ _ _⟩

end Codec

open Codec

/-- Once written, the value is read, or refused for the first signal in it. -/
def Value.Stored (v : Value) : Prop :=
  ∀ bytes, encodeValue v = .ok bytes → ReadsUnless (v.Contains IsSignal) Reader.value bytes v

/-- A value is the number of its type and what belongs to it. -/
theorem readsUnless_payload {p : Prop} {b : UInt8} {bytes : List UInt8} {v : Value}
    (hb : b.toNat < 128) (h : ReadsUnless p (Reader.payload b.toNat) bytes v) :
    ReadsUnless p Reader.value (b :: bytes) v := by
  have hnumber : encodeVarint b.toNat = [b] := by
    rw [encodeVarint, if_pos hb, UInt8.ofNat_toNat]
  have hvariant : Delimits (Reader.varint .word32) [b] b.toNat :=
    hnumber ▸ delimits_word32 (by omega)
  rw [Reader.value_eq]
  exact hvariant.andThen h

theorem readsUnless_items {items : List Value} (h : ∀ item ∈ items, item.Stored)
    {bytes : List UInt8} (hbytes : encodeItems items = .ok bytes) :
    ReadsUnless (∃ item ∈ items, item.Contains Value.IsSignal) (Reader.items items.length) bytes
      items := by
  induction items generalizing bytes with
  | nil =>
      cases hbytes
      exact (readsUnless_delimits (delimits_pure [])).congr (by simp)
  | cons item items ih =>
      obtain ⟨first, more, hfirst, hmore, rfl⟩ := encodeItems_cons_ok hbytes
      obtain ⟨hitem, hitems⟩ := List.forall_mem_cons.mp h
      refine ReadsUnless.congr ?_ (List.exists_mem_cons_iff _ _ _).symm
      refine (hitem first hfirst).bind ?_
      exact (ih hitems hmore).map (item :: ·)

theorem readsUnless_entries {entries : List (String × Value)}
    (h : ∀ entry ∈ entries, entry.2.Stored)
    (hkeys : ∀ entry ∈ entries, entry.1.utf8ByteSize < 2 ^ 64) {bytes : List UInt8}
    (hbytes : encodeEntries entries = .ok bytes) :
    ReadsUnless (∃ entry ∈ entries, entry.2.Contains Value.IsSignal)
      (Reader.entries entries.length) bytes entries := by
  induction entries generalizing bytes with
  | nil =>
      cases hbytes
      exact (readsUnless_delimits (delimits_pure [])).congr (by simp)
  | cons entry entries ih =>
      obtain ⟨first, more, hfirst, hmore, rfl⟩ := encodeEntries_cons_ok hbytes
      obtain ⟨hentry, hentries⟩ := List.forall_mem_cons.mp h
      obtain ⟨hkey, hkeys⟩ := List.forall_mem_cons.mp hkeys
      refine ReadsUnless.congr ?_ (List.exists_mem_cons_iff _ _ _).symm
      refine (delimits_text hkey).andThen ?_
      refine (hentry first hfirst).bind ?_
      exact (ih hentries hkeys hmore).map (entry :: ·)

/-! ## Every value -/

/-- A value without parts that its own bytes delimit. -/
theorem readsUnless_leaf {b : UInt8} {bytes : List UInt8} {v : Value} (hb : b.toNat < 128)
    (h : Delimits (Reader.payload b.toNat) bytes v) (hleaf : v.IsLeaf) (hplain : ¬v.IsSignal) :
    ReadsUnless (v.Contains Value.IsSignal) Reader.value (b :: bytes) v := by
  have hnone : ¬v.Contains Value.IsSignal := Value.not_contains_of_leaf hleaf hplain
  exact (readsUnless_payload hb (readsUnless_delimits h)).congr (iff_of_false id hnone)

/-- A number that no type is read from. -/
theorem readsUnless_unknown {b : UInt8} (bytes : List UInt8) (v : Value) (hb : b.toNat < 128)
    (hpayload : Reader.payload b.toNat = throw .badVariant) :
    ReadsUnless True Reader.value (b :: bytes) v := by
  have hrefused : ReadsUnless True (Reader.payload b.toNat) bytes v := by
    rw [hpayload]
    exact ⟨fun h => absurd trivial h, fun _ rest => rfl⟩
  exact readsUnless_payload hb hrefused

/-- **Whatever has a written form** is read back from it, or refused for the first signal in it. -/
theorem Value.stored (v : Value) (hv : v.Regular) : v.Stored := by
  intro bytes hbytes
  match v with
  | .int n =>
      cases hbytes
      have hread := (delimits_word64 (foldSign_lt n)).map (Value.int <| unfoldSign ·)
      rw [unfoldSign_foldSign] at hread
      exact readsUnless_leaf (b := 0) (by decide) hread trivial id
  | .str s =>
      cases hbytes
      have hread := (delimits_text hv.self).map Value.str
      exact readsUnless_leaf (b := 1) (by decide) hread trivial id
  | .bool b =>
      cases hbytes
      have hread := (delimits_bool b).map Value.bool
      exact readsUnless_leaf (b := 2) (by decide) hread trivial id
  | .null =>
      cases hbytes
      have hread := delimits_pure Value.null
      exact readsUnless_leaf (b := 3) (by decide) hread trivial id
  | .arr items =>
      rw [encodeValue] at hbytes
      rcases hitems : encodeItems items with e | more
      · rw [hitems] at hbytes
        cases hbytes
      rw [hitems] at hbytes
      cases hbytes
      have hparts := readsUnless_items (fun item hi => item.stored (hv.item hi)) hitems
      refine ReadsUnless.congr ?_ ((contains_arr (p := IsSignal)).trans (or_iff_right id)).symm
      refine readsUnless_payload (b := 4) (by decide) ?_
      refine (delimits_word64 hv.self).andThen ?_
      exact hparts.map arr
  | .obj entries =>
      rw [encodeValue] at hbytes
      rcases hentries : encodeEntries entries with e | more
      · rw [hentries] at hbytes
        cases hbytes
      rw [hentries] at hbytes
      cases hbytes
      obtain ⟨hlength, hordered, hkeys⟩ := hv.self
      have hparts :=
        readsUnless_entries (fun entry he => entry.2.stored (hv.entry he)) hkeys hentries
      refine ReadsUnless.congr ?_ ((contains_obj (p := IsSignal)).trans (or_iff_right id)).symm
      refine readsUnless_payload (b := 5) (by decide) ?_
      refine (delimits_word64 hlength).andThen ?_
      have hread := hparts.map object
      -- the reader files the entries anew, which changes nothing as they are in order
      rwa [Value.object, Dictionary.ofList_of_ordered hordered] at hread
  | .func f => cases hbytes
  | .builtin b => cases hbytes
  | .ret inner =>
      -- number 8 is refused before the inner value is looked at, so that need not be stored
      rw [encodeValue] at hbytes
      rcases hinner : encodeValue inner with e | more
      · rw [hinner] at hbytes
        cases hbytes
      rw [hinner] at hbytes
      cases hbytes
      exact (readsUnless_unknown more _ (by decide) rfl).congr
        ⟨fun _ => ⟨_, .whole _, trivial⟩, fun _ => trivial⟩
  | .err message =>
      cases hbytes
      exact (readsUnless_unknown (encodeText message) _ (by decide) rfl).congr
        ⟨fun _ => ⟨_, .whole _, trivial⟩, fun _ => trivial⟩
termination_by sizeOf v
decreasing_by
  · exact Value.sizeOf_lt_arr hi
  · exact Value.sizeOf_lt_obj he

/-! ## What has no written form -/

theorem encodeItems_eq_error {items : List Value} :
    encodeItems items = .error .runtimeOnly ↔
      ∃ item ∈ items, encodeValue item = .error .runtimeOnly := by
  induction items with
  | nil => simp [encodeItems]
  | cons item items ih =>
      rw [List.exists_mem_cons_iff, ← ih, encodeItems]
      rcases encodeValue item with ⟨⟩ | first
      · exact iff_of_true rfl (.inl rfl)
      rcases encodeItems items with ⟨⟩ | more
      · exact iff_of_true rfl (.inr rfl)
      · simp

theorem encodeEntries_eq_error {entries : List (String × Value)} :
    encodeEntries entries = .error .runtimeOnly ↔
      ∃ entry ∈ entries, encodeValue entry.2 = .error .runtimeOnly := by
  induction entries with
  | nil => simp [encodeEntries]
  | cons entry entries ih =>
      rw [List.exists_mem_cons_iff, ← ih, encodeEntries]
      rcases encodeValue entry.2 with ⟨⟩ | first
      · exact iff_of_true rfl (.inl rfl)
      rcases encodeEntries entries with ⟨⟩ | more
      · exact iff_of_true rfl (.inr rfl)
      · simp

/-- **The writer fails** exactly on the values that contain a function. -/
theorem encodeValue_eq_error (v : Value) :
    encodeValue v = .error .runtimeOnly ↔ v.Contains Value.IsFunction := by
  match v with
  | .int _ | .str _ | .bool _ | .null | .err _ =>
      exact iff_of_false (by simp [encodeValue]) (Value.not_contains_of_leaf trivial id)
  | .func _ | .builtin _ => exact iff_of_true rfl ⟨_, .whole _, trivial⟩
  | .arr items =>
      have hparts : encodeItems items = .error .runtimeOnly ↔
          ∃ item ∈ items, item.Contains Value.IsFunction :=
        encodeItems_eq_error.trans
          (exists_congr fun item => and_congr_right fun hi => encodeValue_eq_error item)
      rw [Value.contains_arr, or_iff_right (show ¬(Value.arr items).IsFunction from id), ← hparts,
        encodeValue]
      rcases encodeItems items with ⟨⟩ | more
      · exact iff_of_true rfl rfl
      · simp
  | .obj entries =>
      have hparts : encodeEntries entries = .error .runtimeOnly ↔
          ∃ entry ∈ entries, entry.2.Contains Value.IsFunction :=
        encodeEntries_eq_error.trans
          (exists_congr fun entry => and_congr_right fun he => encodeValue_eq_error entry.2)
      rw [Value.contains_obj, or_iff_right (show ¬(Value.obj entries).IsFunction from id), ← hparts,
        encodeValue]
      rcases encodeEntries entries with ⟨⟩ | more
      · exact iff_of_true rfl rfl
      · simp
  | .ret inner =>
      rw [Value.contains_ret, or_iff_right (show ¬(Value.ret inner).IsFunction from id),
        ← encodeValue_eq_error inner, encodeValue]
      rcases encodeValue inner with ⟨⟩ | more
      · exact iff_of_true rfl rfl
      · simp
termination_by sizeOf v
decreasing_by
  · exact Value.sizeOf_lt_arr hi
  · exact Value.sizeOf_lt_obj he
  · exact Value.sizeOf_lt_ret inner

end ExprMachine
