import ExprMachine.Codec.Value
import ExprMachine.Proofs.Text.Utf8
import Mathlib.Algebra.Group.Nat.Defs

/-!
# Parts that delimit themselves

The bytes of a part need no mark behind them. They are read as the part whatever follows, and if the
bytes end within them that is noticed and nothing else is (`Delimits`). Both hold of two parts in a
row as soon as they hold of each, so they only have to be shown for what is read in one go: numbers,
raw bytes and texts. A part that cannot be read is refused where it stands (`Refuses`), also behind
parts that can.

The bound that a `Reading` carries is there to end the recursion. Here it is in the way, because the
bound of two parts in a row depends on the bytes of the first; a `Reader` is the same without it.
-/

namespace ExprMachine

namespace Codec

variable {α β : Type}

/-- Reads a part off some bytes. -/
abbrev Reader (α : Type) : Type := StateT (List UInt8) (Except DecodeError) α

/-- What a reading gives, without the bound on what it leaves. -/
def outcome {n : Nat} (reading : Reading α n) : Except DecodeError (α × List UInt8) :=
  reading.map fun part => (part.value, part.rest)

/-- Reads as `read` does. -/
def Reader.of {n : List UInt8 → Nat} (read : (bytes : List UInt8) → Reading α (n bytes)) :
    Reader α :=
  fun bytes => outcome (read bytes)

/-- The bytes are read as `a` whatever follows them, and what is missing of them is noticed. -/
structure Delimits (reader : Reader α) (bytes : List UInt8) (a : α) : Prop where
  whole : ∀ rest, reader.run (bytes ++ rest) = .ok (a, rest)
  cut : ∀ {front rest : List UInt8} {b : UInt8}, bytes = front ++ b :: rest →
    reader.run front = .error .unexpectedEnd

/-- The bytes are refused for the type of a value in them, whatever follows them. -/
def Refuses (reader : Reader α) (bytes : List UInt8) : Prop :=
  ∀ rest, reader.run (bytes ++ rest) = .error .badVariant

/-- The bytes are refused if there is reason to, and otherwise delimit what is read. -/
def ReadsUnless (p : Prop) (reader : Reader α) (bytes : List UInt8) (a : α) : Prop :=
  (¬p → Delimits reader bytes a) ∧ (p → Refuses reader bytes)

/-! ## Parts in a row -/

theorem run_bind_of_ok {reader : Reader α} {k : α → Reader β} {bytes rest : List UInt8} {a : α}
    (h : reader.run bytes = .ok (a, rest)) :
    (reader >>= k).run bytes = (k a).run rest := by
  rw [StateT.run_bind, h]
  rfl

theorem run_bind_of_error {reader : Reader α} {k : α → Reader β} {bytes : List UInt8}
    {e : DecodeError} (h : reader.run bytes = .error e) :
    (reader >>= k).run bytes = .error e := by
  rw [StateT.run_bind, h]
  rfl

section Of

variable {n : List UInt8 → Nat} {read : (bytes : List UInt8) → Reading α (n bytes)}
  {bytes rest : List UInt8} {k : α → Reader β}

theorem run_of_bind_ok {a : α} {h : rest.length < n bytes} (hread : read bytes = .ok ⟨a, rest, h⟩) :
    (Reader.of read >>= k).run bytes = (k a).run rest := by
  have hrun : (Reader.of read).run bytes = .ok (a, rest) := congrArg outcome hread
  exact run_bind_of_ok hrun

theorem run_of_bind_error {e : DecodeError} (hread : read bytes = .error e) :
    (Reader.of read >>= k).run bytes = .error e := by
  have hrun : (Reader.of read).run bytes = .error e := congrArg outcome hread
  exact run_bind_of_error hrun

end Of

/-- A place within two lists in a row lies in the first or in the second. -/
theorem cut_append {xs ys front rest : List UInt8} {b : UInt8} (h : xs ++ ys = front ++ b :: rest) :
    (∃ more, xs = front ++ b :: more) ∨ ∃ more, front = xs ++ more ∧ ys = more ++ b :: rest := by
  rcases List.append_eq_append_iff.mp h with ⟨more, hfront, hys⟩ | ⟨more, hxs, hrest⟩
  · exact .inr ⟨more, hfront, hys⟩
  · cases more with
    | nil =>
        rw [List.append_nil] at hxs
        exact .inr ⟨[], by rw [hxs, List.append_nil], hrest.symm⟩
    | cons c more =>
        -- the first list goes on behind `front`, so the place lies in it
        obtain ⟨rfl, -⟩ := List.cons.inj hrest
        exact .inl ⟨more, hxs⟩

theorem delimits_pure (a : α) : Delimits (pure a) [] a := by
  refine ⟨fun rest => rfl, fun h => ?_⟩
  exact absurd h.symm (List.append_ne_nil_of_right_ne_nil _ (List.cons_ne_nil _ _))

/-- **Two parts in a row** delimit themselves if each of them does. -/
theorem Delimits.bind {reader : Reader α} {k : α → Reader β} {xs ys : List UInt8} {a : α} {b : β}
    (h : Delimits reader xs a) (hk : Delimits (k a) ys b) :
    Delimits (reader >>= k) (xs ++ ys) b := by
  refine ⟨fun rest => ?_, fun {front rest c} hcut => ?_⟩
  · rw [List.append_assoc, run_bind_of_ok (h.whole _)]
    exact hk.whole rest
  · rcases cut_append hcut with ⟨more, hxs⟩ | ⟨more, rfl, hys⟩
    -- what ends within the first part fails before the second is looked at
    · exact run_bind_of_error (h.cut hxs)
    · rw [run_bind_of_ok (h.whole more)]
      exact hk.cut hys

theorem Delimits.map {reader : Reader α} {bytes : List UInt8} {a : α} (f : α → β)
    (h : Delimits reader bytes a) : Delimits (f <$> reader) bytes (f a) := by
  have hbind := h.bind (k := fun a => pure (f a)) (delimits_pure (f a))
  rwa [List.append_nil] at hbind

theorem readsUnless_delimits {reader : Reader α} {bytes : List UInt8} {a : α}
    (h : Delimits reader bytes a) : ReadsUnless False reader bytes a :=
  ⟨fun _ => h, False.elim⟩

theorem ReadsUnless.congr {reader : Reader α} {bytes : List UInt8} {a : α} {p q : Prop}
    (h : ReadsUnless p reader bytes a) (hpq : p ↔ q) : ReadsUnless q reader bytes a :=
  ⟨fun hq => h.1 (mt hpq.mp hq), fun hq => h.2 (hpq.mpr hq)⟩

/-- Two parts in a row are refused if one of them is: what stands in front of a refused part is
read, and what stands behind it does not matter. -/
theorem ReadsUnless.bind {reader : Reader α} {k : α → Reader β} {xs ys : List UInt8} {a : α} {b : β}
    {p q : Prop} (h : ReadsUnless p reader xs a) (hk : ReadsUnless q (k a) ys b) :
    ReadsUnless (p ∨ q) (reader >>= k) (xs ++ ys) b := by
  constructor
  · intro hnone
    obtain ⟨hp, hq⟩ := not_or.mp hnone
    exact (h.1 hp).bind (hk.1 hq)
  · intro hsome rest
    rw [List.append_assoc]
    by_cases hp : p
    · exact run_bind_of_error (h.2 hp _)
    · rw [run_bind_of_ok ((h.1 hp).whole _)]
      exact hk.2 (hsome.resolve_left hp) rest

/-- A part that delimits itself, and behind it one that may be refused. -/
theorem Delimits.andThen {reader : Reader α} {k : α → Reader β} {xs ys : List UInt8} {a : α} {b : β}
    {p : Prop} (h : Delimits reader xs a) (hk : ReadsUnless p (k a) ys b) :
    ReadsUnless p (reader >>= k) (xs ++ ys) b :=
  ((readsUnless_delimits h).bind hk).congr (or_iff_right id)

theorem ReadsUnless.map {reader : Reader α} {bytes : List UInt8} {a : α} {p : Prop} (f : α → β)
    (h : ReadsUnless p reader bytes a) : ReadsUnless p (f <$> reader) bytes (f a) := by
  have hbind := h.bind (k := fun a => pure (f a)) (readsUnless_delimits (delimits_pure (f a)))
  rw [List.append_nil] at hbind
  exact hbind.congr (or_iff_left id)

/-! ## Bytes and numbers -/

namespace Reader

/-- Reads one byte. -/
def byte : Reader UInt8 := .of readByte

/-- Reads a number that may take `left` bytes. -/
def digits (lastMax left : Nat) : Reader Nat := .of (decodeVarint lastMax left)

/-- Reads a number. -/
def varint (size : VarintSize) : Reader Nat := digits size.lastMax size.bytes

/-- Reads as many bytes as they are. -/
def raw (count : Nat) : Reader (List UInt8) := .of (readBytes count)

theorem digits_succ (lastMax left : Nat) :
    digits lastMax (left + 1) = (do
      let b ← byte
      if b.toNat < 128 then
        if left = 0 ∧ lastMax < b.toNat then throw .badVarint else pure b.toNat
      else
        (b.toNat - 128 + 128 * ·) <$> digits lastMax left) := by
  funext bytes
  cases bytes with
  | nil => rfl
  | cons b rest =>
      show outcome (decodeVarint lastMax (left + 1) (b :: rest)) =
        (if b.toNat < 128 then
          if left = 0 ∧ lastMax < b.toNat then throw .badVarint else pure b.toNat
        else (b.toNat - 128 + 128 * ·) <$> digits lastMax left).run rest
      rw [decodeVarint]
      by_cases hsmall : b.toNat < 128
      · rw [if_pos hsmall, if_pos hsmall]
        by_cases hover : left = 0 ∧ lastMax < b.toNat
        · rw [if_pos hover, if_pos hover]
          rfl
        · rw [if_neg hover, if_neg hover]
          rfl
      · rw [if_neg hsmall, if_neg hsmall, StateT.run_map]
        show _ = _ <$> outcome (decodeVarint lastMax left rest)
        rcases decodeVarint lastMax left rest with e | part
        · rfl
        · rfl

end Reader

theorem delimits_byte (b : UInt8) : Delimits Reader.byte [b] b := by
  refine ⟨fun rest => rfl, fun {front rest c} hcut => ?_⟩
  cases front with
  | nil => rfl
  | cons d front => exact absurd (List.cons.inj hcut).2 (by simp)

theorem outcome_readBytes (count : Nat) (bytes : List UInt8) :
    outcome (readBytes count bytes) =
      if count ≤ bytes.length then .ok (bytes.take count, bytes.drop count)
      else .error .unexpectedEnd := by
  unfold readBytes
  dsimp only
  by_cases hcount : count ≤ bytes.length
  · rw [if_pos hcount, if_pos (List.length_take_of_le hcount)]
    rfl
  · have hshort : (bytes.take count).length ≠ count := by
      rw [List.length_take]
      omega
    rw [if_neg hcount, if_neg hshort]
    rfl

theorem delimits_raw (bytes : List UInt8) : Delimits (Reader.raw bytes.length) bytes bytes := by
  refine ⟨fun rest => ?_, fun {front rest b} hcut => ?_⟩
  · have hcount : bytes.length ≤ (bytes ++ rest).length := by
      rw [List.length_append]
      omega
    show outcome (readBytes bytes.length (bytes ++ rest)) = _
    rw [outcome_readBytes, if_pos hcount, List.take_left, List.drop_left]
  · have hshort : ¬ bytes.length ≤ front.length := by
      rw [hcut, List.length_append, List.length_cons]
      omega
    show outcome (readBytes bytes.length front) = _
    rw [outcome_readBytes, if_neg hshort]

theorem toNat_ofNat_of_lt {n : Nat} (h : n < 256) : (UInt8.ofNat n).toNat = n := by
  rw [UInt8.toNat_ofNat']
  exact Nat.mod_eq_of_lt h

/-- A number of one byte. -/
theorem delimits_digits_one {lastMax left n : Nat} (hsmall : n < 128)
    (hfits : left = 0 → n ≤ lastMax) :
    Delimits (Reader.digits lastMax (left + 1)) (encodeVarint n) n := by
  have hbyte : (UInt8.ofNat n).toNat = n := toNat_ofNat_of_lt (by omega)
  have hover : ¬(left = 0 ∧ lastMax < n) := by omega
  rw [encodeVarint, if_pos hsmall, Reader.digits_succ]
  refine (delimits_byte (UInt8.ofNat n)).bind ?_
  rw [hbyte, if_pos hsmall, if_neg hover]
  exact delimits_pure n

/-- **A number that fits** the bytes it may take and the greatest last one of them delimits
itself. -/
theorem delimits_digits {lastMax left n : Nat} (hlast : lastMax < 128)
    (h : n < (lastMax + 1) * 128 ^ left) :
    Delimits (Reader.digits lastMax (left + 1)) (encodeVarint n) n := by
  induction left generalizing n with
  | zero => exact delimits_digits_one (by omega) fun _ => by omega
  | succ left ih =>
      by_cases hsmall : n < 128
      · exact delimits_digits_one hsmall fun hzero => absurd hzero (Nat.succ_ne_zero left)
      · have hbyte : (UInt8.ofNat (n % 128 + 128)).toNat = n % 128 + 128 :=
          toNat_ofNat_of_lt (by omega)
        have hdiv : n / 128 < (lastMax + 1) * 128 ^ left := by
          rw [Nat.div_lt_iff_lt_mul (by decide)]
          rwa [Nat.pow_succ, ← Nat.mul_assoc] at h
        rw [encodeVarint, if_neg hsmall, Reader.digits_succ]
        refine (delimits_byte (UInt8.ofNat (n % 128 + 128))).bind ?_
        rw [hbyte, if_neg (by omega), Nat.add_sub_cancel]
        -- the digits behind the first are those of the quotient
        have hrest := (ih hdiv).map (n % 128 + 128 * ·)
        rwa [Nat.mod_add_div] at hrest

theorem delimits_word64 {n : Nat} (h : n < 2 ^ 64) :
    Delimits (Reader.varint .word64) (encodeVarint n) n :=
  delimits_digits (by decide) h

theorem delimits_word32 {n : Nat} (h : n < 2 ^ 32) :
    Delimits (Reader.varint .word32) (encodeVarint n) n :=
  delimits_digits (by decide) h

/-- Folding the signs of words loses nothing. -/
theorem unfoldSign_foldSign (n : Int64) : unfoldSign (foldSign n) = n := by
  have hmin := n.le_toInt
  have hmax := n.toInt_lt
  unfold foldSign unfoldSign
  by_cases hsign : 0 ≤ n.toInt
  · have heven : 2 * n.toInt.toNat % 2 = 0 := by omega
    rw [if_pos hsign, if_pos heven, Nat.mul_div_cancel_left _ (by decide), ← Int64.toInt_inj,
      Int64.toInt_ofNat_of_lt (by omega)]
    omega
  · have hodd : (2 * (-n.toInt).toNat - 1) % 2 ≠ 0 := by omega
    rw [if_neg hsign, if_neg hodd, ← Int64.toInt_inj, Int64.toInt_ofInt_of_le (by omega) (by omega)]
    omega

/-- Every number of 64 bits is a word with its sign folded. -/
theorem foldSign_unfoldSign {k : Nat} (h : k < 2 ^ 64) : foldSign (unfoldSign k) = k := by
  unfold unfoldSign
  split
  · next heven =>
    have hint : (Int64.ofNat (k / 2)).toInt = (k / 2 : Nat) := Int64.toInt_ofNat_of_lt (by omega)
    rw [foldSign, hint, if_pos (by omega)]
    omega
  · next hodd =>
    have hint : (Int64.ofInt (-(k / 2 + 1 : Nat))).toInt = -(k / 2 + 1 : Nat) :=
      Int64.toInt_ofInt_of_le (by omega) (by omega)
    rw [foldSign, hint, if_neg (by omega)]
    omega

theorem foldSign_lt (n : Int64) : foldSign n < 2 ^ 64 := by
  have hmin := n.le_toInt
  have hmax := n.toInt_lt
  unfold foldSign
  split
  · omega
  · omega

/-! ## Texts and truth values -/

namespace Reader

/-- Reads a text. -/
def text : Reader String := .of decodeText

/-- Takes bytes that were read for the text that they spell. -/
def spelled (bytes : List UInt8) : Reader String :=
  match Text.ofUtf8? bytes with
  | none => throw .badUtf8
  | some s => pure s

/-- Reads a truth value. -/
def bool : Reader Bool := .of decodeBool

theorem text_eq : text = (do spelled (← raw (← varint .word64))) := by
  funext bytes
  show outcome (decodeText bytes) =
    (varint .word64 >>= fun count => raw count >>= spelled).run bytes
  unfold decodeText
  rcases hcount : VarintSize.word64.decode bytes with e | ⟨count, rest, _⟩
  · exact (run_of_bind_error hcount).symm
  refine Eq.trans ?_ (run_of_bind_ok hcount).symm
  dsimp only
  rcases hraw : readBytes count rest with e | ⟨text, rest', _⟩
  · exact (run_of_bind_error hraw).symm
  refine Eq.trans ?_ (run_of_bind_ok hraw).symm
  unfold spelled
  dsimp only
  rcases Text.ofUtf8? text with _ | s
  · rfl
  · rfl

end Reader

theorem delimits_spelled (s : String) : Delimits (Reader.spelled (Text.utf8 s)) [] s := by
  rw [Reader.spelled, Text.ofUtf8?_utf8]
  exact delimits_pure s

/-- A text whose length fits a word. -/
theorem delimits_text {s : String} (h : s.utf8ByteSize < 2 ^ 64) :
    Delimits Reader.text (encodeText s) s := by
  rw [← Text.length_utf8] at h
  have hbytes : Delimits (Reader.raw (Text.utf8 s).length >>= Reader.spelled) (Text.utf8 s) s := by
    have hboth := (delimits_raw (Text.utf8 s)).bind (delimits_spelled s)
    rwa [List.append_nil] at hboth
  rw [Reader.text_eq]
  exact (delimits_word64 h).bind hbytes

theorem delimits_bool (b : Bool) : Delimits Reader.bool [if b then 1 else 0] b := by
  refine ⟨fun rest => ?_, fun {front rest c} hcut => ?_⟩
  · cases b <;> rfl
  · cases front with
    | nil => rfl
    | cons d front => exact absurd (List.cons.inj hcut).2 (by simp)

end Codec

end ExprMachine
