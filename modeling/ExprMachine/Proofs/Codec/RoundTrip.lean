import ExprMachine.Codec.Package
import ExprMachine.Proofs.Codec.Storable
import Mathlib

/-!
# Writing a package and reading it again

A package is its code and its constants in a row, so it is read back, refused or found to be cut off
as its constants are. Three sorts of packages come out of that.

* A package with a function among its constants, at any depth, is not written.
* A package with a signal among its constants is written and never read again.
* Every other package is read back from the bytes it was written as, whatever follows them, and none
  of it is read from fewer bytes.
-/

namespace ExprMachine

open Codec

/-- The lengths are words of 64 bits, and the constants are regular, as they are of every package in
the memory of a machine. -/
structure Package.Regular (package : Package) : Prop where
  code : package.code.size < 2 ^ 64
  pool : package.constants.size < 2 ^ 64
  constants : ∀ v ∈ package.constants, v.Regular

namespace Codec

/-- Reads a package. -/
def Reader.package : Reader Package := do
  let code ← raw (← varint .word64)
  (⟨code.toArray, ·.toArray⟩) <$> items (← varint .word64)

theorem flatten_mapM_encodeValue (items : List Value) :
    List.flatten <$> items.mapM encodeValue = encodeItems items := by
  induction items with
  | nil => rfl
  | cons item items ih =>
      rw [List.mapM_cons, encodeItems, ← ih]
      rcases encodeValue item with e | first
      · rfl
      rcases items.mapM encodeValue with e | more
      · rfl
      · rfl

end Codec

namespace Package

theorem toBytes_eq (package : Package) :
    package.toBytes =
      (encodeVarint package.code.size ++ package.code.toList ++
        encodeVarint package.constants.size ++ ·) <$> encodeItems package.constants.toList := by
  rw [← flatten_mapM_encodeValue]
  unfold toBytes
  rcases package.constants.toList.mapM encodeValue with e | parts
  · rfl
  · rfl

theorem ofBytes_eq (bytes : List UInt8) :
    ofBytes bytes = Prod.fst <$> Reader.package.run bytes := by
  unfold ofBytes Reader.package
  rcases hlength : VarintSize.word64.decode bytes with e | ⟨length, rest₁, _⟩
  · exact congrArg (Prod.fst <$> ·) (run_of_bind_error hlength).symm
  refine Eq.trans ?_ (congrArg (Prod.fst <$> ·) (run_of_bind_ok hlength).symm)
  dsimp only [bind, Except.bind]
  rcases hcode : readBytes length rest₁ with e | ⟨code, rest₂, _⟩
  · exact congrArg (Prod.fst <$> ·) (run_of_bind_error hcode).symm
  refine Eq.trans ?_ (congrArg (Prod.fst <$> ·) (run_of_bind_ok hcode).symm)
  dsimp only [bind, Except.bind]
  rcases hcount : VarintSize.word64.decode rest₂ with e | ⟨count, rest₃, _⟩
  · exact congrArg (Prod.fst <$> ·) (run_of_bind_error hcount).symm
  refine Eq.trans ?_ (congrArg (Prod.fst <$> ·) (run_of_bind_ok hcount).symm)
  -- the bound of the last part holds for any bytes, and `outcome` forgets it
  have hitems := Reader.outcome_decodeItems (rest₃.length + 1) count rest₃ (length_lt_succ rest₃) []
  rw [List.reverse_nil, show ([] ++ · : List Value → List Value) = id from rfl, id_map] at hitems
  rw [StateT.run_map, ← hitems]
  dsimp only [bind, Except.bind]
  rcases decodeItems (rest₃.length + 1) count rest₃ (length_lt_succ rest₃) [] with e | part
  · rfl
  · rfl

theorem ofBytes_of_ok {bytes rest : List UInt8} {package : Package}
    (h : Reader.package.run bytes = .ok (package, rest)) : ofBytes bytes = .ok package := by
  rw [ofBytes_eq, h]
  rfl

theorem ofBytes_of_error {bytes : List UInt8} {e : DecodeError}
    (h : Reader.package.run bytes = .error e) : ofBytes bytes = .error e := by
  rw [ofBytes_eq, h]
  rfl

/-- **A package that is written** is read back, or refused for the first signal in it. -/
theorem readsUnless_package {package : Package} (h : package.Regular) {bytes : List UInt8}
    (hbytes : package.toBytes = .ok bytes) :
    ReadsUnless (∃ v ∈ package.constants, v.Contains Value.IsSignal) Reader.package bytes
      package := by
  rw [toBytes_eq] at hbytes
  rcases hitems : encodeItems package.constants.toList with e | more
  · rw [hitems] at hbytes
    cases hbytes
  rw [hitems] at hbytes
  cases hbytes
  have hstored : ∀ v ∈ package.constants.toList, v.Stored := fun v hv =>
    v.stored (h.constants v (Array.mem_toList_iff.mp hv))
  have hconstants := (readsUnless_items hstored hitems).map (Package.mk package.code ·.toArray)
  have hsignal : (∃ v ∈ package.constants.toList, v.Contains Value.IsSignal) ↔
      ∃ v ∈ package.constants, v.Contains Value.IsSignal := by
    simp only [Array.mem_toList_iff]
  simp only [List.append_assoc]
  refine ReadsUnless.congr ?_ hsignal
  refine (delimits_word64 h.code).andThen ?_
  refine (delimits_raw package.code.toList).andThen ?_
  refine (delimits_word64 h.pool).andThen ?_
  exact hconstants

/-- A package is not written exactly if a function is among its constants or their parts. -/
theorem toBytes_eq_error (package : Package) :
    package.toBytes = .error .runtimeOnly ↔
      ∃ v ∈ package.constants, v.Contains Value.IsFunction := by
  have hitems : encodeItems package.constants.toList = .error .runtimeOnly ↔
      ∃ v ∈ package.constants, v.Contains Value.IsFunction := by
    simp only [encodeItems_eq_error, encodeValue_eq_error, Array.mem_toList_iff]
  rw [← hitems, toBytes_eq]
  rcases encodeItems package.constants.toList with ⟨⟩ | more
  · exact iff_of_true rfl rfl
  · exact iff_of_false nofun nofun

/-- **A written package is read back** exactly if no signal is among its constants or their parts.
If one is, the bytes are refused for the number that the signal was written under. -/
theorem ofBytes_toBytes {package : Package} (h : package.Regular) {bytes : List UInt8}
    (hbytes : package.toBytes = .ok bytes) :
    (ofBytes bytes = .ok package ↔ ∀ v ∈ package.constants, ¬v.Contains Value.IsSignal) ∧
      ((∃ v ∈ package.constants, v.Contains Value.IsSignal) →
        ofBytes bytes = .error .badVariant) := by
  obtain ⟨hwhole, hrefused⟩ := readsUnless_package h hbytes
  have hread : (¬∃ v ∈ package.constants, v.Contains Value.IsSignal) →
      ofBytes bytes = .ok package := by
    intro hnone
    have hrun := (hwhole hnone).whole []
    rw [List.append_nil] at hrun
    exact ofBytes_of_ok hrun
  have hrefuse : (∃ v ∈ package.constants, v.Contains Value.IsSignal) →
      ofBytes bytes = .error .badVariant := by
    intro hsome
    have hrun := hrefused hsome []
    rw [List.append_nil] at hrun
    exact ofBytes_of_error hrun
  refine ⟨⟨fun hok v hv hsignal => ?_, fun hnone => hread ?_⟩, hrefuse⟩
  · rw [hrefuse ⟨v, hv, hsignal⟩] at hok
    cases hok
  · rintro ⟨v, hv, hsignal⟩
    exact hnone v hv hsignal

/-- A package whose constant is a text in an array in an object. -/
theorem ofBytes_toBytes_nested :
    ofBytes [3, 0, 0, 0, 1, 5, 1, 1, 107, 4, 1, 1, 1, 97] =
      .ok ⟨#[0, 0, 0], #[.obj [("k", .arr [.str "a"])]]⟩ := by
  have hregular : (Value.obj [("k", .arr [.str "a"])]).Regular := by
    have hk : "k".utf8ByteSize = 1 := by decide
    have ha : "a".utf8ByteSize = 1 := by decide
    simp [Value.regular_iff, Value.contains_obj, Value.contains_arr,
      Value.contains_of_leaf (v := .str "a") trivial, Value.IsRegular, Dictionary.Ordered, hk, ha]
  have hplain : ¬(Value.obj [("k", .arr [.str "a"])]).Contains Value.IsSignal := by
    simp [Value.contains_obj, Value.contains_arr, Value.contains_of_leaf (v := .str "a") trivial,
      Value.IsSignal]
  have hpackage : Package.Regular ⟨#[0, 0, 0], #[.obj [("k", .arr [.str "a"])]]⟩ :=
    ⟨by decide, by decide, by simpa using hregular⟩
  refine (ofBytes_toBytes hpackage ?_).1.mpr ?_
  · cbv
  · simpa using hplain

/-- A returned integer is written, and what is written is refused. -/
theorem ofBytes_toBytes_returned :
    toBytes ⟨#[], #[.ret (.int 5)]⟩ = .ok [0, 1, 8, 0, 10] ∧
      ofBytes [0, 1, 8, 0, 10] = .error .badVariant := by
  constructor
  · cbv
  · cbv

/-- **A package delimits itself.** It is not written exactly if it contains a function. One with
neither functions nor signals is read back whatever follows its bytes, and fewer bytes than that are
found to end too early. -/
theorem toBytes_delimits (package : Package) :
    (package.toBytes = .error .runtimeOnly ↔
      ∃ v ∈ package.constants, v.Contains Value.IsFunction) ∧
    (package.Regular →
      (∀ v ∈ package.constants, ¬v.Contains fun part => part.IsFunction ∨ part.IsSignal) →
      ∃ bytes, package.toBytes = .ok bytes ∧
        (∀ rest, ofBytes (bytes ++ rest) = .ok package) ∧
        ∀ front, front <+: bytes → front ≠ bytes → ofBytes front = .error .unexpectedEnd) := by
  refine ⟨toBytes_eq_error package, fun h hplain => ?_⟩
  rcases hbytes : package.toBytes with ⟨⟩ | bytes
  · obtain ⟨v, hv, part, hpart, hfunction⟩ := (toBytes_eq_error package).mp hbytes
    exact absurd ⟨part, hpart, .inl hfunction⟩ (hplain v hv)
  have hnone : ¬∃ v ∈ package.constants, v.Contains Value.IsSignal := by
    rintro ⟨v, hv, part, hpart, hsignal⟩
    exact hplain v hv ⟨part, hpart, .inr hsignal⟩
  obtain ⟨hwhole, hcut⟩ := (readsUnless_package h hbytes).1 hnone
  refine ⟨bytes, rfl, fun rest => ofBytes_of_ok (hwhole rest), fun front hfront hproper => ?_⟩
  obtain ⟨rest, rfl⟩ := hfront
  cases rest with
  | nil => exact absurd (List.append_nil front).symm hproper
  | cons b rest => exact ofBytes_of_error (hcut rfl)

/-- The package of an array of a truth value, with another byte behind it and without its last
byte. -/
theorem toBytes_delimits_array :
    ofBytes [0, 1, 4, 1, 2, 1, 9] = .ok ⟨#[], #[.arr [.bool true]]⟩ ∧
      ofBytes [0, 1, 4, 1, 2] = .error .unexpectedEnd := by
  have hregular : (Value.arr [.bool true]).Regular := by
    simp [Value.regular_iff, Value.contains_arr, Value.contains_of_leaf (v := .bool true) trivial,
      Value.IsRegular]
  have hplain : ¬(Value.arr [.bool true]).Contains fun part => part.IsFunction ∨ part.IsSignal := by
    simp [Value.contains_arr, Value.contains_of_leaf (v := .bool true) trivial, Value.IsFunction,
      Value.IsSignal]
  have hpackage : Package.Regular ⟨#[], #[.arr [.bool true]]⟩ :=
    ⟨by decide, by decide, by simpa using hregular⟩
  obtain ⟨bytes, hbytes, hwhole, hcut⟩ :=
    (toBytes_delimits ⟨#[], #[.arr [.bool true]]⟩).2 hpackage (by simpa using hplain)
  have hwritten : toBytes ⟨#[], #[.arr [.bool true]]⟩ = .ok [0, 1, 4, 1, 2, 1] := by cbv
  obtain rfl : bytes = [0, 1, 4, 1, 2, 1] := Except.ok.inj (hbytes.symm.trans hwritten)
  exact ⟨hwhole [9], hcut [0, 1, 4, 1, 2] ⟨[1], rfl⟩ (by decide)⟩

end Package

end ExprMachine
