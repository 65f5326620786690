import ExprMachine.Codec.Reader

/-!
# Numbers of variable length

A number is written seven bits to a byte, the lowest first, and every byte but the last has its
highest bit set. Writing never adds a byte that is not needed; reading takes more bytes than needed
as well, up to the number that the widest value of the size takes. Of the last possible byte only
the bits that still fit may be set.

A signed word is written as the number that folds the negative ones between the others:
0, -1, 1, -2, 2, and so on become 0, 1, 2, 3, 4.
-/

namespace ExprMachine.Codec

/-- How many bytes a number may take, and the greatest last one of that many. -/
structure VarintSize where
  bytes : Nat
  lastMax : Nat

namespace VarintSize

/-- Numbers of 64 bits. -/
def word64 : VarintSize := ⟨10, 1⟩

/-- Numbers of 32 bits. -/
def word32 : VarintSize := ⟨5, 15⟩

end VarintSize

/-- A number as bytes. -/
def encodeVarint (n : Nat) : List UInt8 :=
  if n < 128 then [UInt8.ofNat n] else UInt8.ofNat (n % 128 + 128) :: encodeVarint (n / 128)
termination_by n
decreasing_by omega

/-- Reads a number that may take `left` more bytes. -/
def decodeVarint (lastMax : Nat) (left : Nat) (bytes : List UInt8) : Reading Nat bytes.length :=
  match left, bytes with
  | 0, _ => .error .badVarint
  | _ + 1, [] => .error .unexpectedEnd
  | left + 1, b :: rest =>
    if b.toNat < 128 then
      if left = 0 ∧ lastMax < b.toNat then .error .badVarint
      else .ok ⟨b.toNat, rest, length_lt_succ rest⟩
    else
      match decodeVarint lastMax left rest with
      | .error e => .error e
      | .ok ⟨n, rest', h⟩ => .ok ⟨b.toNat - 128 + 128 * n, rest', Nat.lt_succ_of_lt h⟩

/-- Reads a number of the given size. -/
def VarintSize.decode (size : VarintSize) (bytes : List UInt8) : Reading Nat bytes.length :=
  decodeVarint size.lastMax size.bytes bytes

/-- The number that a signed word is written as. -/
def foldSign (n : Int64) : Nat :=
  if 0 ≤ n.toInt then 2 * n.toInt.toNat else 2 * (-n.toInt).toNat - 1

/-- The signed word that is written as `n`. -/
def unfoldSign (n : Nat) : Int64 :=
  if n % 2 = 0 then Int64.ofNat (n / 2) else Int64.ofInt (-(n / 2 + 1 : Nat))

end ExprMachine.Codec
