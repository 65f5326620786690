/-!
# Reading from bytes

Reading a part of some bytes gives a value and the bytes behind the part, or says what is wrong with
the first part that cannot be read. A reading of type `Reading α n` leaves fewer than `n` bytes; that
is how reading nested data is known to end.
-/

namespace ExprMachine.Codec

/-- What is wrong with some bytes. -/
inductive DecodeError where
  /-- The bytes end within a part. -/
  | unexpectedEnd
  /-- A number goes on for too long. -/
  | badVarint
  /-- A truth value is neither 0 nor 1. -/
  | badBool
  /-- A text is not in UTF-8. -/
  | badUtf8
  /-- A value is of no known type. -/
  | badVariant
deriving DecidableEq, Repr

/-- What is said about bytes that cannot be read. -/
def DecodeError.message : DecodeError → String
  | unexpectedEnd => "Hit the end of buffer, expected more data"
  | badVarint => "Found a varint that didn't terminate. Is the usize too big for this platform?"
  | badBool => "Found a bool that wasn't 0 or 1"
  | badUtf8 => "Tried to parse invalid utf-8"
  | badVariant => "Serde Deserialization Error"

/-- A part that was read and what follows it, which is fewer than `n` bytes. -/
structure Decoded (α : Type) (n : Nat) where
  value : α
  rest : List UInt8
  rest_lt : rest.length < n

/-- A part that was read, or what is wrong with it. -/
abbrev Reading (α : Type) (n : Nat) : Type := Except DecodeError (Decoded α n)

theorem length_lt_succ (rest : List UInt8) : rest.length < rest.length + 1 :=
  Nat.lt_succ_self rest.length

/-- Reads one byte. -/
def readByte (bytes : List UInt8) : Reading UInt8 bytes.length :=
  match bytes with
  | [] => .error .unexpectedEnd
  | b :: rest => .ok ⟨b, rest, length_lt_succ rest⟩

/-- Reads `count` bytes as they are. -/
def readBytes (count : Nat) (bytes : List UInt8) : Reading (List UInt8) (bytes.length + 1) :=
  let taken := bytes.take count
  if taken.length = count then
    .ok ⟨taken, bytes.drop count, Nat.lt_succ_of_le (List.length_drop ▸ Nat.sub_le _ _)⟩
  else .error .unexpectedEnd

end ExprMachine.Codec
