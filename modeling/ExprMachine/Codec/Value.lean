import ExprMachine.Codec.Varint
import ExprMachine.Text.Utf8
import ExprMachine.Value.Basic

/-!
# Values as bytes

A value is the number of its type and then its parts. Texts and lists are preceded by their length,
an object lists its entries key first. Functions only exist while a program runs and have no written
form.

The types are numbered in the order in which they are declared, functions included, when a value is
written; the numbers that are read skip the two sorts of function. So returned values and errors are
written under numbers that nothing is read from.
-/

namespace ExprMachine.Codec

/-- Why a value has no written form. -/
inductive EncodeError where
  /-- A function is part of it. -/
  | runtimeOnly
deriving DecidableEq, Repr

/-- What is said about a value without a written form. -/
def EncodeError.message : EncodeError → String
  | runtimeOnly => "Serde Serialization Error"

/-- A text with its length in front. -/
def encodeText (s : String) : List UInt8 :=
  let bytes := Text.utf8 s
  encodeVarint bytes.length ++ bytes

mutual

/-- A value as bytes. -/
def encodeValue : Value → Except EncodeError (List UInt8)
  | .int n => .ok (0 :: encodeVarint (foldSign n))
  | .str s => .ok (1 :: encodeText s)
  | .bool b => .ok [2, if b then 1 else 0]
  | .null => .ok [3]
  | .arr items =>
    match encodeItems items with
    | .error e => .error e
    | .ok bytes => .ok (4 :: encodeVarint items.length ++ bytes)
  | .obj entries =>
    match encodeEntries entries with
    | .error e => .error e
    | .ok bytes => .ok (5 :: encodeVarint entries.length ++ bytes)
  | .func _ | .builtin _ => .error .runtimeOnly
  | .ret inner =>
    match encodeValue inner with
    | .error e => .error e
    | .ok bytes => .ok (8 :: bytes)
  | .err message => .ok (9 :: encodeText message)

/-- Values one after the other. -/
def encodeItems : List Value → Except EncodeError (List UInt8)
  | [] => .ok []
  | item :: items =>
    match encodeValue item with
    | .error e => .error e
    | .ok bytes =>
      match encodeItems items with
      | .error e => .error e
      | .ok more => .ok (bytes ++ more)

/-- Keys and values one after the other. -/
def encodeEntries : List (String × Value) → Except EncodeError (List UInt8)
  | [] => .ok []
  | (key, value) :: entries =>
    match encodeValue value with
    | .error e => .error e
    | .ok bytes =>
      match encodeEntries entries with
      | .error e => .error e
      | .ok more => .ok (encodeText key ++ bytes ++ more)

end

/-- Reads a text with its length in front. All its bytes must be there before they are looked at. -/
def decodeText (bytes : List UInt8) : Reading String bytes.length :=
  match VarintSize.word64.decode bytes with
  | .error e => .error e
  | .ok ⟨count, rest, h⟩ =>
    match readBytes count rest with
    | .error e => .error e
    | .ok ⟨text, rest', h'⟩ =>
      match Text.ofUtf8? text with
      | none => .error .badUtf8
      | some s => .ok ⟨s, rest', Nat.lt_of_lt_of_le h' h⟩

/-- Reads a truth value. -/
def decodeBool (bytes : List UInt8) : Reading Bool bytes.length :=
  match readByte bytes with
  | .error e => .error e
  | .ok ⟨b, rest, h⟩ =>
    if b = 0 then .ok ⟨false, rest, h⟩
    else if b = 1 then .ok ⟨true, rest, h⟩
    else .error .badBool

/-- The part as a value of the language, under the bound of the bytes in front of it. -/
def Decoded.asValue {α : Type} {m n : Nat} (wrap : α → Value) (h : m ≤ n) (part : Decoded α m) :
    Decoded Value n :=
  ⟨wrap part.value, part.rest, Nat.lt_of_lt_of_le part.rest_lt h⟩

mutual

/-- Reads a value. -/
def decodeValue (bytes : List UInt8) : Reading Value bytes.length :=
  match VarintSize.word32.decode bytes with
  | .error e => .error e
  | .ok ⟨variant, rest, h⟩ =>
    have le : rest.length ≤ bytes.length := Nat.le_of_lt h
    match variant with
    | 0 => (VarintSize.word64.decode rest).map (Decoded.asValue (.int <| unfoldSign ·) le)
    | 1 => (decodeText rest).map (Decoded.asValue .str le)
    | 2 => (decodeBool rest).map (Decoded.asValue .bool le)
    | 3 => .ok ⟨.null, rest, h⟩
    | 4 =>
      match VarintSize.word64.decode rest with
      | .error e => .error e
      | .ok ⟨count, rest', h'⟩ =>
        (decodeItems rest.length count rest' h' []).map (Decoded.asValue .arr le)
    | 5 =>
      match VarintSize.word64.decode rest with
      | .error e => .error e
      | .ok ⟨count, rest', h'⟩ =>
        (decodeEntries rest.length count rest' h' []).map (Decoded.asValue .obj le)
    | 6 => (decodeValue rest).map (Decoded.asValue .ret le)
    | 7 => (decodeText rest).map (Decoded.asValue .err le)
    | _ => .error .badVariant
termination_by (bytes.length, 0)

/-- Reads `count` values that follow each other; `seen` holds those in front, the latest first. -/
def decodeItems (n count : Nat) (bytes : List UInt8) (fits : bytes.length < n)
    (seen : List Value) : Reading (List Value) n :=
  match count with
  | 0 => .ok ⟨seen.reverse, bytes, fits⟩
  | count + 1 =>
    match decodeValue bytes with
    | .error e => .error e
    | .ok ⟨item, rest, h⟩ => decodeItems n count rest (Nat.lt_trans h fits) (item :: seen)
termination_by (bytes.length, 1)

/-- Reads `count` keys and values that follow each other into a dictionary. -/
def decodeEntries (n count : Nat) (bytes : List UInt8) (fits : bytes.length < n)
    (filed : List (String × Value)) : Reading (List (String × Value)) n :=
  match count with
  | 0 => .ok ⟨filed, bytes, fits⟩
  | count + 1 =>
    match decodeText bytes with
    | .error e => .error e
    | .ok ⟨key, rest, h⟩ =>
      match decodeValue rest with
      | .error e => .error e
      | .ok ⟨value, rest', h'⟩ =>
        decodeEntries n count rest' (Nat.lt_trans h' (Nat.lt_trans h fits))
          (Dictionary.insert key value filed)
termination_by (bytes.length, 1)

end

end ExprMachine.Codec
