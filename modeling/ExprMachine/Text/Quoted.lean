import ExprMachine.Text.Unprintable

/-!
# Texts in quotes

Dumps and debug views show a text between double quotes on one line. The quote itself, the
backslash and the common controls have short escapes, whatever else does not print is shown by
its code point, and all other characters stand for themselves. No escape writes a bare quote or a
line break, so the end of the text can be seen and a dump has one line per item.
-/

namespace ExprMachine.Text

/-- A code point as `\u` and its hexadecimal digits in braces, without leading zeros. -/
def numberedEscape (c : Char) : List Char :=
  '\\' :: 'u' :: '\x7b' :: Nat.toDigits 16 c.toNat ++ ['\x7d']

/-- How one character is written between quotes. -/
def escape (c : Char) : List Char :=
  match c with
  | '"' => ['\\', '"']
  | '\\' => ['\\', '\\']
  | '\n' => ['\\', 'n']
  | '\r' => ['\\', 'r']
  | '\t' => ['\\', 't']
  | '\x00' => ['\\', '0']
  | c => if isUnprintable c then numberedEscape c else [c]

/-- The text `s` between double quotes, with every character that needs it escaped. -/
def quoted (s : String) : String :=
  String.ofList ('"' :: s.toList.flatMap escape ++ ['"'])

end ExprMachine.Text
