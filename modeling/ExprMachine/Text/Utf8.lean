/-!
# Texts as bytes

Files, constants and input lines are bytes; the texts in them are in UTF-8. Bytes that are no text
are an error wherever a text is needed, and it is said in the same words everywhere.
-/

namespace ExprMachine.Text

/-- A text's bytes. -/
def utf8 (s : String) : List UInt8 := s.toUTF8.toList

/-- The text that some bytes spell. -/
def ofUtf8? (bytes : List UInt8) : Option String := String.fromUTF8? ⟨bytes.toArray⟩

/-- What is said about an input that is no text. -/
def notUtf8 : String := "stream did not contain valid UTF-8"

end ExprMachine.Text
