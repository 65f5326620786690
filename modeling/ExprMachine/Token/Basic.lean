import ExprMachine.Text.Position
import ExprMachine.Token.Kind

/-!
# Tokens

A token is its kind, its text and the place of its first character. The text of a string token is
what stands between the quotes, unprocessed; every other token's text is its spelling, and the end
of the source has the empty text.
-/

namespace ExprMachine

/-- A token of a source text. -/
structure Token where
  kind : Token.Kind
  /-- The spelling; of a string, the characters between the quotes. -/
  literal : String
  /-- Where its first character stands. -/
  pos : Position
deriving DecidableEq, Repr

/--
The tokens of a source text in order, without the end token, and the place where the text ends.
Past its last token a stream has only that end, however often it is asked.
-/
structure TokenStream where
  tokens : List Token
  eof : Position
deriving DecidableEq, Repr

namespace Token

/-- The end of the source, at `pos`. -/
def ending (pos : Position) : Token := ⟨.eof, "", pos⟩

end Token

namespace TokenStream

/-- The tokens with the end token behind them. -/
def toList (stream : TokenStream) : List Token := stream.tokens ++ [Token.ending stream.eof]

end TokenStream

end ExprMachine
