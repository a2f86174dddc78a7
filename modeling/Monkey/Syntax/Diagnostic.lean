import Monkey.Token

/-!
What can be wrong with a token stream. A diagnostic names its cause and how many tokens were still
to be read when it was found, the token the reader stood on included; the place in the source
follows from the stream.
-/

namespace Monkey

inductive SyntaxError where
  /-- Another token had to follow. -/
  | expected (wanted got : TokenKind)
  /-- No expression starts with this token. -/
  | noExpression (found : String)
  /-- The digits stand for a number beyond 64 bits. -/
  | integerRange (digits : String)
  deriving DecidableEq, Repr

def SyntaxError.message : SyntaxError → String
  | .expected wanted got =>
    "expected next token to be `" ++ wanted.label ++ "`, but got `" ++ got.label ++ "` instead"
  | .noExpression found => "no prefix parse function for `" ++ found ++ "` found"
  | .integerRange digits => "could not parse `" ++ digits ++ "` as integer"

structure Diagnostic where
  error : SyntaxError
  remaining : Nat
  deriving DecidableEq, Repr

namespace Diagnostic

def message (d : Diagnostic) : String := d.error.message

/-- Where in `stream` the reader stood; past the end this is the last token, end of input. -/
def position (stream : List Token) (d : Diagnostic) : Position :=
  match stream[stream.length - d.remaining]? with
  | some t => t.span.first
  | none => (stream.getLast?.map (·.span.first)).getD .start

end Diagnostic

end Monkey
