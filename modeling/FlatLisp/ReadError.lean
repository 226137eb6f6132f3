import FlatLisp.Text.Quoted
import FlatLisp.Token

/-!
# Why Reading Fails

The causes for which a row of tokens is no expression, and how each is worded.
-/

namespace FlatLisp

/-- What could have stood where reading failed. -/
inductive Expected where
  /-- An expression, and there is nothing at all. -/
  | expression
  /-- The beginning of an expression. -/
  | atomOrList
  /-- The head of a list. -/
  | head
  /-- The end of a list. -/
  | closing
  /-- Nothing more. -/
  | endOfInput
deriving DecidableEq, Repr

/-- The words for what was expected. -/
def Expected.display : Expected → String
  | expression => "an expression"
  | atomOrList => "an atom or '('"
  | head => "an atom at the head of a list"
  | closing => "')'"
  | endOfInput => "end of input"

/-- Why a row of tokens is no expression. -/
inductive ReadError where
  /-- A token stands where no expression can go on with it. -/
  | unexpectedToken (found : Token) (expected : Expected)
  /-- The tokens end before the expression does. -/
  | unexpectedEnd (expected : Expected)
  /-- A word opens like a number and is not one. -/
  | invalidWord (text : String) (span : Span)
deriving DecidableEq, Repr

/-- The message of a reading error. -/
def ReadError.message : ReadError → String
  | unexpectedToken found expected =>
    "invalid syntax: unexpected token '" ++ found.display ++ "', expected " ++ expected.display
  | unexpectedEnd expected =>
    "invalid syntax: unexpected end of input, expected " ++ expected.display
  | invalidWord text span =>
    "invalid syntax [at " ++ span.display ++ "]: '" ++ text ++
      "' is not a number, boolean or symbol"

/-! ### In messages for the programmer -/

/-- The text of a span in a message for the programmer. -/
def Span.inspect (s : Span) : String :=
  "Span \x7b start: " ++ toString s.start ++ ", end: " ++ toString s.stop ++ " \x7d"

/-- The text of a kind of token in a message for the programmer. -/
def Token.Kind.inspect : Token.Kind → String
  | opening => "LParen"
  | closing => "RParen"
  | word text => "Atom(" ++ Text.quote text ++ ")"

/-- The text of a token in a message for the programmer. -/
def Token.inspect (t : Token) : String :=
  "Token \x7b kind: " ++ t.kind.inspect ++ ", span: " ++ t.span.inspect ++ " \x7d"

/-- The text of a reading error in a message for the programmer. -/
def ReadError.inspect : ReadError → String
  | unexpectedToken found expected =>
    "UnexpectedToken \x7b found: " ++ found.inspect ++ ", expected: " ++
      Text.quote expected.display ++ " \x7d"
  | unexpectedEnd expected => "UnexpectedEof(" ++ Text.quote expected.display ++ ")"
  | invalidWord text span =>
    "InvalidAtom \x7b token: " ++ Text.quote text ++ ", span: " ++ span.inspect ++ " \x7d"

end FlatLisp
