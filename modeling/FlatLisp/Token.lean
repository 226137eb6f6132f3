import FlatLisp.Text.Bytes

/-!
# Tokens

A program is read as a row of tokens: parentheses, and words in between. A token keeps the
place where it stood.

Six blanks part words. A semicolon opens a comment, which runs up to the end of the line and
is skipped like a blank. Every other character, white space of other kinds included, belongs
to a word. So a text always falls into tokens, and reading it this far never fails.

## Main definitions

* `Token.scan`: the tokens of a text, by a machine that reads a character at a time.
* `Token.ofText`: the tokens of a whole text.
-/

namespace FlatLisp

/-- A range of byte offsets, the second excluded. -/
structure Span where
  /-- The offset of the first byte. -/
  start : Nat
  /-- The offset after the last byte. -/
  stop : Nat
deriving DecidableEq, Repr

namespace Span

/-- The text of a span in messages. -/
def display (s : Span) : String :=
  toString s.start ++ ".." ++ toString s.stop

/-- The span of nothing at the beginning. -/
def zero : Span := ⟨0, 0⟩

end Span

/-- What a token is. -/
inductive Token.Kind where
  /-- An opening parenthesis. -/
  | opening
  /-- A closing parenthesis. -/
  | closing
  /-- A word. -/
  | word (text : String)
deriving DecidableEq, Repr

/-- A token and the place where it stood. -/
structure Token where
  /-- What the token is. -/
  kind : Token.Kind
  /-- Where it stood. -/
  span : Span
deriving DecidableEq, Repr

namespace Token

/-- The text of a kind of token. -/
def Kind.display : Kind → String
  | opening => "("
  | closing => ")"
  | word text => text

/-- The text of a token. -/
def display (t : Token) : String := t.kind.display

/-- Whether a character parts words: space, tab, line feed, carriage return, form feed and
vertical tab. -/
def isBlank (c : Char) : Bool :=
  c == ' ' || c == '\t' || c == '\n' || c == '\r' || c == '\x0c' || c == '\x0b'

/-- Whether a character ends a comment. -/
def isLineBreak (c : Char) : Bool :=
  c == '\n' || c == '\r'

/-- What the scanner stands in. -/
inductive Mode where
  /-- Between tokens. -/
  | between
  /-- In a comment. -/
  | comment
  /-- In a word that began at `start` and reads `text` so far. -/
  | word (start : Nat) (text : String)
deriving DecidableEq, Repr

/-- The word that a delimiter at `stop` ends, if there is one. -/
def Mode.ended (stop : Nat) : Mode → List Token
  | word start text => [⟨.word text, ⟨start, stop⟩⟩]
  | _ => []

/-- The mode after one more character of a word, at `offset`. -/
def Mode.extended (offset : Nat) (c : Char) : Mode → Mode
  | word start text => word start (text.push c)
  | _ => word offset (String.singleton c)

/-- The tokens of the text that follows, when the scanner has reached `offset`. -/
def scan (mode : Mode) (offset : Nat) : List Char → List Token
  | [] => mode.ended offset
  | c :: rest =>
    let next := offset + c.utf8Size
    if mode = .comment then
      scan (if isLineBreak c then .between else .comment) next rest
    else if isBlank c then
      mode.ended offset ++ scan .between next rest
    else if c = ';' then
      mode.ended offset ++ scan .comment next rest
    else if c = '(' then
      mode.ended offset ++ ⟨.opening, ⟨offset, next⟩⟩ :: scan .between next rest
    else if c = ')' then
      mode.ended offset ++ ⟨.closing, ⟨offset, next⟩⟩ :: scan .between next rest
    else
      scan (mode.extended offset c) next rest

/-- The tokens of a text. -/
def ofText (text : String) : List Token :=
  scan .between 0 text.toList

end Token

end FlatLisp
