import FlatLisp.Text.Hidden

/-!
# Quoted Text

A text in double quotes, for a reader who has to see every character. A quote, a backslash
and the common controls are written with a backslash and a letter; any other character that
leaves no mark of its own, or that joins the one before it, is written by its code point.

## Main definitions

* `quoteChar`: the quoted form of a character.
* `quote`: the quoted form of a text.
-/

namespace FlatLisp.Text

/-- The form of one character in quoted text. -/
def quoteChar (c : Char) : List Char :=
  if c == '"' then ['\\', '"']
  else if c == '\\' then ['\\', '\\']
  else if c == '\t' then ['\\', 't']
  else if c == '\n' then ['\\', 'n']
  else if c == '\r' then ['\\', 'r']
  else if c == '\x00' then ['\\', '0']
  else if isPrintable c then [c]
  else '\\' :: 'u' :: '\x7b' :: (Nat.toDigits 16 c.toNat ++ ['\x7d'])

/-- A text in double quotes. -/
def quote (text : String) : String :=
  String.ofList ('"' :: (text.toList.flatMap quoteChar ++ ['"']))

end FlatLisp.Text
